import WiiJoybus.Library.Bytes
import WiiJoybus.Library.RunLength

/-!
The pictures of the hello world program.

A PCX file has a header, run-length coded lines and, behind them, a palette. Each line is
decoded into a buffer with room for the widest picture, and copied to the screen from
there. How long the last run of a line is nobody checks.
-/

namespace WiiJoybus
open ByteMemory

section Decoder

/-- `sizeof(pcx_header)` -/
def pcxHeaderSize : Nat := 128

/-- `sizeof(Buf)` -/
def pcxBufSize : Nat := 240

def pcxMemory (file : List Byte) : Memory := fun k => file.getD k 0

/-- A `short int` of the header. -/
def pcxShort (file : List Byte) (off : Nat) : Int := (load .little 16 (pcxMemory file) off).toInt

/-- The width is made even. -/
def pcxWidth (file : List Byte) : Int := (pcxShort file 8 - pcxShort file 4 + 1 + 1) / 2 * 2

def pcxHeight (file : List Byte) : Int := pcxShort file 10 - pcxShort file 6 + 1

/-- The loop over the pixels of a line, from pixel `k` on: what it writes to `Buf`, and the data
behind the line. -/
def decodeLine (width : Int) : (k : Nat) → (data : List Byte) → Option (List Byte × List Byte)
  | k, [] => if k < width then none else some ([], [])
  | k, c :: data =>
      if k < width then
        if c &&& 0xC0 = 0xC0 then
          let l := (c &&& 0x3F).toNat
          match data with
          | [] => none
          | c :: data =>
              (decodeLine width (k + l) data).map fun r => (List.replicate l c ++ r.1, r.2)
        else (decodeLine width (k + 1) data).map fun r => (c :: r.1, r.2)
      else some ([], c :: data)

/-- The loop over the lines. -/
def decodeLines (width : Int) : Nat → List Byte → Option (List (List Byte) × List Byte)
  | 0, data => some ([], data)
  | n + 1, data => do
      let (line, data) ← decodeLine width 0 data
      let (lines, data) ← decodeLines width n data
      return (line :: lines, data)

/-- `*(ptr++)`, on the little-endian GBA. -/
def halfword (line : List Byte) (i : Nat) : BitVec 16 :=
  line.getD (2 * i + 1) 0 ++ line.getD (2 * i) 0

/-- What is copied to the screen of a line. -/
def copied (width : Int) (line : List Byte) : List (BitVec 16) :=
  (List.range (width / 2).toNat).map (halfword line)

/-- Eight bits of each colour become five. -/
def gbaColor (r g b : Byte) : BitVec 16 :=
  (r.setWidth 16 >>> 3) ||| ((g.setWidth 16 >>> 3) <<< 5) ||| ((b.setWidth 16 >>> 3) <<< 10)

def decodePalette : Nat → List Byte → Option (List (BitVec 16))
  | 0, _ => some []
  | n + 1, r :: g :: b :: data => (decodePalette n data).map (gbaColor r g b :: ·)
  | _ + 1, _ => none

/-- What `DecodePCX` writes: the lines to `Buf`, one over the other, and the halfwords to the
screen and to the palette. -/
structure Decoded where
  lines : List (List Byte)
  screen : List (BitVec 16)
  palette : List (BitVec 16)

/-- `DecodePCX`. There is no result when it reads past the end of the file. -/
def decodePCX (file : List Byte) : Option Decoded :=
  if file.length < pcxHeaderSize then none
  else if pcxWidth file > 240 ∨ pcxHeight file > 160 then some ⟨[], [], []⟩
  else do
    let (lines, data) ← decodeLines (pcxWidth file) (pcxHeight file).toNat (file.drop pcxHeaderSize)
    match data with
    | [] => none
    | _ :: data =>
        let palette ← decodePalette 256 data
        return ⟨lines, lines.flatMap (copied (pcxWidth file)), palette⟩

end Decoder

section Lines

/-- The upper two bits of a byte denote a run. -/
def pcxRuns : RunCode Byte where
  run c := if c &&& 0xC0 = 0xC0 then some (c &&& 0x3F).toNat else none

theorem run_le {c : Byte} {k : Nat} (h : pcxRuns.run c = some k) : k ≤ 63 := by
  simp only [pcxRuns] at h
  split at h
  · cases h
    rw [BitVec.toNat_and]
    exact Nat.and_le_right
  · cases h

theorem decodeLine_eq (width : Int) (k : Nat) (data : List Byte) :
    decodeLine width k data = pcxRuns.read (width - k).toNat data := by
  fun_induction decodeLine width k data with
  | case1 k h =>
      obtain ⟨n, hn⟩ : ∃ n, (width - k).toNat = n + 1 := ⟨(width - k).toNat - 1, by omega⟩
      rw [hn]
      rfl
  | case2 k h =>
      have hn : (width - k).toNat = 0 := by omega
      rw [hn]
      rfl
  | case3 k c h hrun =>
      obtain ⟨n, hn⟩ : ∃ n, (width - k).toNat = n + 1 := ⟨(width - k).toNat - 1, by omega⟩
      simp only [hn, RunCode.read, pcxRuns, hrun, if_true]
  | case4 k c h hrun l v data ih =>
      obtain ⟨n, hn⟩ : ∃ n, (width - k).toNat = n + 1 := ⟨(width - k).toNat - 1, by omega⟩
      have hleft : (width - (k + l : Nat)).toNat = n + 1 - l := by omega
      simp only [hn, RunCode.read, pcxRuns, hrun, if_true, ih, hleft]
      rfl
  | case5 k c data h hrun ih =>
      obtain ⟨n, hn⟩ : ∃ n, (width - k).toNat = n + 1 := ⟨(width - k).toNat - 1, by omega⟩
      have hleft : (width - (k + 1 : Nat)).toNat = n := by omega
      simp only [hn, RunCode.read, pcxRuns, hrun, if_false, ih, hleft]
  | case6 k c data h =>
      have hn : (width - k).toNat = 0 := by omega
      rw [hn]
      rfl

variable {width : Int} {n : Nat} {data rest : List Byte} {lines : List (List Byte)}

theorem decodeLines_written (ts : List (List pcxRuns.Token)) (rest : List Byte)
    (hw : ∀ l ∈ ts, ((RunCode.meant l).length : Int) = max 0 width) :
    decodeLines width ts.length (ts.flatMap RunCode.written ++ rest) =
      some (ts.map RunCode.meant, rest) := by
  induction ts with
  | nil => rfl
  | cons l ts ih =>
      have hl := hw l List.mem_cons_self
      have hlen : (width - (0 : Nat)).toNat = (RunCode.meant l).length := by omega
      rw [List.length_cons, List.flatMap_cons, List.append_assoc, decodeLines, decodeLine_eq, hlen,
        RunCode.read_written]
      simp only [Option.bind_eq_bind, Option.bind_some,
        ih fun l' hl' => hw l' (List.mem_cons_of_mem l hl')]
      rfl

/-- Each line has its pixels, and at most 62 more. -/
theorem decodeLines_lengths (h : decodeLines width n data = some (lines, rest)) :
    lines.length = n ∧ ∀ line ∈ lines, width ≤ line.length ∧
      (line.length : Int) ≤ max 0 (width + 62) := by
  induction n generalizing data lines with
  | zero =>
      cases h
      exact ⟨rfl, fun _ hline => by cases hline⟩
  | succ n ih =>
      obtain ⟨⟨line, data₁⟩, hline, h₁⟩ := Option.bind_eq_some_iff.mp h
      obtain ⟨⟨lines', data₂⟩, hlines, h₂⟩ := Option.bind_eq_some_iff.mp h₁
      cases h₂
      obtain ⟨hlen, hall⟩ := ih hlines
      rw [decodeLine_eq] at hline
      obtain ⟨hle, hlt, hnil⟩ := RunCode.read_length (fun _ _ => run_le) (by decide) hline
      refine ⟨by rw [List.length_cons, hlen], fun l hl => ?_⟩
      cases hl with
      | head =>
          by_cases hpos : 0 < (width - (0 : Nat)).toNat
          · have := hlt hpos
            omega
          · rw [hnil (by omega), List.length_nil]
            omega
      | tail _ hl => exact hall l hl

end Lines

section Pixels

def screenBytes (ws : List (BitVec 16)) : List Byte := ws.flatMap fun w => [byteOf w 0, byteOf w 1]

theorem bytes_halfword (line : List Byte) (i : Nat) :
    byteOf (halfword line i) 0 = line.getD (2 * i) 0 ∧
      byteOf (halfword line i) 1 = line.getD (2 * i + 1) 0 := by
  have hbit : ∀ j, (halfword line i).getLsbD j = if j < 8 then (line.getD (2 * i) 0).getLsbD j
      else (line.getD (2 * i + 1) 0).getLsbD (j - 8) := fun _ => BitVec.getLsbD_append
  constructor
  · apply BitVec.eq_of_getLsbD_eq
    intro j hj
    rw [getLsbD_byteOf _ _ _ hj, hbit, if_pos (by omega), Nat.mul_zero, Nat.zero_add]
  · apply BitVec.eq_of_getLsbD_eq
    intro j hj
    rw [getLsbD_byteOf _ _ _ hj, hbit, if_neg (by omega), Nat.mul_one, Nat.add_sub_cancel_left]

theorem screenBytes_copied (m : Nat) (line : List Byte) (hlen : line.length = 2 * m) :
    screenBytes (copied (2 * m : Int) line) = line := by
  have hhalf : ((2 * m : Int) / 2).toNat = m := by omega
  rw [copied, hhalf, screenBytes, List.flatMap_map]
  simp only [bytes_halfword]
  induction m generalizing line with
  | zero =>
      rw [List.length_eq_zero_iff.mp hlen]
      rfl
  | succ m ih =>
      obtain _ | ⟨a, _ | ⟨b, line⟩⟩ := line
      · simp at hlen
      · simp at hlen
        omega
      · have hrest : line.length = 2 * m := by
          simp only [List.length_cons] at hlen
          omega
        rw [List.range_succ_eq_map, List.flatMap_cons, List.flatMap_map]
        exact congrArg (fun l => a :: b :: l) (ih line hrest (by omega))

theorem gbaColor_toNat (r g b : Byte) : (gbaColor r g b).toNat =
    r.toNat / 8 + 32 * (g.toNat / 8) + 1024 * (b.toNat / 8) := by
  have hr := r.isLt
  have hg := g.isLt
  have hb := b.isLt
  have hshift : ∀ x : Byte, (x.setWidth 16 >>> 3).toNat = x.toNat / 8 := fun x => by
    have := x.isLt
    rw [BitVec.toNat_ushiftRight, BitVec.toNat_setWidth, Nat.mod_eq_of_lt (by omega),
      Nat.shiftRight_eq_div_pow]
  have hplace : ∀ (x : Byte) (k : Nat), k ≤ 10 →
      ((x.setWidth 16 >>> 3) <<< k).toNat = x.toNat / 8 * 2 ^ k := fun x k hk => by
    have := x.isLt
    have hpow : 2 ^ k ≤ 2 ^ 10 := Nat.pow_le_pow_right (by decide) hk
    rw [BitVec.toNat_shiftLeft, hshift, Nat.shiftLeft_eq, Nat.mod_eq_of_lt]
    calc x.toNat / 8 * 2 ^ k ≤ 31 * 2 ^ 10 := Nat.mul_le_mul (by omega) hpow
      _ < 2 ^ 16 := by decide
  rw [gbaColor, BitVec.toNat_or, BitVec.toNat_or, hshift, hplace g 5 (by decide),
    hplace b 10 (by decide), Nat.mul_comm _ (2 ^ 5), Nat.mul_comm _ (2 ^ 10),
    Nat.or_comm (r.toNat / 8), ← Nat.two_pow_add_eq_or_of_lt (show r.toNat / 8 < 2 ^ 5 by omega),
    Nat.or_comm _ (2 ^ 10 * _), ← Nat.two_pow_add_eq_or_of_lt (by omega)]
  omega

end Pixels

section Files

variable {header data file rest : List Byte} {d : Decoded}

theorem pcxShort_append (hheader : header.length = pcxHeaderSize) (data : List Byte) {off : Nat}
    (hoff : off + 2 ≤ pcxHeaderSize) : pcxShort (header ++ data) off = pcxShort header off := by
  rw [pcxShort, pcxShort, load_congr _ _ _ (pcxMemory header) _ (fun i _ hi => ?_) (by decide)]
  have hlt : i < header.length := by
    rw [hheader]
    omega
  rw [pcxMemory, pcxMemory, List.getD_append _ _ _ _ hlt]

theorem pcxSize_append (hheader : header.length = pcxHeaderSize) (data : List Byte) :
    pcxWidth (header ++ data) = pcxWidth header ∧
      pcxHeight (header ++ data) = pcxHeight header := by
  have hshort : ∀ {off}, off + 2 ≤ pcxHeaderSize →
      pcxShort (header ++ data) off = pcxShort header off := pcxShort_append hheader data
  rw [pcxWidth, pcxWidth, pcxHeight, pcxHeight, hshort (by decide), hshort (by decide),
    hshort (by decide), hshort (by decide)]
  exact ⟨rfl, rfl⟩

def rgbBytes (c : Byte × Byte × Byte) : List Byte := [c.1, c.2.1, c.2.2]

theorem decodePalette_written (colors : List (Byte × Byte × Byte)) (rest : List Byte) :
    decodePalette colors.length (colors.flatMap rgbBytes ++ rest) =
      some (colors.map fun c => gbaColor c.1 c.2.1 c.2.2) := by
  induction colors with
  | nil => rfl
  | cons c colors ih =>
      change decodePalette (colors.length + 1)
        (c.1 :: c.2.1 :: c.2.2 :: (colors.flatMap rgbBytes ++ rest)) = _
      rw [decodePalette, ih]
      rfl

theorem decodePalette_length {n : Nat} {palette : List (BitVec 16)}
    (h : decodePalette n data = some palette) : palette.length = n := by
  fun_induction decodePalette n data generalizing palette with
  | case1 => cases h; rfl
  | case2 n r g b data ih =>
      obtain ⟨palette', hp, rfl⟩ := Option.map_eq_some_iff.mp h
      rw [List.length_cons, ih hp]
  | case3 => cases h

theorem decodePCX_some (h : decodePCX file = some d) (hwidth : pcxWidth file ≤ 240)
    (hheight : pcxHeight file ≤ 160) :
    ∃ data id, decodeLines (pcxWidth file) (pcxHeight file).toNat (file.drop pcxHeaderSize) =
        some (d.lines, id :: data) ∧
      d.screen = d.lines.flatMap (copied (pcxWidth file)) ∧
      decodePalette 256 data = some d.palette := by
  rw [decodePCX] at h
  split at h
  · cases h
  · rw [if_neg (by omega)] at h
    obtain ⟨⟨lines, data⟩, hlines, h₁⟩ := Option.bind_eq_some_iff.mp h
    cases data with
    | nil => cases h₁
    | cons id data =>
        obtain ⟨palette, hpalette, h₂⟩ := Option.bind_eq_some_iff.mp h₁
        cases h₂
        exact ⟨data, id, hlines, rfl, hpalette⟩

theorem decodePCX_append (hheader : header.length = pcxHeaderSize) {lines : List (List Byte)}
    {id : Byte} {colors : List (Byte × Byte × Byte)} (hcolors : colors.length = 256)
    (hwidth : pcxWidth header ≤ 240) (hheight : pcxHeight header ≤ 160)
    (hlines : decodeLines (pcxWidth header) (pcxHeight header).toNat data =
      some (lines, id :: (colors.flatMap rgbBytes ++ rest))) :
    decodePCX (header ++ data) = some ⟨lines, lines.flatMap (copied (pcxWidth header)),
      colors.map fun c => gbaColor c.1 c.2.1 c.2.2⟩ := by
  obtain ⟨hsame, hsame'⟩ := pcxSize_append hheader data
  have hlong : ¬ (header ++ data).length < pcxHeaderSize := by
    rw [List.length_append]
    omega
  have hpalette := decodePalette_written colors rest
  rw [hcolors] at hpalette
  rw [decodePCX, if_neg hlong, hsame, hsame', if_neg (by omega), List.drop_left' hheader, hlines]
  simp only [Option.bind_eq_bind, Option.bind_some, hpalette]
  rfl

/-- A header, lines that were written as tokens, the byte before the palette, and the palette. -/
def pcxFile (header : List Byte) (ts : List (List pcxRuns.Token)) (id : Byte)
    (colors : List (Byte × Byte × Byte)) (rest : List Byte) : List Byte :=
  header ++ (ts.flatMap RunCode.written ++ (id :: (colors.flatMap rgbBytes ++ rest)))

theorem screenBytes_lines (m : Nat) (lines : List (List Byte))
    (hlen : ∀ line ∈ lines, line.length = 2 * m) :
    screenBytes (lines.flatMap (copied (2 * m : Int))) = lines.flatten := by
  induction lines with
  | nil => rfl
  | cons line lines ih =>
      rw [List.flatMap_cons, screenBytes, List.flatMap_append, List.flatten_cons]
      exact congrArg₂ (· ++ ·) (screenBytes_copied m line (hlen line List.mem_cons_self))
        (ih fun l hl => hlen l (List.mem_cons_of_mem line hl))

def lineHeader (x2 : Byte) : List Byte := List.replicate 8 0 ++ x2 :: List.replicate 119 0

theorem pcxShort_byte (off : Nat) (hupper : file.getD (off + 1) 0 = 0) :
    pcxShort file off = (file.getD off 0).toNat := by
  have hload : load .little 16 (pcxMemory file) off = (file.getD off 0).setWidth 16 := by
    apply BitVec.eq_of_getLsbD_eq
    intro j hj
    rw [getLsbD_load _ _ _ _ _ hj, BitVec.getLsbD_setWidth, decide_eq_true hj, Bool.true_and]
    by_cases hlow : j < 8
    · rw [Nat.div_eq_of_lt hlow, Nat.mod_eq_of_lt hlow]
      rfl
    · have hone : j / 8 = 1 := by omega
      rw [hone, BitVec.getLsbD_of_ge (file.getD off 0) j (by omega)]
      change (file.getD (off + 1) 0).getLsbD _ = _
      rw [hupper]
      exact BitVec.getLsbD_zero
  have hlt := (file.getD off 0).isLt
  rw [pcxShort, hload, BitVec.toInt_eq_toNat_of_lt] <;> rw [BitVec.toNat_setWidth] <;> omega

theorem pcxSize_lineHeader (x2 : Byte) :
    pcxWidth (lineHeader x2) = (x2.toNat + 1 + 1 : Int) / 2 * 2 ∧
      pcxHeight (lineHeader x2) = 1 := by
  rw [pcxWidth, pcxHeight, pcxShort_byte 8 rfl, pcxShort_byte 4 rfl, pcxShort_byte 10 rfl,
    pcxShort_byte 6 rfl]
  refine ⟨?_, rfl⟩
  change ((x2.toNat : Int) - 0 + 1 + 1) / 2 * 2 = _
  rw [Int.sub_zero]

/-- A picture whose runs end with its lines appears on the screen as it was written, and stays
within the buffer. -/
theorem pcx_decodes (header : List Byte) (ts : List (List pcxRuns.Token)) (id : Byte)
    (colors : List (Byte × Byte × Byte)) (rest : List Byte)
    (hheader : header.length = pcxHeaderSize) (hcolors : colors.length = 256)
    (hlines : ∀ l ∈ ts, ((RunCode.meant l).length : Int) = pcxWidth header)
    (hheight : (ts.length : Int) = pcxHeight header)
    (hsize : pcxWidth header ≤ 240 ∧ pcxHeight header ≤ 160) :
    ∃ d, decodePCX (pcxFile header ts id colors rest) = some d ∧
      (∀ line ∈ d.lines, line.length ≤ pcxBufSize) ∧
      screenBytes d.screen = ts.flatMap RunCode.meant ∧
      d.palette.map BitVec.toNat = colors.map fun c =>
        c.1.toNat / 8 + 32 * (c.2.1.toNat / 8) + 1024 * (c.2.2.toNat / 8) := by
  have hread : decodeLines (pcxWidth header) ts.length (ts.flatMap RunCode.written ++
      (id :: (colors.flatMap rgbBytes ++ rest))) = some (ts.map RunCode.meant, _) :=
    decodeLines_written ts _ fun l hl => by
      have := hlines l hl
      omega
  have hcount : ts.length = (pcxHeight header).toNat := by omega
  rw [hcount] at hread
  refine ⟨_, decodePCX_append hheader hcolors hsize.1 hsize.2 hread, fun line hline => ?_, ?_, ?_⟩
  · obtain ⟨l, hl, rfl⟩ := List.mem_map.mp hline
    have := hlines l hl
    change _ ≤ 240
    omega
  · by_cases hw : 0 ≤ pcxWidth header
    · obtain ⟨m, hm⟩ : ∃ m : Nat, pcxWidth header = 2 * m :=
        ⟨(pcxWidth header / 2).toNat, by rw [pcxWidth] at hw ⊢; omega⟩
      have hall : ∀ line ∈ ts.map RunCode.meant, line.length = 2 * m := fun line hline => by
        obtain ⟨l, hl, rfl⟩ := List.mem_map.mp hline
        have := hlines l hl
        omega
      rw [hm, screenBytes_lines m _ hall, List.flatMap_def]
    · obtain _ | ⟨l, ts⟩ := ts
      · rfl
      · have := hlines l List.mem_cons_self
        omega
  · rw [List.map_map]
    exact List.map_congr_left fun c _ => gbaColor_toNat c.1 c.2.1 c.2.2

theorem pcx_decodes_line : ∃ d, decodePCX (pcxFile (lineHeader 3)
    [[.symbol 1 (by decide), .run 0xC3 7 2 (by decide)]] 12 (List.replicate 256 (255, 8, 0)) []) =
      some d ∧ (∀ line ∈ d.lines, line.length ≤ pcxBufSize) ∧ screenBytes d.screen = [1, 7, 7, 7] ∧
      d.palette.map BitVec.toNat = List.replicate 256 63 := by
  obtain ⟨hwidth, hheight⟩ := pcxSize_lineHeader 3
  obtain ⟨d, hd, hbuf, hscreen, hpalette⟩ := pcx_decodes (lineHeader 3)
    [[.symbol 1 (by decide), .run 0xC3 7 2 (by decide)]] 12 (List.replicate 256 (255, 8, 0)) [] rfl
    List.length_replicate
    (by rw [hwidth]; simp [RunCode.meant, RunCode.Token.meant]) hheight.symm
    (by rw [hwidth, hheight]; decide)
  refine ⟨d, hd, hbuf, hscreen, hpalette.trans ?_⟩
  rw [List.map_replicate]
  rfl

theorem decodeLine_overrun (n : Nat) (rest : List Byte) :
    decodeLine (n + 1 : Nat) 0 (List.replicate n 0 ++ (0xFF :: 0 :: rest)) =
      some (List.replicate (n + 63) 0, rest) := by
  have hzero : pcxRuns.run 0 = none := by decide
  have hwritten : ∀ n, RunCode.written (List.replicate n (RunCode.Token.symbol 0 hzero)) =
      List.replicate n 0 := fun n => by
    induction n with
    | zero => rfl
    | succ n ih => exact congrArg (0 :: ·) ih
  have hmeant : ∀ n, RunCode.meant (List.replicate n (RunCode.Token.symbol 0 hzero)) =
      List.replicate n 0 := fun n => by
    induction n with
    | zero => rfl
    | succ n ih => exact congrArg (0 :: ·) ih
  have h := RunCode.read_append (List.replicate n (RunCode.Token.symbol 0 hzero)) 1
    (0xFF :: 0 :: rest)
  rw [hwritten, hmeant, List.length_replicate] at h
  have hwant : (((n + 1 : Nat) : Int) - (0 : Nat)).toNat = n + 1 := by omega
  have hrun : pcxRuns.run 0xFF = some 63 := by decide
  rw [decodeLine_eq, hwant, h]
  have hdone : pcxRuns.read (0 + 1 - 63) rest = some ([], rest) := RunCode.read.eq_1 pcxRuns rest
  simp only [RunCode.read, hrun, hdone, Option.map_some, List.append_nil,
    List.replicate_append_replicate]

def overrunData (n : Nat) : List Byte :=
  List.replicate n 0 ++ (0xFF :: 0 :: 0 :: ((List.replicate 256 (0, 0, 0)).flatMap rgbBytes ++ []))

theorem decodePCX_overrun {n : Nat} (hn : n < 240) (heven : 2 ∣ n + 1) :
    ∃ file d, pcxWidth file = (n + 1 : Nat) ∧ decodePCX file = some d ∧
      d.lines = [List.replicate (n + 63) 0] := by
  have hlast : (BitVec.ofNat 8 n).toNat = n := by
    rw [BitVec.toNat_ofNat, Nat.mod_eq_of_lt (by omega)]
  obtain ⟨hwidth, hheight⟩ := pcxSize_lineHeader (BitVec.ofNat 8 n)
  have hw : pcxWidth (lineHeader (BitVec.ofNat 8 n)) = (n + 1 : Nat) := by
    rw [hwidth, hlast]
    omega
  have hlines : decodeLines (pcxWidth (lineHeader (BitVec.ofNat 8 n)))
      (pcxHeight (lineHeader (BitVec.ofNat 8 n))).toNat (overrunData n) =
      some ([List.replicate (n + 63) 0],
        0 :: ((List.replicate 256 (0, 0, 0)).flatMap rgbBytes ++ [])) := by
    rw [hw, hheight, Int.toNat_one, decodeLines, overrunData, decodeLine_overrun]
    rfl
  exact ⟨lineHeader (BitVec.ofNat 8 n) ++ overrunData n, _,
    (pcxSize_append rfl _).1.trans hw,
    decodePCX_append rfl List.length_replicate (by omega) (by omega) hlines, rfl⟩

/-- The buffer gets at most 62 bytes more than the line has pixels, the screen no more than it
has room for. -/
theorem decodePCX_lengths (h : decodePCX file = some d) :
    (∀ line ∈ d.lines, (line.length : Int) ≤ max 0 (pcxWidth file + 62) ∧ pcxWidth file ≤ 240) ∧
      d.screen.length ≤ 160 * 120 ∧ d.palette.length ≤ 256 := by
  by_cases hsize : pcxWidth file > 240 ∨ pcxHeight file > 160
  · rw [decodePCX, if_pos hsize] at h
    split at h
    · cases h
    · cases h
      exact ⟨fun _ hline => absurd hline List.not_mem_nil, Nat.zero_le _, Nat.zero_le _⟩
  · obtain ⟨data, id, hlines, hscreen, hpalette⟩ := decodePCX_some h (by omega) (by omega)
    obtain ⟨hcount, hlengths⟩ := decodeLines_lengths hlines
    refine ⟨fun line hline => ⟨(hlengths line hline).2, by omega⟩, ?_, ?_⟩
    · have hline : ∀ line, (copied (pcxWidth file) line).length = (pcxWidth file / 2).toNat :=
        fun line => by rw [copied, List.length_map, List.length_range]
      rw [hscreen, List.length_flatMap]
      simp only [hline, List.map_const', List.sum_replicate_nat]
      exact Nat.mul_le_mul (by omega) (by omega)
    · rw [decodePalette_length hpalette]

/-- A picture is decoded within the buffer, whatever its runs are, exactly if it is at most 178
pixels wide or so wide that it is not decoded at all; the screen and the palette are never
overrun. -/
theorem pcx_bounds (m : Int) :
    ((∀ file d, pcxWidth file = 2 * m → decodePCX file = some d →
        ∀ line ∈ d.lines, line.length ≤ pcxBufSize) ↔ (2 * m ≤ 178 ∨ 240 < 2 * m)) ∧
      ∀ file d, pcxWidth file = 2 * m → decodePCX file = some d →
        d.screen.length ≤ 160 * 120 ∧ d.palette.length ≤ 256 := by
  refine ⟨⟨fun hall => ?_, fun hm file d hwidth h line hline => ?_⟩,
    fun file d _ h => (decodePCX_lengths h).2⟩
  · by_contra hwide
    obtain ⟨n, hn⟩ : ∃ n : Nat, 2 * m = (n + 1 : Nat) := ⟨(2 * m).toNat - 1, by omega⟩
    obtain ⟨file, d, hwidth, hd, hlines⟩ := decodePCX_overrun (n := n) (by omega) (by omega)
    have hlen := hall file d (hwidth.trans hn.symm) hd (List.replicate (n + 63) 0)
      (by rw [hlines]; exact List.mem_singleton.mpr rfl)
    rw [List.length_replicate] at hlen
    change n + 63 ≤ 240 at hlen
    omega
  · obtain ⟨hlen, hmax⟩ := (decodePCX_lengths h).1 line hline
    change _ ≤ 240
    omega

end Files

end WiiJoybus
