import WiiJoybus.Library.CString
import WiiJoybus.Multiboot.Stream
import WiiJoybus.Shared.Codec

/-!
The echo program.

The Wii sends a line in whole words and waits for as many words to come back. A
word that is zero is no answer but an empty poll, so nothing it sends may be
zero. The buffers have an odd size, and the last word of a long line does not
fit in.
-/

namespace WiiJoybus
open ByteMemory Port CString

section Program

/-- `sizeof(msg)` and `sizeof(inmsg)` -/
def msgSize : Nat := 127

/-- What `fgets` reads into a buffer with room for `n` bytes and a NUL. -/
def fgets : Nat → List Byte → List Byte
  | 0, _ => []
  | _ + 1, [] => []
  | n + 1, c :: input => if c = 10 then [c] else c :: fgets n input

/-- `msg` after `memset` and `fgets` -/
def message (input : List Byte) : Fin msgSize → Byte :=
  fun i => (fgets (msgSize - 1) input).getD i 0

/-- `msg_len` -/
def msgLen (msg : Fin msgSize → Byte) : BitVec 16 := BitVec.ofNat 16 (ofArray msg).length

/-- `((msg_len+3)&~3)` -/
def echoSize (msg : Fin msgSize → Byte) : Word := ((msgLen msg).setWidth 32 + 3) &&& ~~~(3 : Word)

/-- A buffer and what lies behind it. -/
def placed (buf : Fin msgSize → Byte) (beyond : Memory) : Memory := fun i =>
  if h : i < msgSize then buf ⟨i, h⟩ else beyond i

/-- An iteration of the loop that sends. -/
def echoWord (i : Nat) (_ : Unit) : Prog Unit :=
  loadHost i >>= fun val => gbaWrite (bswap val) >>= fun _ => .ret ()

def echoSend (sendsize : Word) : Prog Unit :=
  .loop echoWord (positions 0 ((sendsize.toNat + 3) / 4)) ()

/-- The variables of the loop that receives, and the indices of `inmsg` it has written. -/
structure Received where
  i : Nat
  inmsg : Memory
  stores : List Nat

/-- A word that is not zero is stored. -/
def Received.take (st : Received) (readIn : Word) : Received where
  i := st.i + 4
  inmsg := store .big st.inmsg st.i (bswap readIn)
  stores := st.stores ++ [st.i, st.i + 1, st.i + 2, st.i + 3]

/-- The loop that receives, over the words it polls. It waits when there are no more. -/
def echoReceive (sendsize : Nat) : List Word → Received → Option (Received × List Word)
  | [], st => if st.i < sendsize then none else some (st, [])
  | readIn :: polls, st =>
      if st.i < sendsize then echoReceive sendsize polls (if readIn ≠ 0 then st.take readIn else st)
      else some (st, readIn :: polls)

/-- `linkCube->send(linkCube->read())`: the word from the wire, and what the Wii reads then. -/
def echoed (bytes : List Byte) : Word := joybus (wireWord bytes)

end Program

section Line

variable {n : Nat} {input : List Byte}

theorem length_fgets (n : Nat) (input : List Byte) : (fgets n input).length ≤ n := by
  induction n generalizing input with
  | zero => exact Nat.le_refl 0
  | succ n ih =>
      cases input with
      | nil => exact Nat.zero_le _
      | cons c input =>
          rw [fgets]
          split
          · exact Nat.succ_le_succ (Nat.zero_le n)
          · exact Nat.succ_le_succ (ih input)

theorem length_message (input : List Byte) : (ofArray (message input)).length ≤ 126 := by
  refine length_ofArray_le (k := 126) (by decide) ?_
  exact List.getD_eq_default _ _ (length_fgets _ _)

theorem echoSize_toNat (input : List Byte) :
    (echoSize (message input)).toNat = ((ofArray (message input)).length + 3) / 4 * 4 := by
  have hlen := length_message input
  rw [echoSize, show (3 : Word) = BitVec.ofNat 32 (2 ^ 2 - 1) from rfl, clearBelow_toNat,
    BitVec.toNat_add, msgLen, BitVec.toNat_setWidth, BitVec.toNat_ofNat]
  simp only [BitVec.toNat_ofNat]
  omega

end Line

section Send

variable {buf : Memory} {ev : List Event} {i : Nat} {u u' : Unit}

theorem runs_echoWord (h : Runs buf (echoWord i u) ev u') :
    ∃ reply, ev = [.load i, .load (i + 1), .load (i + 2), .load (i + 3),
      .transfer (gbaWriteCmd :: hostBytes (bswap (hostWord buf i))) (some reply)] := by
  obtain ⟨ev₁, val, ev₂, rfl, hval, h₂⟩ := Runs.of_bind h
  obtain ⟨rfl, rfl⟩ := runs_loadHost hval
  obtain ⟨ev₃, _, ev₄, rfl, hwrite, h₄⟩ := Runs.of_bind h₂
  obtain ⟨rfl, _⟩ := h₄.of_ret
  obtain ⟨reply, rfl⟩ := runs_gbaWrite hwrite
  exact ⟨reply, rfl⟩

theorem echoSend_written {is : List Nat} (h : Runs buf (.loop echoWord is u) ev u') :
    ev.filterMap written? = is.map fun i => hostBytes (bswap (hostWord buf i)) := by
  rw [List.map_eq_flatMap]
  refine Runs.loop_shows written? _ (fun i u ev u' h => ?_) h
  obtain ⟨reply, rfl⟩ := runs_echoWord h
  rfl

theorem echoSend_index {is : List Nat} (h : Runs buf (.loop echoWord is u) ev u') :
    ev.filterMap Event.index? = is.flatMap fun i => [i, i + 1, i + 2, i + 3] := by
  refine Runs.loop_shows Event.index? _ (fun i u ev u' h => ?_) h
  obtain ⟨reply, rfl⟩ := runs_echoWord h
  rfl

theorem exists_echoSend (buf : Memory) (sendsize : Word) :
    ∃ ev, Runs buf (echoSend sendsize) ev () := by
  have hword : ∀ (i : Nat) (u : Unit), ∃ ev, Runs buf (echoWord i u) ev () := by
    intro i u
    obtain ⟨ev₁, hload⟩ := exists_loadHost buf i
    obtain ⟨ev₂, _, hwrite⟩ := exists_gbaWrite buf (bswap (hostWord buf i))
    exact ⟨_, hload.bind (hwrite.bind (.ret ()))⟩
  obtain ⟨ev, h⟩ := runs_loop hword (positions 0 ((sendsize.toNat + 3) / 4)) ()
  exact ⟨ev, h⟩

/-- The two swaps on the way there and the two on the way back cancel. -/
theorem echoed_hostBytes (val : Word) : echoed (hostBytes (bswap val)) = bswap val :=
  congrArg joybus (wireWord_hostBytes val)

end Send

section Receive

variable {words more polls : List Word}

/-- The loop takes as many words as fit, and no more. -/
theorem echoReceive_words (sendsize : Nat) (st : Received) (hwords : ∀ w ∈ words, w ≠ 0)
    (hsize : st.i + 4 * words.length = sendsize)
    (hpolls : polls.filter (· ≠ 0) = words ++ more) :
    ∃ rest, echoReceive sendsize polls st = some (words.foldl Received.take st, rest) ∧
      rest.filter (· ≠ 0) = more := by
  induction polls generalizing words st with
  | nil =>
      obtain ⟨rfl, rfl⟩ := List.append_eq_nil_iff.mp hpolls.symm
      refine ⟨[], ?_, rfl⟩
      rw [echoReceive, if_neg (by simp only [List.length_nil] at hsize; omega)]
      rfl
  | cons readIn polls ih =>
      cases words with
      | nil =>
          refine ⟨readIn :: polls, ?_, hpolls⟩
          rw [echoReceive, if_neg (by simp only [List.length_nil] at hsize; omega)]
          rfl
      | cons w words =>
          rw [List.length_cons] at hsize
          by_cases hzero : readIn = 0
          · rw [List.filter_cons_of_neg (by simp [hzero])] at hpolls
            obtain ⟨rest, hrest⟩ := ih st hwords (by rw [List.length_cons]; omega) hpolls
            rw [echoReceive, if_pos (by omega), if_neg (not_not.mpr hzero)]
            exact ⟨rest, hrest⟩
          · rw [List.filter_cons_of_pos (p := fun w => decide (w ≠ 0)) (decide_eq_true hzero),
              List.cons_append, List.cons.injEq] at hpolls
            obtain ⟨rfl, hpolls⟩ := hpolls
            obtain ⟨rest, hrest⟩ := ih (st.take readIn)
              (fun v hv => hwords v (List.mem_cons_of_mem _ hv))
              (by change st.i + 4 + _ = _; omega) hpolls
            rw [echoReceive, if_pos (by omega), if_pos hzero]
            exact ⟨rest, hrest⟩

theorem take_inmsg (st : Received) (buf : Memory) (k : Nat) :
    (st.take (bswap (hostWord buf st.i))).inmsg k =
      if st.i ≤ k ∧ k < st.i + 4 then buf k else st.inmsg k := by
  change store .big st.inmsg st.i (bswap (bswap (hostWord buf st.i))) k = _
  rw [bswap_bswap (by decide), store]
  by_cases hin : st.i ≤ k ∧ k < st.i + 4
  · have hbyte := byteOf_load .big (w := 32) (by decide) buf st.i (k - st.i) (by omega)
    rw [if_pos hin, if_pos (show st.i ≤ k ∧ k < st.i + 32 / 8 from hin)]
    rwa [show st.i + (k - st.i) = k by omega] at hbyte
  · rw [if_neg hin, if_neg (show ¬ (st.i ≤ k ∧ k < st.i + 32 / 8) from hin)]

theorem foldl_take (n : Nat) (st : Received) (buf : Memory) :
    (∀ k,
      (((positions st.i n).map fun i => bswap (hostWord buf i)).foldl Received.take st).inmsg k =
        if st.i ≤ k ∧ k < st.i + 4 * n then buf k else st.inmsg k) ∧
    (∀ k, k ∈ (((positions st.i n).map fun i => bswap (hostWord buf i)).foldl
      Received.take st).stores ↔ k ∈ st.stores ∨ (st.i ≤ k ∧ k < st.i + 4 * n)) := by
  induction n generalizing st with
  | zero =>
      have hempty : ∀ k, ¬ (st.i ≤ k ∧ k < st.i + 4 * 0) := fun k h => by omega
      exact ⟨fun k => (if_neg (hempty k)).symm, fun k => (or_iff_left (hempty k)).symm⟩
  | succ n ih =>
      obtain ⟨hbytes, hstores⟩ := ih (st.take (bswap (hostWord buf st.i)))
      rw [positions_succ, List.map_cons, List.foldl_cons]
      refine ⟨fun k => ?_, fun k => ?_⟩
      · refine (hbytes k).trans ?_
        rw [take_inmsg]
        change (if st.i + 4 ≤ k ∧ k < st.i + 4 + 4 * n then _ else _) = _
        split
        · rw [if_pos (by omega)]
        · split
          · rw [if_pos (by omega)]
          · rw [if_neg (by omega)]
      · refine (hstores k).trans ?_
        change (k ∈ st.stores ++ [st.i, st.i + 1, st.i + 2, st.i + 3] ∨
          (st.i + 4 ≤ k ∧ k < st.i + 4 + 4 * n)) ↔ _
        simp only [List.mem_append, List.mem_cons, List.not_mem_nil, or_false, or_assoc]
        refine or_congr_right ?_
        omega

end Receive

section Round

variable {input : List Byte}

/-- A line comes back, and both loops stay within their buffers. -/
def EchoRight (input : List Byte) : Prop :=
  ∀ (beyond : Memory) (ev : List Event),
    Runs (placed (message input) beyond) (echoSend (echoSize (message input))) ev () →
      (∀ i, .load i ∈ ev → i < msgSize) ∧
      (∀ bytes ∈ ev.filterMap written?, wireWord bytes ≠ 0) ∧
      ∀ (polls more : List Word),
        polls.filter (· ≠ 0) = (ev.filterMap written?).map echoed ++ more →
          ∃ st rest, echoReceive (echoSize (message input)).toNat polls
              ⟨0, placed (fun _ => 0) beyond, []⟩ = some (st, rest) ∧
            rest.filter (· ≠ 0) = more ∧ (∀ i ∈ st.stores, i < msgSize) ∧
            ofArray (fun i : Fin msgSize => st.inmsg i) = ofArray (message input)

/-- A word that is sent has a byte of the line in it. -/
theorem hostWord_ne_zero {buf : Memory} {i : Nat} (h : buf i ≠ 0) : hostWord buf i ≠ 0 := by
  intro hz
  have hbyte := byteOf_load .big (w := 32) (by decide) buf i 0 (by decide)
  rw [← hostWord, hz] at hbyte
  exact h (hbyte.symm.trans (by decide))

theorem message_ne_zero {i : Fin msgSize} (hi : i.val < (ofArray (message input)).length) :
    message input i ≠ 0 := by
  intro hz
  have hmem := List.getElem_mem hi
  rw [← List.getD_eq_getElem _ 0 hi, getD_ofArray (Nat.le_of_lt hi), hz] at hmem
  exact zero_notMem_ofArray _ hmem

theorem EchoRight.short (h : EchoRight input) : (ofArray (message input)).length ≤ 124 := by
  by_contra hlong
  obtain ⟨ev, hrun⟩ :=
    exists_echoSend (placed (message input) fun _ => 0) (echoSize (message input))
  have hlen := length_message input
  have hlast : 127 ∈ ev.filterMap Event.index? := by
    rw [echoSend_index hrun, echoSize_toNat, show ((ofArray (message input)).length + 3) / 4 = 32
      by omega]
    decide
  exact absurd ((h _ ev hrun).1 127 (mem_index.mp hlast)) (by decide)

theorem echoRight_of_short (h : (ofArray (message input)).length ≤ 124) : EchoRight input := by
  intro beyond ev hrun
  have hsize := echoSize_toNat input
  have hwritten := echoSend_written hrun
  have hcount : ((echoSize (message input)).toNat + 3) / 4 =
      ((ofArray (message input)).length + 3) / 4 := by omega
  have hechoed : ∀ is : List Nat, (is.map fun i => hostBytes (bswap
      (hostWord (placed (message input) beyond) i))).map echoed =
      is.map fun i => bswap (hostWord (placed (message input) beyond) i) := fun is => by
    rw [List.map_map]
    exact List.map_congr_left fun i _ => echoed_hostBytes _
  have hnonzero : ∀ i ∈ positions 0 (((ofArray (message input)).length + 3) / 4),
      hostWord (placed (message input) beyond) i ≠ 0 := by
    intro i hi
    obtain ⟨k, hk, rfl⟩ := List.mem_map.mp hi
    have hlt : 0 + 4 * k < (ofArray (message input)).length := by
      have := List.mem_range.mp hk
      omega
    apply hostWord_ne_zero
    rw [placed, dif_pos (show 0 + 4 * k < msgSize by rw [msgSize]; omega)]
    exact message_ne_zero hlt
  refine ⟨fun i hi => ?_, fun bytes hbytes => ?_, fun polls more hpolls => ?_⟩
  · rw [← mem_index, echoSend_index hrun, hcount] at hi
    simp only [positions, List.mem_flatMap, List.mem_map, List.mem_range, List.mem_cons,
      List.not_mem_nil, or_false] at hi
    obtain ⟨_, ⟨k, hk, rfl⟩, hi⟩ := hi
    rw [msgSize]
    omega
  · rw [hwritten, hcount] at hbytes
    obtain ⟨i, hi, rfl⟩ := List.mem_map.mp hbytes
    rw [wireWord_hostBytes]
    exact hnonzero i hi
  · rw [hwritten, hechoed, hcount] at hpolls
    obtain ⟨rest, hrec, hrest⟩ := echoReceive_words (echoSize (message input)).toNat
      ⟨0, placed (fun _ => 0) beyond, []⟩
      (fun w hw => by
        obtain ⟨i, hi, rfl⟩ := List.mem_map.mp hw
        exact fun hz => hnonzero i hi ((bswap_eq_zero_iff (by decide) _).mp hz))
      (by simp only [List.length_map, positions, List.length_range]; omega) hpolls
    obtain ⟨hbytes, hstores⟩ := foldl_take (((ofArray (message input)).length + 3) / 4)
      ⟨0, placed (fun _ => 0) beyond, []⟩ (placed (message input) beyond)
    refine ⟨_, rest, hrec, hrest, fun i hi => ?_, ?_⟩
    · have hin := (hstores i).mp hi
      simp only [List.not_mem_nil, false_or] at hin
      rw [msgSize]
      omega
    · rw [ofArray_of_getD (zero_notMem_ofArray (message input)) fun i hi => ?_]
      · exact List.take_of_length_le (Nat.le_trans h (by decide))
      · rw [getD_ofArray hi, hbytes]
        simp only [placed, dif_pos i.isLt]
        split
        · rfl
        · have hend : i.val = (ofArray (message input)).length := by omega
          rw [← getD_ofArray hi, List.getD_eq_default _ _ (Nat.le_of_eq hend.symm)]

end Round

/-- Echo does what it should exactly for the lines whose last word fits into the buffer. -/
theorem echoRight_iff (input : List Byte) :
    EchoRight input ↔ (ofArray (message input)).length ≤ 124 :=
  ⟨EchoRight.short, echoRight_of_short⟩

/-- A line of 125 characters is read and stored one byte past the end of the buffers. -/
theorem echoRight_counterexample :
    (ofArray (message (List.replicate 125 97))).length = 125 ∧
      ¬ EchoRight (List.replicate 125 97) := by
  have hlen : (ofArray (message (List.replicate 125 97))).length = 125 := by decide +kernel
  refine ⟨hlen, fun h => ?_⟩
  have hshort := h.short
  rw [hlen] at hshort
  exact absurd hshort (by decide)

end WiiJoybus
