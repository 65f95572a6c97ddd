import WiiJoybus.Multiboot.Stream

/-!
The sizes of images `multiboot` handles.

The loop over the header always reads 0xC0 bytes. A file whose length is no `long` counts
as an empty one, and the seven bytes that are added to a length are one `long` too many
close to 2 GiB. The key has room for fifteen bits of the size, in
units of eight bytes, so sizes that are 256 KiB apart share theirs.
-/

namespace WiiJoybus
open ByteMemory Port

section Key

/-- The letters of either branch are a swap and one constant. -/
theorem lettered_even (res3 : Word) :
    lettered 0x4B 0x61 0x77 0x61 res3 = bswap res3 ^^^ 0x4B617761 := by
  apply BitVec.eq_of_getLsbD_eq
  intro j hj
  rw [BitVec.getLsbD_xor, getLsbD_bswap _ _ hj]
  interval_cases j <;> simp [lettered, BitVec.getElem_sshiftRight]

theorem lettered_odd (res3 : Word) :
    lettered 0x73 0x65 0x64 0x6F res3 = bswap res3 ^^^ 0x7365646F := by
  apply BitVec.eq_of_getLsbD_eq
  intro j hj
  rw [BitVec.getLsbD_xor, getLsbD_bswap _ _ hj]
  interval_cases j <;> simp [lettered, BitVec.getElem_sshiftRight]

def keyUnits (size : Word) : Word := (size - 0x200) >>> 3

theorem calckey_eq (size : Word) :
    calckey size = bswap (calckeyRes3 (calckeyRes2 (keyUnits size))) ^^^
      if (calckeyRes3 (calckeyRes2 (keyUnits size))).getLsbD 9 then 0x7365646F else 0x4B617761 := by
  rw [calckey, ← keyUnits]
  generalize calckeyRes3 (calckeyRes2 (keyUnits size)) = res3
  have hmask : res3 &&& 0x200 = if res3.getLsbD 9 then 0x200 else 0 := by
    apply BitVec.eq_of_getLsbD_eq
    intro j hj
    interval_cases j <;> cases h : res3.getLsbD 9 <;> simp_all
  simp only [hmask, lettered_even, lettered_odd]
  cases res3.getLsbD 9 with
  | false => simp
  | true => simp

/-- Which branch was taken can be told from the key, and with it all of `res3`. -/
theorem res3_of_calckey {a b : Word} (h : calckey a = calckey b) :
    calckeyRes3 (calckeyRes2 (keyUnits a)) = calckeyRes3 (calckeyRes2 (keyUnits b)) := by
  rw [calckey_eq, calckey_eq] at h
  generalize calckeyRes3 (calckeyRes2 (keyUnits a)) = x at h ⊢
  generalize calckeyRes3 (calckeyRes2 (keyUnits b)) = y at h ⊢
  have hbranch : x.getLsbD 9 = y.getLsbD 9 := by
    have hbit := congrArg (fun key : Word => key.getLsbD 17) h
    simp only [BitVec.getLsbD_xor, getLsbD_bswap _ _ (show 17 < 32 by decide)] at hbit
    revert hbit
    change (x.getLsbD 9 ^^ _) = (y.getLsbD 9 ^^ _) → _
    cases x.getLsbD 9 <;> cases y.getLsbD 9 <;> decide
  rw [hbranch] at h
  have hswap := (BitVec.xor_left_inj _).mp h
  rw [← bswap_bswap (by decide) x, hswap, bswap_bswap (by decide)]

theorem getLsbD_res3 (res2 : Word) {k : Nat} (hk : k < 24) :
    (calckeyRes3 res2).getLsbD k = (res2.getLsbD k || (0x80808080 : Word).getLsbD k) := by
  rw [calckeyRes3, BitVec.getLsbD_or, BitVec.getLsbD_or, BitVec.getLsbD_shiftLeft]
  simp [hk]

/-- Where the bits of the size stand in `res2`. -/
def keyPlace (k : Nat) : Nat := if k < 7 then k else if k < 14 then k + 1 else k + 2

theorem getLsbD_keyPlace (units : Word) {k : Nat} (hk : k < 15) :
    (calckeyRes3 (calckeyRes2 units)).getLsbD (keyPlace k) = units.getLsbD k := by
  rw [getLsbD_res3 _ (by rw [keyPlace]; split <;> [omega; split <;> omega])]
  interval_cases k <;> simp [keyPlace, calckeyRes2]

theorem and_congr {x y m : Word} (h : ∀ k < 15, x.getLsbD k = y.getLsbD k) (hm : m.toNat < 2 ^ 15) :
    x &&& m = y &&& m := by
  apply BitVec.eq_of_getLsbD_eq
  intro k _
  rw [BitVec.getLsbD_and, BitVec.getLsbD_and]
  by_cases hk : k < 15
  · rw [h k hk]
  · have hzero : m.getLsbD k = false := Nat.testBit_lt_two_pow
      (Nat.lt_of_lt_of_le hm (Nat.pow_le_pow_right (by decide) (Nat.le_of_not_lt hk)))
    rw [hzero, Bool.and_false, Bool.and_false]

theorem calckeyRes2_congr {x y : Word} (h : ∀ k < 15, x.getLsbD k = y.getLsbD k) :
    calckeyRes2 x = calckeyRes2 y := by
  rw [calckeyRes2, calckeyRes2, and_congr (m := 0x3F80) h (by decide),
    and_congr (m := 0x4000) h (by decide), and_congr (m := 0x7F) h (by decide)]

theorem keyUnits_toNat (size : Word) :
    (keyUnits size).toNat = (size.toNat + (2 ^ 32 - 0x200)) % 2 ^ 32 / 8 := by
  have := size.isLt
  rw [keyUnits, BitVec.toNat_ushiftRight, BitVec.toNat_sub, Nat.shiftRight_eq_div_pow]
  simp only [BitVec.ofNat_eq_ofNat, BitVec.toNat_ofNat]
  omega

theorem bits_congr_iff {x y : Word} :
    (∀ k < 15, x.getLsbD k = y.getLsbD k) ↔ x.toNat % 2 ^ 15 = y.toNat % 2 ^ 15 := by
  constructor
  · intro h
    apply Nat.eq_of_testBit_eq
    intro k
    rw [Nat.testBit_mod_two_pow, Nat.testBit_mod_two_pow]
    by_cases hk : k < 15
    · simp only [hk, decide_true, Bool.true_and]
      exact h k hk
    · simp only [hk, decide_false, Bool.false_and]
  · intro h k hk
    have hbit := congrArg (fun n : Nat => n.testBit k) h
    simp only [Nat.testBit_mod_two_pow, hk, decide_true, Bool.true_and] at hbit
    exact hbit

/-- Two padded sizes have the same key exactly when they differ by a multiple of 256 KiB. -/
theorem calckey_eq_iff {a b : Word} (ha : 8 ∣ a.toNat) (hb : 8 ∣ b.toNat) :
    calckey a = calckey b ↔ a.toNat % 2 ^ 18 = b.toNat % 2 ^ 18 := by
  have hunits : (∀ k < 15, (keyUnits a).getLsbD k = (keyUnits b).getLsbD k) ↔
      a.toNat % 2 ^ 18 = b.toNat % 2 ^ 18 := by
    rw [bits_congr_iff, keyUnits_toNat, keyUnits_toNat]
    have := a.isLt
    have := b.isLt
    omega
  rw [← hunits]
  constructor
  · intro h k hk
    rw [← getLsbD_keyPlace _ hk, ← getLsbD_keyPlace _ hk, res3_of_calckey h]
  · intro h
    rw [calckey_eq, calckey_eq, calckeyRes2_congr h]

end Key

section Files

variable {bytes bytes' : List Byte} {calloc : Word → Bool} {beyond : Memory} {r : Rom}

def padded (bytes : List Byte) : Nat := (bytes.length + 7) / 8 * 8

theorem readRom_size (h : readRom (some bytes) calloc beyond = some r) :
    r.size = (roundUp8 (ftellEnd bytes)).toInt := by
  simp only [readRom] at h
  split at h
  · cases h
    rfl
  · cases h

theorem readRom_word (h : readRom (some bytes) calloc beyond = some r) :
    r.word = roundUp8 (ftellEnd bytes) := by
  rw [Rom.word, readRom_size h, BitVec.ofInt_toInt]

theorem readRom_all (bytes : List Byte) :
    ∃ r, readRom (some bytes) (fun _ => true) (fun _ => 0) = some r := by
  simp only [readRom, if_true]
  exact ⟨_, rfl⟩

theorem word_toNat (h : readRom (some bytes) calloc beyond = some r)
    (hlong : bytes.length < 2 ^ 31) : r.word.toNat = padded bytes := by
  rw [readRom_word h, roundUp8_toNat, ftellEnd, if_pos hlong, BitVec.toNat_ofNat, padded]
  omega

theorem size_eq_word (h : readRom (some bytes) calloc beyond = some r) : r.size = r.word.toInt := by
  rw [readRom_word h, readRom_size h]

theorem size_eq (h : readRom (some bytes) calloc beyond = some r)
    (hlong : bytes.length ≤ 2 ^ 31 - 8) : r.size = padded bytes := by
  have hword := word_toNat h (by omega)
  rw [size_eq_word h, BitVec.toInt_eq_toNat_of_lt, hword]
  rw [hword, padded]
  omega

/-- A file is read into a buffer of the right size, and `multiboot` stays within it. -/
def HandlesRom (bytes : List Byte) : Prop :=
  ∀ (calloc : Word → Bool) (beyond : Memory) (r : Rom) (ev : List Event),
    readRom (some bytes) calloc beyond = some r → Runs r.buf (multiboot r.word) ev 0 →
      (∀ i : Nat, Event.load i ∈ ev → i < r.size) ∧
      IsLeast {n : Int | 8 ∣ n ∧ bytes.length ≤ n} r.size ∧ (roundUp8 r.word).toInt = r.size

/-- The keys of two files tell their sizes apart. -/
def KeysTell (bytes bytes' : List Byte) : Prop :=
  ∀ (calloc : Word → Bool) (beyond : Memory) (r r' : Rom),
    readRom (some bytes) calloc beyond = some r → readRom (some bytes') calloc beyond = some r' →
      r.size ≠ r'.size → calckey r.word ≠ calckey r'.word

/-- The file has a header of the full length, and a length that is still a `long` when it has been
rounded up. -/
def RomFits (bytes : List Byte) : Prop := 0xB8 < bytes.length ∧ bytes.length ≤ 2 ^ 31 - 8

theorem RomFits.handles (h : RomFits bytes) : HandlesRom bytes := by
  intro calloc beyond r ev hr hrun
  obtain ⟨hheader, hlong⟩ := h
  have hsize := size_eq hr hlong
  have hword := word_toNat hr (by omega)
  have hdvd : 8 ∣ r.word.toNat := by
    rw [hword]
    exact Nat.dvd_mul_left _ _
  have hpadded : padded bytes = (bytes.length + 7) / 8 * 8 := rfl
  rw [hsize]
  refine ⟨fun i hi => ?_, ⟨⟨by omega, by omega⟩, ?_⟩, ?_⟩
  · rw [← mem_index, multiboot_index hrun, roundUp8_of_dvd hdvd, List.mem_append] at hi
    simp only [List.mem_flatMap, headerOffsets, bodyOffsets, bodyCount, List.mem_map,
      List.mem_range, List.mem_cons, List.not_mem_nil, or_false] at hi
    rcases hi with ⟨_, ⟨k, hk, rfl⟩, hi⟩ | ⟨_, ⟨k, hk, rfl⟩, hi⟩
    · omega
    · omega
  · rintro n ⟨hn, hle⟩
    omega
  · rw [roundUp8_of_dvd hdvd, ← size_eq_word hr, hsize]

/-- Of a length that is rounded up to no `long` comes a size below it. -/
theorem size_lt (h : readRom (some bytes) calloc beyond = some r)
    (hlong : 2 ^ 31 - 8 < bytes.length) : r.size < bytes.length := by
  by_cases hend : bytes.length < 2 ^ 31
  · have hword := word_toNat h hend
    rw [padded] at hword
    have hhalf : r.word.toNat = 2 ^ 31 := by omega
    rw [size_eq_word h, BitVec.toInt_eq_toNat_cond, hhalf]
    omega
  · have hzero : r.size = 0 := by
      rw [readRom_size h, ftellEnd, if_neg hend]
      rfl
    omega

theorem HandlesRom.fits (h : HandlesRom bytes) : RomFits bytes := by
  obtain ⟨r, hr⟩ := readRom_all bytes
  obtain ⟨ev, hrun⟩ := exists_multiboot r.buf r.word
  obtain ⟨hloads, ⟨⟨_, hle⟩, _⟩, _⟩ := h _ _ r ev hr hrun
  have hlong : bytes.length ≤ 2 ^ 31 - 8 := by
    by_contra hlong
    have := size_lt hr (by omega)
    omega
  have hlast : 0xBF ∈ ev.filterMap Event.index? := by
    rw [multiboot_index hrun]
    exact List.mem_append_left _ (by decide)
  have hin := hloads _ (mem_index.mp hlast)
  rw [size_eq hr hlong, padded] at hin
  exact ⟨by omega, hlong⟩

theorem keysTell_iff (h : RomFits bytes) (h' : RomFits bytes') :
    KeysTell bytes bytes' ↔
      (padded bytes = padded bytes' ∨ padded bytes % 2 ^ 18 ≠ padded bytes' % 2 ^ 18) := by
  have hkeys : ∀ {calloc : Word → Bool} {beyond : Memory} {r r' : Rom},
      readRom (some bytes) calloc beyond = some r → readRom (some bytes') calloc beyond = some r' →
        (r.size = r'.size ↔ padded bytes = padded bytes') ∧
        (calckey r.word = calckey r'.word ↔ padded bytes % 2 ^ 18 = padded bytes' % 2 ^ 18) := by
    intro calloc beyond r r' hr hr'
    have hword := word_toNat hr (Nat.lt_of_le_of_lt h.2 (by decide))
    have hword' := word_toNat hr' (Nat.lt_of_le_of_lt h'.2 (by decide))
    rw [calckey_eq_iff (by rw [hword]; exact Nat.dvd_mul_left _ _)
      (by rw [hword']; exact Nat.dvd_mul_left _ _), size_eq hr h.2, size_eq hr' h'.2, hword, hword']
    exact ⟨Int.natCast_inj, Iff.rfl⟩
  constructor
  · intro ht
    obtain ⟨r, hr⟩ := readRom_all bytes
    obtain ⟨r', hr'⟩ := readRom_all bytes'
    obtain ⟨hsizes, hcalc⟩ := hkeys hr hr'
    by_cases hsame : r.size = r'.size
    · exact Or.inl (hsizes.mp hsame)
    · exact Or.inr fun hmod => ht _ _ r r' hr hr' hsame (hcalc.mpr hmod)
  · intro hc calloc beyond r r' hr hr' hne heq
    obtain ⟨hsizes, hcalc⟩ := hkeys hr hr'
    rcases hc with hsame | hmod
    · exact hne (hsizes.mpr hsame)
    · exact hmod (hcalc.mp heq)

end Files

/-- Two files are handled and can be told apart exactly when both have a full header and a padded
size that is a `long`, and these sizes are the same or do not differ by a multiple of 256 KiB. -/
theorem handlesRoms_iff (bytes bytes' : List Byte) :
    HandlesRom bytes ∧ HandlesRom bytes' ∧ KeysTell bytes bytes' ↔
      RomFits bytes ∧ RomFits bytes' ∧
        (padded bytes = padded bytes' ∨ padded bytes % 2 ^ 18 ≠ padded bytes' % 2 ^ 18) := by
  constructor
  · rintro ⟨h, h', ht⟩
    exact ⟨h.fits, h'.fits, (keysTell_iff h.fits h'.fits).mp ht⟩
  · rintro ⟨h, h', hc⟩
    exact ⟨h.handles, h'.handles, (keysTell_iff h h').mpr hc⟩

/-- Of a file of eight bytes the header loop reads 0xC0, and two files that differ by 256 KiB in
size have one key. -/
theorem handlesRoms_counterexample :
    ¬ HandlesRom (List.replicate 8 0) ∧
      ¬ KeysTell (List.replicate 0x200 0) (List.replicate 0x40200 0) := by
  have hfits : ∀ n, 0xB8 < n → n ≤ 2 ^ 31 - 8 → RomFits (List.replicate n 0) := by
    intro n hlow hhigh
    rw [RomFits, List.length_replicate]
    exact ⟨hlow, hhigh⟩
  refine ⟨fun h => absurd h.fits.1 (by decide), ?_⟩
  rw [keysTell_iff (hfits _ (by decide) (by decide)) (hfits _ (by decide) (by decide)), padded,
    padded, List.length_replicate, List.length_replicate]
  decide

end WiiJoybus
