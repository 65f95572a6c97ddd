import WiiJoybus.Gba.Contents

/-!
Copying a chunk into the blocks of a file.

An iteration copies as far as the current block goes. `Counted` says what a
number of iterations have done to the counters; as long as the chunk ends where
its bytes do, one or two of them deal with it.
-/

namespace WiiJoybus
open ByteMemory Store

namespace Copying

/-- From `c` to `c'` the counters have moved on by `n` bytes, whatever the store holds and
also when the offset wraps. -/
structure Counted (n : Nat) (c c' : Copying) : Prop where
  offset : c'.offset = c.offset + BitVec.ofNat 64 n
  resid : c'.resid.toNat + n = c.resid.toNat
  x : c'.x.toNat + n = c.x.toNat
  src : c'.src = c.src + n

section Step

variable {j : Junk} {breq : WriteBufReq} {ent : EntryPtr} {c c' c'' : Copying} {n n' : Nat}

theorem copylen_toNat (c : Copying) :
    c.copylen.toNat = min c.resid.toNat (128 - c.offset.toNat % 128) := by
  have hleft := blockleft_toNat c.offset
  have hmin : (min64 c.resid (blockleft c.offset (pbaBlocksize 64))).toNat =
      min c.resid.toNat (128 - c.offset.toNat % 128) := by
    simp only [min64, BitVec.lt_def, hleft]
    split
    · omega
    · rw [hleft]
      omega
  rw [copylen, BitVec.toNat_setWidth, hmin, Nat.mod_eq_of_lt (by omega)]

theorem fileByte_writeBytes {s : Store} {b : BlockPtr} {idx off m k : Nat} (src : Nat → Byte)
    (hf : s.FileOk ent) (hfetch : s.blockFetch (s.fileid ent) (BitVec.ofNat 32 idx) = some b)
    (hidx : idx < 2 ^ 32) (hm : off + m ≤ 128) (hk : k < s.size ent) :
    (s.writeBytes (some b) off m src).fileByte ent k =
      if idx * 128 + off ≤ k ∧ k < idx * 128 + off + m then src (k - (idx * 128 + off))
      else s.fileByte ent k := by
  have hshape := sameShape_writeBytes s (some b) off m src
  have hnum := s.numblocks_lt ent
  have hkblock := hf.block_lt hk
  have hid : (s.writeBytes (some b) off m src).fileid ent = s.fileid ent := by
    rw [fileid, fileid, hshape.entries]
  obtain ⟨b', hb'⟩ := Option.ne_none_iff_exists'.mp (hf.blockFetch_ne_none hkblock)
  have hfetch' : (s.writeBytes (some b) off m src).blockFetch
      ((s.writeBytes (some b) off m src).fileid ent) (BitVec.ofNat 32 (k / 128)) = some b' := by
    rw [hid, hshape.blockFetch]
    exact hb'
  rw [fileByte_of_fetch hb', fileByte_of_fetch hfetch', writeBytes, setBlock_apply]
  by_cases hsame : idx = k / 128
  · subst hsame
    obtain rfl := Option.some.inj (hfetch.symm.trans hb')
    rw [if_pos rfl]
    by_cases hin : off ≤ k % 128 ∧ k % 128 < off + m
    · refine (if_pos hin).trans ?_
      rw [if_pos (by omega), show k - (k / 128 * 128 + off) = k % 128 - off by omega]
      rfl
    · refine (if_neg hin).trans ?_
      rw [if_neg (by omega)]
  · have hne : b' ≠ b := by
      rintro rfl
      have hidx' := (blockFetch_holds hfetch).2.symm.trans (blockFetch_holds hb').2
      exact hsame (ofNat_inj (by omega) (by omega) hidx')
    rw [if_neg hne, if_neg (by omega)]

theorem Counted.trans (h : Counted n c c') (h' : Counted n' c' c'') : Counted (n + n') c c'' where
  offset := by rw [h'.offset, h.offset, BitVec.ofNat_add, BitVec.add_assoc]
  resid := by rw [← h.resid, ← h'.resid]; omega
  x := by rw [← h.x, ← h'.x]; omega
  src := by rw [h'.src, h.src, Nat.add_assoc]

theorem step_counted (j : Junk) (breq : WriteBufReq) (ent : EntryPtr)
    (hx : c.copylen.toNat ≤ c.x.toNat) :
    Counted c.copylen.toNat c (c.step j breq ent) := by
  have hlen := c.copylen_toNat
  have hwide := widen_toNat c.copylen
  constructor
  case offset =>
    change c.offset + c.copylen.setWidth 64 = _
    congr 1
    apply BitVec.eq_of_toNat_eq
    rw [hwide, BitVec.toNat_ofNat]
    omega
  case resid =>
    change (c.resid - c.copylen.setWidth 64).toNat + _ = _
    rw [BitVec.toNat_sub_of_le (by rw [BitVec.le_def, hwide]; omega), hwide]
    omega
  case x =>
    change (c.x - c.copylen).toNat + _ = _
    rw [BitVec.toNat_sub_of_le (by rwa [BitVec.le_def])]
    omega
  case src => rfl

theorem x_eq_zero : c.x = 0 ↔ c.x.toNat = 0 := by
  constructor
  · intro h
    rw [h]
    rfl
  · intro h
    exact BitVec.eq_of_toNat_eq h

theorem loop_done {fuel : Nat} (h : c.x = 0) : loop j breq ent fuel c = some c := by
  cases fuel <;> rw [loop, if_pos h]

theorem loop_step {fuel : Nat} (h : ¬ c.x = 0) :
    loop j breq ent (fuel + 1) c = loop j breq ent fuel (c.step j breq ent) := by
  rw [loop, if_neg h]

theorem loop_stuck (hresid : c.resid = 0) (hx : ¬ c.x = 0) (fuel : Nat) :
    loop j breq ent fuel c = none := by
  induction fuel generalizing c with
  | zero => rw [loop, if_neg hx]
  | succ fuel ih =>
      have hzero : c.copylen = 0 := by
        apply BitVec.eq_of_toNat_eq
        rw [copylen_toNat, hresid]
        exact Nat.zero_min _
      rw [loop_step hx]
      apply ih
      · change c.resid - c.copylen.setWidth 64 = 0
        rw [hzero, hresid]
        rfl
      · change ¬ c.x - c.copylen = 0
        simpa [hzero] using hx

/-- The fuel of `handleWriteBuf` is no restriction: what it does not end never ends. -/
theorem loop_endless {m : Nat} (hm : c.resid.toNat ≤ m) (h : loop j breq ent m c = none)
    (fuel : Nat) : loop j breq ent fuel c = none := by
  induction fuel generalizing c m with
  | zero =>
      rw [loop]
      split
      · rename_i hx
        rw [loop_done hx] at h
        cases h
      · rfl
  | succ fuel ih =>
      have hx : ¬ c.x = 0 := by
        intro hx
        rw [loop_done hx] at h
        cases h
      by_cases hresid : c.resid = 0
      · exact loop_stuck hresid hx _
      · have hpos : c.resid.toNat ≠ 0 := fun hz => hresid (BitVec.eq_of_toNat_eq hz)
        have hlen := c.copylen_toNat
        obtain ⟨m, rfl⟩ : ∃ k, m = k + 1 := ⟨m - 1, by omega⟩
        rw [loop_step hx] at h ⊢
        refine ih ?_ h
        have hwide := widen_toNat c.copylen
        change (c.resid - c.copylen.setWidth 64).toNat ≤ m
        rw [BitVec.toNat_sub_of_le (by rw [BitVec.le_def, hwide]; omega), hwide]
        omega

/-- A chunk that starts on a block border, or is the last one of a short request,
takes one or two iterations. -/
theorem loop_ends (j : Junk) (breq : WriteBufReq) (ent : EntryPtr) (hpos : 0 < c.resid.toNat)
    (hx : c.x.toNat = min c.resid.toNat 128)
    (hborder : 128 ∣ c.offset.toNat ∨ c.resid.toNat ≤ 128) {fuel : Nat} (hfuel : 2 ≤ fuel) :
    (c.copylen.toNat = c.x.toNat ∧ loop j breq ent fuel c = some (c.step j breq ent)) ∨
    (c.copylen.toNat < c.x.toNat ∧
      (c.step j breq ent).copylen.toNat = (c.step j breq ent).x.toNat ∧
      loop j breq ent fuel c = some ((c.step j breq ent).step j breq ent)) := by
  obtain ⟨fuel, rfl⟩ : ∃ f, fuel = f + 2 := ⟨fuel - 2, by omega⟩
  have hlen := c.copylen_toNat
  have hstep := step_counted j breq ent (show c.copylen.toNat ≤ c.x.toNat by omega)
  have hsx := hstep.x
  rw [loop_step (by rw [x_eq_zero]; omega)]
  by_cases hone : c.x.toNat = c.copylen.toNat
  · -- the block has room for the whole chunk
    exact Or.inl ⟨hone.symm, loop_done (by rw [x_eq_zero]; omega)⟩
  · -- the rest goes to the next block
    have hlen' := (c.step j breq ent).copylen_toNat
    have hoff := congrArg BitVec.toNat hstep.offset
    have hresid := hstep.resid
    rw [BitVec.toNat_add, BitVec.toNat_ofNat] at hoff
    have hlast : (c.step j breq ent).copylen.toNat = (c.step j breq ent).x.toNat := by omega
    have hend := (step_counted j breq ent (Nat.le_of_eq hlast)).x
    refine Or.inr ⟨by omega, hlast, ?_⟩
    rw [loop_step (by rw [x_eq_zero]; omega), loop_done (by rw [x_eq_zero]; omega)]

theorem loop_counted (j : Junk) (breq : WriteBufReq) (ent : EntryPtr) (hpos : 0 < c.resid.toNat)
    (hx : c.x.toNat = min c.resid.toNat 128)
    (hborder : 128 ∣ c.offset.toNat ∨ c.resid.toNat ≤ 128) {fuel : Nat} (hfuel : 2 ≤ fuel) :
    ∃ c', loop j breq ent fuel c = some c' ∧ Counted c.x.toNat c c' := by
  rcases loop_ends j breq ent hpos hx hborder hfuel with
    ⟨hone, hend⟩ | ⟨hlt, htwo, hend⟩
  · exact ⟨_, hend, hone ▸ step_counted j breq ent (Nat.le_of_eq hone)⟩
  · have hfirst := step_counted j breq ent (Nat.le_of_lt hlt)
    have hsum : c.x.toNat = c.copylen.toNat + (c.step j breq ent).copylen.toNat := by
      have := hfirst.x
      omega
    exact ⟨_, hend, hsum ▸ hfirst.trans (step_counted j breq ent (Nat.le_of_eq htwo))⟩

/-- `t` bytes of a request of `total` bytes, at the position `a` of a block, have been
copied, and none of the copies has ended where the first chunk does. -/
structure Overshooting (a total t : Nat) (c : Copying) : Prop where
  resid : c.resid.toNat + t = total
  x : c.x = 128 - BitVec.ofNat 32 t
  offset : c.offset.toNat % 128 = (a + t) % 128
  copied : t = 0 ∨ t + a = 128 ∨ 128 < t

theorem Overshooting.x_ne_zero {a total t : Nat} (h : Overshooting a total t c) (ha : 0 < a)
    (htotal : total < 2 ^ 32) : ¬ c.x = 0 := by
  have hresid := h.resid
  have hcopied := h.copied
  rw [x_eq_zero, h.x, BitVec.toNat_sub, BitVec.toNat_ofNat]
  simp only [BitVec.ofNat_eq_ofNat, BitVec.toNat_ofNat]
  omega

theorem Overshooting.step {a total t : Nat} (h : Overshooting a total t c) (ha : 0 < a)
    (ha' : a < 128) (htotal : 128 < total) :
    Overshooting a total (t + c.copylen.toNat) (c.step j breq ent) := by
  have hresid := h.resid
  have hoff := h.offset
  have hlen := c.copylen_toNat
  have hwide := widen_toNat c.copylen
  constructor
  case resid =>
    change (c.resid - c.copylen.setWidth 64).toNat + _ = _
    rw [BitVec.toNat_sub_of_le (by rw [BitVec.le_def, hwide]; omega), hwide]
    omega
  case x =>
    change c.x - c.copylen = _
    rw [h.x, BitVec.ofNat_add, BitVec.ofNat_toNat, BitVec.setWidth_eq, sub_sub]
  case offset =>
    change (c.offset + c.copylen.setWidth 64).toNat % 128 = _
    rw [BitVec.toNat_add, hwide]
    omega
  case copied =>
    have hcopied := h.copied
    omega

/-- The first chunk of a longer request that starts within a block ends within the
next one. The copy does not, so the chunk's count steps past zero. -/
theorem loop_overshoots (hborder : ¬ 128 ∣ c.offset.toNat) (hresid : 128 < c.resid.toNat)
    (hlt : c.resid.toNat < 2 ^ 32) (hx : c.x = 128) (fuel : Nat) :
    loop j breq ent fuel c = none := by
  have hstart : Overshooting (c.offset.toNat % 128) c.resid.toNat 0 c :=
    ⟨rfl, by simpa using hx, by simp, Or.inl rfl⟩
  have hmod := Nat.mod_lt c.offset.toNat (show 0 < 128 by decide)
  have hpos : 0 < c.offset.toNat % 128 := by omega
  generalize c.offset.toNat % 128 = a at hstart hmod hpos
  generalize c.resid.toNat = total at hstart hresid hlt
  generalize 0 = t at hstart
  clear hx hborder
  induction fuel generalizing c t with
  | zero => rw [loop, if_neg (hstart.x_ne_zero hpos hlt)]
  | succ fuel ih =>
      rw [loop_step (hstart.x_ne_zero hpos hlt)]
      exact ih _ (hstart.step hpos hmod hresid)

theorem loop_others {fuel : Nat} (h : loop j breq ent fuel c = some c') {b : BlockPtr}
    (hb : (c.store.blocks b).vaFileid ≠ c.store.fileid ent) :
    c'.store.blocks b = c.store.blocks b := by
  induction fuel generalizing c with
  | zero =>
      rw [loop] at h
      split at h
      · cases h
        rfl
      · cases h
  | succ fuel ih =>
      rw [loop] at h
      split at h
      · cases h
        rfl
      · have hsame : (c.step j breq ent).store.blocks b = c.store.blocks b := by
          cases hblock : c.block ent with
          | none => simp only [step, hblock, writeBytes]
          | some b' =>
              have hne : b ≠ b' := by
                rintro rfl
                exact hb (blockFetch_holds hblock).1
              simp only [step, hblock, writeBytes]
              exact setBlock_of_ne _ _ hne
        rw [ih h, hsame]
        rwa [hsame, fileid, (sameShape_step j breq ent c).entries]

end Step

end Copying

end WiiJoybus
