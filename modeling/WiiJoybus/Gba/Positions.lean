import WiiJoybus.Gba.Copy

/-!
Where the bytes of a write go.

The offset of a write has 64 bits and the number of a block 32, so an offset leads
to the position that its lower 39 bits make. A copy to a block that is not there
misses the store, and one to a block past the end of the file changes nothing in it.
-/

namespace WiiJoybus
open ByteMemory Store

/-- The position in a file an offset leads to. -/
def position (offset : Word64) : Nat := offset.toNat % 2 ^ 39

theorem position_add {offset : Word64} {n : Nat} (h : position offset + n < 2 ^ 39) :
    position (offset + BitVec.ofNat 64 n) = position offset + n := by
  have := offset.isLt
  rw [position] at h ⊢
  rw [position, BitVec.toNat_add, BitVec.toNat_ofNat]
  omega

theorem position_block (offset : Word64) :
    (blocknum offset pbaBlockshift).setWidth 32 = BitVec.ofNat 32 (position offset / 128) := by
  apply BitVec.eq_of_toNat_eq
  rw [BitVec.toNat_setWidth, blocknum_toNat, BitVec.toNat_ofNat, position]
  omega

namespace Copying

/-- From `c` to `c'` the next `n` bytes of the chunk have been copied, as far as there are blocks
for them. -/
structure Placed (j : Junk) (breq : WriteBufReq) (ent : EntryPtr) (n : Nat) (c c' : Copying) :
    Prop where
  shape : SameShape c.store c'.store
  moved : position c'.offset = position c.offset + n
  resid : c'.resid.toNat + n = c.resid.toNat
  x : c'.x = c.x - BitVec.ofNat 32 n
  src : c'.src = c.src + n
  bytes : ∀ k < c.store.size ent, c'.store.fileByte ent k =
    if position c.offset ≤ k ∧ k < position c.offset + n then
      source j breq (c.src + (k - position c.offset))
    else c.store.fileByte ent k

/-- From `c` to `c'` the next `n` bytes of the chunk have been copied. -/
structure Copied (j : Junk) (breq : WriteBufReq) (ent : EntryPtr) (n : Nat) (c c' : Copying) :
    Prop where
  shape : SameShape c.store c'.store
  offset : c'.offset.toNat = c.offset.toNat + n
  resid : c'.resid.toNat + n = c.resid.toNat
  x : c'.x.toNat + n = c.x.toNat
  src : c'.src = c.src + n
  bytes : ∀ k < c.store.size ent, c'.store.fileByte ent k =
    if c.offset.toNat ≤ k ∧ k < c.offset.toNat + n then
      source j breq (c.src + (k - c.offset.toNat))
    else c.store.fileByte ent k

section Placed

variable {j : Junk} {breq : WriteBufReq} {ent : EntryPtr} {c c' c'' : Copying} {n n' : Nat}

theorem Placed.refl (j : Junk) (breq : WriteBufReq) (ent : EntryPtr) (c : Copying) :
    Placed j breq ent 0 c c where
  shape := .refl _
  moved := rfl
  resid := rfl
  x := (BitVec.sub_zero c.x).symm
  src := rfl
  bytes k _ := by rw [if_neg (by omega)]

theorem Placed.trans (h : Placed j breq ent n c c') (h' : Placed j breq ent n' c' c'') :
    Placed j breq ent (n + n') c c'' where
  shape := h.shape.trans h'.shape
  moved := by rw [h'.moved, h.moved, Nat.add_assoc]
  resid := by rw [← h.resid, ← h'.resid]; omega
  x := by rw [h'.x, h.x, BitVec.ofNat_add, sub_sub]
  src := by rw [h'.src, h.src, Nat.add_assoc]
  bytes k hk := by
    have hsize : c'.store.size ent = c.store.size ent := by
      rw [Store.size, Store.size, h.shape.entries]
    have hpos := h.moved
    rw [h'.bytes k (by rwa [hsize]), h.bytes k hk, hpos, h.src]
    by_cases hlo : position c.offset ≤ k
    · by_cases hmid : k < position c.offset + n
      · rw [if_neg (by omega), if_pos ⟨hlo, hmid⟩, if_pos ⟨hlo, by omega⟩]
      · by_cases hhi : k < position c.offset + n + n'
        · rw [if_pos ⟨by omega, hhi⟩, if_pos ⟨hlo, by omega⟩]
          congr 1
          omega
        · rw [if_neg (by omega), if_neg (by omega), if_neg (by omega)]
    · rw [if_neg (by omega), if_neg (by omega), if_neg (by omega)]

theorem Placed.fileOk (h : Placed j breq ent n c c') (hf : c.store.FileOk ent) :
    c'.store.FileOk ent := by
  have hentries := h.shape.entries
  exact hf.congr (by rw [fileid, fileid, hentries]) (by rw [hentries]) (by rw [hentries])
    fun b _ => ⟨h.shape.fileid b, h.shape.idx b⟩

/-- An iteration copies within one block, and only what is within the file can be read back. -/
theorem step_placed (j : Junk) (breq : WriteBufReq) (hf : c.store.FileOk ent)
    (hend : position c.offset + c.resid.toNat < 2 ^ 39) :
    Placed j breq ent c.copylen.toNat c (c.step j breq ent) := by
  have hlen := c.copylen_toNat
  have hoff := blockoff_toNat c.offset
  have hmod : position c.offset % 128 = c.offset.toNat % 128 := by
    rw [position]
    omega
  have hwide : c.copylen.setWidth 64 = BitVec.ofNat 64 c.copylen.toNat := by
    apply BitVec.eq_of_toNat_eq
    rw [BitVec.toNat_setWidth, BitVec.toNat_ofNat]
  constructor
  case shape => exact sameShape_step j breq ent c
  case moved =>
    change position (c.offset + c.copylen.setWidth 64) = _
    rw [hwide, position_add (by omega)]
  case resid =>
    have hnat := widen_toNat c.copylen
    change (c.resid - c.copylen.setWidth 64).toNat + _ = _
    rw [BitVec.toNat_sub_of_le (by rw [BitVec.le_def, hnat]; omega), hnat]
    omega
  case x =>
    change c.x - c.copylen = _
    rw [BitVec.ofNat_toNat, BitVec.setWidth_eq]
  case src => rfl
  case bytes =>
    intro k hk
    have hblock : c.block ent =
        c.store.blockFetch (c.store.fileid ent) (BitVec.ofNat 32 (position c.offset / 128)) := by
      rw [block, position_block]
      rfl
    cases hfetch : c.block ent with
    | none =>
        -- a position within the file has a block
        have hout : ¬ (position c.offset ≤ k ∧ k < position c.offset + c.copylen.toNat) := by
          intro hin
          have hsame : k / 128 = position c.offset / 128 := by omega
          refine hf.blockFetch_ne_none (hf.block_lt hk) ?_
          rw [hsame, ← hblock]
          exact hfetch
        rw [if_neg hout]
        simp only [step, hfetch, writeBytes]
    | some b =>
        have hwrite := fileByte_writeBytes (fun k => source j breq (c.src + k)) hf
          (hblock.symm.trans hfetch) (show position c.offset / 128 < 2 ^ 32 by omega)
          (show c.offset.toNat % 128 + c.copylen.toNat ≤ 128 by omega) hk
        have hsplit : position c.offset / 128 * 128 + c.offset.toNat % 128 = position c.offset := by
          omega
        rw [hsplit] at hwrite
        simp only [step, hfetch, hoff]
        exact hwrite

theorem loop_placed {fuel : Nat} (h : loop j breq ent fuel c = some c')
    (hf : c.store.FileOk ent) (hend : position c.offset + c.resid.toNat < 2 ^ 39) :
    c'.x = 0 ∧ ∃ n, Placed j breq ent n c c' := by
  induction fuel generalizing c with
  | zero =>
      rw [loop] at h
      split at h
      · cases h
        exact ⟨‹_›, 0, .refl j breq ent _⟩
      · cases h
  | succ fuel ih =>
      rw [loop] at h
      split at h
      · cases h
        exact ⟨‹_›, 0, .refl j breq ent _⟩
      · have hstep := step_placed j breq hf hend
        have hmoved := hstep.moved
        have hresid := hstep.resid
        obtain ⟨hx, n, hrest⟩ := ih h (hstep.fileOk hf) (by omega)
        exact ⟨hx, _, hstep.trans hrest⟩

/-- A chunk from which no byte beyond it has been taken has been copied whole. -/
theorem Placed.whole (h : Placed j breq ent n c c') (hx : c'.x = 0) (hsrc : c'.src ≤ c.x.toNat)
    (hzero : c.src = 0) : n = c.x.toNat := by
  have hlt := c.x.isLt
  have hn := h.src
  have hcount : BitVec.ofNat 32 n = c.x := by
    have hdiff := h.x
    rw [hx] at hdiff
    exact (sub_eq_zero.mp hdiff.symm).symm
  rw [← hcount, BitVec.toNat_ofNat, Nat.mod_eq_of_lt (by omega)]

theorem loop_copied (j : Junk) (breq : WriteBufReq) (hf : c.store.FileOk ent)
    (hpos : 0 < c.resid.toNat) (hfit : c.offset.toNat + c.resid.toNat ≤ c.store.size ent)
    (hx : c.x.toNat = min c.resid.toNat 128)
    (hborder : 128 ∣ c.offset.toNat ∨ c.resid.toNat ≤ 128) {fuel : Nat} (hfuel : 2 ≤ fuel) :
    ∃ c', loop j breq ent fuel c = some c' ∧ Copied j breq ent c.x.toNat c c' := by
  obtain ⟨c', hloop, hcounted⟩ := loop_counted j breq ent hpos hx hborder hfuel
  have hsize := hf.size_lt
  have hstart : position c.offset = c.offset.toNat := by
    rw [position]
    omega
  obtain ⟨_, n, hplaced⟩ := loop_placed hloop hf (by omega)
  obtain rfl : n = c.x.toNat := by
    have hsrc := hplaced.src
    rw [hcounted.src] at hsrc
    omega
  refine ⟨c', hloop, ?_⟩
  constructor
  case shape => exact hplaced.shape
  case offset =>
    rw [hcounted.offset, BitVec.toNat_add, BitVec.toNat_ofNat]
    omega
  case resid => exact hcounted.resid
  case x => exact hcounted.x
  case src => exact hcounted.src
  case bytes =>
    intro k hk
    rw [hplaced.bytes k hk, hstart]

end Placed

end Copying

end WiiJoybus
