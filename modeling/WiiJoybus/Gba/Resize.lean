import WiiJoybus.Gba.Change

/-!
What resizing does to the block table.

The allocation loop takes free blocks one by one, the release loop gives back
the block of each index. Both are described by the blocks they touched, so that
no later proof has to look at the loops again.
-/

namespace WiiJoybus
namespace Store

/-- `m` free blocks have been taken for the indices from `i` on. -/
structure Taken (fileid : Word) (i m : Nat) (s s' : Store) : Prop where
  entries : s'.entries = s.entries
  id : s'.id = s.id
  slots : ∃ f : Nat → BlockPtr,
    (∀ k < m, (s.blocks (f k)).vaFileid = 0 ∧
      s'.blocks (f k) = ⟨fileid, BitVec.ofNat 32 (i + k), fun _ => 0⟩) ∧
    (∀ k < m, ∀ k' < m, f k = f k' → k = k') ∧
    ∀ b, (∀ k < m, f k ≠ b) → s'.blocks b = s.blocks b

/-- The blocks of the `m` indices from `i` on have been given back. -/
structure Released (fileid : Word) (i m : Nat) (s s' : Store) : Prop where
  entries : s'.entries = s.entries
  id : s'.id = s.id
  slots : ∃ f : Nat → BlockPtr,
    (∀ k < m, s.blockFetch fileid (BitVec.ofNat 32 (i + k)) = some (f k) ∧
      s'.blocks (f k) = .cleared) ∧
    ∀ b, (∀ k < m, f k ≠ b) → s'.blocks b = s.blocks b

/-- Owned blocks are as they were, free ones are still free. -/
structure SameOwned (s s' : Store) : Prop where
  entries : s'.entries = s.entries
  id : s'.id = s.id
  owned : ∀ b, (s.blocks b).vaFileid ≠ 0 → s'.blocks b = s.blocks b
  free : ∀ b, (s.blocks b).vaFileid = 0 → (s'.blocks b).vaFileid = 0

section Touched

variable {fileid idx : Word} {i m : Nat} {s s' : Store} {b : BlockPtr}

theorem Taken.cases (h : Taken fileid i m s s') (b : BlockPtr) :
    s'.blocks b = s.blocks b ∨ (s.blocks b).vaFileid = 0 ∧
      ∃ k < m, s'.blocks b = ⟨fileid, BitVec.ofNat 32 (i + k), fun _ => 0⟩ := by
  obtain ⟨f, hf, _, hrest⟩ := h.slots
  by_cases hb : ∃ k < m, f k = b
  · obtain ⟨k, hk, rfl⟩ := hb
    exact Or.inr ⟨(hf k hk).1, k, hk, (hf k hk).2⟩
  · push Not at hb
    exact Or.inl (hrest b hb)

theorem Taken.owned (h : Taken fileid i m s s') (hb : (s.blocks b).vaFileid ≠ 0) :
    s'.blocks b = s.blocks b := by
  rcases h.cases b with h | ⟨h, _⟩
  · exact h
  · exact absurd h hb

theorem Taken.holds (h : Taken fileid i m s s') {k : Nat} (hk : k < m) :
    ∃ b, s'.blocks b = ⟨fileid, BitVec.ofNat 32 (i + k), fun _ => 0⟩ := by
  obtain ⟨f, hf, _⟩ := h.slots
  exact ⟨f k, (hf k hk).2⟩

theorem Released.cases (h : Released fileid i m s s') (b : BlockPtr) :
    s'.blocks b = s.blocks b ∨ s'.blocks b = .cleared ∧
      ∃ k < m, s.blockFetch fileid (BitVec.ofNat 32 (i + k)) = some b := by
  obtain ⟨f, hf, hrest⟩ := h.slots
  by_cases hb : ∃ k < m, f k = b
  · obtain ⟨k, hk, rfl⟩ := hb
    exact Or.inr ⟨(hf k hk).2, k, hk, (hf k hk).1⟩
  · push Not at hb
    exact Or.inl (hrest b hb)

theorem Released.other (h : Released fileid i m s s') (hb : (s.blocks b).vaFileid ≠ fileid) :
    s'.blocks b = s.blocks b := by
  rcases h.cases b with h | ⟨_, k, _, h⟩
  · exact h
  · exact absurd (blockFetch_holds h).1 hb

theorem Released.kept (h : Released fileid i m s s')
    (hb : ∀ k < m, (s.blocks b).idx ≠ BitVec.ofNat 32 (i + k)) : s'.blocks b = s.blocks b := by
  rcases h.cases b with h | ⟨_, k, hk, h⟩
  · exact h
  · exact absurd (blockFetch_holds h).2 (hb k hk)

end Touched

theorem growLoop_none {fileid : Word} {left i : Nat} {s : Store} (h : s.blockFree = none) :
    growLoop fileid (left + 1) i s = (enoblocksfree, s) := by
  rw [growLoop, h]

theorem growLoop_some {fileid : Word} {left i : Nat} {s : Store} {b : BlockPtr}
    (h : s.blockFree = some b) :
    growLoop fileid (left + 1) i s =
      growLoop fileid left (i + 1)
        (s.setBlock b ⟨fileid, BitVec.ofNat 32 i, fun _ => 0⟩) := by
  rw [growLoop, h]

theorem shrinkLoop_none {fileid : Word} {left i : Nat} {s : Store}
    (h : s.blockFetch fileid (BitVec.ofNat 32 i) = none) :
    shrinkLoop fileid (left + 1) i s = (eblocknotfound, s) := by
  rw [shrinkLoop, h]

theorem shrinkLoop_some {fileid : Word} {left i : Nat} {s : Store} {b : BlockPtr}
    (h : s.blockFetch fileid (BitVec.ofNat 32 i) = some b) :
    shrinkLoop fileid (left + 1) i s =
      shrinkLoop fileid left (i + 1) (s.setBlock b .cleared) := by
  rw [shrinkLoop, h]

theorem Taken.zero (fileid : Word) (i : Nat) (s : Store) : Taken fileid i 0 s s where
  entries := rfl
  id := rfl
  slots := ⟨fun _ => ⟨0, by decide⟩, by simp, by simp, by simp⟩

theorem Released.zero (fileid : Word) (i : Nat) (s : Store) : Released fileid i 0 s s where
  entries := rfl
  id := rfl
  slots := ⟨fun _ => ⟨0, by decide⟩, by simp, by simp⟩

theorem Taken.cons {fileid : Word} (hid : fileid ≠ 0) {i m : Nat} {s s' : Store} {b : BlockPtr}
    (hb : (s.blocks b).vaFileid = 0)
    (h : Taken fileid (i + 1) m (s.setBlock b ⟨fileid, BitVec.ofNat 32 i, fun _ => 0⟩) s') :
    Taken fileid i (m + 1) s s' := by
  obtain ⟨f, hf, hinj, hrest⟩ := h.slots
  have hne : ∀ k < m, f k ≠ b := by
    intro k hk heq
    have := (hf k hk).1
    rw [heq, setBlock_self] at this
    exact hid this
  refine ⟨h.entries, h.id, fun k => Nat.casesOn k b f, ?_, ?_, ?_⟩
  · intro k hk
    cases k with
    | zero => exact ⟨hb, (hrest b hne).trans (setBlock_self s b _)⟩
    | succ k =>
        obtain ⟨hfree, hset⟩ := hf k (by omega)
        rw [setBlock_of_ne _ _ (hne k (by omega))] at hfree
        exact ⟨hfree, by simpa [Nat.add_right_comm, Nat.add_assoc] using hset⟩
  · intro k hk k' hk' heq
    cases k with
    | zero =>
        cases k' with
        | zero => rfl
        | succ k' => exact absurd heq.symm (hne k' (by omega))
    | succ k =>
        cases k' with
        | zero => exact absurd heq (hne k (by omega))
        | succ k' => rw [hinj k (by omega) k' (by omega) heq]
  · intro b' hb'
    have hb'b : b' ≠ b := fun heq => hb' 0 (by omega) heq.symm
    rw [hrest b' fun k hk => hb' (k + 1) (by omega), setBlock_of_ne _ _ hb'b]

/-- Allocation succeeds, or takes every free block there is. -/
theorem growLoop_taken {fileid : Word} (hid : fileid ≠ 0) (left i : Nat) (s : Store) :
    ∃ m, Taken fileid i m s (growLoop fileid left i s).2 ∧
      ((growLoop fileid left i s).1 = 0 ∧ m = left ∨
        (growLoop fileid left i s).1 = enoblocksfree ∧ m < left ∧
          ∀ b, ((growLoop fileid left i s).2.blocks b).vaFileid ≠ 0) := by
  induction left generalizing i s with
  | zero => exact ⟨0, .zero fileid i s, Or.inl ⟨rfl, rfl⟩⟩
  | succ left ih =>
      cases hb : s.blockFree with
      | none =>
          rw [growLoop_none hb]
          exact ⟨0, .zero fileid i s, Or.inr ⟨rfl, by omega, blockFree_eq_none hb⟩⟩
      | some b =>
          rw [growLoop_some hb]
          obtain ⟨m, htaken, hend⟩ :=
            ih (i + 1) (s.setBlock b ⟨fileid, BitVec.ofNat 32 i, fun _ => 0⟩)
          refine ⟨m + 1, .cons hid (blockFree_fileid hb) htaken, ?_⟩
          rcases hend with ⟨herr, hm⟩ | ⟨herr, hm, hfull⟩
          · exact Or.inl ⟨herr, by omega⟩
          · exact Or.inr ⟨herr, by omega, hfull⟩

theorem ofNat_inj {a b : Nat} (ha : a < 2 ^ 32) (hb : b < 2 ^ 32)
    (h : BitVec.ofNat 32 a = BitVec.ofNat 32 b) : a = b := by
  have := congrArg BitVec.toNat h
  rwa [BitVec.toNat_ofNat, BitVec.toNat_ofNat, Nat.mod_eq_of_lt ha, Nat.mod_eq_of_lt hb] at this

theorem blockFetch_setBlock_cleared {fileid idx idx' : Word} (hid : fileid ≠ 0) {s : Store}
    {b : BlockPtr} (hb : s.holds fileid idx b) (hne : idx' ≠ idx) :
    (s.setBlock b .cleared).blockFetch fileid idx' = s.blockFetch fileid idx' := by
  apply blockFetch_congr
  intro b'
  by_cases h : b' = b
  · subst h
    simp only [holds, setBlock_self]
    constructor
    · rintro ⟨h, _⟩
      exact absurd h.symm hid
    · rintro ⟨_, h⟩
      exact absurd (h.symm.trans hb.2) hne
  · simp only [holds, setBlock_of_ne _ _ h]

/-- Release succeeds when every index it visits has its block. -/
theorem shrinkLoop_released {fileid : Word} (hid : fileid ≠ 0) (left i : Nat) (s : Store)
    (hbound : i + left ≤ 2 ^ 32)
    (hmapped : ∀ k < left, s.blockFetch fileid (BitVec.ofNat 32 (i + k)) ≠ none) :
    (shrinkLoop fileid left i s).1 = 0 ∧
      Released fileid i left s (shrinkLoop fileid left i s).2 := by
  induction left generalizing i s with
  | zero => exact ⟨rfl, .zero fileid i s⟩
  | succ left ih =>
      cases hb : s.blockFetch fileid (BitVec.ofNat 32 i) with
      | none => exact absurd hb (hmapped 0 (by omega))
      | some b =>
          rw [shrinkLoop_some hb]
          have hfetch : ∀ k < left,
              (s.setBlock b .cleared).blockFetch fileid (BitVec.ofNat 32 (i + 1 + k)) =
                s.blockFetch fileid (BitVec.ofNat 32 (i + (k + 1))) := by
            intro k hk
            rw [blockFetch_setBlock_cleared hid (blockFetch_holds hb),
              show i + 1 + k = i + (k + 1) by omega]
            intro heq
            have := ofNat_inj (by omega) (by omega) heq
            omega
          obtain ⟨herr, hrel⟩ := ih (i + 1) (s.setBlock b .cleared) (by omega) (by
            intro k hk
            rw [hfetch k hk]
            exact hmapped (k + 1) (by omega))
          obtain ⟨f, hf, hrest⟩ := hrel.slots
          have hne : ∀ k < left, f k ≠ b := by
            intro k hk heq
            have := blockFetch_holds (hf k hk).1
            rw [heq, holds, setBlock_self] at this
            exact hid this.1.symm
          refine ⟨herr, hrel.entries, hrel.id, fun k => Nat.casesOn k b f, ?_, ?_⟩
          · intro k hk
            cases k with
            | zero => exact ⟨hb, (hrest b hne).trans (setBlock_self s b _)⟩
            | succ k =>
                obtain ⟨hget, hset⟩ := hf k (by omega)
                exact ⟨by rw [← hget, hfetch k (by omega)], hset⟩
          · intro b' hb'
            have hb'b : b' ≠ b := fun heq => hb' 0 (by omega) heq.symm
            rw [hrest b' fun k hk => hb' (k + 1) (by omega), setBlock_of_ne _ _ hb'b]

theorem SameOwned.refl (s : Store) : SameOwned s s :=
  ⟨rfl, rfl, fun _ _ => rfl, fun _ h => h⟩

theorem SameOwned.trans {s s' t : Store} (h : SameOwned s s') (h' : SameOwned s' t) :
    SameOwned s t where
  entries := h'.entries.trans h.entries
  id := h'.id.trans h.id
  owned b hb := by rw [h'.owned b (by rwa [h.owned b hb]), h.owned b hb]
  free b hb := h'.free b (h.free b hb)

theorem sameOwned_setBlock {s : Store} {b : BlockPtr} {v : GbaBlock}
    (hb : (s.blocks b).vaFileid = 0) (hv : v.vaFileid = 0) : SameOwned s (s.setBlock b v) where
  entries := rfl
  id := rfl
  owned b' hb' := setBlock_of_ne _ _ fun h => hb' (h ▸ hb)
  free b' hb' := by
    rw [setBlock_apply]
    split
    · exact hv
    · exact hb'

/-- Resizing a slot that is not in use moves no block that is. -/
theorem growLoop_zero (left i : Nat) (s : Store) : SameOwned s (growLoop 0 left i s).2 := by
  induction left generalizing i s with
  | zero => exact .refl s
  | succ left ih =>
      cases hb : s.blockFree with
      | none =>
          rw [growLoop_none hb]
          exact .refl s
      | some b =>
          rw [growLoop_some hb]
          exact (sameOwned_setBlock (blockFree_fileid hb) rfl).trans (ih _ _)

theorem shrinkLoop_zero (left i : Nat) (s : Store) : SameOwned s (shrinkLoop 0 left i s).2 := by
  induction left generalizing i s with
  | zero => exact .refl s
  | succ left ih =>
      cases hb : s.blockFetch 0 (BitVec.ofNat 32 i) with
      | none =>
          rw [shrinkLoop_none hb]
          exact .refl s
      | some b =>
          rw [shrinkLoop_some hb]
          exact (sameOwned_setBlock (blockFetch_holds hb).1 rfl).trans (ih _ _)

end Store

end WiiJoybus
