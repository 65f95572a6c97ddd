import WiiJoybus.Gba.Failures
import WiiJoybus.Gba.Untouched

/-!
Sizes on the wire and in the table.

A size is 64 bits wide in a request and 32 bits wide where the blocks are taken.
A file never has more blocks than there are, so a size the store has room for is
always one that the narrow parameter can carry.
-/

namespace WiiJoybus
namespace Store

/-- An answer without error means that the file has the size `want`, and a size there
is no room for has an error. -/
def Told (s : Store) (p : EntryPtr) (want : Nat) (err : Word) (s' : Store) : Prop :=
  (err = 0 → s'.size p = want) ∧ (¬ s.Room p want → err ≠ 0)

section Resizing

variable {s : Store} {p : EntryPtr} {n : Word}

theorem Room.lt {want : Nat} (hw : s.WellFormed) (hp : s.live p) (h : s.Room p want) :
    want < 2 ^ 32 := by
  have hle := numblocks_add_freeCount_le hw hp
  have hmax : blockMax = 1024 := rfl
  rcases h with h | h <;> omega

theorem room_of_le {want : Nat} (hw : s.WellFormed) (hp : s.live p) (h : want ≤ s.size p) :
    s.Room p want := by
  have hf := hw.files p hp
  have hsize := hf.size_eq
  have hdiv := Nat.div_le_div_right (c := 128) h
  rw [Room]
  rcases hf.extent with ⟨_, _⟩ | hext <;> omega

theorem entrySetsize_told (hw : s.WellFormed) (hp : s.live p) (n : Word) :
    s.Told p n.toNat (s.entrySetsize p n).1 (s.entrySetsize p n).2 := by
  have hr := entrySetsize_resized hw hp n
  refine ⟨hr.size, fun hroom => ?_⟩
  rwa [ne_eq, entrySetsize_eq_zero_iff hw hp]

/-- The answer to SETSIZE tells the truth exactly when there is room for the size. -/
theorem setsize_told_iff (hw : s.WellFormed) (hp : s.live p) (j : Junk) (req : SetattrReq)
    (hid : req.vaFileid = s.fileid p) :
    s.Told p req.vaSize.toNat (s.handleSetsizeRequest j req).1.err
        (s.handleSetsizeRequest j req).2 ↔ s.Room p req.vaSize.toNat := by
  have hreply : s.handleSetsizeRequest j req =
      ({ (j.uninit : SetattrResp) with
          err := 0
          vaFileid := ((s.entrySetsize p (req.vaSize.setWidth 32)).2.entries p).vaFileid
          vaSize := ((s.entrySetsize p (req.vaSize.setWidth 32)).2.entries p).vaSize
          vaBytes := ((s.entrySetsize p (req.vaSize.setWidth 32)).2.entries p).vaBytes },
        (s.entrySetsize p (req.vaSize.setWidth 32)).2) := by
    simp only [handleSetsizeRequest, hid, hw.findById hp]
  rw [hreply]
  refine ⟨fun h => not_not.mp fun hroom => h.2 hroom rfl, fun hroom => ?_⟩
  refine ⟨fun _ => ?_, fun h => absurd hroom h⟩
  have hwidth : (req.vaSize.setWidth 32).toNat = req.vaSize.toNat := by
    rw [BitVec.toNat_setWidth, Nat.mod_eq_of_lt (hroom.lt hw hp)]
  have htold := (entrySetsize_told hw hp (req.vaSize.setWidth 32)).1
  rw [entrySetsize_eq_zero_iff hw hp, hwidth] at htold
  exact htold hroom

end Resizing

section Preparing

variable {s : Store} {p : EntryPtr}

/-- The size an accepted WRITE leaves: the sum has 64 bits where it is compared, and
32 where it is stored. -/
def endSize (s : Store) (p : EntryPtr) (req : WriteReq) : Nat :=
  if s.size p < (req.offset.toNat + req.resid.toNat) % 2 ^ 64 then
    (req.offset.toNat + req.resid.toNat) % 2 ^ 32
  else s.size p

theorem prepare_of_lt (req : WriteReq)
    (h : s.size p < (req.offset.toNat + req.resid.toNat) % 2 ^ 64) :
    s.prepare p req = s.entrySetsize p ((req.offset + req.resid).setWidth 32) := by
  rw [prepare, if_pos]
  rwa [gt_iff_lt, BitVec.lt_def, BitVec.toNat_add]

theorem prepare_of_le (req : WriteReq)
    (h : (req.offset.toNat + req.resid.toNat) % 2 ^ 64 ≤ s.size p) :
    s.prepare p req = (0, s) := by
  rw [prepare, if_neg]
  rwa [gt_iff_lt, BitVec.lt_def, BitVec.toNat_add, not_lt]

theorem prepare_cases (s : Store) (p : EntryPtr) (req : WriteReq) :
    s.prepare p req = s.entrySetsize p ((req.offset + req.resid).setWidth 32) ∨
      s.prepare p req = (0, s) :=
  (Nat.lt_or_ge _ _).imp (prepare_of_lt req) (prepare_of_le req)

theorem prepare_kept (hw : s.WellFormed) (p : EntryPtr) (req : WriteReq) :
    (s.prepare p req).2.WellFormed ∧ (s.prepare p req).2.fileid p = s.fileid p := by
  rcases prepare_cases s p req with hprepare | hprepare
  · rw [hprepare]
    exact ⟨hw.entrySetsize p _, (sameTree_entrySetsize s p _).fileid p⟩
  · rw [hprepare]
    exact ⟨hw, rfl⟩

theorem prepare_fileOk (hw : s.WellFormed) (hp : s.live p) (req : WriteReq) :
    (s.prepare p req).2.FileOk p := by
  obtain ⟨hkept, hid⟩ := prepare_kept hw p req
  refine hkept.files p ?_
  change Store.fileid _ p ≠ 0
  rw [hid]
  exact hp

theorem sum_setWidth_toNat (a b : Word64) :
    ((a + b).setWidth 32 : Word).toNat = (a.toNat + b.toNat) % 2 ^ 32 := by
  rw [BitVec.toNat_setWidth, BitVec.toNat_add,
    Nat.mod_mod_of_dvd _ (show 2 ^ 32 ∣ 2 ^ 64 by decide)]

theorem prepare_eq_zero_iff (hw : s.WellFormed) (hp : s.live p) (req : WriteReq) :
    (s.prepare p req).1 = 0 ↔ s.Room p (s.endSize p req) := by
  by_cases h : s.size p < (req.offset.toNat + req.resid.toNat) % 2 ^ 64
  · rw [prepare_of_lt req h, entrySetsize_eq_zero_iff hw hp, sum_setWidth_toNat, endSize, if_pos h]
  · rw [prepare_of_le req (Nat.le_of_not_lt h), endSize, if_neg h]
    exact iff_of_true rfl (room_of_le hw hp (Nat.le_refl _))

theorem prepare_size (hw : s.WellFormed) (hp : s.live p) (req : WriteReq)
    (hok : (s.prepare p req).1 = 0) : (s.prepare p req).2.size p = s.endSize p req := by
  by_cases h : s.size p < (req.offset.toNat + req.resid.toNat) % 2 ^ 64
  · rw [prepare_of_lt req h] at hok ⊢
    rw [endSize, if_pos h, (entrySetsize_resized hw hp _).size hok, sum_setWidth_toNat]
  · rw [prepare_of_le req (Nat.le_of_not_lt h), endSize, if_neg h]

/-- The first answer to WRITE tells the truth exactly when the end of the request is a
32-bit number, or its lower half is refused as well. -/
theorem write_told_iff (hw : s.WellFormed) (hp : s.live p) (j : Junk) (req : WriteReq)
    (hid : req.fileid = s.fileid p) :
    s.Told p (max (s.size p) (req.offset.toNat + req.resid.toNat))
        (s.handleWriteRequest j req).1.err (s.handleWriteRequest j req).2.1 ↔
      req.offset.toNat + req.resid.toNat < 2 ^ 32 ∨
      s.size p < (req.offset.toNat + req.resid.toNat) % 2 ^ 64 ∧
        ¬ s.Room p ((req.offset.toNat + req.resid.toNat) % 2 ^ 32) := by
  have hsize := (hw.files p hp).size_lt
  have hfind : s.findById req.fileid = some p := hid ▸ hw.findById hp
  have hzero := prepare_eq_zero_iff hw hp req
  have hend := prepare_size hw hp req
  rw [handleWriteRequest_some hfind, Told]
  simp only [ne_eq, hzero] at hend ⊢
  rw [endSize] at hend hzero ⊢
  generalize req.offset.toNat + req.resid.toNat = total at *
  by_cases hfit : total < 2 ^ 32
  · -- neither width cuts anything off
    have hmax : (if s.size p < total % 2 ^ 64 then total % 2 ^ 32 else s.size p) =
        max (s.size p) total := by
      rw [Nat.mod_eq_of_lt hfit, Nat.mod_eq_of_lt (by omega)]
      split <;> omega
    rw [hmax] at hend ⊢
    exact iff_of_true ⟨hend, fun h => h⟩ (Or.inl hfit)
  · have hover : ¬ s.Room p (max (s.size p) total) := by
      intro h
      have := h.lt hw hp
      omega
    by_cases hgrow : s.size p < total % 2 ^ 64
    · rw [if_pos hgrow] at hend ⊢
      simp only [hover, not_false_iff, forall_true_left, hfit, hgrow, true_and, false_or,
        and_iff_right_iff_imp]
      exact fun hroom h => absurd h hroom
    · rw [if_neg hgrow]
      have hroom := room_of_le hw hp (Nat.le_refl (s.size p))
      simp only [hover, hroom, not_true, not_false_iff, forall_true_left, and_false, hfit, hgrow,
        false_and, or_self]

end Preparing

section Idle

variable {s : Store} {p : EntryPtr}

/-- A block taken for id 0 stays free, so one is enough. -/
theorem growLoop_idle_iff (left i : Nat) (s : Store) :
    (growLoop 0 left i s).1 = 0 ↔ left = 0 ∨ s.blockFree ≠ none := by
  induction left generalizing i s with
  | zero => simp [growLoop]
  | succ left ih =>
      rw [growLoop]
      cases hb : s.blockFree with
      | none => simp [enoblocksfree]
      | some b =>
          simp only [ih, Nat.add_one_ne_zero, ne_eq, reduceCtorEq, not_false_iff, or_true, iff_true]
          right
          intro hnone
          have := blockFree_eq_none hnone b
          simp at this

theorem blockFetch_cleared {b : BlockPtr} {i k : Nat}
    (hb : s.blockFetch 0 (BitVec.ofNat 32 i) = some b) (hik : i < k) (hk : k < 2 ^ 32) :
    (s.setBlock b .cleared).blockFetch 0 (BitVec.ofNat 32 k) =
      s.blockFetch 0 (BitVec.ofNat 32 k) := by
  refine blockFetch_congr fun b' => ?_
  by_cases heq : b' = b
  · have hidx := (blockFetch_holds hb).2
    have hold : ¬ s.holds 0 (BitVec.ofNat 32 k) b := by
      rintro ⟨_, hk'⟩
      have := ofNat_inj (by omega) (by omega) (hidx.symm.trans hk')
      omega
    have hnew : ¬ (s.setBlock b .cleared).holds 0 (BitVec.ofNat 32 k) b := by
      rintro ⟨_, hk'⟩
      rw [setBlock_self] at hk'
      have := ofNat_inj (by omega) (by omega) (show BitVec.ofNat 32 0 = BitVec.ofNat 32 k from hk')
      omega
    rw [heq]
    exact iff_of_false hnew hold
  · rw [holds, holds, setBlock_of_ne _ _ heq]

theorem shrinkLoop_idle_iff (left i : Nat) (s : Store) (hleft : i + left < 2 ^ 32) :
    (shrinkLoop 0 left i s).1 = 0 ↔
      ∀ k, i ≤ k → k < i + left → s.blockFetch 0 (BitVec.ofNat 32 k) ≠ none := by
  induction left generalizing i s with
  | zero =>
      refine iff_of_true rfl fun k hk hlt => ?_
      omega
  | succ left ih =>
      rw [shrinkLoop]
      cases hb : s.blockFetch 0 (BitVec.ofNat 32 i) with
      | none =>
          refine iff_of_false (show eblocknotfound ≠ 0 by decide) fun h => ?_
          exact h i (Nat.le_refl i) (by omega) hb
      | some b =>
          simp only
          rw [ih (i + 1) _ (by omega)]
          constructor
          · intro h k hk hlt
            rcases Nat.eq_or_lt_of_le hk with rfl | hik
            · rw [hb]
              exact Option.some_ne_none b
            · rw [← blockFetch_cleared hb hik (by omega)]
              exact h k hik (by omega)
          · intro h k hk hlt
            rw [blockFetch_cleared hb (by omega) (by omega)]
            exact h k (by omega) (by omega)

/-- The blocks that a resize looks for are there. A free slot, which has the id 0, keeps the
size of its last file. -/
def Resizable (s : Store) (p : EntryPtr) (n : Word) : Prop :=
  if (s.entries p).vaFileid ≠ 0 then s.Room p n.toNat
  else if shrinks (s.entries p) n then
    ∀ k, (newblocks n).toNat ≤ k → k < s.numblocks p → s.blockFetch 0 (BitVec.ofNat 32 k) ≠ none
  else needalloc (s.entries p) n = true → s.numblocks p < (newblocks n).toNat → s.blockFree ≠ none

theorem entrySetsize_err (s : Store) (p : EntryPtr) (n : Word) :
    (s.entrySetsize p n).1 = 0 ↔
      ((needalloc (s.entries p) n || shrinks (s.entries p) n) = true →
        (s.resizeBlocks (s.entries p) n).1 = 0) := by
  rw [entrySetsize_eq]
  by_cases hloop : (needalloc (s.entries p) n || shrinks (s.entries p) n) = true
  · rw [if_pos hloop]
    by_cases herr : (s.resizeBlocks (s.entries p) n).1 ≠ 0
    · rw [if_pos herr]
      exact iff_of_false herr fun h => herr (h hloop)
    · rw [if_neg herr]
      exact iff_of_true rfl fun _ => not_not.mp herr
  · rw [if_neg hloop]
    exact iff_of_true rfl fun h => absurd h hloop

theorem entrySetsize_ok_iff (hw : s.WellFormed) (p : EntryPtr) (n : Word) :
    (s.entrySetsize p n).1 = 0 ↔ s.Resizable p n := by
  rw [Resizable]
  by_cases hp : (s.entries p).vaFileid ≠ 0
  · rw [if_pos hp]
    exact entrySetsize_eq_zero_iff hw hp n
  · have hnum := s.numblocks_lt p
    have hnew := (newblocks n).isLt
    rw [if_neg hp, entrySetsize_err, resizeBlocks, not_not.mp hp]
    by_cases hshrink : shrinks (s.entries p) n = true
    · rw [if_pos hshrink, if_pos hshrink, hshrink, Bool.or_true, shrinkLoop_idle_iff _ _ _ (by
        change _ + (s.numblocks p - _) < _
        omega)]
      simp only [forall_true_left]
      change (∀ k, _ → k < _ + (s.numblocks p - _) → _) ↔ _
      refine forall_congr' fun k => forall_congr' fun hk => ?_
      rw [show k < (newblocks n).toNat + (s.numblocks p - (newblocks n).toNat) ↔
        k < s.numblocks p by omega]
    · rw [if_neg hshrink, if_neg hshrink, growLoop_idle_iff, Bool.or_eq_true, or_iff_left hshrink]
      refine forall_congr' fun _ => ?_
      change (newblocks n).toNat - s.numblocks p = 0 ∨ _ ↔ _
      rw [Nat.sub_eq_zero_iff_le, ← Nat.not_lt, ← imp_iff_not_or]

/-- A WRITE does not grow its file, or the blocks for that are there. -/
def Growable (s : Store) (p : EntryPtr) (offset resid : Word64) : Prop :=
  s.size p < (offset.toNat + resid.toNat) % 2 ^ 64 →
    s.Resizable p ((offset + resid).setWidth 32)

theorem prepare_ok_iff (hw : s.WellFormed) (p : EntryPtr) (req : WriteReq) :
    (s.prepare p req).1 = 0 ↔ s.Growable p req.offset req.resid := by
  by_cases h : s.size p < (req.offset.toNat + req.resid.toNat) % 2 ^ 64
  · rw [prepare_of_lt req h, entrySetsize_ok_iff hw]
    exact ⟨fun hr _ => hr, fun hg => hg h⟩
  · rw [prepare_of_le req (Nat.le_of_not_lt h)]
    exact iff_of_true rfl fun hlt => absurd hlt h

end Idle

end Store

end WiiJoybus
