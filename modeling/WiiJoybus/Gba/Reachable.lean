import WiiJoybus.Gba.Setsize

/-!
Every reachable store is well formed.

Reclaiming is the step to watch: the entry loop has zeroed the id by the time
the block loop compares with it, so it is free blocks that are cleared, and the
entry's own stay owned by an id that is never issued again.
-/

namespace WiiJoybus
namespace Store

/-- The slot is free again; everything else in it stays. -/
def retire (s : Store) (p : EntryPtr) : Store :=
  s.setEntry p { s.entries p with vaFileid := 0 }

section Reclaim

variable {s s' : Store} {p q : EntryPtr}

theorem setEntry_entries_self (s : Store) (p : EntryPtr) : s.setEntry p (s.entries p) = s := by
  rw [setEntry, Function.update_eq_self]

theorem retire_of_free (h : ¬ s.live p) : s.retire p = s := by
  have hid : (s.entries p).vaFileid = 0 := not_not.mp h
  have hsame : { s.entries p with vaFileid := 0 } = s.entries p := by rw [← hid]
  rw [retire, hsame, setEntry_entries_self]

theorem retire_fileid (s : Store) (p q : EntryPtr) :
    (s.retire p).fileid q = if q = p then 0 else s.fileid q := by
  rw [fileid, retire, setEntry_apply]
  split <;> rfl

theorem retire_entries_of_ne (h : q ≠ p) : (s.retire p).entries q = s.entries q :=
  setEntry_of_ne _ _ h

/-- Once the id is zero, the rest of the loop only zeroes zeros. -/
theorem foldl_reclaimEntry_free (h : ¬ s.live p) (l : List EntryPtr) :
    l.foldl (reclaimEntry p) s = s := by
  have hid : (s.entries p).vaFileid = 0 := not_not.mp h
  induction l with
  | nil => rfl
  | cons i l ih =>
      have hstep : reclaimEntry p s i = s := by
        rw [reclaimEntry, hid]
        split
        · rename_i hi
          exact retire_of_free (not_not.mpr hi)
        · rfl
      rw [List.foldl_cons, hstep, ih]

theorem foldl_reclaimEntry (hu : ∀ q, q ≠ p → s.fileid q ≠ s.fileid p) (l : List EntryPtr)
    (hp : p ∈ l) : l.foldl (reclaimEntry p) s = s.retire p := by
  induction l with
  | nil => cases hp
  | cons i l ih =>
      rw [List.foldl_cons]
      by_cases hi : i = p
      · subst hi
        have hstep : reclaimEntry i s i = s.retire i := if_pos rfl
        rw [hstep]
        apply foldl_reclaimEntry_free
        have := retire_fileid s i i
        rw [if_pos rfl] at this
        exact not_not.mpr this
      · have hstep : reclaimEntry p s i = s := if_neg (hu i hi)
        rw [hstep]
        exact ih (List.mem_of_ne_of_mem (Ne.symm hi) hp)

theorem sameOwned_reclaimBlocks (h : ¬ s.live p) : SameOwned s (reclaimBlocks p s) where
  entries := rfl
  id := rfl
  owned b hb := by
    have hid : (s.entries p).vaFileid = 0 := not_not.mp h
    rw [reclaimBlocks]
    exact if_neg (by rwa [hid])
  free b hb := by
    rw [reclaimBlocks]
    simp only
    split
    · rfl
    · exact hb

/-- What reclaiming does: the slot is freed, and no owned block. -/
theorem entryReclaim_sameOwned (hw : s.WellFormed) (p : EntryPtr) :
    SameOwned (s.retire p) (s.entryReclaim p) := by
  have hloop : (List.finRange entriesMax).foldl (reclaimEntry p) s = s.retire p := by
    by_cases hp : s.live p
    · refine foldl_reclaimEntry ?_ _ (List.mem_finRange p)
      intro q hq heq
      exact hq (hw.unique p q hp heq)
    · rw [foldl_reclaimEntry_free hp, retire_of_free hp]
  rw [entryReclaim, hloop]
  apply sameOwned_reclaimBlocks
  have := retire_fileid s p p
  rw [if_pos rfl] at this
  exact not_not.mpr this

theorem entryReclaim_fileid (hw : s.WellFormed) (p q : EntryPtr) :
    (s.entryReclaim p).fileid q = if q = p then 0 else s.fileid q := by
  rw [fileid, (entryReclaim_sameOwned hw p).entries]
  exact retire_fileid s p q

theorem WellFormed.retire (hw : s.WellFormed) (p : EntryPtr) : (s.retire p).WellFormed where
  counter_pos := hw.counter_pos
  counter_le := hw.counter_le
  issued q := by
    rw [retire_fileid]
    split
    · exact hw.counter_pos
    · exact hw.issued q
  owners := hw.owners
  unique q r hq hr := by
    change (s.retire p).fileid q ≠ 0 at hq
    rw [retire_fileid] at hq
    rw [retire_fileid, retire_fileid] at hr
    by_cases hqp : q = p
    · exact absurd (if_pos hqp) hq
    · rw [if_neg hqp] at hq hr
      by_cases hrp : r = p
      · rw [if_pos hrp] at hr
        exact absurd hr.symm hq
      · rw [if_neg hrp] at hr
        exact hw.unique q r hq hr
  files q hq := by
    change (s.retire p).fileid q ≠ 0 at hq
    rw [retire_fileid] at hq
    by_cases hqp : q = p
    · exact absurd (if_pos hqp) hq
    · rw [if_neg hqp] at hq
      have hsame := retire_entries_of_ne (s := s) hqp
      refine (hw.files q hq).congr ?_ ?_ ?_ fun b _ => ⟨rfl, rfl⟩
      · rw [fileid, hsame, fileid]
      · rw [hsame]
      · rw [hsame]

theorem WellFormed.entryReclaim (hw : s.WellFormed) (p : EntryPtr) :
    (s.entryReclaim p).WellFormed :=
  (hw.retire p).sameOwned (entryReclaim_sameOwned hw p)

theorem WellFormed.change {m : Message} (hw : s.WellFormed) (h : s.Change m s') :
    s'.WellFormed := by
  cases h with
  | keep => exact hw
  | create _ hp hi ha =>
      obtain ⟨_, hid, rfl⟩ := entryInit_some hi
      exact ((hw.initAt hid).sameFiles (sameFiles_entryAppend ha)).sameFiles
        (sameFiles_setName _ _ _ _)
  | remove _ h => exact hw.sameFiles (sameFiles_entryRemove h)
  | reclaim _ => exact hw.entryReclaim _
  | resize _ => exact hw.entrySetsize _ _
  | copy _ h => exact hw.sameShape h

end Reclaim

section Boot

theorem blank_fileid (p : EntryPtr) : blank.fileid p = 0 := rfl

theorem blank_wellFormed : blank.WellFormed where
  counter_pos := Nat.le_refl 1
  counter_le := by decide
  issued _ := Nat.one_pos
  owners _ := Nat.one_pos
  unique p _ hp _ := absurd (blank_fileid p) hp
  files p hp := absurd (blank_fileid p) hp

theorem boot_some {rootGen testGen : Word64} {s : Store} (h : boot rootGen testGen = some s) :
    ∃ root s₁ test s₂ s₃, blank.entryInit .dir rootGen = some (some root, s₁) ∧
      s₁.entryInit .reg testGen = some (some test, s₂) ∧ s₂.entryAppend root test = some s₃ ∧
      s = s₃.setEntry test { s₃.entries test with
        name := CString.snprintf (fun text => text) testName (s₃.entries test).name } := by
  simp only [boot] at h
  split at h
  · rename_i root s₁ hroot
    split at h
    · rename_i test s₂ htest
      split at h
      · rename_i s₃ happ
        cases h
        exact ⟨root, s₁, test, s₂, s₃, hroot, htest, happ, rfl⟩
      · cases h
    · cases h
  · cases h

theorem boot_wellFormed {rootGen testGen : Word64} {s : Store}
    (h : boot rootGen testGen = some s) : s.WellFormed := by
  obtain ⟨root, s₁, test, s₂, s₃, hroot, htest, happ, rfl⟩ := boot_some h
  obtain ⟨_, hid₁, rfl⟩ := entryInit_some hroot
  obtain ⟨_, hid₂, rfl⟩ := entryInit_some htest
  exact (((blank_wellFormed.initAt hid₁).initAt hid₂).sameFiles
    (sameFiles_entryAppend happ)).sameFiles (sameFiles_setEntry _ _ _ rfl rfl rfl)

end Boot

theorem Reachable.wellFormed {s : Store} (h : s.Reachable) : s.WellFormed := by
  obtain ⟨phase, h⟩ := h
  exact Gba.Reachable.invariant (fun _ _ _ => boot_wellFormed) (fun _ _ _ hw => hw.change) h

end Store

end WiiJoybus
