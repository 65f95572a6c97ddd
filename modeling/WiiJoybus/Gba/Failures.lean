import WiiJoybus.Gba.Contents
import WiiJoybus.Gba.Leaks

/-!
Resizes that fail.

Allocation takes free blocks until it has enough or none is left, and what it has
taken it keeps. So a failure is without effect only when there was nothing to
take; in runs without such half-done growths no index ever has two blocks.
-/

namespace WiiJoybus
namespace Store

/-- There are enough blocks for the size; size zero takes none. -/
def Room (s : Store) (p : EntryPtr) (n : Nat) : Prop :=
  n = 0 ∨ n / 128 + 1 ≤ s.numblocks p + s.freeCount

/-- If the resize fails, it changes nothing. -/
def FailureKeeps (s : Store) (p : EntryPtr) (n : Word) : Prop :=
  (s.entrySetsize p n).1 ≠ 0 → (s.entrySetsize p n).2 = s

/-- A growth finds no free block, or as many as it needs. -/
def AllOrNothing (s : Store) (p : EntryPtr) (n : Word) : Prop :=
  s.freeCount = 0 ∨ n.toNat / 128 + 1 ≤ s.numblocks p + s.freeCount

def Steady (s : Store) (m : Message) : Prop :=
  ∀ p n, s.resizes m = some (p, n) → s.live p → s.AllOrNothing p n

section Failure

variable {s s' : Store} {p : EntryPtr} {m : Message}

/-- A resize of a live entry fails exactly when there are too few blocks. -/
theorem entrySetsize_eq_zero_iff (hw : s.WellFormed) (hp : s.live p) (n : Word) :
    (s.entrySetsize p n).1 = 0 ↔ s.Room p n.toNat := by
  have hf := hw.files p hp
  have hr := entrySetsize_resized hw hp n
  generalize s.entrySetsize p n = r at hr
  cases hr with
  | shrunk hlt h =>
      refine iff_of_true rfl (Or.inr ?_)
      have hdiv := Nat.div_le_div_right (c := 128) (Nat.le_of_lt hlt)
      rcases hf.extent with ⟨_, hempty⟩ | hext <;> omega
  | grown hle hpos h =>
      have hfree := h.le_freeCount
      exact iff_of_true rfl (Or.inr (by omega))
  | failed hle hpos hm h hfull =>
      have hfree := h.freeCount_le hfull
      refine iff_of_false (show ¬ enoblocksfree = 0 by decide) ?_
      rintro (hzero | hroom) <;> omega
  | same hsame hempty =>
      refine iff_of_true rfl ?_
      rcases hf.extent with ⟨hnum, _⟩ | hext
      · exact Or.inl (hempty hnum)
      · exact Or.inr (by omega)

theorem Taken.eq_iff {i k : Nat} (hp : s.live p) (h : Taken (s.fileid p) i k s s') :
    s' = s ↔ k = 0 := by
  constructor
  · rintro rfl
    by_contra hk
    obtain ⟨f, hf, _⟩ := h.slots
    obtain ⟨hfree, hset⟩ := hf 0 (Nat.pos_of_ne_zero hk)
    rw [hset] at hfree
    exact hp hfree
  · rintro rfl
    obtain ⟨f, _, _, hrest⟩ := h.slots
    have hblocks : s'.blocks = s.blocks := funext fun b => hrest b fun k hk => absurd hk (by omega)
    have hentries := h.entries
    have hid := h.id
    cases s'
    cases s
    simp only at hentries hid hblocks
    rw [hentries, hid, hblocks]

theorem failureKeeps_of_live (hw : s.WellFormed) (hp : s.live p) (n : Word) :
    s.FailureKeeps p n ↔ s.AllOrNothing p n := by
  have hiff := entrySetsize_eq_zero_iff hw hp n
  have hr := entrySetsize_resized hw hp n
  rw [FailureKeeps, AllOrNothing]
  generalize s.entrySetsize p n = r at hr hiff
  cases hr with
  | failed hle hpos hm h hfull =>
      have hge := h.freeCount_le hfull
      have hle := h.le_freeCount
      have hkeeps := h.eq_iff hp
      have herr : enoblocksfree ≠ 0 := by decide
      simp only [ne_eq, herr, not_false_iff, forall_true_left, hkeeps]
      omega
  | shrunk | grown | same =>
      refine iff_of_true (fun hne => absurd rfl hne) ?_
      rcases hiff.mp rfl with hzero | hroom
      · omega
      · exact Or.inr hroom

theorem numblocks_add_freeCount_le (hw : s.WellFormed) (hp : s.live p) :
    s.numblocks p + s.freeCount ≤ blockMax := by
  have hnum := s.numblocks_lt p
  have hid : s.fileid p ≠ 0 := hp
  choose f hf using fun i : Fin (s.numblocks p) => (hw.files p hp).mapped i.val i.isLt
  have hinj : Function.Injective f := by
    intro i j heq
    have hidx := (hf i).2
    rw [heq, (hf j).2] at hidx
    exact Fin.ext (ofNat_inj (by omega) (by omega) hidx).symm
  have hcard : (Finset.univ.image f).card = s.numblocks p := by
    rw [Finset.card_image_of_injective _ hinj, Finset.card_univ, Fintype.card_fin]
  have hdisjoint : Disjoint (Finset.univ.image f)
      (Finset.univ.filter fun b => (s.blocks b).vaFileid = 0) := by
    rw [Finset.disjoint_right]
    intro b hb hfb
    obtain ⟨i, _, rfl⟩ := Finset.mem_image.mp hfb
    have hfree : (s.blocks (f i)).vaFileid = 0 := by simpa using hb
    exact hid ((hf i).1.symm.trans hfree)
  have hall := Finset.card_le_univ (Finset.univ.image f ∪
    Finset.univ.filter fun b => (s.blocks b).vaFileid = 0)
  rwa [Finset.card_union_of_disjoint hdisjoint, hcard, Fintype.card_fin, ← freeCount] at hall

/-- A file that is as large as all the blocks leaves none free. -/
theorem freeCount_of_size (hw : s.WellFormed) (hp : s.live p)
    (h : blockMax * 128 ≤ s.size p + 1) : s.freeCount = 0 := by
  have hmax : blockMax = 1024 := rfl
  have hlast := (hw.files p hp).block_lt (k := s.size p - 1) (by omega)
  have hall := numblocks_add_freeCount_le hw hp
  omega

theorem BlockMap.steady (h : s.BlockMap) (hw : s.WellFormed) {n : Word}
    (hsteady : s.live p → s.AllOrNothing p n) : (s.entrySetsize p n).2.BlockMap := by
  by_cases hp : s.live p
  · by_cases hok : (s.entrySetsize p n).1 = 0
    · exact h.resized hw hp (entrySetsize_resized hw hp n) hok
    · rwa [(failureKeeps_of_live hw hp n).mpr (hsteady hp) hok]
  · exact h.entrySetsize_free hp n

theorem BlockMap.change (h : s.BlockMap) (hw : s.WellFormed) (hc : s.Change m s')
    (hsteady : s.Steady m) : s'.BlockMap := by
  cases hc with
  | keep => exact h
  | create _ _ hi ha =>
      obtain ⟨_, _, rfl⟩ := entryInit_some hi
      exact ((h.initAt hw _ _ _).sameFiles (sameFiles_entryAppend ha)).sameFiles
        (sameFiles_setName _ _ _ _)
  | remove _ hr => exact h.sameFiles (sameFiles_entryRemove hr)
  | @reclaim p _ => exact (h.retire p).sameOwned (entryReclaim_sameOwned hw p)
  | resize hm => exact h.steady hw fun hp => hsteady _ _ hm hp
  | copy _ hs => exact h.sameShape hs

theorem boot_blockMap {rootGen testGen : Word64} (h : boot rootGen testGen = some s) :
    s.BlockMap :=
  (boot_sizedInv h).map

end Failure

end Store

/-- Runs from boot in which no growth finds some free blocks, but too few. -/
inductive Gba.SteadyRun : Gba → Prop where
  | boot {rootGen testGen s} (h : Store.boot rootGen testGen = some s) : SteadyRun ⟨s, .dispatch⟩
  | step {g g' j m} (h : SteadyRun g) (hs : g.receive j m = some g')
      (hsteady : g.store.Steady m) : SteadyRun g'

theorem Gba.SteadyRun.reachable {g : Gba} (h : g.SteadyRun) : g.Reachable := by
  induction h with
  | boot h => exact .boot h
  | step _ hs _ ih => exact .step ih hs

theorem Gba.SteadyRun.blockMap {g : Gba} (h : g.SteadyRun) : g.store.BlockMap := by
  induction h with
  | boot h => exact Store.boot_blockMap h
  | @step g g' j m h hs hsteady ih =>
      have hw := Store.Reachable.wellFormed ⟨g.phase, h.reachable⟩
      exact ih.change hw (Gba.receive_change hs) hsteady

/-- A failed resize changes nothing exactly when there was no free block to take; and
as long as every growth is all or nothing, no index has two blocks. -/
theorem failureKeeps_iff {s : Store} (hs : s.Reachable) {p : EntryPtr} (hp : s.live p) (n : Word) :
    (s.FailureKeeps p n ↔ s.AllOrNothing p n) ∧
      ∀ g : Gba, g.SteadyRun → ∀ id, id ≠ 0 → g.store.UniqueOf id :=
  ⟨Store.failureKeeps_of_live hs.wellFormed hp n, fun _ h id hid => h.blockMap.unique id hid⟩

theorem freeCount_of_free {s : Store} (h : ∀ b, (s.blocks b).vaFileid = 0) :
    s.freeCount = blockMax := by
  simp [Store.freeCount, h]

/-- The test file has got all the blocks; one byte more fails and changes nothing. -/
theorem failureKeeps_iff_full :
    ∃ g : Gba, bootRun [.request (.setsize ⟨2, 131071⟩)] = some g ∧
      (g.store.entrySetsize testSlot 131072).1 ≠ 0 ∧
      (g.store.entrySetsize testSlot 131072).2 = g.store ∧ g.store.UniqueOf 2 := by
  obtain ⟨g₀, hg₀, hfacts⟩ := Option.map_eq_some_iff.mp
    (show (bootRun []).map (fun g => decide (g.store.live testSlot ∧
      (∀ b, (g.store.blocks b).vaFileid = 0) ∧ g.store.findById 2 = some testSlot ∧
      (g.receive .zero (.request (.setsize ⟨2, 131071⟩))).isSome)) = some true by decide +kernel)
  obtain ⟨hlive, hfree, hfind, hsome⟩ := of_decide_eq_true hfacts
  obtain ⟨g, hg⟩ := Option.isSome_iff_exists.mp hsome
  obtain ⟨s, hs, rfl⟩ := bootRun_nil hg₀
  have hrun : bootRun [.request (.setsize ⟨2, 131071⟩)] = some g :=
    Option.bind_eq_some_iff.mpr ⟨_, hg₀, hg⟩
  obtain rfl := Gba.receive_setsize hg hfind
  have hw : s.WellFormed := Store.Reachable.wellFormed ⟨_, .boot hs⟩
  have hcount := freeCount_of_free hfree
  have hroom : (131071 : Word).toNat / 128 + 1 ≤ s.numblocks testSlot + s.freeCount := by
    rw [hcount]
    exact Nat.le_trans (by decide : _ ≤ blockMax) (Nat.le_add_left _ _)
  have hsteady : s.Steady (.request (.setsize ⟨2, 131071⟩)) := by
    intro p n hpn _
    rw [Store.resizes, hfind] at hpn
    obtain ⟨rfl, rfl⟩ := Prod.mk.inj (Option.some.inj hpn)
    exact Or.inr hroom
  have hok := (Store.entrySetsize_eq_zero_iff hw hlive 131071).mpr (Or.inr hroom)
  have hr := Store.entrySetsize_resized hw hlive 131071
  -- the file has all the blocks now
  have hw' := hw.entrySetsize testSlot 131071
  have hlive' := Store.live_entrySetsize (q := testSlot) hlive 131071
  have hnone := Store.freeCount_of_size hw' hlive' (by
    rw [hr.size hok]
    decide)
  have hall := Store.numblocks_add_freeCount_le hw' hlive'
  obtain ⟨hiff, hunique⟩ := failureKeeps_iff ⟨_, bootRun_reachable hrun⟩ hlive' 131072
  have hfails : ((s.entrySetsize testSlot 131071).2.entrySetsize testSlot 131072).1 ≠ 0 := by
    rw [ne_eq, Store.entrySetsize_eq_zero_iff hw' hlive', Store.Room]
    rintro (hzero | hroom')
    · exact absurd hzero (by decide)
    · have hneeds : (131072 : Word).toNat / 128 + 1 = blockMax + 1 := by decide
      omega
  exact ⟨_, hrun, hfails, hiff.mpr (Or.inl hnone) hfails,
    hunique _ (.step (.boot hs) hg hsteady) 2 (by decide)⟩

/-- One block more than there is: all of them are taken, and kept. -/
theorem failureKeeps_counterexample :
    ∃ g : Gba, bootRun [] = some g ∧ g.Reachable ∧ g.store.live testSlot ∧
      (g.store.entrySetsize testSlot 131072).1 ≠ 0 ∧
      (g.store.entrySetsize testSlot 131072).2 ≠ g.store := by
  obtain ⟨g, hg, hfacts⟩ := Option.map_eq_some_iff.mp
    (show (bootRun []).map (fun g => (decide (g.store.live testSlot),
      decide (∀ b, (g.store.blocks b).vaFileid = 0), g.store.numblocks testSlot)) =
        some (true, true, 0) by decide +kernel)
  simp only [Prod.mk.injEq, decide_eq_true_iff] at hfacts
  obtain ⟨hlive, hfree, hnum⟩ := hfacts
  have hw := Store.Reachable.wellFormed ⟨g.phase, bootRun_reachable hg⟩
  have hcount := freeCount_of_free hfree
  have hneeds : (131072 : Word).toNat / 128 + 1 = blockMax + 1 := by decide
  have hkeeps : ¬ g.store.FailureKeeps testSlot 131072 := by
    rw [Store.failureKeeps_of_live hw hlive, Store.AllOrNothing, hcount, hnum, hneeds]
    decide
  obtain ⟨hfails, hchanges⟩ := Classical.not_imp.mp hkeeps
  exact ⟨g, hg, bootRun_reachable hg, hlive, hfails, hchanges⟩

end WiiJoybus
