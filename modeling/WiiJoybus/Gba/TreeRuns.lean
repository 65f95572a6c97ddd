import WiiJoybus.Gba.Tree

/-!
Runs that keep the directory tree.

The discipline is the kernel's: parents are live directories, and an entry is
reclaimed only after it has been removed. It does not suffice, because removing
leaves the first entry of a chain where it is.
-/

namespace WiiJoybus
namespace Store

section Step

variable {s s' : Store} {removed : Word → Prop} {m : Message}

def TreeInv (s : Store) (removed : Word → Prop) : Prop := ∃ cells, s.Arranged removed cells

theorem parent_of_creates {vt : Vtype} {req : CreateReq} (h : m.creates = some (vt, req)) :
    m.parent = some req.parentFileid := by
  cases m with
  | chunk b => cases h
  | request r =>
      cases r with
      | create _ | mkdir _ =>
          cases h
          rfl
      | _ => cases h

theorem removes_some {parent res : EntryPtr} (h : s.removes m = some (parent, res)) :
    ∃ req, m = .request (.rm req) ∧ s.findById req.parentFileid = some parent ∧
      s.scan (s.hasName req.name) (s.child parent) = some (some res) := by
  cases m with
  | chunk b => cases h
  | request r =>
      cases r with
      | rm req =>
          refine ⟨req, rfl, ?_⟩
          simp only [removes, rmTarget] at h
          split at h
          · rename_i call hcall
            cases h
            split at hcall
            · cases hcall
            · rename_i d hd
              split at hcall
              · cases hcall
              · split at hcall
                · cases hcall
                · split at hcall
                  · cases hcall
                  · cases hcall
                  · rename_i e he
                    cases hcall
                    exact ⟨hd, he⟩
          · cases h
      | _ => cases h

theorem removedAfter_of_none (hr : s.removes m = none) : s.removedAfter m removed = removed := by
  funext id
  simp [removedAfter, hr]

theorem keepsHead_of_none (hc : s.reclaims m = none) : s.KeepsHead m := by
  intro p hp
  rw [hc] at hp
  cases hp

/-- One step of a disciplined run: the tree stands exactly when the message does
not reclaim the first entry of a live directory. -/
theorem TreeInv.change (h : s.TreeInv removed) (hc : s.Change m s')
    (hd : s.Disciplined m removed) :
    (s'.Tree ↔ s.KeepsHead m) ∧ (s.KeepsHead m → s'.TreeInv (s.removedAfter m removed)) := by
  obtain ⟨cells, h⟩ := h
  have hinv : ∀ t : Store, t.TreeInv (s.removedAfter m removed) → s.KeepsHead m →
      (t.Tree ↔ s.KeepsHead m) ∧ (s.KeepsHead m → t.TreeInv (s.removedAfter m removed)) :=
    fun t ht hk => ⟨⟨fun _ => hk, fun _ => ht.choose_spec.tree⟩, fun _ => ht⟩
  have hw' : s'.WellFormed := h.wellFormed.change hc
  cases hc with
  | keep hz hc hr =>
      refine hinv _ ?_ (keepsHead_of_none hc)
      rw [removedAfter_of_none hr]
      exact ⟨cells, h⟩
  | create hm hp hi ha =>
      refine hinv _ ?_ (keepsHead_of_none (alone_of_creates hm).2.1)
      obtain ⟨hent, hid, rfl⟩ := entryInit_some hi
      obtain ⟨d, hfind, hdir⟩ := hd.parents _ (parent_of_creates hm)
      obtain rfl := Option.some.inj (hfind.symm.trans hp)
      have h' := h.create hdir hent hid ha
      rw [removedAfter_of_none (alone_of_creates hm).2.2]
      exact ⟨_, h'.sameLinks hw' (sameLinks_setName _ _ _ _)⟩
  | @remove parent res _ hm hr =>
      refine hinv _ ?_ (keepsHead_of_none (alone_of_removes hm).2)
      obtain ⟨req, rfl, hfind, hscan⟩ := removes_some hm
      obtain ⟨d, hfind', hdir⟩ := hd.parents _ rfl
      obtain rfl := Option.some.inj (hfind'.symm.trans hfind)
      rw [scan_of_chain (h.forest.chain d hdir), Option.some.injEq] at hscan
      obtain ⟨cells', h', _⟩ := h.entryRemove hdir (List.mem_of_find?_eq_some hscan) hr
      have hafter : s.removedAfter (.request (.rm req)) removed =
          fun id => removed id ∨ id = s.fileid res := by
        funext id
        simp [removedAfter, hm, eq_comm]
      rw [hafter]
      exact ⟨cells', h'⟩
  | @reclaim p hm =>
      rw [removedAfter_of_none (alone_of_reclaims hm).2] at hinv ⊢
      have hkeeps : s.KeepsHead m ↔
          (s.live p → ∀ d, d ≠ p → s.isDir d → s.child d ≠ some p) := by
        constructor
        · exact fun hk => hk p hm
        · intro hk q hq
          obtain rfl := Option.some.inj (hm.symm.trans hq)
          exact hk
      by_cases hp : s.live p
      · by_cases hk : ∀ d, d ≠ p → s.isDir d → s.child d ≠ some p
        · refine hinv _ ⟨cells, h.entryReclaim p ?_⟩ (hkeeps.mpr fun _ => hk)
          intro d hne hdir he
          exact hk d hne hdir (h.heads d hdir p he (hd.reclaims p hm hp))
        · have hnot : ¬ s.KeepsHead m := fun hkm => hk (hkeeps.mp hkm hp)
          push Not at hk
          obtain ⟨d, hne, hdir, hchild⟩ := hk
          have hbad := not_tree_entryReclaim h.wellFormed hne hdir hchild
          exact ⟨⟨fun ht => absurd ht hbad, fun hkm => absurd hkm hnot⟩,
            fun hkm => absurd hkm hnot⟩
      · refine hinv _ ⟨cells, h.entryReclaim p ?_⟩ (hkeeps.mpr fun hlive => absurd hlive hp)
        intro d _ hdir he
        exact hp (h.live d hdir p he)
  | resize hm =>
      refine hinv _ ?_ (keepsHead_of_none (alone_of_resizes hm).1)
      rw [removedAfter_of_none (alone_of_resizes hm).2]
      exact ⟨cells, h.sameLinks hw' (sameTree_entrySetsize _ _ _).links⟩
  | copy hm hs =>
      subst hm
      rw [removedAfter_of_none rfl] at hinv ⊢
      exact hinv _ ⟨cells, h.sameLinks hw' hs.tree.links⟩ (keepsHead_of_none rfl)

theorem blank_arranged : blank.Arranged (fun _ => False) fun _ => [] where
  wellFormed := blank_wellFormed
  forest := ⟨fun d hd => absurd (blank_fileid d) hd.1, fun d _ _ hd => absurd (blank_fileid d) hd.1⟩
  live d hd := absurd (blank_fileid d) hd.1
  heads d hd := absurd (blank_fileid d) hd.1
  issued _ h := h.elim

theorem boot_treeInv {rootGen testGen : Word64} (h : boot rootGen testGen = some s) :
    s.TreeInv fun _ => False := by
  have hw := boot_wellFormed h
  obtain ⟨root, s₁, test, s₂, s₃, hroot, htest, happ, rfl⟩ := boot_some h
  obtain ⟨hfree, hid, rfl⟩ := entryInit_some hroot
  obtain ⟨hfree', hid', rfl⟩ := entryInit_some htest
  have hdead : ¬ blank.live root := not_not.mpr (findById_fileid hfree)
  have hblank := blank_arranged.initAt hdead hid .dir rootGen
  have hdir : (blank.initAt root .dir rootGen).isDir root := by
    rw [isDir, live, initAt_entries, if_pos rfl]
    exact ⟨show BitVec.ofNat 32 1 ≠ (0 : Word) by decide, rfl⟩
  have h₃ := hblank.create hdir hfree' hid' happ
  exact ⟨_, h₃.sameLinks hw (sameLinks_setEntry _ _ _ rfl rfl rfl rfl)⟩

end Step

section Walks

variable {s : Store} {d : EntryPtr} {removed : Word → Prop}

theorem Tree.scan_ne_none (h : s.Tree) (hd : s.isDir d) (f : EntryPtr → Bool) :
    s.scan f (s.child d) ≠ none := by
  obtain ⟨l, hl, _⟩ := h.chains d hd
  simp [scan_of_chain hl]

theorem Tree.entryAppend_isSome (h : s.Tree) (hd : s.isDir d) (ent : EntryPtr) :
    (s.entryAppend d ent).isSome := by
  obtain ⟨l, hl, _⟩ := h.chains d hd
  rw [child] at hl
  simp only [entryAppend]
  split
  · rfl
  · rename_i first hfirst
    rw [hfirst] at hl
    obtain ⟨n, hn, hlast⟩ := hl.exists_last
    have hfind : (l.find? fun n => (s.next n).isNone).isSome := by
      rw [List.find?_isSome]
      exact ⟨n, hn, by simp [hlast]⟩
    obtain ⟨e, he⟩ := Option.isSome_iff_exists.mp hfind
    rw [scan_of_chain hl, he]
    rfl

theorem Tree.handleLookupRequest_isSome (h : s.Tree) (hd : s.isDir d) {req : LookupReq}
    (hfind : s.findById req.parentFileid = some d) (j : Junk) :
    (s.handleLookupRequest j req).isSome := by
  have hscan := h.scan_ne_none hd (s.hasName req.name)
  rw [child] at hscan
  simp only [handleLookupRequest, lookupMatch, hfind]
  split
  · rename_i hnone
    exact absurd hnone hscan
  · rfl
  · rfl

theorem Tree.handleRmRequest_isSome (h : s.Tree) (hd : s.isDir d) {req : RmReq}
    (hfind : s.findById req.parentFileid = some d) (j : Junk) :
    (s.handleRmRequest j req).isSome := by
  have hscan := h.scan_ne_none hd
  simp only [child] at hscan
  have htarget : s.rmTarget req ≠ none := by
    simp only [rmTarget, hfind]
    split
    · simp
    · split
      · simp
      · split
        · rename_i hnone
          exact absurd hnone (hscan _)
        · simp
        · simp
  simp only [handleRmRequest]
  split
  · rename_i hnone
    exact absurd hnone htarget
  · rfl
  · rename_i parent res hcall
    have hparent : parent = d := by
      have hremoves : s.removes (.request (.rm req)) = some (parent, res) := by
        simp only [removes, hcall]
      obtain ⟨_, hreq, hp, _⟩ := removes_some hremoves
      cases hreq
      exact (Option.some.inj (hfind.symm.trans hp)).symm
    subst hparent
    simp only [entryRemove]
    split
    · rename_i hnone
      split at hnone
      · rename_i hnone'
        exact absurd hnone' (hscan _)
      · cases hnone
    · rfl

theorem TreeInv.handleCreateRequest_isSome (h : s.TreeInv removed) (hd : s.isDir d)
    {req : CreateReq} (hfind : s.findById req.parentFileid = some d) (hid : s.id ≠ intMax)
    (j : Junk) (vt : Vtype) : (s.handleCreateRequest j vt req).isSome := by
  obtain ⟨cells, h⟩ := h
  simp only [handleCreateRequest, hfind, entryInit]
  cases hfree : s.findById 0 with
  | none => rfl
  | some ent =>
      have hdead : ¬ s.live ent := not_not.mpr (findById_fileid hfree)
      have hne : d ≠ ent := by
        rintro rfl
        exact hdead hd.1
      have hdir : (s.initAt ent vt j.rand).isDir d := by
        rw [isDir, live, initAt_entries, if_neg hne]
        exact hd
      have happ := (h.initAt hdead hid vt j.rand).tree.entryAppend_isSome hdir ent
      obtain ⟨s', hs'⟩ := Option.isSome_iff_exists.mp happ
      simp only [if_neg hid, hs']
      rfl

end Walks

end Store

/-- Runs from boot that observe the discipline, of messages that satisfy `P`,
with the ids that have been removed. -/
inductive Gba.DisciplinedRun (P : Store → Message → Prop) : Gba → (Word → Prop) → Prop where
  | boot {rootGen testGen s} (h : Store.boot rootGen testGen = some s) :
      DisciplinedRun P ⟨s, .dispatch⟩ fun _ => False
  | step {g g' j m removed} (h : DisciplinedRun P g removed) (hs : g.receive j m = some g')
      (hd : g.store.Disciplined m removed) (hp : P g.store m) :
      DisciplinedRun P g' (g.store.removedAfter m removed)

theorem Gba.DisciplinedRun.inv {g : Gba} {removed : Word → Prop}
    (h : g.DisciplinedRun Store.KeepsHead removed) : g.store.TreeInv removed := by
  induction h with
  | boot h => exact Store.boot_treeInv h
  | step _ hs hd hk ih => exact (ih.change (Gba.receive_change hs) hd).2 hk

/-- A disciplined run that never reclaims the first entry of a live directory
keeps the tree, in which every walk ends; its next message breaks the tree
exactly when it reclaims such an entry. -/
theorem disciplinedRun_tree {g : Gba} {removed : Word → Prop}
    (h : g.DisciplinedRun Store.KeepsHead removed) :
    g.store.Tree ∧
      (∀ d, g.store.isDir d → ∀ f, g.store.scan f (g.store.child d) ≠ none) ∧
      (∀ id d, g.store.findById id = some d → g.store.isDir d → ∀ j name,
        (g.store.handleLookupRequest j ⟨id, name⟩).isSome ∧
          (g.store.handleRmRequest j ⟨id, name⟩).isSome ∧
          (g.store.id ≠ intMax →
            ∀ vt, (g.store.handleCreateRequest j vt ⟨id, name⟩).isSome)) ∧
      ∀ j m g', g.store.Disciplined m removed → g.receive j m = some g' →
        (g'.store.Tree ↔ g.store.KeepsHead m) := by
  obtain ⟨cells, harranged⟩ := h.inv
  have htree := harranged.tree
  refine ⟨htree, fun d hd f => htree.scan_ne_none hd f, ?_, ?_⟩
  · intro id d hfind hd j name
    exact ⟨htree.handleLookupRequest_isSome hd hfind j, htree.handleRmRequest_isSome hd hfind j,
      fun hid vt => h.inv.handleCreateRequest_isSome hd hfind hid j vt⟩
  · intro j m g' hd hs
    exact (h.inv.change (Gba.receive_change hs) hd).1

def rootSlot : EntryPtr := ⟨0, by decide⟩

instance (s : Store) (d : EntryPtr) : Decidable (s.isDir d) :=
  inferInstanceAs (Decidable (_ ∧ _))

theorem Store.disciplined_root {s : Store} {m : Message} {removed : Word → Prop}
    (hparent : m.parent = some 1) (hfind : s.findById 1 = some rootSlot)
    (hdir : s.isDir rootSlot) (hreclaims : s.reclaims m = none) : s.Disciplined m removed where
  parents id hid := by
    rw [hparent] at hid
    cases hid
    exact ⟨rootSlot, hfind, hdir⟩
  reclaims p hp := by
    rw [hreclaims] at hp
    cases hp

theorem Store.disciplined_reclaim (s : Store) {removed : Word → Prop} {id : Word}
    (h : removed id) : s.Disciplined (.request (.reclaim ⟨id⟩)) removed where
  parents _ hid := by cases hid
  reclaims p hp _ := by
    have hfind : s.fileid p = id := findById_fileid hp
    rwa [hfind]

/-- Removing the test file leaves a tree, which reclaiming it would break. -/
theorem disciplinedRun_tree_removed :
    ∃ g : Gba, bootRun [.request (.rm ⟨1, testNameArray⟩)] = some g ∧ g.store.Tree ∧
      ∀ j g', g.receive j (.request (.reclaim ⟨2⟩)) = some g' → ¬ g'.store.Tree := by
  obtain ⟨g, hg, hfacts⟩ := Option.map_eq_some_iff.mp
    (show (bootRun [.request (.rm ⟨1, testNameArray⟩)]).map (fun g =>
      (g.store.findById 2, decide (g.store.live testSlot), decide (g.store.isDir rootSlot),
        g.store.child rootSlot)) = some (some testSlot, true, true, some testSlot) by
        decide +kernel)
  simp only [Prod.mk.injEq, decide_eq_true_iff] at hfacts
  obtain ⟨hfind, hlive, hdir, hchild⟩ := hfacts
  obtain ⟨g₀, hg₀, hm⟩ := bootRun_cons hg
  obtain ⟨s, hs, rfl⟩ := bootRun_nil hg₀
  have hroot : (Store.boot 0 0).map (fun s => (s.findById 1, decide (s.isDir rootSlot),
      s.removes (.request (.rm ⟨1, testNameArray⟩)), s.fileid testSlot)) =
        some (some rootSlot, true, some (rootSlot, testSlot), 2) := by decide +kernel
  simp only [hs, Option.map_some, Option.some.injEq, Prod.mk.injEq, decide_eq_true_iff] at hroot
  obtain ⟨hfindRoot, hdirRoot, hremoves, hid⟩ := hroot
  have hrun := disciplinedRun_tree (.step (.boot hs) hm
    (Store.disciplined_root rfl hfindRoot hdirRoot rfl) (Store.keepsHead_of_none rfl))
  refine ⟨g, hg, hrun.1, ?_⟩
  intro j g' hs' htree
  have hdisciplined := g.store.disciplined_reclaim
    (show s.removedAfter (.request (.rm ⟨1, testNameArray⟩)) (fun _ => False) 2 from
      Or.inr ⟨rootSlot, testSlot, hremoves, hid⟩)
  exact (hrun.2.2.2 j _ g' hdisciplined hs').mp htree testSlot hfind hlive rootSlot (by decide)
    hdir hchild

/-- Removed, reclaimed, and created anew: the first file of the root directory
is its own successor, and a lookup of a name that is not there never ends. -/
theorem tree_counterexample :
    ∃ (g : Gba) (removed : Word → Prop), g.DisciplinedRun (fun _ _ => True) removed ∧
      ¬ g.store.Tree ∧
      g.store.handleLookupRequest .zero ⟨1, fun _ => 0⟩ = none := by
  obtain ⟨g₃, hg₃, hfacts₃⟩ := Option.map_eq_some_iff.mp
    (show (bootRun [.request (.create ⟨1, testNameArray⟩), .request (.reclaim ⟨2⟩),
        .request (.rm ⟨1, testNameArray⟩)]).map (fun g =>
      (decide (g.store.isDir rootSlot),
        g.store.scan (g.store.hasName fun _ => 0) (g.store.child rootSlot),
        (g.store.handleLookupRequest .zero ⟨1, fun _ => 0⟩).isNone)) = some (true, none, true) by
        decide +kernel)
  simp only [Prod.mk.injEq, decide_eq_true_iff, Option.isNone_iff_eq_none] at hfacts₃
  obtain ⟨hdir₃, hscan, hlookup⟩ := hfacts₃
  obtain ⟨g₂, hg₂, hm₃⟩ := bootRun_cons hg₃
  obtain ⟨g₁, hg₁, hm₂⟩ := bootRun_cons hg₂
  obtain ⟨g₀, hg₀, hm₁⟩ := bootRun_cons hg₁
  obtain ⟨s, hs, rfl⟩ := bootRun_nil hg₀
  have hroot₀ : (Store.boot 0 0).map (fun s => (s.findById 1, decide (s.isDir rootSlot),
      s.removes (.request (.rm ⟨1, testNameArray⟩)), s.fileid testSlot)) =
        some (some rootSlot, true, some (rootSlot, testSlot), 2) := by decide +kernel
  simp only [hs, Option.map_some, Option.some.injEq, Prod.mk.injEq, decide_eq_true_iff] at hroot₀
  obtain ⟨hfind₀, hdir₀, hremoves, hid⟩ := hroot₀
  have hroot₂ : (bootRun [.request (.reclaim ⟨2⟩), .request (.rm ⟨1, testNameArray⟩)]).map
      (fun g => (g.store.findById 1, decide (g.store.isDir rootSlot))) =
        some (some rootSlot, true) := by decide +kernel
  simp only [hg₂, Option.map_some, Option.some.injEq, Prod.mk.injEq, decide_eq_true_iff] at hroot₂
  have hrun₁ : g₁.DisciplinedRun (fun _ _ => True) _ :=
    .step (.boot hs) hm₁ (Store.disciplined_root rfl hfind₀ hdir₀ rfl) trivial
  have hrun₂ := hrun₁.step hm₂
    (g₁.store.disciplined_reclaim (Or.inr ⟨rootSlot, testSlot, hremoves, hid⟩)) trivial
  have hrun₃ := hrun₂.step hm₃ (Store.disciplined_root rfl hroot₂.1 hroot₂.2 rfl) trivial
  exact ⟨g₃, _, hrun₃, fun htree => htree.scan_ne_none hdir₃ _ hscan, hlookup⟩

end WiiJoybus
