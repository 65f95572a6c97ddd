import WiiJoybus.Gba.TreeRuns

/-!
Reclaiming a linked entry.

The request is answered without a look at the link count, so an entry that is
still on its directory's chain loses its id like any other. Ids are not issued
twice: nothing that happens later brings the file back.
-/

namespace WiiJoybus
open LinkedTable

/-- Some messages later. -/
def Gba.Leads : Gba → Gba → Prop :=
  Relation.ReflTransGen fun g g' => ∃ j m, g.receive j m = some g'

namespace Store

/-- What a caller can see of entry `p` of directory `d` is the same in `s'`. -/
structure Survives (s s' : Store) (d p : EntryPtr) : Prop where
  lookup : ∀ j, ∃ r, s'.handleLookupRequest j ⟨s.fileid d, (s.entries p).name⟩ = some r ∧
    r.exists_ = 1 ∧ r.vaFileid = s.fileid p
  getattr : ∀ j, s'.handleGetattrRequest j ⟨s.fileid p⟩ = s.handleGetattrRequest j ⟨s.fileid p⟩
  contents : ∀ j n offset, s'.handleReadRequest j ⟨s.fileid p, n, offset⟩ =
    s.handleReadRequest j ⟨s.fileid p, n, offset⟩

/-- An issued id that no entry has. -/
structure Forgotten (s : Store) (id : Word) : Prop where
  wellFormed : s.WellFormed
  issued : id.toNat < s.id
  gone : ∀ q, s.fileid q ≠ id

section Forgotten

variable {s s' : Store} {id : Word} {m : Message} {p : EntryPtr}

theorem forgotten_entryReclaim (hw : s.WellFormed) (hp : s.live p) :
    (s.entryReclaim p).Forgotten (s.fileid p) where
  wellFormed := hw.entryReclaim p
  issued := by
    rw [(entryReclaim_sameOwned hw p).id]
    exact hw.issued p
  gone q hq := by
    rw [entryReclaim_fileid hw] at hq
    split at hq
    · exact hp hq.symm
    · rename_i hne
      exact hne (hw.unique p q hp hq)

theorem Forgotten.sameFiles (h : s.Forgotten id) (hs : SameFiles s s') : s'.Forgotten id where
  wellFormed := h.wellFormed.sameFiles hs
  issued := hs.id ▸ h.issued
  gone q hq := h.gone q ((hs.fileid q).symm.trans hq)

theorem Forgotten.change (h : s.Forgotten id) (hid : id ≠ 0) (hc : s.Change m s') :
    s'.Forgotten id := by
  have hw : s'.WellFormed := h.wellFormed.change hc
  cases hc with
  | keep _ _ _ => exact h
  | @create vt req parent j ent s₁ s₂ hm hp hi ha =>
      obtain ⟨_, hmax, rfl⟩ := entryInit_some hi
      have hinit : (s.initAt ent vt j.rand).Forgotten id := by
        refine ⟨h.wellFormed.initAt hmax, Nat.lt_succ_of_lt h.issued, ?_⟩
        intro q hq
        rw [fileid, initAt_entries] at hq
        split at hq
        · -- the new id is the counter's value, which was not issued yet
          have hfresh := h.wellFormed.fresh
          change BitVec.ofNat 32 s.id = id at hq
          rw [hq] at hfresh
          exact absurd h.issued (by omega)
        · exact h.gone q hq
      exact (hinit.sameFiles (sameFiles_entryAppend ha)).sameFiles (sameFiles_setName _ _ _ _)
  | remove hm hr => exact h.sameFiles (sameFiles_entryRemove hr)
  | @reclaim p hm =>
      refine ⟨hw, ?_, fun q hq => ?_⟩
      · rw [(entryReclaim_sameOwned h.wellFormed p).id]
        exact h.issued
      · rw [entryReclaim_fileid h.wellFormed] at hq
        split at hq
        · exact hid hq.symm
        · exact h.gone q hq
  | @resize p n hm =>
      have htree := sameTree_entrySetsize s p n
      exact ⟨hw, htree.id ▸ h.issued, fun q hq => h.gone q ((htree.fileid q).symm.trans hq)⟩
  | copy hm hs =>
      refine ⟨hw, hs.id ▸ h.issued, fun q hq => h.gone q ?_⟩
      rwa [fileid, hs.entries] at hq

theorem Forgotten.findById (h : s.Forgotten id) : s.findById id = none := by
  cases hfind : s.findById id with
  | none => rfl
  | some q => exact absurd (findById_fileid hfind) (h.gone q)

theorem Forgotten.getattr (h : s.Forgotten id) (j : Junk) :
    (s.handleGetattrRequest j ⟨id⟩).exists_ = 0 := by
  simp only [handleGetattrRequest, h.findById]

theorem Forgotten.lookup (h : s.Forgotten id) {j : Junk} {req : LookupReq} {r : LookupResp}
    (hr : s.handleLookupRequest j req = some r) (hexists : r.exists_ = 1) : r.vaFileid ≠ id := by
  simp only [handleLookupRequest] at hr
  split at hr
  · cases hr
  · cases hr
    exact absurd hexists (by simp)
  · rename_i q _
    cases hr
    exact h.gone q

end Forgotten

end Store

theorem Gba.Leads.forgotten {g g' : Gba} {id : Word} (h : g.Leads g') (hid : id ≠ 0)
    (hf : g.store.Forgotten id) : g'.store.Forgotten id := by
  induction h with
  | refl => exact hf
  | tail _ hstep ih =>
      obtain ⟨j, m, hs⟩ := hstep
      exact ih.change hid (Gba.receive_change hs)

theorem Gba.receive_reclaim {g g' : Gba} {j : Junk} {id : Word}
    (h : g.receive j (.request (.reclaim ⟨id⟩)) = some g') :
    g'.store = (g.store.handleReclaimRequest j ⟨id⟩).2 := by
  simp only [Gba.receive] at h
  split at h
  · cases h
    rfl
  · cases h

/-- Whatever the link count, and whichever directory lists the entry: after RECLAIM
and for ever after GETATTR does not know its id and no LOOKUP returns it. -/
theorem reclaim_not_survives {g g' : Gba} (h : g.Reachable) {d p : EntryPtr}
    (hlive : g.store.live p) {j : Junk}
    (hs : g.receive j (.request (.reclaim ⟨g.store.fileid p⟩)) = some g') :
    ¬ g.store.Survives g'.store d p ∧
      ∀ g'', g'.Leads g'' → ¬ g.store.Survives g''.store d p ∧
        (∀ j, (g''.store.handleGetattrRequest j ⟨g.store.fileid p⟩).exists_ = 0) ∧
        ∀ j req r, g''.store.handleLookupRequest j req = some r → r.exists_ = 1 →
          r.vaFileid ≠ g.store.fileid p := by
  have hw : g.store.WellFormed := Store.Reachable.wellFormed ⟨g.phase, h⟩
  have hforgotten : g'.store.Forgotten (g.store.fileid p) := by
    rw [Gba.receive_reclaim hs]
    simp only [Store.handleReclaimRequest, hw.findById hlive]
    exact Store.forgotten_entryReclaim hw hlive
  have hnot : ∀ g'', g'.Leads g'' → ¬ g.store.Survives g''.store d p := by
    intro g'' hlater hsurvives
    have hf := hlater.forgotten hlive hforgotten
    obtain ⟨r, hr, hexists, hid⟩ := hsurvives.lookup .zero
    exact hf.lookup hr hexists hid
  refine ⟨hnot g' Relation.ReflTransGen.refl, ?_⟩
  intro g'' hlater
  have hf := hlater.forgotten hlive hforgotten
  exact ⟨hnot g'' hlater, hf.getattr, fun j req r => hf.lookup⟩

/-- The test file is linked and reclaimed. -/
theorem reclaim_not_survives_test :
    ∃ g g' : Gba, bootRun [] = some g ∧ bootRun [.request (.reclaim ⟨2⟩)] = some g' ∧
      ∀ g'', g'.Leads g'' → ¬ g.store.Survives g''.store rootSlot testSlot := by
  obtain ⟨g', hg'⟩ := Option.isSome_iff_exists.mp
    (show (bootRun [.request (.reclaim ⟨2⟩)]).isSome by decide +kernel)
  obtain ⟨g, hg, hm⟩ := bootRun_cons hg'
  have hid : (bootRun []).map (fun g => g.store.fileid testSlot) = some 2 := by decide +kernel
  rw [hg, Option.map_some, Option.some.injEq] at hid
  have hlive : g.store.live testSlot := by
    change g.store.fileid testSlot ≠ 0
    rw [hid]
    decide
  rw [← hid] at hm
  exact ⟨g, g', hg, hg', fun g'' hlater =>
    ((reclaim_not_survives (bootRun_reachable hg) (d := rootSlot) hlive hm).2 g'' hlater).1⟩

/-- The test file, reclaimed without any RM before: its name is still there, with
the id 0. -/
theorem survives_counterexample :
    ∃ g g' : Gba, g.Reachable ∧ g.store.isDir rootSlot ∧ g.store.live testSlot ∧
      g.store.child rootSlot = some testSlot ∧
      g.receive .zero (.request (.reclaim ⟨g.store.fileid testSlot⟩)) = some g' ∧
      ¬ g.store.Survives g'.store rootSlot testSlot := by
  obtain ⟨g, hg, hfacts⟩ := Option.map_eq_some_iff.mp
    (show (bootRun []).map (fun g => (decide (g.store.isDir rootSlot),
      decide (g.store.live testSlot), g.store.child rootSlot,
      (g.receive .zero (.request (.reclaim ⟨g.store.fileid testSlot⟩))).bind fun g' =>
        (g'.store.handleLookupRequest .zero ⟨g.store.fileid rootSlot,
          (g.store.entries testSlot).name⟩).map LookupResp.vaFileid)) =
        some (true, true, some testSlot, some 0) by decide +kernel)
  simp only [Prod.mk.injEq, decide_eq_true_iff] at hfacts
  obtain ⟨hdir, hlive, hchild, hlookup⟩ := hfacts
  obtain ⟨g', hs, hlookup⟩ := Option.bind_eq_some_iff.mp hlookup
  refine ⟨g, g', bootRun_reachable hg, hdir, hlive, hchild, hs, ?_⟩
  intro hsurvives
  obtain ⟨r, hr, _, hid⟩ := hsurvives.lookup .zero
  rw [hr, Option.map_some, hid, Option.some.injEq] at hlookup
  exact hlive hlookup

end WiiJoybus
