import WiiJoybus.Gba.Confined
import WiiJoybus.Gba.Removal

/-!
Link counts.

`entryInit` leaves the count one short, for `entryAppend` to complete; but it
completes only the counts of later children. The tally of a run says by how much
each count differs from what it should be: one for the first child, which is
never unlinked, and one for each time it has been removed.
-/

namespace WiiJoybus
open LinkedTable

namespace Store

def removedId (s : Store) (m : Message) : Option Word :=
  (s.removes m).map fun call => s.fileid call.2

/-- How often the entry of an id has been removed, once `m` is handled. -/
def removalsAfter (s : Store) (m : Message) (rms : Word → Nat) (id : Word) : Nat :=
  if s.removedId m = some id then rms id + 1 else rms id

end Store

/-- Runs from boot of CREATE, MKDIR and RM requests whose parents are live directories,
with the number of times each entry has been removed. -/
inductive Gba.LinkRun : Gba → (Word → Nat) → Prop where
  | boot {rootGen testGen s} (h : Store.boot rootGen testGen = some s) :
      LinkRun ⟨s, .dispatch⟩ fun _ => 0
  | step {g g' j m rms} (h : LinkRun g rms) (hs : g.receive j m = some g')
      (hm : ∃ id d, m.parent = some id ∧ g.store.findById id = some d ∧ g.store.isDir d) :
      LinkRun g' (g.store.removalsAfter m rms)

namespace Store

/-- "va_nlink should be 2 for directory, 1 for file" -/
def dueNlink (s : Store) (e : EntryPtr) : Word :=
  if (s.entries e).vaType = Vtype.dir.code then 2 else 1

/-- The count is what it should be, and RM lowers it by one; for a file it reports zero. -/
structure CountRight (s : Store) (d e : EntryPtr) : Prop where
  due : (s.entries e).vaNlink = s.dueNlink e
  removal : ∀ j req resp s', s.rmTarget req = some (.inr (d, e)) →
    s.handleRmRequest j req = some (resp, s') →
      resp.err = 0 ∧ (s'.entries e).vaNlink.toNat + 1 = (s.entries e).vaNlink.toNat ∧
      ((s.entries e).vaType ≠ Vtype.dir.code → resp.vaNlink = 0)

/-- What each count lacks. -/
structure Tallied (s : Store) (rms : Word → Nat) (cells : EntryPtr → List EntryPtr) : Prop where
  arranged : s.Arranged (fun id => rms id ≠ 0) cells
  count : ∀ d, s.isDir d → ∀ e ∈ cells d,
    (s.entries e).vaNlink + BitVec.ofNat 32 (rms (s.fileid e)) +
      (if s.child d = some e then 1 else 0) = s.dueNlink e

section Fields

variable {s s' : Store} {parent ent res d e : EntryPtr}

theorem entryAppend_nlink (h : s.entryAppend parent ent = some s') (e : EntryPtr) :
    (s'.entries e).vaNlink =
      if e = ent ∧ s.child parent ≠ none then (s.entries ent).vaNlink + 1
      else (s.entries e).vaNlink := by
  simp only [entryAppend] at h
  split at h
  · rename_i hc
    cases h
    rw [if_neg (by simp [child, hc])]
    exact setEntry_field Entry.vaNlink s parent { s.entries parent with child := some ent } rfl e
  · rename_i first hc
    split at h
    · cases h
    · rename_i n _
      cases h
      have hkeep : ∀ q, ((s.setNext n (some ent)).entries q).vaNlink = (s.entries q).vaNlink :=
        setEntry_field Entry.vaNlink s n { s.entries n with next := some ent } rfl
      have hchild : s.child parent ≠ none := by simp [child, hc]
      rw [setNlink, setEntry_apply]
      by_cases he : e = ent
      · rw [if_pos he, if_pos ⟨he, hchild⟩]
        exact congrArg (· + 1) (hkeep ent)
      · rw [if_neg he, if_neg fun h => he h.1]
        exact hkeep e

theorem entryAppend_child (h : s.entryAppend parent ent = some s') (d : EntryPtr) :
    s'.child d = if d = parent ∧ s.child parent = none then some ent else s.child d := by
  rcases entryAppend_some h with ⟨hc, rfl⟩ | ⟨first, n, k, hc, _, rfl⟩
  · change s.child parent = none at hc
    simp only [setChild_child, hc, and_true]
  · change s.child parent = some first at hc
    rw [setNlink_child, setNext_child, if_neg (by simp [hc])]

theorem entryRemove_nlink (h : s.entryRemove parent res = some s') (e : EntryPtr) :
    (s'.entries e).vaNlink =
      if e = res then (s.entries res).vaNlink - 1 else (s.entries e).vaNlink := by
  simp only [entryRemove] at h
  split at h
  · cases h
  · rename_i prev _
    cases h
    have hkeep : ∀ q, ((s.unlinkAfter res prev).entries q).vaNlink = (s.entries q).vaNlink := by
      intro q
      cases prev with
      | none => rfl
      | some prev =>
          exact setEntry_field Entry.vaNlink s prev { s.entries prev with next := s.next res } rfl q
    rw [setNlink, setEntry_apply]
    split
    · exact congrArg (· - 1) (hkeep res)
    · exact hkeep e

theorem entryRemove_child (h : s.entryRemove parent res = some s') : s'.child = s.child := by
  obtain ⟨prev, k, _, rfl⟩ := entryRemove_some h
  rw [setNlink_child]
  cases prev with
  | none => rfl
  | some prev => exact setNext_child s prev _

theorem Kept.isDir_iff (h : Kept s s' d) : s'.isDir d ↔ s.isDir d := by
  rw [isDir, isDir, h.type]
  refine and_congr_left' ?_
  change s'.fileid d ≠ 0 ↔ s.fileid d ≠ 0
  rw [h.fileid]

theorem dueNlink_congr (h : (s'.entries e).vaType = (s.entries e).vaType) :
    s'.dueNlink e = s.dueNlink e := by
  rw [dueNlink, h, dueNlink]

theorem freshEntry_due (old : Entry) (id : Nat) (vt : Vtype) (rand : Word64) :
    (freshEntry old id vt rand).vaNlink + 1 =
      if (freshEntry old id vt rand).vaType = Vtype.dir.code then 2 else 1 := by
  cases vt <;> rfl

end Fields

section Step

variable {s s' : Store} {rms : Word → Nat} {cells : EntryPtr → List EntryPtr} {m : Message}
variable {parent ent res : EntryPtr}

/-- A new entry gets its count completed unless it is the first child. -/
theorem Tallied.create (h : s.Tallied rms cells) (hd : s.isDir parent)
    (hfree : s.findById 0 = some ent) (hid : s.id ≠ intMax) {vt : Vtype} {j : Junk} {s₂ : Store}
    (ha : (s.initAt ent vt j.rand).entryAppend parent ent = some s₂) (name : Name) :
    ∃ cells', (setName j s₂ ent name).Tallied rms cells' := by
  have hw := h.arranged.wellFormed
  have hdead : ¬ s.live ent := not_not.mpr (findById_fileid hfree)
  have hself : (s.initAt ent vt j.rand).entries ent =
      freshEntry (s.entries ent) s.id vt j.rand := by
    rw [initAt_entries, if_pos rfl]
  have hother : ∀ q, q ≠ ent → (s.initAt ent vt j.rand).entries q = s.entries q := by
    intro q hq
    rw [initAt_entries, if_neg hq]
  have hparent : parent ≠ ent := by
    rintro rfl
    exact hdead hd.1
  have harranged := h.arranged.create hd hfree hid ha
  have hw₂ : (setName j s₂ ent name).WellFormed :=
    harranged.wellFormed.sameFiles (sameFiles_setName j s₂ ent name)
  have hkept : ∀ q, Kept (s.initAt ent vt j.rand) (setName j s₂ ent name) q := fun q =>
    (kept_entryAppend ha q).trans (kept_setName j s₂ ent name q)
  have hnlink : ∀ q, ((setName j s₂ ent name).entries q).vaNlink = (s₂.entries q).vaNlink := by
    intro q
    exact setEntry_field Entry.vaNlink s₂ ent { s₂.entries ent with
      name := CString.snprintf j.expansion (CString.ofArray name) (s₂.entries ent).name } rfl q
  have hchild : ∀ q, (setName j s₂ ent name).child q = s₂.child q :=
    (sameLinks_setName j s₂ ent name).child
  have hchildParent : (s.initAt ent vt j.rand).child parent = s.child parent := by
    rw [child, hother parent hparent, child]
  have hisDir : ∀ q, q ≠ ent → (setName j s₂ ent name).isDir q → s.isDir q := by
    intro q hq hdir
    have hinit := (hkept q).isDir_iff.mp hdir
    rwa [isDir, Store.live, hother q hq] at hinit
  refine ⟨_, harranged.sameLinks hw₂ (sameLinks_setName j s₂ ent name), ?_⟩
  intro d hdir e he
  rw [hnlink, hchild, entryAppend_nlink ha, entryAppend_child ha, hchildParent]
  by_cases hent : e = ent
  · -- the new entry
    subst hent
    have hdp : d = parent := by
      by_contra hne
      rw [Function.update_of_ne hne] at he
      by_cases hde : d = e
      · simp [hde] at he
      · rw [Function.update_of_ne hde] at he
        exact hdead (h.arranged.live d (hisDir d hde hdir) e he)
    have hnew : rms ((setName j s₂ e name).fileid e) = 0 := by
      by_contra hne
      have hlt := h.arranged.issued _ hne
      rw [(hkept e).fileid, fileid, hself] at hlt
      change (BitVec.ofNat 32 s.id : Word).toNat < s.id at hlt
      rw [hw.fresh] at hlt
      omega
    have hdue : (setName j s₂ e name).dueNlink e =
        (freshEntry (s.entries e) s.id vt j.rand).vaNlink + 1 := by
      rw [freshEntry_due, dueNlink, (hkept e).type, hself]
    rw [hnew, hdue, hself, hdp]
    by_cases hnone : s.child parent = none
    · simp [hnone]
    · have hne : s.child parent ≠ some e := by
        intro heq
        have hchain := h.arranged.forest.chain parent hd
        rw [heq] at hchain
        obtain ⟨r, hr, _⟩ := hchain.of_some
        exact hdead (h.arranged.live parent hd e (by rw [hr]; exact List.mem_cons_self))
      simp [hnone, hne, hchildParent]
  · -- an old one
    have hde : d ≠ ent := by
      rintro rfl
      rw [Function.update_of_ne (Ne.symm hparent), Function.update_self] at he
      cases he
    have hmem : e ∈ cells d := by
      by_cases hdp : d = parent
      · subst hdp
        rw [Function.update_self] at he
        simpa [hent] using he
      · rwa [Function.update_of_ne hdp, Function.update_of_ne hde] at he
    have hke := hkept e
    have hdir' := hisDir d hde hdir
    have hid' : (setName j s₂ ent name).fileid e = s.fileid e := by
      rw [hke.fileid, fileid, hother e hent, fileid]
    have hdue : (setName j s₂ ent name).dueNlink e = s.dueNlink e := by
      refine dueNlink_congr ?_
      rw [hke.type, hother e hent]
    have hfirst : ¬ (d = parent ∧ s.child parent = none) := by
      rintro ⟨rfl, hnone⟩
      have hchain := h.arranged.forest.chain d hdir'
      rw [hnone] at hchain
      rw [hchain.of_none] at hmem
      cases hmem
    have hchildD : (s.initAt ent vt j.rand).child d = s.child d := by
      rw [child, hother d hde, child]
    rw [if_neg (fun hc => hent hc.1), if_neg hfirst, hother e hent, hid', hdue, hchildD]
    exact h.count d hdir' e hmem

theorem Tallied.remove (h : s.Tallied rms cells) (hd : s.isDir parent) (hres : res ∈ cells parent)
    (hr : s.entryRemove parent res = some s') :
    ∃ cells', s'.Tallied (fun id => if s.fileid res = id then rms id + 1 else rms id) cells' := by
  obtain ⟨cells', harranged, hsub⟩ := h.arranged.entryRemove hd hres hr
  have hremoved : (fun id => rms id ≠ 0 ∨ id = s.fileid res) =
      fun id => (if s.fileid res = id then rms id + 1 else rms id) ≠ 0 := by
    funext id
    by_cases hid : s.fileid res = id
    · simp [hid]
    · simp [hid, Ne.symm hid]
  rw [hremoved] at harranged
  refine ⟨cells', harranged, ?_⟩
  intro d hdir e he
  have hke := kept_entryRemove hr e
  have hdir' := (kept_entryRemove hr d).isDir_iff.mp hdir
  have hcount := h.count d hdir' e (hsub d e he)
  rw [entryRemove_nlink hr, entryRemove_child hr, hke.fileid, dueNlink_congr hke.type, ← hcount]
  by_cases hent : e = res
  · rw [hent, if_pos rfl, if_pos rfl, BitVec.ofNat_add,
      show BitVec.ofNat 32 1 = (1 : Word) from rfl]
    ring
  · rw [if_neg hent, if_neg]
    intro hid
    have hlive := h.arranged.live parent hd res hres
    exact hent (h.arranged.wellFormed.unique res e hlive hid.symm)

theorem Tallied.change (h : s.Tallied rms cells) (hc : s.Change m s')
    (hm : ∃ id d, m.parent = some id ∧ s.findById id = some d ∧ s.isDir d) :
    ∃ cells', s'.Tallied (s.removalsAfter m rms) cells' := by
  obtain ⟨id, d, hparent, hfind, hdir⟩ := hm
  have hkeep : ∀ x, s.removes m = none → s.removalsAfter m rms x = rms x := by
    intro x hr
    rw [removalsAfter, removedId, hr]
    rfl
  cases hc with
  | keep _ _ hr =>
      rw [funext fun x => hkeep x hr]
      exact ⟨cells, h⟩
  | create hm hp hi ha =>
      obtain ⟨hfree, hid, rfl⟩ := entryInit_some hi
      rw [parent_of_creates hm] at hparent
      cases hparent
      obtain rfl := Option.some.inj (hfind.symm.trans hp)
      rw [funext fun x => hkeep x (alone_of_creates hm).2.2]
      exact h.create hdir hfree hid ha _
  | @remove parent res _ hm hr =>
      obtain ⟨req, rfl, hfind', hscan⟩ := removes_some hm
      cases hparent
      obtain rfl := Option.some.inj (hfind.symm.trans hfind')
      rw [scan_of_chain (h.arranged.forest.chain d hdir), Option.some.injEq] at hscan
      obtain ⟨cells', h'⟩ := h.remove hdir (List.mem_of_find?_eq_some hscan) hr
      have hafter : s.removalsAfter (.request (.rm req)) rms =
          fun id => if s.fileid res = id then rms id + 1 else rms id := by
        funext id
        simp only [removalsAfter, removedId, hm, Option.map_some, Option.some.injEq]
      rw [hafter]
      exact ⟨cells', h'⟩
  | reclaim hm =>
      cases m with
      | chunk b => cases hm
      | request r => cases r <;> first | cases hm | cases hparent
  | resize hm =>
      cases m with
      | chunk b => cases hm
      | request r => cases r <;> first | cases hm | cases hparent
  | copy hm _ =>
      subst hm
      cases hparent

theorem ofArray_testName : CString.ofArray testNameArray = testName := by decide +kernel

theorem boot_tallied {rootGen testGen : Word64} (h : boot rootGen testGen = some s) :
    ∃ cells, s.Tallied (fun _ => 0) cells := by
  obtain ⟨root, s₁, test, s₂, s₃, hroot, htest, happ, rfl⟩ := boot_some h
  obtain ⟨hfree, hid, rfl⟩ := entryInit_some hroot
  obtain ⟨hfree', hid', rfl⟩ := entryInit_some htest
  have hdead : ¬ blank.live root := not_not.mpr (findById_fileid hfree)
  have hblank := blank_arranged.initAt hdead hid .dir rootGen
  have hdir : (blank.initAt root .dir rootGen).isDir root := by
    rw [isDir, live, initAt_entries, if_pos rfl]
    exact ⟨show BitVec.ofNat 32 1 ≠ (0 : Word) by decide, rfl⟩
  have htallied : (blank.initAt root .dir rootGen).Tallied (fun _ => 0)
      (Function.update (fun _ => []) root []) := by
    refine ⟨by simpa using hblank, ?_⟩
    intro d _ e he
    simp [Function.update_apply] at he
  have hcreate := htallied.create (j := ⟨fun _ => 0, fun _ => 0, testGen, fun text => text⟩)
    hdir hfree' hid' happ testNameArray
  rwa [setName, ofArray_testName] at hcreate

/-- The count differs from what it should be by the removals and, for a first child, one. -/
theorem Tallied.due_iff (h : s.Tallied rms cells) {d e : EntryPtr} (hd : s.isDir d)
    (he : e ∈ cells d) : (s.entries e).vaNlink = s.dueNlink e ↔
      (s.child d ≠ some e ∨ 2 ^ 32 ∣ rms (s.fileid e) + 1) := by
  have hcount := h.count d hd e he
  by_cases hfirst : s.child d = some e
  · rw [if_pos hfirst, add_assoc, show (1 : Word) = BitVec.ofNat 32 1 from rfl,
      ← BitVec.ofNat_add] at hcount
    have hzero : BitVec.ofNat 32 (rms (s.fileid e) + 1) = 0 ↔ 2 ^ 32 ∣ rms (s.fileid e) + 1 := by
      rw [← BitVec.toNat_inj, BitVec.toNat_ofNat, Nat.dvd_iff_mod_eq_zero]
      rfl
    rw [← hcount, left_eq_add, hzero]
    exact (or_iff_right (not_not.mpr hfirst)).symm
  · have hrms : rms (s.fileid e) = 0 := by
      by_contra hne
      exact hfirst (h.arranged.heads d hd e he hne)
    rw [if_neg hfirst, hrms] at hcount
    refine iff_of_true ?_ (Or.inl hfirst)
    simpa using hcount

end Step

theorem countRight_iff {s : Store} (d e : EntryPtr) :
    s.CountRight d e ↔ (s.entries e).vaNlink = s.dueNlink e := by
  refine ⟨fun h => h.due, fun hdue => ⟨hdue, ?_⟩⟩
  intro j req resp s' ht hr
  simp only [handleRmRequest, ht] at hr
  split at hr
  · cases hr
  · rename_i s₁ hremove
    cases hr
    have hnlink := entryRemove_nlink hremove e
    rw [if_pos rfl, hdue] at hnlink
    simp only [hnlink, hdue, dueNlink]
    split
    · exact ⟨trivial, by decide, fun hreg => absurd ‹_› hreg⟩
    · exact ⟨trivial, by decide, fun _ => by decide⟩

end Store

theorem Gba.LinkRun.tallied {g : Gba} {rms : Word → Nat} (h : g.LinkRun rms) :
    ∃ cells, g.store.Tallied rms cells := by
  induction h with
  | boot h => exact Store.boot_tallied h
  | step _ hs hm ih =>
      obtain ⟨cells, htallied⟩ := ih
      exact htallied.change (Gba.receive_change hs) hm

/-- In every run the link count of an entry on a directory's chain is right exactly when the
entry is not the first one there, or has been removed so often that its count has come round. -/
theorem linkRun_countRight {g : Gba} {rms : Word → Nat} (h : g.LinkRun rms) {d : EntryPtr}
    (hd : g.store.isDir d) :
    ∃ l, Chain g.store.next (g.store.child d) l ∧ ∀ e ∈ l,
      (g.store.CountRight d e ↔
        (g.store.child d ≠ some e ∨ 2 ^ 32 ∣ rms (g.store.fileid e) + 1)) := by
  obtain ⟨cells, htallied⟩ := h.tallied
  refine ⟨cells d, htallied.arranged.forest.chain d hd, fun e he => ?_⟩
  rw [Store.countRight_iff]
  exact htallied.due_iff hd he

/-- A second file in the root directory. -/
theorem linkRun_countRight_second :
    ∃ g : Gba, bootRun [.request (.create ⟨1, fun _ => 0⟩)] = some g ∧
      g.store.CountRight rootSlot newSlot := by
  obtain ⟨g, hg, hfacts⟩ := Option.map_eq_some_iff.mp
    (show (bootRun [.request (.create ⟨1, fun _ => 0⟩)]).map (fun g =>
      ([g.store.child rootSlot, g.store.next testSlot], decide (g.store.isDir rootSlot))) =
      some ([some testSlot, some newSlot], true) by decide +kernel)
  simp only [Prod.mk.injEq, List.cons.injEq, and_true, decide_eq_true_iff] at hfacts
  obtain ⟨⟨hchild, hnext⟩, hdir⟩ := hfacts
  obtain ⟨g₀, hg₀, hm⟩ := bootRun_cons hg
  obtain ⟨s, hs, rfl⟩ := bootRun_nil hg₀
  have hboot : (Store.boot 0 0).map (fun s => (s.findById 1, decide (s.isDir rootSlot))) =
      some (some rootSlot, true) := by decide +kernel
  simp only [hs, Option.map_some, Option.some.injEq, Prod.mk.injEq, decide_eq_true_iff] at hboot
  have hrun := Gba.LinkRun.step (.boot hs) hm ⟨1, rootSlot, rfl, hboot.1, hboot.2⟩
  obtain ⟨l, hl, hcounts⟩ := linkRun_countRight hrun hdir
  refine ⟨g, hg, (hcounts newSlot ?_).mpr (Or.inl ?_)⟩
  · rw [hchild] at hl
    obtain ⟨r, rfl, hr⟩ := hl.of_some
    rw [hnext] at hr
    obtain ⟨r, rfl, _⟩ := hr.of_some
    simp
  · rw [hchild]
    decide

/-- The file that boot links into the root directory counts no link, and removing it
counts below zero. -/
theorem countRight_counterexample :
    ∃ (g : Gba) (rms : Word → Nat), bootRun [] = some g ∧ g.LinkRun rms ∧
      g.store.isDir rootSlot ∧ g.store.child rootSlot = some testSlot ∧
      (g.store.entries testSlot).vaType = Vtype.reg.code ∧
      (g.store.entries testSlot).vaNlink = 0 ∧
      (g.store.handleRmRequest .zero ⟨1, testNameArray⟩).map (fun r => (r.1.err, r.1.vaNlink)) =
        some (0, 0xffffffff) ∧
      ¬ g.store.CountRight rootSlot testSlot := by
  obtain ⟨g, hg, hfacts⟩ := Option.map_eq_some_iff.mp
    (show (bootRun []).map (fun g => (g.store.child rootSlot, decide (g.store.isDir rootSlot),
      [(g.store.entries testSlot).vaType, (g.store.entries testSlot).vaNlink,
        g.store.dueNlink testSlot],
      (g.store.handleRmRequest .zero ⟨1, testNameArray⟩).map (fun r => (r.1.err, r.1.vaNlink)))) =
      some (some testSlot, true, [Vtype.reg.code, 0, 1], some (0, 0xffffffff)) by decide +kernel)
  simp only [Prod.mk.injEq, List.cons.injEq, and_true, decide_eq_true_iff] at hfacts
  obtain ⟨hchild, hdir, ⟨htype, hnlink, hdue⟩, hrm⟩ := hfacts
  obtain ⟨s, hs, rfl⟩ := bootRun_nil hg
  refine ⟨_, _, hg, .boot hs, hdir, hchild, htype, hnlink, hrm, fun hright => ?_⟩
  have heq := hright.due
  rw [hnlink, hdue] at heq
  exact absurd heq (by decide)

end WiiJoybus
