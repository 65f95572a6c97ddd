import WiiJoybus.Library.Forest
import WiiJoybus.Gba.Reachable

/-!
The directory tree.

Every live directory starts a chain of entries, and the chains are a forest. The
forest grows by appending and shrinks by unlinking, but the first entry of a
chain is never unlinked: once it is removed and then reclaimed, its directory
points to a free slot, and the next file created there closes a circle.
-/

namespace WiiJoybus
open LinkedTable

namespace Store

def child (s : Store) (d : EntryPtr) : Option EntryPtr := (s.entries d).child

def isDir (s : Store) (d : EntryPtr) : Prop :=
  s.live d ∧ (s.entries d).vaType = Vtype.dir.code

/-- The chains of the live directories are finite, live and apart. -/
structure Tree (s : Store) : Prop where
  chains : ∀ d, s.isDir d → ∃ l, Chain s.next (s.child d) l ∧ l.length ≤ entriesMax ∧ l.Nodup ∧
    ∀ e ∈ l, s.live e
  apart : ∀ d d' l l' e, s.isDir d → s.isDir d' → Chain s.next (s.child d) l →
    Chain s.next (s.child d') l' → e ∈ l → e ∈ l' → d = d'

end Store

/-- The directory a message is to change. -/
def Message.parent : Message → Option Word
  | .request (.create req) => some req.parentFileid
  | .request (.mkdir req) => some req.parentFileid
  | .request (.rm req) => some req.parentFileid
  | _ => none

namespace Store

/-- Parents are live directories, and only removed entries are reclaimed. -/
structure Disciplined (s : Store) (m : Message) (removed : Word → Prop) : Prop where
  parents : ∀ id, m.parent = some id → ∃ d, s.findById id = some d ∧ s.isDir d
  reclaims : ∀ p, s.reclaims m = some p → s.live p → removed (s.fileid p)

/-- The ids that have been removed, once `m` is handled. -/
def removedAfter (s : Store) (m : Message) (removed : Word → Prop) (id : Word) : Prop :=
  removed id ∨ ∃ d p, s.removes m = some (d, p) ∧ s.fileid p = id

/-- The message does not reclaim the first entry of another live directory. -/
def KeepsHead (s : Store) (m : Message) : Prop :=
  ∀ p, s.reclaims m = some p → s.live p → ∀ d, d ≠ p → s.isDir d → s.child d ≠ some p

/-- The forest of a store, in which a removed entry is the first of its chain. -/
structure Arranged (s : Store) (removed : Word → Prop) (cells : EntryPtr → List EntryPtr) :
    Prop where
  wellFormed : s.WellFormed
  forest : Forest s.next s.child s.isDir cells
  live : ∀ d, s.isDir d → ∀ e ∈ cells d, s.live e
  heads : ∀ d, s.isDir d → ∀ e ∈ cells d, removed (s.fileid e) → s.child d = some e
  issued : ∀ id, removed id → id.toNat < s.id

/-- Nothing differs that concerns the shape of the tree. -/
structure SameLinks (s s' : Store) : Prop where
  fileid : ∀ p, s'.fileid p = s.fileid p
  type : ∀ p, (s'.entries p).vaType = (s.entries p).vaType
  next : ∀ p, s'.next p = s.next p
  child : ∀ p, s'.child p = s.child p
  id : s'.id = s.id

section Links

variable {s s' : Store} {removed : Word → Prop} {cells : EntryPtr → List EntryPtr}
variable {p q parent ent res : EntryPtr} {l : List EntryPtr}

theorem SameTree.links (h : SameTree s s') : SameLinks s s' :=
  ⟨h.fileid, h.type, h.next, h.child, h.id⟩

theorem SameLinks.isDir (h : SameLinks s s') (d : EntryPtr) : s'.isDir d ↔ s.isDir d := by
  have hid := h.fileid d
  have htype := h.type d
  simp only [Store.fileid] at hid
  simp only [Store.isDir, Store.live, hid, htype]

theorem sameLinks_setEntry (s : Store) (p : EntryPtr) (e : Entry)
    (hid : e.vaFileid = (s.entries p).vaFileid) (htype : e.vaType = (s.entries p).vaType)
    (hnext : e.next = (s.entries p).next) (hchild : e.child = (s.entries p).child) :
    SameLinks s (s.setEntry p e) where
  fileid := setEntry_field Entry.vaFileid s p e hid
  type := setEntry_field Entry.vaType s p e htype
  next := setEntry_field Entry.next s p e hnext
  child := setEntry_field Entry.child s p e hchild
  id := rfl

theorem sameLinks_setNlink (s : Store) (p : EntryPtr) (k : Word) : SameLinks s (s.setNlink p k) :=
  sameLinks_setEntry _ _ _ rfl rfl rfl rfl

theorem sameLinks_setName (j : Junk) (s : Store) (p : EntryPtr) (name : Name) :
    SameLinks s (setName j s p name) :=
  sameLinks_setEntry _ _ _ rfl rfl rfl rfl

theorem setNext_next (s : Store) (p : EntryPtr) (n : Option EntryPtr) (q : EntryPtr) :
    (s.setNext p n).next q = if q = p then n else s.next q := by
  rw [next, setNext, setEntry_apply]
  split <;> rfl

theorem setNext_child (s : Store) (p : EntryPtr) (n : Option EntryPtr) :
    (s.setNext p n).child = s.child := by
  funext q
  rw [child, setNext, setEntry_field Entry.child]
  · rfl
  · rfl

theorem setChild_child (s : Store) (p : EntryPtr) (c : Option EntryPtr) (q : EntryPtr) :
    (s.setChild p c).child q = if q = p then c else s.child q := by
  rw [child, setChild, setEntry_apply]
  split <;> rfl

theorem setChild_next (s : Store) (p : EntryPtr) (c : Option EntryPtr) :
    (s.setChild p c).next = s.next := by
  funext q
  rw [next, setChild, setEntry_field Entry.next]
  · rfl
  · rfl

theorem setEntry_isDir (s : Store) (p : EntryPtr) (e : Entry)
    (hid : e.vaFileid = (s.entries p).vaFileid) (htype : e.vaType = (s.entries p).vaType) :
    (s.setEntry p e).isDir = s.isDir := by
  funext q
  simp only [isDir, Store.live, setEntry_field Entry.vaFileid s p e hid,
    setEntry_field Entry.vaType s p e htype]

theorem setNext_isDir (s : Store) (p : EntryPtr) (n : Option EntryPtr) :
    (s.setNext p n).isDir = s.isDir :=
  setEntry_isDir _ _ _ rfl rfl

theorem setChild_isDir (s : Store) (p : EntryPtr) (c : Option EntryPtr) :
    (s.setChild p c).isDir = s.isDir :=
  setEntry_isDir _ _ _ rfl rfl

theorem scan_of_chain {start : Option EntryPtr} (h : Chain s.next start l) (f : EntryPtr → Bool) :
    s.scan f start = some (l.find? f) := by
  unfold scan
  refine h.scan f ?_
  simpa using h.length_le

theorem Arranged.sameLinks (h : s.Arranged removed cells) (hw : s'.WellFormed)
    (hs : SameLinks s s') : s'.Arranged removed cells where
  wellFormed := hw
  forest := (h.forest.restrict fun d hd => (hs.isDir d).mp hd).congr (fun d _ => hs.child d)
    fun _ _ a _ => hs.next a
  live d hd e he := by
    have hlive : s.fileid e ≠ 0 := h.live d ((hs.isDir d).mp hd) e he
    rwa [← hs.fileid] at hlive
  heads d hd e he hr := by
    rw [hs.fileid] at hr
    rw [hs.child]
    exact h.heads d ((hs.isDir d).mp hd) e he hr
  issued id hid := hs.id ▸ h.issued id hid

theorem Arranged.initAt (h : s.Arranged removed cells) (hent : ¬ s.live ent)
    (hid : s.id ≠ intMax) (vt : Vtype) (rand : Word64) :
    (s.initAt ent vt rand).Arranged removed (Function.update cells ent []) := by
  have hself : (s.initAt ent vt rand).entries ent = freshEntry (s.entries ent) s.id vt rand := by
    rw [initAt_entries, if_pos rfl]
  have hother : ∀ d, d ≠ ent → (s.initAt ent vt rand).entries d = s.entries d := by
    intro d hd
    rw [initAt_entries, if_neg hd]
  have hdir : ∀ d, (s.initAt ent vt rand).isDir d → d ≠ ent → s.isDir d := by
    intro d hd hne
    simpa only [isDir, Store.live, hother d hne] using hd
  -- a free slot is on no chain
  have hfree : ∀ d, s.isDir d → ∀ a ∈ cells d, a ≠ ent := by
    rintro d hd a ha rfl
    exact hent (h.live d hd a ha)
  constructor
  case wellFormed => exact h.wellFormed.initAt hid
  case forest =>
    have hforest : Forest (s.initAt ent vt rand).next (s.initAt ent vt rand).child
        (fun d => d ≠ ent ∧ (s.initAt ent vt rand).isDir d) cells := by
      refine (h.forest.restrict fun d hd => hdir d hd.2 hd.1).congr ?_ ?_
      · intro d hd
        simp only [child, hother d hd.1]
      · intro d hd a ha
        simp only [next, hother a (hfree d (hdir d hd.2 hd.1) a ha)]
    refine hforest.insert ?_ ?_
    · rw [child, hself]
      rfl
    · intro d hd
      by_cases hne : d = ent
      · exact Or.inl hne
      · exact Or.inr ⟨hne, hd⟩
  case live =>
    intro d hd e he
    by_cases hne : d = ent
    · simp [hne] at he
    · rw [Function.update_of_ne hne] at he
      have hd := hdir d hd hne
      rw [Store.live, hother e (hfree d hd e he)]
      exact h.live d hd e he
  case heads =>
    intro d hd e he hr
    by_cases hne : d = ent
    · simp [hne] at he
    · rw [Function.update_of_ne hne] at he
      have hd := hdir d hd hne
      rw [fileid, hother e (hfree d hd e he)] at hr
      rw [child, hother d hne]
      exact h.heads d hd e he hr
  case issued => exact fun id hr => Nat.lt_succ_of_lt (h.issued id hr)

theorem Arranged.rearrange (h : s.Arranged removed cells) (hw : s'.WellFormed)
    (hfileid : s'.fileid = s.fileid) (hdir : s'.isDir = s.isDir) (hid : s'.id = s.id)
    {cells' : EntryPtr → List EntryPtr} (hforest : Forest s'.next s'.child s.isDir cells')
    (hcells : ∀ d, s.isDir d → ∀ e ∈ cells' d,
      e ∈ cells d ∧ s'.child d = s.child d ∨ s.live e ∧ ¬ removed (s.fileid e)) :
    s'.Arranged removed cells' where
  wellFormed := hw
  forest := by rwa [hdir]
  live d hd e he := by
    change s'.fileid e ≠ 0
    rw [hdir] at hd
    rw [hfileid]
    rcases hcells d hd e he with ⟨he, _⟩ | ⟨hlive, _⟩
    · exact h.live d hd e he
    · exact hlive
  heads d hd e he hr := by
    rw [hdir] at hd
    rw [hfileid] at hr
    rcases hcells d hd e he with ⟨he, hchild⟩ | ⟨_, hnot⟩
    · rw [hchild]
      exact h.heads d hd e he hr
    · exact absurd hr hnot
  issued := hid ▸ h.issued

theorem Arranged.setNext (h : s.Arranged removed cells) (p : EntryPtr) (n : Option EntryPtr)
    {cells' : EntryPtr → List EntryPtr}
    (hforest : Forest (s.setNext p n).next s.child s.isDir cells')
    (hcells : ∀ d, s.isDir d → ∀ e ∈ cells' d,
      e ∈ cells d ∨ s.live e ∧ ¬ removed (s.fileid e)) :
    (s.setNext p n).Arranged removed cells' := by
  refine h.rearrange (h.wellFormed.sameFiles (sameFiles_setNext s p n))
    (funext (sameFiles_setNext s p n).fileid) (setNext_isDir s p n) rfl ?_ ?_
  · rwa [setNext_child]
  · intro d hd e he
    rw [setNext_child]
    exact (hcells d hd e he).imp_left fun he => ⟨he, rfl⟩

theorem Arranged.link (h : s.Arranged removed cells) (hd : s.isDir parent)
    (hl : cells parent = l ++ [p]) (hlive : s.live ent) (hnext : s.next ent = none)
    (hfree : ∀ d, s.isDir d → ent ∉ cells d) (hnew : ¬ removed (s.fileid ent)) :
    (s.setNext p (some ent)).Arranged removed
      (Function.update cells parent (l ++ [p, ent])) := by
  have hne : ent ≠ p := by
    rintro rfl
    exact hfree parent hd (by simp [hl])
  refine h.setNext p (some ent) ?_ ?_
  · refine h.forest.append hd hl ?_ ?_ ?_ hfree
    · rw [setNext_next, if_pos rfl]
    · rw [setNext_next, if_neg hne, hnext]
    · intro b hb _
      rw [setNext_next, if_neg hb]
  · intro d hd e he
    by_cases hdp : d = parent
    · subst hdp
      simp only [Function.update_self, List.mem_append, List.mem_cons, List.not_mem_nil,
        or_false] at he
      rcases he with he | rfl | rfl
      · exact Or.inl (by simp [hl, he])
      · exact Or.inl (by simp [hl])
      · exact Or.inr ⟨hlive, hnew⟩
    · rw [Function.update_of_ne hdp] at he
      exact Or.inl he

theorem Arranged.bypass (h : s.Arranged removed cells) (hd : s.isDir parent) {u v : List EntryPtr}
    (hl : cells parent = u ++ p :: res :: v) :
    (s.setNext p (s.next res)).Arranged removed (Function.update cells parent (u ++ p :: v)) ∧
      ∀ d, s.isDir d → res ∉ Function.update cells parent (u ++ p :: v) d := by
  constructor
  · refine h.setNext p (s.next res) ?_ ?_
    · refine h.forest.unlink hd hl ?_ ?_
      · rw [setNext_next, if_pos rfl]
      · intro b hb
        rw [setNext_next, if_neg hb]
    · intro d hd e he
      left
      by_cases hdp : d = parent
      · subst hdp
        simp only [Function.update_self, List.mem_append, List.mem_cons] at he
        simp only [hl, List.mem_append, List.mem_cons]
        tauto
      · rwa [Function.update_of_ne hdp] at he
  · intro d hd' he
    by_cases hdp : d = parent
    · subst hdp
      rw [Function.update_self] at he
      have hnodup := (h.forest.chain d hd').nodup
      rw [hl, List.nodup_append] at hnodup
      have hcons := List.nodup_cons.mp hnodup.2.1
      rcases List.mem_append.mp he with he | he
      · exact hnodup.2.2 res he res (by simp) rfl
      · rcases List.mem_cons.mp he with rfl | he
        · exact hcons.1 (by simp)
        · exact (List.nodup_cons.mp hcons.2).1 he
    · rw [Function.update_of_ne hdp] at he
      exact hdp (h.forest.disjoint d parent res hd' hd he (by simp [hl]))

theorem Arranged.entryAppend (h : s.Arranged removed cells) (hd : s.isDir parent)
    (hlive : s.live ent) (hnext : s.next ent = none) (hfree : ∀ d, s.isDir d → ent ∉ cells d)
    (hnew : ¬ removed (s.fileid ent)) (ha : s.entryAppend parent ent = some s') :
    s'.Arranged removed (Function.update cells parent (cells parent ++ [ent])) := by
  have hchain := h.forest.chain parent hd
  have hw := h.wellFormed.sameFiles (sameFiles_entryAppend ha)
  rcases entryAppend_some ha with ⟨hnone, rfl⟩ | ⟨first, n, k, hfirst, hscan, rfl⟩
  · change s.child parent = none at hnone
    rw [hnone] at hchain
    rw [hchain.of_none, List.nil_append]
    refine h.rearrange hw (funext (sameFiles_setChild _ _ _).fileid) (setChild_isDir _ _ _) rfl
      ?_ ?_
    · rw [setChild_next]
      refine h.forest.start hd ?_ ?_ hnext hfree
      · rw [setChild_child, if_pos rfl]
      · intro d hne
        rw [setChild_child, if_neg hne]
    · intro d hd e he
      by_cases hne : d = parent
      · subst hne
        simp only [Function.update_self, List.mem_singleton] at he
        subst he
        exact Or.inr ⟨hlive, hnew⟩
      · rw [Function.update_of_ne hne] at he
        exact Or.inl ⟨he, by rw [setChild_child, if_neg hne]⟩
  · change s.child parent = some first at hfirst
    rw [hfirst] at hchain
    rw [scan_of_chain hchain, Option.some.injEq] at hscan
    have hlast : s.next n = none := by simpa using List.find?_some hscan
    obtain ⟨l, hl⟩ := hchain.eq_snoc (List.mem_of_find?_eq_some hscan) hlast
    rw [hl, List.append_assoc]
    exact (h.link hd hl hlive hnext hfree hnew).sameLinks hw (sameLinks_setNlink _ ent k)

/-- An entry that is at most the first of its chain counts as removed. -/
theorem Arranged.removed_insert (h : s.Arranged removed cells) (hres : s.live res)
    (hhead : ∀ d, s.isDir d → res ∈ cells d → s.child d = some res) :
    s.Arranged (fun id => removed id ∨ id = s.fileid res) cells where
  wellFormed := h.wellFormed
  forest := h.forest
  live := h.live
  heads d hd e he hr := by
    rcases hr with hr | hr
    · exact h.heads d hd e he hr
    · obtain rfl := h.wellFormed.unique res e hres hr
      exact hhead d hd he
  issued id hid := by
    rcases hid with hid | rfl
    · exact h.issued id hid
    · exact h.wellFormed.issued res

theorem Arranged.entryRemove (h : s.Arranged removed cells) (hd : s.isDir parent)
    (hres : res ∈ cells parent) (hr : s.entryRemove parent res = some s') :
    ∃ cells', s'.Arranged (fun id => removed id ∨ id = s.fileid res) cells' ∧
      ∀ d, ∀ e ∈ cells' d, e ∈ cells d := by
  have hchain := h.forest.chain parent hd
  have hlive := h.live parent hd res hres
  have hw := h.wellFormed.sameFiles (sameFiles_entryRemove hr)
  obtain ⟨prev, k, hscan, rfl⟩ := entryRemove_some hr
  change s.scan _ (s.child parent) = some prev at hscan
  rw [scan_of_chain hchain, Option.some.injEq] at hscan
  cases prev with
  | none =>
      -- no predecessor on the chain: it is the first, and stays
      have hnone := List.find?_eq_none.mp hscan
      have hhead : s.child parent = some res := by
        rcases hchain.start_or_prev hres with hstart | ⟨a, ha, hnext⟩
        · exact hstart
        · exact absurd (by simp [precedes, hnext]) (hnone a ha)
      refine ⟨cells, (h.removed_insert hlive ?_).sameLinks hw (sameLinks_setNlink _ _ _),
        fun _ _ he => he⟩
      intro d hd' he
      rwa [h.forest.disjoint d parent res hd' hd he hres]
  | some a =>
      have ha := List.mem_of_find?_eq_some hscan
      have hprecedes := List.find?_some hscan
      obtain ⟨n, hnext, hn⟩ : ∃ n, s.next a = some n ∧ s.fileid n = s.fileid res := by
        cases hnext : s.next a with
        | none => simp [precedes, hnext] at hprecedes
        | some n => exact ⟨n, rfl, by simpa [precedes, hnext, fileid] using hprecedes⟩
      obtain rfl := h.wellFormed.unique res n hlive hn
      obtain ⟨u, v, hl⟩ := hchain.eq_neighbours ha hnext
      obtain ⟨harranged, hgone⟩ := h.bypass hd hl
      have hid : (s.setNext a (s.next n)).fileid n = s.fileid n :=
        (sameFiles_setNext _ _ _).fileid n
      have hlive' : (s.setNext a (s.next n)).fileid n ≠ 0 := by rwa [hid]
      have hinsert := harranged.removed_insert hlive' (by
        intro d hd' hn'
        rw [setNext_isDir] at hd'
        exact absurd hn' (hgone d hd'))
      rw [hid] at hinsert
      refine ⟨_, hinsert.sameLinks hw (sameLinks_setNlink _ n k), ?_⟩
      intro d e he
      by_cases hdp : d = parent
      · subst hdp
        rw [Function.update_self] at he
        rw [hl]
        rcases List.mem_append.mp he with he | he
        · exact List.mem_append_left _ he
        · rcases List.mem_cons.mp he with rfl | he
          · simp
          · simp [he]
      · rwa [Function.update_of_ne hdp] at he

theorem Arranged.create (h : s.Arranged removed cells) (hd : s.isDir parent)
    (hent : s.findById 0 = some ent) (hid : s.id ≠ intMax) {vt : Vtype} {rand : Word64}
    (ha : (s.initAt ent vt rand).entryAppend parent ent = some s') :
    s'.Arranged removed (Function.update (Function.update cells ent []) parent
      (cells parent ++ [ent])) := by
  have hdead : ¬ s.live ent := not_not.mpr (findById_fileid hent)
  have hfresh := h.wellFormed.fresh
  have hself : (s.initAt ent vt rand).entries ent = freshEntry (s.entries ent) s.id vt rand := by
    rw [initAt_entries, if_pos rfl]
  have hfileid : (s.initAt ent vt rand).fileid ent = BitVec.ofNat 32 s.id := by
    rw [fileid, hself]
    rfl
  have hother : ∀ d, d ≠ ent → (s.initAt ent vt rand).entries d = s.entries d := by
    intro d hne
    rw [initAt_entries, if_neg hne]
  have hparent : parent ≠ ent := by
    rintro rfl
    exact hdead hd.1
  have hcells : Function.update cells ent [] parent = cells parent :=
    Function.update_of_ne hparent _ _
  rw [← hcells]
  refine (h.initAt hdead hid vt rand).entryAppend ?_ ?_ ?_ ?_ ?_ ha
  · rw [isDir, Store.live, hother parent hparent]
    exact hd
  · change (s.initAt ent vt rand).fileid ent ≠ 0
    intro hzero
    rw [hfileid] at hzero
    rw [hzero] at hfresh
    exact absurd hfresh.symm (Nat.one_le_iff_ne_zero.mp h.wellFormed.counter_pos)
  · rw [next, hself]
    rfl
  · intro d hdir hmem
    by_cases hne : d = ent
    · simp [hne] at hmem
    · rw [Function.update_of_ne hne] at hmem
      rw [isDir, Store.live, hother d hne] at hdir
      exact hdead (h.live d hdir ent hmem)
  · intro hr
    have := h.issued _ hr
    rw [hfileid, hfresh] at this
    exact absurd this (Nat.lt_irrefl _)

theorem Arranged.entryReclaim (h : s.Arranged removed cells) (p : EntryPtr)
    (hgone : ∀ d, d ≠ p → s.isDir d → p ∉ cells d) :
    (s.entryReclaim p).Arranged removed cells := by
  have hown := entryReclaim_sameOwned h.wellFormed p
  have hfield : ∀ {β : Type} (f : Entry → β) q, q ≠ p →
      f ((s.entryReclaim p).entries q) = f (s.entries q) := by
    intro β f q hq
    rw [hown.entries, retire_entries_of_ne hq]
  have hdead : ¬ (s.entryReclaim p).live p := by
    have hzero := retire_fileid s p p
    rw [if_pos rfl] at hzero
    rw [Store.live, hown.entries]
    exact not_not.mpr hzero
  have hdir : ∀ d, (s.entryReclaim p).isDir d → d ≠ p ∧ s.isDir d := by
    intro d hd
    have hne : d ≠ p := by
      rintro rfl
      exact hdead hd.1
    exact ⟨hne, by simpa only [isDir, Store.live, hfield _ d hne] using hd⟩
  have hmem : ∀ d, (s.entryReclaim p).isDir d → ∀ e ∈ cells d, e ≠ p := by
    rintro d hd e he rfl
    obtain ⟨hne, hd⟩ := hdir d hd
    exact hgone d hne hd he
  constructor
  case wellFormed => exact h.wellFormed.entryReclaim p
  case forest =>
    refine (h.forest.restrict fun d hd => (hdir d hd).2).congr ?_ ?_
    · intro d hd
      exact hfield Entry.child d (hdir d hd).1
    · intro d hd a ha
      exact hfield Entry.next a (hmem d hd a ha)
  case live =>
    intro d hd e he
    rw [Store.live, hfield Entry.vaFileid e (hmem d hd e he)]
    exact h.live d (hdir d hd).2 e he
  case heads =>
    intro d hd e he hr
    rw [fileid, hfield Entry.vaFileid e (hmem d hd e he)] at hr
    rw [child, hfield Entry.child d (hdir d hd).1]
    exact h.heads d (hdir d hd).2 e he hr
  case issued =>
    intro id hr
    rw [hown.id]
    exact h.issued id hr

theorem Arranged.tree (h : s.Arranged removed cells) : s.Tree where
  chains d hd := by
    have hchain := h.forest.chain d hd
    refine ⟨cells d, hchain, ?_, hchain.nodup, h.live d hd⟩
    simpa using hchain.length_le
  apart d d' l l' e hd hd' hl hl' he he' := by
    rw [← h.forest.cells_eq hd hl] at he
    rw [← h.forest.cells_eq hd' hl'] at he'
    exact h.forest.disjoint d d' e hd hd' he he'

theorem not_tree_entryReclaim (hw : s.WellFormed) {d : EntryPtr} (hne : d ≠ p)
    (hd : s.isDir d) (hchild : s.child d = some p) : ¬ (s.entryReclaim p).Tree := by
  have hown := entryReclaim_sameOwned hw p
  have hsame : (s.entryReclaim p).entries d = s.entries d := by
    rw [hown.entries, retire_entries_of_ne hne]
  intro htree
  obtain ⟨l, hl, _, _, hlive⟩ := htree.chains d (by rwa [isDir, Store.live, hsame])
  rw [child, hsame] at hl
  change Chain _ (s.child d) l at hl
  rw [hchild] at hl
  obtain ⟨r, rfl, _⟩ := hl.of_some
  apply hlive p List.mem_cons_self
  have hzero := retire_fileid s p p
  rw [if_pos rfl] at hzero
  rw [hown.entries]
  exact hzero

end Links

end Store

end WiiJoybus
