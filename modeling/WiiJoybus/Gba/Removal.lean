import WiiJoybus.Gba.TreeRuns

/-!
Removing a child.

The loop of `entryRemove` looks for the predecessor of the entry and relinks it.
The first entry of a chain has none, so it stays where it is, and the reply says
success all the same.
-/

namespace WiiJoybus
open LinkedTable

namespace Store

/-- The chain of a live directory, whose entries are live and told apart by their ids
and their names. -/
structure Listed (s : Store) (d : EntryPtr) (l : List EntryPtr) : Prop where
  isDir : s.isDir d
  chain : Chain s.next (s.child d) l
  live : ∀ e ∈ l, s.live e
  ids : (l.map s.fileid).Nodup
  names : (l.map fun e => CString.ofArray (s.entries e).name).Nodup

/-- The entry a walk along the chain of `d` comes to after `n` steps. -/
def walk (s : Store) (d : EntryPtr) (n : Nat) : Option EntryPtr :=
  nth s.next n (s.child d)

/-- RM succeeds and takes `res`, and nothing else, from the chain of `d`: no lookup of the
name finds an entry any more, and no READDIR lists it. -/
def RemovesExactly (s : Store) (d : EntryPtr) (l : List EntryPtr) (res : EntryPtr) (req : RmReq) :
    Prop :=
  ∀ j, ∃ resp s', s.handleRmRequest j req = some (resp, s') ∧ resp.err = 0 ∧
    Chain s'.next (s'.child d) (l.erase res) ∧
    (∀ j', ∃ reply, s'.handleLookupRequest j' ⟨req.parentFileid, req.name⟩ = some reply ∧
      reply.exists_ = 0) ∧
    (∀ j' n, (s'.handleReaddirRequest j' ⟨req.parentFileid, n⟩).exists_ ≠ 0 →
      (s'.handleReaddirRequest j' ⟨req.parentFileid, n⟩).vaFileid ≠ s.fileid res) ∧
    ∀ d', d' ≠ d → s.isDir d' → s'.walk d' = s.walk d'

section Removal

variable {s s' : Store} {d res prev : EntryPtr} {l u v : List EntryPtr} {req : RmReq}

theorem findById_congr (h : s'.fileid = s.fileid) (id : Word) :
    s'.findById id = s.findById id := by
  have hsame : ∀ i, (s'.entries i).vaFileid = (s.entries i).vaFileid := fun i => congrFun h i
  unfold findById
  simp only [hsame]

theorem hasName_iff {name : Name} {ent : EntryPtr} : s.hasName name ent = true ↔
    CString.ofArray (s.entries ent).name = CString.ofArray name :=
  CString.same_iff _ _

theorem find?_eq_of_unique {p : EntryPtr → Bool} (hres : res ∈ l) (hp : p res = true)
    (hunique : ∀ e ∈ l, p e = true → e = res) : l.find? p = some res := by
  cases hfind : l.find? p with
  | none => exact absurd hp (List.find?_eq_none.mp hfind res hres)
  | some e => rw [hunique e (List.mem_of_find?_eq_some hfind) (List.find?_some hfind)]

theorem Listed.find_name (h : s.Listed d l) (hres : res ∈ l) {name : Name}
    (hname : s.hasName name res = true) : l.find? (s.hasName name) = some res := by
  refine find?_eq_of_unique hres hname fun e he hen => ?_
  exact List.inj_on_of_nodup_map h.names he hres
    ((hasName_iff.mp hen).trans (hasName_iff.mp hname).symm)

theorem precedes_iff : s.precedes res prev = true ↔
    ∃ n, s.next prev = some n ∧ s.fileid n = s.fileid res := by
  cases hnext : s.next prev with
  | none => simp [precedes, hnext]
  | some n => simp [precedes, hnext, fileid]

/-- The loop of `entryRemove` finds the predecessor, which all entries but the first have. -/
theorem Listed.find_precedes (h : s.Listed d l) (hres : res ∈ l) :
    (s.child d = some res ∧ l.find? (s.precedes res) = none) ∨
    ∃ u prev v, l = u ++ prev :: res :: v ∧ l.find? (s.precedes res) = some prev := by
  cases hfind : l.find? (s.precedes res) with
  | none =>
      rcases h.chain.start_or_prev hres with hstart | ⟨a, ha, hnext⟩
      · exact Or.inl ⟨hstart, rfl⟩
      · exact absurd (precedes_iff.mpr ⟨res, hnext, rfl⟩) (List.find?_eq_none.mp hfind a ha)
  | some prev =>
      have hprev := List.mem_of_find?_eq_some hfind
      obtain ⟨n, hnext, hn⟩ := precedes_iff.mp (List.find?_some hfind)
      obtain ⟨u, v, hl⟩ := h.chain.eq_neighbours hprev hnext
      obtain rfl : n = res := List.inj_on_of_nodup_map h.ids (by simp [hl]) hres hn
      exact Or.inr ⟨u, prev, v, hl, rfl⟩

theorem Listed.rmTarget (h : s.Listed d l) (hd : s.findById req.parentFileid = some d)
    (hres : res ∈ l) (hname : s.hasName req.name res = true) :
    s.rmTarget req = some (.inr (d, res)) := by
  have hchild : s.child d ≠ none := by
    intro hnone
    have hchain := h.chain
    rw [hnone] at hchain
    rw [hchain.of_none] at hres
    cases hres
  have hscan : s.scan (s.hasName req.name) (s.entries d).child = some (some res) := by
    have hfind := scan_of_chain h.chain (s.hasName req.name)
    rwa [h.find_name hres hname] at hfind
  have hsome : ¬ (s.entries d).child.isNone = true := by
    rwa [Option.isNone_iff_eq_none]
  simp only [Store.rmTarget, hd, hsome, h.isDir.2, hscan, ne_eq, not_true_eq_false, if_false,
    Bool.false_eq_true]

theorem Listed.handleRmRequest (h : s.Listed d l) (hd : s.findById req.parentFileid = some d)
    (hres : res ∈ l) (hname : s.hasName req.name res = true) (j : Junk) :
    ∃ resp k, s.handleRmRequest j req =
        some (resp, (s.unlinkAfter res (l.find? (s.precedes res))).setNlink res k) ∧
      resp.err = 0 := by
  have hscan : s.scan (s.precedes res) (s.entries d).child =
      some (l.find? (s.precedes res)) := scan_of_chain h.chain _
  generalize hprev : l.find? (s.precedes res) = prev at hscan
  have hrm : s.handleRmRequest j req =
      some (⟨0, s.fileid res, (((s.unlinkAfter res prev).setNlink res
        (((s.unlinkAfter res prev).entries res).vaNlink - 1)).entries res).vaNlink⟩,
        (s.unlinkAfter res prev).setNlink res
          (((s.unlinkAfter res prev).entries res).vaNlink - 1)) := by
    simp only [Store.handleRmRequest, h.rmTarget hd hres hname, Store.entryRemove, hscan]
    rfl
  exact ⟨_, _, hrm, rfl⟩

theorem setNlink_next (s : Store) (p : EntryPtr) (k : Word) : (s.setNlink p k).next = s.next :=
  funext (sameLinks_setNlink s p k).next

theorem setNlink_child (s : Store) (p : EntryPtr) (k : Word) : (s.setNlink p k).child = s.child :=
  funext (sameLinks_setNlink s p k).child

theorem setNext_fileid (s : Store) (p : EntryPtr) (n : Option EntryPtr) :
    (s.setNext p n).fileid = s.fileid :=
  funext (sameFiles_setNext s p n).fileid

theorem setNlink_fileid (s : Store) (p : EntryPtr) (k : Word) :
    (s.setNlink p k).fileid = s.fileid :=
  funext (sameFiles_setNlink s p k).fileid

theorem Listed.unlinked (h : s.Listed d l) (hl : l = u ++ prev :: res :: v) (k : Word) :
    Chain ((s.unlinkAfter res (some prev)).setNlink res k).next
      (((s.unlinkAfter res (some prev)).setNlink res k).child d) (l.erase res) := by
  have hchain := h.chain
  have hnodup := hchain.nodup
  have herase : l.erase res = u ++ prev :: v := by
    have hu : res ∉ u := by
      intro hmem
      rw [hl, List.nodup_append] at hnodup
      exact hnodup.2.2 res hmem res (by simp) rfl
    have hprev : prev ≠ res := by
      rintro rfl
      rw [hl, List.nodup_append] at hnodup
      exact (List.nodup_cons.mp hnodup.2.1).1 (by simp)
    rw [hl, List.erase_append_right _ hu, List.erase_cons_tail (by simpa using hprev),
      List.erase_cons_head]
  rw [hl, List.nodup_append] at hnodup
  have hv := (List.nodup_cons.mp hnodup.2.1).1
  rw [herase, setNlink_next, setNlink_child, unlinkAfter, setNext_child]
  rw [hl] at hchain
  refine hchain.unlink ?_ ?_ ?_
  · rw [setNext_next, if_pos rfl]
  · intro b hb
    rw [setNext_next, if_neg]
    exact fun heq => hnodup.2.2 b hb prev (by simp) heq
  · intro b hb
    rw [setNext_next, if_neg]
    rintro rfl
    exact hv (List.mem_cons_of_mem _ hb)

theorem unlinked_fileid (s : Store) (res : EntryPtr) (prev : Option EntryPtr) (k : Word) :
    ((s.unlinkAfter res prev).setNlink res k).fileid = s.fileid := by
  rw [setNlink_fileid]
  cases prev with
  | none => rfl
  | some prev => exact setNext_fileid s prev _

theorem unlinked_name (prev : Option EntryPtr) (k : Word) (e : EntryPtr) :
    (((s.unlinkAfter res prev).setNlink res k).entries e).name = (s.entries e).name := by
  cases prev with
  | none => exact setEntry_field Entry.name s res { s.entries res with vaNlink := k } rfl e
  | some prev =>
      refine (setEntry_field Entry.name (s.setNext prev (s.next res)) res
        { (s.setNext prev (s.next res)).entries res with vaNlink := k } rfl e).trans ?_
      exact setEntry_field Entry.name s prev { s.entries prev with next := s.next res } rfl e

/-- The other directories' chains are the same exactly when the predecessor is on none. -/
theorem Listed.walk_unlinked_iff (h : s.Listed d l) (hl : l = u ++ prev :: res :: v) (k : Word)
    (d' : EntryPtr) : ((s.unlinkAfter res (some prev)).setNlink res k).walk d' = s.walk d' ↔
      ∀ n, s.walk d' n ≠ some prev := by
  have hnext : s.next prev = some res := by
    have hchain := h.chain
    rw [hl] at hchain
    exact hchain.next_of_append
  have hlinks : ∀ a, ((s.unlinkAfter res (some prev)).setNlink res k).next a =
      if a = prev then s.next res else s.next a := by
    intro a
    rw [setNlink_next]
    exact setNext_next s prev _ a
  have hchild : ((s.unlinkAfter res (some prev)).setNlink res k).child d' = s.child d' := by
    rw [setNlink_child, unlinkAfter, setNext_child]
  constructor
  · intro hwalk n hn
    -- the walk goes from the predecessor to the entry, and from there to itself
    have hstep : s.walk d' (n + 1) = some res := by
      rw [walk] at hn ⊢
      rw [nth_add, hn]
      exact hnext
    rw [← hwalk, walk] at hn hstep
    rw [nth_add, hn] at hstep
    change ((s.unlinkAfter res (some prev)).setNlink res k).next prev = some res at hstep
    rw [hlinks, if_pos rfl] at hstep
    have hsuffix := h.chain
    rw [hl, show u ++ prev :: res :: v = (u ++ [prev]) ++ res :: v by simp] at hsuffix
    obtain ⟨r, hr, hrest⟩ := hsuffix.suffix.of_some
    cases hr
    rw [hstep] at hrest
    obtain ⟨r, rfl, _⟩ := hrest.of_some
    have hnodup := hsuffix.suffix.nodup
    simp at hnodup
  · intro hnone
    funext n
    rw [walk, walk, hchild]
    refine nth_congr (fun i a ha => ?_) n
    rw [hlinks, if_neg]
    rintro rfl
    exact hnone i ha

theorem lookup_of_chain (hd : s.findById req.parentFileid = some d)
    (hchain : Chain s.next (s.child d) l) (hnone : ∀ e ∈ l, ¬ s.hasName req.name e = true)
    (j : Junk) : ∃ reply, s.handleLookupRequest j ⟨req.parentFileid, req.name⟩ = some reply ∧
      reply.exists_ = 0 := by
  have hscan : s.scan (s.hasName req.name) (s.entries d).child = some none := by
    have hfind := scan_of_chain hchain (s.hasName req.name)
    rwa [List.find?_eq_none.mpr hnone] at hfind
  have hlookup : s.handleLookupRequest j ⟨req.parentFileid, req.name⟩ =
      some { (j.uninit : LookupResp) with exists_ := 0 } := by
    simp only [handleLookupRequest, lookupMatch, hd, hscan]
  exact ⟨_, hlookup, rfl⟩

theorem readdir_of_chain {id : Word} (hd : s.findById id = some d)
    (hchain : Chain s.next (s.child d) l) (j : Junk) (n : Word)
    (hex : (s.handleReaddirRequest j ⟨id, n⟩).exists_ ≠ 0) :
    ∃ e ∈ l, (s.handleReaddirRequest j ⟨id, n⟩).vaFileid = s.fileid e := by
  have hnth := hchain.nth n.toInt.toNat
  rw [child] at hnth
  simp only [handleReaddirRequest, hd, hnth] at hex ⊢
  cases he : l[n.toInt.toNat]? with
  | none => simp only [he, ne_eq, not_true_eq_false] at hex
  | some e => exact ⟨e, List.mem_of_getElem? he, rfl⟩

theorem removesExactly_of_listed (h : s.Listed d l)
    (hd : s.findById req.parentFileid = some d) (hres : res ∈ l)
    (hname : s.hasName req.name res = true) :
    s.RemovesExactly d l res req ↔ s.child d ≠ some res ∧
      ∀ prev ∈ l, s.next prev = some res → ∀ d', d' ≠ d → s.isDir d' →
        ∀ n, s.walk d' n ≠ some prev := by
  have hrm := h.handleRmRequest hd hres hname
  rcases h.find_precedes hres with ⟨hfirst, hnone⟩ | ⟨u, prev, v, hl, hsome⟩
  · -- the first entry is still there
    refine iff_of_false (fun hremoves => ?_) fun hcond => hcond.1 hfirst
    obtain ⟨resp, s', hr, _, hchain, _⟩ := hremoves .zero
    obtain ⟨resp', k, hr', _⟩ := hrm .zero
    rw [hr', hnone] at hr
    cases hr
    rw [unlinkAfter, setNlink_next, setNlink_child] at hchain
    have hlen := congrArg List.length (h.chain.unique hchain)
    rw [List.length_erase_of_mem hres] at hlen
    have := List.length_pos_of_mem hres
    omega
  · have hprev : prev ∈ l := by simp [hl]
    have hnext : s.next prev = some res := by
      have hchain := h.chain
      rw [hl] at hchain
      exact hchain.next_of_append
    have hfirst : s.child d ≠ some res := by
      intro hstart
      have hchain := h.chain
      rw [hstart] at hchain
      exact hchain.next_ne_start hprev hnext
    constructor
    · refine fun hremoves => ⟨hfirst, ?_⟩
      intro a ha hnexta d' hne hd'
      obtain rfl := h.chain.prev_unique ha hprev hnexta hnext
      obtain ⟨resp, s', hr, _, _, _, _, hwalk⟩ := hremoves .zero
      obtain ⟨resp', k, hr', _⟩ := hrm .zero
      rw [hr', hsome] at hr
      cases hr
      exact (h.walk_unlinked_iff hl k d').mp (hwalk d' hne hd')
    · rintro ⟨_, hothers⟩ j
      obtain ⟨resp, k, hr, herr⟩ := hrm j
      rw [hsome] at hr
      have hfind := findById_congr (unlinked_fileid s res (some prev) k)
        req.parentFileid
      have hchain := h.unlinked hl k
      have hgone : ∀ e ∈ l.erase res, e ∈ l ∧ e ≠ res := by
        intro e he
        obtain ⟨hne, hmem⟩ := (List.Nodup.mem_erase_iff h.chain.nodup).mp he
        exact ⟨hmem, hne⟩
      refine ⟨resp, _, hr, herr, hchain, ?_, ?_, ?_⟩
      · intro j'
        refine lookup_of_chain (hfind.trans hd) hchain ?_ j'
        intro e he hen
        obtain ⟨hmem, hne⟩ := hgone e he
        refine hne (List.inj_on_of_nodup_map h.names hmem hres ?_)
        rw [hasName_iff, unlinked_name] at hen
        exact hen.trans (hasName_iff.mp hname).symm
      · intro j' n hex heq
        obtain ⟨e, he, hid⟩ := readdir_of_chain (hfind.trans hd) hchain j' n hex
        obtain ⟨hmem, hne⟩ := hgone e he
        rw [hid, unlinked_fileid] at heq
        exact hne (List.inj_on_of_nodup_map h.ids hmem hres heq)
      · exact fun d' hne hd' =>
          (h.walk_unlinked_iff hl k d').mpr (hothers prev hprev hnext d' hne hd')

end Removal

end Store

/-- RM takes exactly the named entry from its chain if and only if it is not the first one,
and its predecessor is on no other directory's chain. -/
theorem removesExactly_iff {s : Store} {d : EntryPtr} {l : List EntryPtr} (h : s.Listed d l)
    {req : RmReq} (hd : s.findById req.parentFileid = some d) {res : EntryPtr} (hres : res ∈ l)
    (hname : s.hasName req.name res = true) :
    s.RemovesExactly d l res req ↔ s.child d ≠ some res ∧
      ∀ prev ∈ l, s.next prev = some res → ∀ d', d' ≠ d → s.isDir d' →
        ∀ n, s.walk d' n ≠ some prev :=
  Store.removesExactly_of_listed h hd hres hname

theorem Store.listed_single {s : Store} {d e : EntryPtr} (hdir : s.isDir d)
    (hchild : s.child d = some e) (hnext : s.next e = none) (hlive : s.live e) :
    s.Listed d [e] where
  isDir := hdir
  chain := by
    rw [hchild]
    exact .cons (by rw [hnext]; exact .nil)
  live a ha := by
    rw [List.mem_singleton.mp ha]
    exact hlive
  ids := List.nodup_singleton _
  names := List.nodup_singleton _

/-- A second file in the root directory is removed. -/
theorem removesExactly_iff_second :
    ∃ g : Gba, bootRun [.request (.create ⟨1, fun _ => 0⟩)] = some g ∧
      g.store.RemovesExactly rootSlot [testSlot, newSlot] newSlot ⟨1, fun _ => 0⟩ := by
  obtain ⟨g, hg, hfacts⟩ := Option.map_eq_some_iff.mp
    (show (bootRun [.request (.create ⟨1, fun _ => 0⟩)]).map (fun g =>
      ([g.store.child rootSlot, g.store.next testSlot, g.store.next newSlot, g.store.findById 1],
        decide (g.store.isDir rootSlot ∧ g.store.hasName (fun _ => 0) newSlot = true ∧
          g.store.live testSlot ∧ g.store.live newSlot ∧
          ([testSlot, newSlot].map g.store.fileid).Nodup ∧
          ([testSlot, newSlot].map fun e =>
            CString.ofArray (g.store.entries e).name).Nodup ∧
          ∀ d', d' ≠ rootSlot → ¬ g.store.isDir d'))) =
      some ([some testSlot, some newSlot, none, some rootSlot], true) by decide +kernel)
  simp only [Prod.mk.injEq, List.cons.injEq, and_true, decide_eq_true_iff] at hfacts
  obtain ⟨⟨hchild, hnext, hlast, hfind⟩, hdir, hname, hlive, hlive', hids, hnames, hothers⟩ :=
    hfacts
  have hlisted : g.store.Listed rootSlot [testSlot, newSlot] :=
    { isDir := hdir
      chain := by
        rw [hchild]
        exact .cons (by rw [hnext]; exact .cons (by rw [hlast]; exact .nil))
      live := by simp [hlive, hlive']
      ids := hids
      names := hnames }
  refine ⟨g, hg, (removesExactly_iff hlisted hfind (by simp) hname).mpr ⟨?_, ?_⟩⟩
  · rw [hchild]
    decide
  · exact fun _ _ _ d' hne hd' => absurd hd' (hothers d' hne)

/-- The file that boot links into the root directory is its first child. -/
theorem removesExactly_counterexample :
    ∃ g : Gba, bootRun [] = some g ∧ g.Reachable ∧ g.store.Listed rootSlot [testSlot] ∧
      g.store.findById 1 = some rootSlot ∧ g.store.hasName testNameArray testSlot = true ∧
      ¬ g.store.RemovesExactly rootSlot [testSlot] testSlot ⟨1, testNameArray⟩ := by
  obtain ⟨g, hg, hfacts⟩ := Option.map_eq_some_iff.mp
    (show (bootRun []).map (fun g =>
      ((g.store.child rootSlot, g.store.next testSlot, g.store.findById 1),
        decide (g.store.isDir rootSlot), decide (g.store.live testSlot),
        g.store.hasName testNameArray testSlot)) =
      some ((some testSlot, none, some rootSlot), true, true, true) by decide +kernel)
  simp only [Prod.mk.injEq, decide_eq_true_iff] at hfacts
  obtain ⟨⟨hchild, hnext, hfind⟩, hdir, hlive, hname⟩ := hfacts
  have hlisted := Store.listed_single hdir hchild hnext hlive
  refine ⟨g, hg, bootRun_reachable hg, hlisted, hfind, hname, fun hremoves => ?_⟩
  exact ((Store.removesExactly_of_listed hlisted hfind (by simp) hname).mp hremoves).1 hchild

end WiiJoybus
