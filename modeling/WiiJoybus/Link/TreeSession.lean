import WiiJoybus.Gba.Namespace
import WiiJoybus.Link.Listing
import WiiJoybus.Link.Resizing
import WiiJoybus.Link.SessionCalls

/-!
The directories over a whole session.

What the calls of a session return, as far as it concerns nodes and names, and what they
leave behind can be told from the tree alone: a new node has the next id, LOOKUP and
READDIR find the bindings that there are, and the nodes that can be made are as many as
STATVFS tells.
-/

namespace WiiJoybus
open ByteMemory LinkedTable Dialogue Dialogue.Network

/-- The message of an operation that makes or removes something. -/
def Operation.changes : Operation → Option Message
  | .create opc _ pcn vaType =>
      if vaType = vreg ∨ vaType = vsock then some (.request (.create ⟨opc, pcn.name⟩)) else none
  | .mkdir opc _ pcn => some (.request (.mkdir ⟨opc, pcn.name⟩))
  | .remove opc _ pcn => some (.request (.rm ⟨opc, pcn.name⟩))
  | .reclaim opc => some (.request (.reclaim ⟨opc⟩))
  | _ => none

namespace FileTree

def afterCall (t : FileTree) (op : Operation) : FileTree :=
  match op.changes with
  | none => t
  | some m => t.after m

/-- Names are looked up in directories, and no operation is on the id that nobody has. -/
def AllowsCall (t : FileTree) (op : Operation) : Prop :=
  (∀ m, op.changes = some m → t.Allows m) ∧
    match op with
    | .readdir opc _ _ _ _ => t.IsParent opc
    | .lookup opc _ _ => t.IsParent opc
    | .getattr opc _ => opc ≠ 0
    | .reclaim opc => opc ≠ 0
    | _ => True

def dirent (t : FileTree) (e : Puffs) (b : List Byte × Word) : Dirent :=
  ⟨b.2.setWidth 64, b.1, e.vtype2dt ((t.kind b.2).getD 0)⟩

def listed (t : FileTree) (e : Puffs) (id num : Word) : Option Dirent :=
  (t.bindings id)[num.toInt.toNat]?.map (t.dirent e)

def listing (t : FileTree) (e : Puffs) (opc : Word) (dent : DirentBuf) (readoff : Word64)
    (eofflag : Word) (wanted : Bool) : ReaddirLoop :=
  (readdirStart e opc dent readoff eofflag wanted).fill e (fun _ => t.listed e opc)
    ((readdirStart e opc dent readoff eofflag wanted).dent.reslen + 1) 0

def AnswersCreate (t : FileTree) (opc : Word) (pni : Newinfo) (ctx : Context) (r : Outcome) :
    Prop :=
  if t.kind opc = none ∨ t.free = 0 then r = .create Errno.enodev pni ctx
  else ∃ ctx', r = .create 0 { pni with cookie := BitVec.ofNat 32 t.issued } ctx'

/-- What a call on this tree returns. -/
def Answers (t : FileTree) (e : Puffs) (c : SessionCall) : Prop :=
  match c.op with
  | .statvfs => ∃ sbp, c.result = .statvfs sbp ∧ sbp.fFfree = BitVec.ofNat 32 t.free
  | .readdir opc dent readoff eofflag wanted =>
      c.result = .readdir 0 (t.listing e opc dent readoff eofflag wanted)
  | .lookup opc pni pcn =>
      match if pcn.isDotDot then none else t.lookup opc (CString.ofArray pcn.name) with
      | none => c.result = .lookup Errno.enoent pni
      | some id =>
          ∃ pni', c.result = .lookup 0 pni' ∧ pni'.cookie = id ∧ t.kind id = some pni'.vtype
  | .getattr opc vap =>
      match t.kind opc with
      | none => c.result = .getattr Errno.estale vap
      | some k => ∃ vap', c.result = .getattr 0 vap' ∧ vap'.vaType = k ∧
          vap'.vaFileid = opc.setWidth 64
  | .create opc pni _ vaType =>
      if vaType = vreg ∨ vaType = vsock then t.AnswersCreate opc pni c.ctx c.result
      else c.result = .create Errno.enodev pni c.ctx
  | .mkdir opc pni _ => t.AnswersCreate opc pni c.ctx c.result
  | .remove opc _ pcn =>
      match t.lookup opc (CString.ofArray pcn.name) with
      | none => ∃ ctx, c.result = .remove Errno.enoent false ctx
      | some _ => ∃ setback ctx, c.result = .remove 0 setback ctx
  | .reclaim opc => ∃ ctx,
      c.result = .reclaim (if t.kind opc = none then Errno.enoent else 0) ctx
  | _ => True

/-- The calls are allowed one after the other. -/
def AllowsCalls (t : FileTree) : List SessionCall → Prop
  | [] => True
  | c :: cs => t.AllowsCall c.op ∧ (t.afterCall c.op).AllowsCalls cs

def AnswersCalls (t : FileTree) (e : Puffs) : List SessionCall → Prop
  | [] => True
  | c :: cs => t.Answers e c ∧ (t.afterCall c.op).AnswersCalls e cs

end FileTree

namespace Store

section Answers

variable {s : Store} {cells : EntryPtr → List EntryPtr} {id : Word} {name : Name} {d : EntryPtr}
variable {e : Puffs} {junk : Nat → Junk} {runs : Nat}

theorem Planted.parent_cases (h : s.Planted) (hid : s.tree.IsParent id) :
    (∃ cells d, s.Arranged (fun _ => False) cells ∧ s.isDir d ∧ s.fileid d = id ∧
      s.findById id = some d) ∨
    s.findById id = none ∧ s.tree.kind id = none ∧ s.tree.bindings id = [] := by
  obtain ⟨cells, ha⟩ := h
  have hdesc := described_tree ha
  cases hd : s.findById id with
  | none =>
      have hnone : ∀ p, s.fileid p ≠ id := findById_eq_none hd
      exact Or.inr ⟨rfl, hdesc.kindNone id fun p _ => hnone p,
        hdesc.bindingsNil id fun p _ => hnone p⟩
  | some d =>
      have hfile : s.fileid d = id := findById_fileid hd
      have hlive : s.live d := fun hz => hid.1 (hfile.symm.trans hz)
      have hkind := hdesc.kind d hlive
      rw [hfile] at hkind
      exact Or.inl ⟨cells, d, ha, ⟨hlive, hid.2 _ hkind⟩, hfile, rfl⟩

theorem lookup_map_binding (s : Store) (name : Name) (l : List EntryPtr) :
    (l.map s.binding).lookup (CString.ofArray name) = (l.find? (s.hasName name)).map s.fileid := by
  induction l with
  | nil => rfl
  | cons p l ih =>
      rw [List.map_cons, List.lookup_cons]
      by_cases hp : s.hasName name p = true
      · rw [List.find?_cons_of_pos hp, binding, nameOf, hasName_iff.mp hp]
        simp
      · have hne : (CString.ofArray name == s.nameOf p) = false :=
          beq_false_of_ne fun heq => hp (hasName_iff.mpr heq.symm)
        rw [List.find?_cons_of_neg hp, ← ih, binding]
        simp only [hne]

/-- What a name means in the tree is what the search for it finds. -/
theorem Planted.lookup (h : s.Planted) (name : Name) (hid : s.tree.IsParent id)
    (hscan : s.findById id = some d) :
    ∃ m, s.scan (s.hasName name) (s.child d) = some m ∧
      s.tree.lookup id (CString.ofArray name) = m.map s.fileid ∧
      ∀ q, m = some q → s.tree.kind (s.fileid q) = some (s.entries q).vaType := by
  rcases h.parent_cases hid with ⟨cells, d', ha, hdir, hfile, hd'⟩ | ⟨hnone, _⟩
  · obtain rfl := Option.some.inj (hscan.symm.trans hd')
    have hdesc := described_tree ha
    refine ⟨(cells d).find? (s.hasName name), scan_of_chain (ha.forest.chain d hdir) _, ?_, ?_⟩
    · rw [DirTree.lookup, ← hfile, hdesc.bindings d hdir, lookup_map_binding]
    · exact fun q hq => hdesc.kind q (ha.live d hdir q (List.mem_of_find?_eq_some hq))
  · rw [hscan] at hnone
    cases hnone

theorem Planted.listed (h : s.Planted) (hid : s.tree.IsParent id) (e : Puffs) :
    s.listed e id = s.tree.listed e id := by
  funext num
  rcases h.parent_cases hid with ⟨cells, d, ha, hdir, hfile, hd⟩ | ⟨hnone, _, hnil⟩
  · have hdesc := described_tree ha
    rw [listed_eq ha.wellFormed hdir.1 hfile.symm, FileTree.listed, ← hfile,
      hdesc.bindings d hdir, (ha.forest.chain d hdir).nth, List.getElem?_map, Option.map_map]
    refine Option.map_congr fun p hp => ?_
    have hkind := hdesc.kind p (ha.live d hdir p (List.mem_of_getElem? hp))
    simp only [Function.comp_apply, FileTree.dirent, binding, hkind, Option.getD_some, direntOf]
  · rw [Store.listed, hnone, FileTree.listed, hnil]
    rfl

theorem Planted.created (h : s.Planted) {j : Junk} {vt : Vtype} {req : CreateReq}
    {r : CreateResp × Store} (hparent : s.tree.IsParent req.parentFileid)
    (hr : s.handleCreateRequest j vt req = some r) :
    if s.tree.kind req.parentFileid = none ∨ s.tree.free = 0 then r.1.exists_ = 0
    else r.1.exists_ ≠ 0 ∧ r.1.vaFileid = BitVec.ofNat 32 s.id := by
  have hfree : s.tree.free = 0 ↔ s.findById 0 = none := by
    change s.freeSlots = 0 ↔ _
    rw [freeSlots, Finset.card_eq_zero, Finset.filter_eq_empty_iff]
    refine ⟨fun hnone => ?_, fun hnone p _ => findById_eq_none hnone p⟩
    cases hfind : s.findById 0 with
    | none => rfl
    | some ent => exact absurd (findById_fileid hfind) (hnone (Finset.mem_univ ent))
  rcases handleCreateRequest_cases hr with ⟨hzero, _, hwhy⟩ | ⟨d, ent, _, hd, hent, _, _, heq⟩
  · rw [if_pos]
    · exact hzero
    · refine hwhy.imp (fun hnone => ?_) hfree.mpr
      rcases h.parent_cases hparent with ⟨_, _, _, _, _, hd⟩ | ⟨_, hkind, _⟩
      · rw [hnone] at hd
        cases hd
      · exact hkind
  · have hexists : r.1.exists_ ≠ 0 := by
      rw [heq]
      exact (by decide : (1 : Word) ≠ 0)
    rw [if_neg]
    · exact ⟨hexists, (handleCreateRequest_made hr hexists).1⟩
    · rw [not_or, hfree, hent]
      refine ⟨fun hkind => ?_, Option.some_ne_none ent⟩
      rcases h.parent_cases hparent with ⟨cells, d', ha, hdir, hfile, _⟩ | ⟨hnone, _⟩
      · rw [← hfile, (described_tree ha).kind d' hdir.1] at hkind
        cases hkind
      · rw [hd] at hnone
        cases hnone

theorem Planted.found (h : s.Planted) {j : Junk} {resp : LookupResp} (hid : s.tree.IsParent id)
    (hr : s.handleLookupRequest j ⟨id, name⟩ = some resp) :
    match s.tree.lookup id (CString.ofArray name) with
    | none => resp.exists_ = 0
    | some i => resp.exists_ ≠ 0 ∧ resp.vaFileid = i ∧ s.tree.kind i = some resp.vaType := by
  rcases h.parent_cases hid with ⟨_, d, _, _, _, hd⟩ | ⟨hnone, _, hnil⟩
  · obtain ⟨m, hscan, hlookup, hkind⟩ := h.lookup name hid hd
    rw [handleLookupRequest, lookupMatch, hd] at hr
    change s.scan _ (s.entries d).child = _ at hscan
    simp only [hscan] at hr
    rw [hlookup]
    cases m with
    | none =>
        cases hr
        rfl
    | some q =>
        cases hr
        exact ⟨(by decide : (1 : Word) ≠ 0), rfl, hkind q rfl⟩
  · simp only [handleLookupRequest, lookupMatch, hnone, Option.some.injEq] at hr
    rw [DirTree.lookup, hnil]
    subst hr
    rfl

theorem Planted.removed (h : s.Planted) {j : Junk} {r : RmResp × Store}
    (hid : s.tree.IsParent id) (hr : s.handleRmRequest j ⟨id, name⟩ = some r) :
    r.1.err = if (s.tree.lookup id (CString.ofArray name)).isNone then enoent else 0 := by
  rcases h.parent_cases hid with ⟨cells, d, ha, hdir, _, hd⟩ | ⟨hnone, _, hnil⟩
  · obtain ⟨m, hscan, hlookup, _⟩ := h.lookup name hid hd
    rw [hlookup, Option.isNone_map]
    rcases handleRmRequest_cases hr with ⟨_, ⟨herr, hfail⟩ | ⟨d', hd', htype⟩⟩ |
      ⟨d', res, hd', _, hfound, _, herr⟩
    · rw [hfail d hd hdir, Option.some.injEq] at hscan
      rw [herr, ← hscan]
      rfl
    · rw [hd, Option.some.injEq] at hd'
      exact absurd (hd' ▸ hdir.2) htype
    · rw [hd, Option.some.injEq] at hd'
      rw [← hd', hscan, Option.some.injEq] at hfound
      rw [herr, hfound]
      rfl
  · rw [DirTree.lookup, hnil]
    rcases handleRmRequest_cases hr with ⟨_, ⟨herr, _⟩ | ⟨d', hd', _⟩⟩ | ⟨d', _, hd', _⟩
    · rw [herr]
      rfl
    · rw [hnone] at hd'
      cases hd'
    · rw [hnone] at hd'
      cases hd'

theorem tree_kind (hid : id ≠ 0) :
    s.tree.kind id = (s.findById id).map fun p => (s.entries p).vaType := by
  simp only [tree, nodeOf, if_neg hid]

theorem reclaimed (s : Store) (j : Junk) {req : ReclaimReq} (hid : req.vaFileid ≠ 0) :
    (s.handleReclaimRequest j req).1.err =
      if s.tree.kind req.vaFileid = none then enoent else 0 := by
  rw [tree_kind hid, handleReclaimRequest]
  cases s.findById req.vaFileid with
  | none => rfl
  | some p => rfl

theorem Planted.setsize (h : s.Planted) (j : Junk) (req : SetattrReq) :
    (s.handleSetsizeRequest j req).2.Planted ∧
      (s.handleSetsizeRequest j req).2.tree = s.tree :=
  Gba.tree_receive (g := ⟨s, .dispatch⟩) (j := j) (m := .request (.setsize req)) h trivial rfl

end Answers

end Store

section Session

variable {e : Puffs} {junk : Nat → Junk} {s : Store} {runs : Nat} {r : Outcome}
variable {c : SessionCall} {h h' : GbaHead} {ctx : Context} {t : FileTree}

theorem answersCreate {assign : Vattr → CreateResp → Vattr} {vt : Vtype} {opc : Word}
    {pni : Newinfo} {pcn : Cn} {q : CreateResp × Store} (hp : s.Planted)
    (hid : s.tree.IsParent opc)
    (hq : s.handleCreateRequest (junk runs) vt ⟨opc, pcn.name⟩ = some q) :
    s.tree.AnswersCreate opc pni ctx (createReply e assign ctx pni q.1) := by
  have hmade := hp.created hid hq
  rw [FileTree.AnswersCreate]
  split
  · rename_i hfull
    rw [if_pos hfull] at hmade
    rw [createReply, if_pos hmade]
  · rename_i hfull
    rw [if_neg hfull] at hmade
    rw [createReply, if_neg hmade.1, hmade.2]
    exact ⟨_, rfl⟩

theorem removeReply_err (ctx : Context) (targ : Word) (resp : RmResp) :
    ∃ setback ctx', removeReply ctx targ resp = .remove resp.err setback ctx' ∧
      (resp.err ≠ 0 → setback = false) := by
  rw [removeReply]
  split
  · exact ⟨false, ctx, rfl, fun _ => rfl⟩
  · rename_i herr
    rw [not_not.mp herr]
    exact ⟨_, _, rfl, fun hne => absurd rfl hne⟩

theorem reclaimReply_err (ctx : Context) (opc : Word) (resp : ReclaimResp) :
    ∃ ctx', reclaimReply ctx opc resp = .reclaim resp.err ctx' := by
  rw [reclaimReply]
  split
  · exact ⟨ctx, rfl⟩
  · rename_i herr
    rw [not_not.mp herr]
    exact ⟨_, rfl⟩

theorem FileTree.after_of_writes {id : Word} {m : Message} (h : m.Writes id) (t : FileTree) :
    t.Allows m ∧ t.after m = t := by
  cases m with
  | chunk b => exact ⟨trivial, rfl⟩
  | request q =>
      cases q with
      | write req => exact ⟨trivial, rfl⟩
      | statvfs | readdir | lookup | getattr | create | read | mkdir | rm | reclaim | setsize =>
          exact False.elim h

theorem tree_of_writes {g g' : Gba} {ms : List Message} {id : Word} (hrun : g.Run ms g')
    (hp : g.store.Planted) (hms : ∀ m ∈ ms, m.Writes id) :
    g'.store.Planted ∧ g'.store.tree = g.store.tree := by
  induction hrun with
  | nil g => exact ⟨hp, rfl⟩
  | @cons g g₁ g' j m ms hs _ ih =>
      obtain ⟨hallow, hsame⟩ := (g.store.tree).after_of_writes (hms m List.mem_cons_self)
      obtain ⟨hp₁, htree⟩ := Gba.tree_receive hp hallow hs
      obtain ⟨hp', htree'⟩ := ih hp₁ fun m' hm' => hms m' (List.mem_cons_of_mem m hm')
      exact ⟨hp', htree'.trans (htree.trans hsame)⟩

theorem SessionCall.tree_step (ht : s.Terminated) (hp : s.Planted)
    (hk : ¬ s.Derails junk runs c.op) (ha : s.tree.AllowsCall c.op)
    (hx : (link e junk).Exchanges (c.op.run e c.ctx) ⟨⟨s, .dispatch⟩, runs⟩ c.result h') :
    s.tree.Answers e c ∧ h'.state.store.Planted ∧
      h'.state.store.tree = s.tree.afterCall c.op := by
  have hw : s.WellFormed := hp.choose_spec.wellFormed
  obtain ⟨ctx, op, r⟩ := c
  obtain ⟨hchanges, hids⟩ := ha
  cases op with
  | statvfs =>
      obtain ⟨s', hends, hstate⟩ := (calls_statvfs e junk s runs).state hx
      cases hends
      rw [hstate]
      exact ⟨⟨_, rfl, rfl⟩, hp, rfl⟩
  | readdir opc dent readoff eofflag wanted =>
      obtain ⟨s', hends, hstate⟩ :=
        (calls_readdir ht e junk runs opc dent readoff eofflag wanted).state hx
      cases hends
      rw [hstate]
      refine ⟨?_, hp, rfl⟩
      simp only [FileTree.Answers, Store.listing, hp.listed hids, FileTree.listing]
  | lookup opc pni pcn =>
      obtain ⟨s', hends, hstate⟩ := (calls_lookup e junk s runs opc pni pcn).state hx
      by_cases hdots : pcn.isDotDot = true
      · rw [if_pos hdots] at hends
        cases hends
        rw [hstate]
        refine ⟨?_, hp, rfl⟩
        simp only [FileTree.Answers, if_pos hdots]
      · rw [if_neg hdots] at hends
        obtain ⟨resp, hresp, hends⟩ := Option.map_eq_some_iff.mp hends
        cases hends
        rw [hstate]
        refine ⟨?_, hp, rfl⟩
        have hfound := hp.found hids hresp
        simp only [FileTree.Answers, if_neg hdots]
        cases hl : s.tree.lookup opc (CString.ofArray pcn.name) with
        | none =>
            rw [hl] at hfound
            exact if_pos hfound
        | some id =>
            rw [hl] at hfound
            obtain ⟨hexists, hid, hkind⟩ := hfound
            exact ⟨_, if_neg hexists, hid, hkind⟩
  | getattr opc vap =>
      obtain ⟨s', hends, hstate⟩ := (calls_getattr e junk s runs opc vap).state hx
      cases hends
      rw [hstate]
      refine ⟨?_, hp, rfl⟩
      simp only [FileTree.Answers, Store.tree_kind hids, Store.handleGetattrRequest]
      cases hfind : s.findById opc with
      | none => rfl
      | some p =>
          refine ⟨_, rfl, rfl, ?_⟩
          rw [← Store.findById_fileid hfind]
          rfl
  | create opc pni pcn vaType =>
      obtain ⟨s', hends, hstate⟩ := (calls_create e junk s runs ctx opc pni pcn vaType).state hx
      by_cases htype : vaType = vreg ∨ vaType = vsock
      · rw [if_pos htype] at hends
        have hop : Operation.changes (.create opc pni pcn vaType) =
            some (.request (.create ⟨opc, pcn.name⟩)) := if_pos htype
        have hallow := hchanges _ hop
        obtain ⟨q, hq, hends⟩ := Option.map_eq_some_iff.mp hends
        cases hends
        rw [hstate]
        simp only [FileTree.Answers, FileTree.afterCall, hop, if_pos htype]
        exact ⟨answersCreate hp hallow.1 hq, Store.tree_create hp hallow.1 hallow.2 hq⟩
      · rw [if_neg htype] at hends
        cases hends
        have hop : Operation.changes (.create opc pni pcn vaType) = none := if_neg htype
        rw [hstate]
        refine ⟨?_, hp, by simp only [FileTree.afterCall, hop]⟩
        simp only [FileTree.Answers, if_neg htype]
  | mkdir opc pni pcn =>
      have hallow := hchanges _ rfl
      obtain ⟨s', hends, hstate⟩ := (calls_mkdir e junk s runs ctx opc pni pcn).state hx
      obtain ⟨q, hq, hends⟩ := Option.map_eq_some_iff.mp hends
      cases hends
      rw [hstate]
      exact ⟨answersCreate hp hallow.1 hq, Store.tree_create hp hallow.1 hallow.2 hq⟩
  | remove opc targ pcn =>
      have hallow := hchanges _ rfl
      obtain ⟨s', hends, hstate⟩ := (calls_remove e junk s runs ctx opc targ pcn).state hx
      obtain ⟨q, hq, hends⟩ := Option.map_eq_some_iff.mp hends
      obtain ⟨rfl, rfl⟩ := Prod.mk.inj hends
      rw [hstate]
      refine ⟨?_, Store.tree_rm hp hallow.1 hq⟩
      have herr := hp.removed hallow hq
      obtain ⟨setback, ctx', hreply, hsetback⟩ := removeReply_err (ctx.cmap e targ).2 targ q.1
      rw [herr] at hreply hsetback
      simp only [FileTree.Answers, hreply]
      cases hl : s.tree.lookup opc (CString.ofArray pcn.name) with
      | none =>
          rw [hl] at hsetback
          exact ⟨ctx', by rw [hsetback (by decide)]; rfl⟩
      | some id => exact ⟨setback, ctx', rfl⟩
  | reclaim opc =>
      have hallow := hchanges _ rfl
      obtain ⟨s', hends, hstate⟩ := (calls_reclaim e junk s runs ctx opc).state hx
      cases hends
      rw [hstate]
      obtain ⟨ctx', hreply⟩ := reclaimReply_err (ctx.cmap e opc).2 opc
        (s.handleReclaimRequest (junk runs) ⟨opc⟩).1
      rw [s.reclaimed (junk runs) hids] at hreply
      exact ⟨⟨ctx', hreply⟩, Store.tree_reclaim hp hallow⟩
  | write opc buf offset resid append =>
      obtain ⟨ms, hrun, hms⟩ := run_write hw hk hx
      exact ⟨trivial, tree_of_writes hrun hp hms⟩
  | read opc buf offset resid =>
      obtain ⟨out, n, hm⟩ := readLoop_meets e junk s ⟨opc, offset, 0, buf, resid⟩ runs
      obtain ⟨_, rfl⟩ := hx.unique_out hm.exchanges
      exact ⟨trivial, hp, rfl⟩
  | setattr opc vaSize =>
      by_cases hreq : vaSize ≠ puffsVnoval ∧ (ctx.cmap e opc).1.vaType = vreg
      · obtain ⟨s', hends, hstate⟩ :=
          (calls_setattr e junk s runs ctx opc hreq.1 hreq.2).state hx
        cases hends
        rw [hstate]
        exact ⟨trivial, hp.setsize (junk runs) ⟨opc, vaSize⟩⟩
      · rw [Operation.run, setattr_local e ctx opc hreq] at hx
        obtain ⟨s', hends, hstate⟩ := (calls_finish _).state hx
        cases hends
        rw [hstate]
        exact ⟨trivial, hp, rfl⟩

theorem Serial.answersCalls {cs : List SessionCall} (hk : KeptAlong e junk h cs)
    (hserial : (link e junk).Serial h (cs.map (SessionCall.run e)) h') (hh : h.Home)
    (hr : h.state.Reachable) (hp : h.state.store.Planted)
    (ha : h.state.store.tree.AllowsCalls cs) :
    h.state.store.tree.AnswersCalls e cs ∧ h'.state.store.Planted ∧
      h'.state.store.tree = cs.foldl (fun t c => t.afterCall c.op) h.state.store.tree := by
  induction cs generalizing h with
  | nil =>
      obtain rfl : h' = h := hserial.of_nil
      exact ⟨trivial, hp, rfl⟩
  | cons c cs ih =>
      obtain ⟨h₁, hx, hrest⟩ := hserial.of_cons
      obtain ⟨⟨s, phase⟩, runs⟩ := h
      obtain rfl : phase = .dispatch := hh
      obtain ⟨_, _, _, hhome⟩ := id hx
      have hr₁ : h₁.state.Reachable := (holds_reachable e junk).exchanges hx hr
      obtain ⟨hanswer, hp₁, htree⟩ :=
        SessionCall.tree_step (Store.Reachable.terminated ⟨_, hr⟩) hp hk.1 ha.1 hx
      have hallow := ha.2
      rw [← htree] at hallow
      obtain ⟨hanswers, hend⟩ := ih (hk.2 h₁ hx) hrest hhome hr₁ hp₁ hallow
      rw [htree] at hanswers hend
      exact ⟨⟨hanswer, hanswers⟩, hend⟩

end Session

section Driver

variable {e : Puffs} {junk : Nat → Junk} {s : Store} {r : Outcome} {d : DriverConfig}
variable {rootGen testGen : Word64}

theorem answersCalls_of_driver (cs : List SessionCall)
    (hboot : Store.boot rootGen testGen = some s) (hkept : KeptAlong e junk ⟨⟨s, .dispatch⟩, 0⟩ cs)
    (hallow : FileTree.booted.AllowsCalls cs)
    (hd : DriverSession (link e junk) (started s r) (cs.map (SessionCall.run e)) d) :
    FileTree.booted.AnswersCalls e cs ∧
      ∃ h, (link e junk).Serial ⟨⟨s, .dispatch⟩, 0⟩ (cs.map (SessionCall.run e)) h ∧
        h.state.store.tree = cs.foldl (fun t c => t.afterCall c.op) FileTree.booted := by
  obtain ⟨h, hserial⟩ := serial_of_driverSession hboot (hkept.allowed _) hd
  obtain ⟨hp, htree⟩ := Store.boot_tree hboot
  rw [← htree] at hallow
  obtain ⟨hanswers, _, hend⟩ :=
    Serial.answersCalls hkept hserial rfl (Gba.Reachable.boot hboot) hp hallow
  rw [htree] at hanswers hend
  exact ⟨hanswers, h, hserial, hend⟩

def oneLetter : Cn := ⟨fun k => [97].getD k 0, 1⟩

theorem chunkErr_zero (n : Nat) : chunkErr (fun _ => .zero) n = 0 := by
  change ((Junk.zero.uninit : WriteBufResp)).err = 0
  decide +kernel

def createdCalls (out out' out'' : Outcome) : List SessionCall :=
  [⟨[], .create 1 ⟨0, 0, 0, 0⟩ oneLetter vreg, out⟩, ⟨[], .statvfs, out'⟩,
    ⟨[], .lookup 1 ⟨0, 0, 0, 0⟩ oneLetter, out''⟩]

theorem served_created : ∃ (s : Store) (out out' out'' : Outcome) (h : GbaHead),
    Store.boot 0 0 = some s ∧ (link .zero fun _ => .zero).Serial ⟨⟨s, .dispatch⟩, 0⟩
      ((createdCalls out out' out'').map (SessionCall.run .zero)) h := by
  have hserved : ((Store.boot 0 0).bind fun s =>
      (s.handleCreateRequest .zero .reg ⟨1, oneLetter.name⟩).bind fun q =>
        (Store.handleLookupRequest .zero q.2 ⟨1, oneLetter.name⟩).map fun _ => ()) = some () := by
    decide +kernel
  obtain ⟨s, hs, hserved⟩ := Option.bind_eq_some_iff.mp hserved
  obtain ⟨q, hq, hserved⟩ := Option.bind_eq_some_iff.mp hserved
  obtain ⟨resp, hresp, _⟩ := Option.map_eq_some_iff.mp hserved
  have hcreate := calls_create .zero (fun _ => .zero) s 0 [] 1 ⟨0, 0, 0, 0⟩ oneLetter vreg
  rw [if_pos (Or.inl rfl), hq, Option.map_some] at hcreate
  obtain ⟨n, hx⟩ := hcreate.exchanges
  obtain ⟨n', hx'⟩ := (calls_statvfs .zero (fun _ => .zero) q.2 n).exchanges
  have hlookup := calls_lookup .zero (fun _ => .zero) q.2 n' 1 ⟨0, 0, 0, 0⟩ oneLetter
  rw [if_neg (by decide), hresp, Option.map_some] at hlookup
  obtain ⟨n'', hx''⟩ := hlookup.exchanges
  exact ⟨s, _, _, _, _, hs, .cons hx (.cons hx' (.cons hx'' (.nil _)))⟩

theorem booted_allows (out out' out'' : Outcome) :
    FileTree.booted.AllowsCalls (createdCalls out out' out'') := by
  have hplain : CString.plain (CString.ofArray oneLetter.name) ≠ none := by decide +kernel
  have hroot : FileTree.booted.IsParent 1 := ⟨by decide, fun k hk => by cases hk; rfl⟩
  have hroot' : (FileTree.booted.afterCall (.create 1 ⟨0, 0, 0, 0⟩ oneLetter vreg)).IsParent 1 :=
    ⟨by decide, fun k hk => by cases hk; rfl⟩
  refine ⟨⟨fun m hm => ?_, trivial⟩, ⟨fun m hm => ?_, trivial⟩, ⟨fun m hm => ?_, hroot'⟩, trivial⟩
  · cases hm
    exact ⟨hroot, hplain⟩
  · cases hm
  · cases hm

end Driver

end WiiJoybus
