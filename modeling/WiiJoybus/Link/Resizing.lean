import WiiJoybus.Link.CookieMap
import WiiJoybus.Link.Names

/-!
Resizing, as decided on the Wii.

SETATTR goes by the type its own node carries. The mount gives the root a type and
CREATE copies the one in its reply; MKDIR assigns every attribute but the type, and
a node that `pba_cmap` makes for a cookie from LOOKUP has none.
-/

namespace WiiJoybus
open LinkedTable ByteMemory StructLayout Dialogue Dialogue.Network

/-- The two programs between two calls, and the ids CREATE has returned so far. -/
structure Mount where
  ctx : Context
  store : Store
  runs : Nat
  created : List Word

def Mount.gba (c : Mount) : GbaHead := ⟨⟨c.store, .dispatch⟩, c.runs⟩

def Mount.after (c : Mount) (ctx : Context) (store : Store) (runs : Nat) : Mount :=
  { c with ctx := ctx, store := store, runs := runs }

/-- Calls of LOOKUP, CREATE, MKDIR and `pba_cmap` in any order, from the mount of any store. -/
inductive Browses (e : Puffs) (junk : Nat → Junk) : Mount → Prop where
  | mount {s : Store} (hs : s.Reachable) (runs : Nat) : Browses e junk ⟨domount e, s, runs, []⟩
  | lookup {c : Mount} {opc : Word} {pni pni' : Newinfo} {pcn : Cn} {errno : Word} {s : Store}
      {n : Nat} (h : Browses e junk c)
      (hx : (link e junk).Exchanges (nodeLookup e opc pni pcn) c.gba (.lookup errno pni')
        ⟨⟨s, .dispatch⟩, n⟩) : Browses e junk (c.after c.ctx s n)
  | create {c : Mount} {opc : Word} {pni pni' : Newinfo} {pcn : Cn} {vaType errno : Word}
      {ctx : Context} {s : Store} {n : Nat} (h : Browses e junk c)
      (hx : (link e junk).Exchanges (nodeCreate e c.ctx opc pni pcn vaType) c.gba
        (.create errno pni' ctx) ⟨⟨s, .dispatch⟩, n⟩) :
      Browses e junk { c.after ctx s n with
        created := if errno = 0 then pni'.cookie :: c.created else c.created }
  | mkdir {c : Mount} {opc : Word} {pni pni' : Newinfo} {pcn : Cn} {errno : Word} {ctx : Context}
      {s : Store} {n : Nat} (h : Browses e junk c)
      (hx : (link e junk).Exchanges (nodeMkdir e c.ctx opc pni pcn) c.gba
        (.create errno pni' ctx) ⟨⟨s, .dispatch⟩, n⟩) : Browses e junk (c.after ctx s n)
  | cmap {c : Mount} (id : Word) (h : Browses e junk c) :
      Browses e junk (c.after (c.ctx.cmap e id).2 c.store c.runs)

/-- SETATTR starts with the command word of SETSIZE. -/
def SendsSetsize (p : WiiProc) : Prop := ∃ k, p = .clear (.send Cmd.setsize.code k)

/-- SETATTR is refused as for a directory, without a word to the GBA. -/
def IsDirectory (p : WiiProc) : Prop := ∃ ctx, p = finish (.setattr Errno.eisdir ctx)

/-- A new size reaches the GBA when the entry with this id is a regular file there, and is refused
when it is a directory. -/
def ResizeWorks (e : Puffs) (ctx : Context) (s : Store) (id : Word) : Prop :=
  ∀ p, s.findById id = some p → ∀ vaSize : Word64, vaSize ≠ puffsVnoval →
    ((s.entries p).vaType = Vtype.reg.code → SendsSetsize (nodeSetattr e ctx id vaSize)) ∧
    ((s.entries p).vaType = Vtype.dir.code → IsDirectory (nodeSetattr e ctx id vaSize))

section Decision

variable {e : Puffs} {ctx : Context} {id : Word} {vaSize : Word64}

theorem finish_not_sendsSetsize (r : Outcome) : ¬ SendsSetsize (finish r) := by
  rintro ⟨k, hk⟩
  cases hk

theorem sendsSetsize_iff (hsize : vaSize ≠ puffsVnoval) :
    SendsSetsize (nodeSetattr e ctx id vaSize) ↔ (ctx.cmap e id).1.vaType = vreg := by
  by_cases htype : (ctx.cmap e id).1.vaType = vreg
  · simp only [nodeSetattr, if_pos hsize, if_pos htype]
    exact ⟨fun _ => htype, fun _ => ⟨_, rfl⟩⟩
  · rw [setattr_local e ctx id fun h => htype h.2]
    exact ⟨fun h => absurd h (finish_not_sendsSetsize _), fun h => absurd h htype⟩

theorem isDirectory_iff (hsize : vaSize ≠ puffsVnoval) :
    IsDirectory (nodeSetattr e ctx id vaSize) ↔ (ctx.cmap e id).1.vaType = vdir := by
  by_cases htype : (ctx.cmap e id).1.vaType = vreg
  · simp only [nodeSetattr, if_pos hsize, if_pos htype]
    constructor
    · rintro ⟨ctx', h⟩
      cases h
    · intro h
      exact absurd (htype.symm.trans h) (by decide)
  · rw [setattr_local e ctx id fun h => htype h.2, setattrLocal, if_neg hsize]
    constructor
    · rintro ⟨ctx', h⟩
      by_contra hdir
      rw [if_neg hdir] at h
      split at h <;> cases h
    · intro hdir
      rw [if_neg (hdir ▸ by decide), if_pos hdir]
      exact ⟨_, rfl⟩

end Decision

namespace Context

variable {e : Puffs} {ctx : Context} {id id' : Word}

theorem cmap_cons (e : Puffs) (ent : Node) (ctx : Context) (id : Word) :
    (cmap e (ent :: ctx) id).1 = if ent.id = id then ent.va else (ctx.cmap e id).1 := by
  by_cases hid : ent.id = id
  · simp only [cmap, List.find?_cons, beq_iff_eq.mpr hid, if_pos hid]
  · have hne : (ent.id == id) = false := beq_eq_false_iff_ne.mpr hid
    simp only [cmap, List.find?_cons, hne, if_neg hid]
    cases ctx.find? fun ent => ent.id == id <;> rfl

theorem cmap_after_cmap (e : Puffs) (ctx : Context) (id id' : Word) :
    ((ctx.cmap e id).2.cmap e id').1 = (ctx.cmap e id').1 := by
  cases hfind : ctx.find? fun ent => ent.id == id with
  | some ent => simp only [cmap, hfind]
  | none =>
      have hnew : (ctx.cmap e id).2 = ctx.entryInit e id := by simp only [cmap, hfind]
      rw [hnew, entryInit, cmap_cons]
      split
      case isTrue hid =>
        subst hid
        simp only [cmap, hfind]
      case isFalse => rfl

theorem cmap_after_create (e : Puffs) (ctx : Context) (assign : Vattr → CreateResp → Vattr)
    (pni : Newinfo) {resp : CreateResp} (hexists : resp.exists_ ≠ 0) (id : Word) :
    (((createReply e assign ctx pni resp).context ctx).cmap e id).1 =
      if resp.vaFileid = id then assign e.pnNew resp else (ctx.cmap e id).1 := by
  rw [createReply, if_neg hexists, Outcome.context, entryInit, update, if_pos rfl, cmap_cons]

end Context

namespace Store

variable {s s' : Store}

theorem vaType_entryAppend {parent ent : EntryPtr} (ha : s.entryAppend parent ent = some s')
    (q : EntryPtr) : (s'.entries q).vaType = (s.entries q).vaType := by
  rcases entryAppend_some ha with ⟨_, rfl⟩ | ⟨_, n, k, _, _, rfl⟩
  · exact setEntry_field Entry.vaType s parent { s.entries parent with child := some ent } rfl q
  · have hnext : ∀ q, ((s.setNext n (some ent)).entries q).vaType = (s.entries q).vaType :=
      setEntry_field Entry.vaType s n { s.entries n with next := some ent } rfl
    exact (setEntry_field Entry.vaType (s.setNext n (some ent)) ent
      { (s.setNext n (some ent)).entries ent with vaNlink := k } rfl q).trans (hnext q)

theorem handleCreateRequest_made {j : Junk} {vt : Vtype} {req : CreateReq}
    {r : CreateResp × Store} (hr : s.handleCreateRequest j vt req = some r)
    (hexists : r.1.exists_ ≠ 0) :
    r.1.vaFileid = BitVec.ofNat 32 s.id ∧ r.1.vaType = vt.code ∧ r.2.id = s.id + 1 := by
  rcases handleCreateRequest_cases hr with
    ⟨hzero, _, _⟩ | ⟨parent, ent, s₂, _, _, _, ha, rfl⟩
  · exact absurd hzero hexists
  · obtain ⟨hself, hcount⟩ : (setName j s₂ ent req.name).fileid ent =
        (if ent = ent then BitVec.ofNat 32 s.id else s.fileid ent) ∧
          (setName j s₂ ent req.name).id = s.id + 1 := fileid_created ha ent
    rw [if_pos rfl] at hself
    refine ⟨hself, ?_, hcount⟩
    change ((setName j s₂ ent req.name).entries ent).vaType = vt.code
    rw [setName, setEntry_apply, if_pos rfl]
    change (s₂.entries ent).vaType = vt.code
    rw [vaType_entryAppend ha, initAt_entries, if_pos rfl]
    rfl

end Store

/-- The type every node carries on the Wii. -/
structure Cached (e : Puffs) (c : Mount) : Prop where
  type : ∀ id, (c.ctx.cmap e id).1.vaType =
    if id ∈ c.created then vreg else if id = 1 then vdir else vnon
  wellFormed : c.store.WellFormed
  counter : 1 < c.store.id
  issued : ∀ id ∈ c.created, id ≠ 1 ∧ id.toNat < c.store.id

section Runs

variable {e : Puffs} {junk : Nat → Junk} {c : Mount} {s : Store} {n : Nat}

theorem Cached.mount (hnew : e.pnNew.vaType = vnon) (hs : s.Reachable) (runs : Nat) :
    Cached e ⟨domount e, s, runs, []⟩ where
  type id := by
    change ((domount e).cmap e id).1.vaType = _
    rw [domount, Context.cmap_cons, if_neg List.not_mem_nil]
    by_cases hroot : id = 1
    · rw [if_pos hroot.symm, if_pos hroot]
    · rw [if_neg (Ne.symm hroot), if_neg hroot]
      exact hnew
  wellFormed := hs.wellFormed
  counter := counter_of_reachable hs
  issued id hid := absurd hid List.not_mem_nil

theorem Cached.keep (h : Cached e c) {ctx : Context} (n : Nat)
    (hctx : ∀ id, (ctx.cmap e id).1 = (c.ctx.cmap e id).1) :
    Cached e (c.after ctx c.store n) :=
  ⟨fun id => (congrArg Vattr.vaType (hctx id)).trans (h.type id), h.wellFormed, h.counter,
    h.issued⟩

/-- An entry with the id `id` has been made, and on the Wii a node of type `type` for it. -/
structure Made (e : Puffs) (c : Mount) (type id : Word) (ctx : Context) (s : Store) : Prop where
  wellFormed : s.WellFormed
  number : id.toNat = c.store.id
  counter : s.id = c.store.id + 1
  type : ∀ id', (ctx.cmap e id').1.vaType =
    if id = id' then type else (c.ctx.cmap e id').1.vaType

theorem Cached.made (h : Cached e c) {m : Message} {vt : Vtype} {req : CreateReq}
    (hm : m.creates = some (vt, req)) {j : Junk} {assign : Vattr → CreateResp → Vattr} {type : Word}
    (htype : ∀ resp : CreateResp, resp.vaType = vt.code → (assign e.pnNew resp).vaType = type)
    {pni pni' : Newinfo} {errno : Word} {ctx : Context}
    (hends : ((c.store.handleCreateRequest j vt req).map fun r =>
      (createReply e assign c.ctx pni r.1, r.2)) = some (.create errno pni' ctx, s)) :
    (errno ≠ 0 ∧ ctx = c.ctx ∧ s = c.store) ∨ (errno = 0 ∧ Made e c type pni'.cookie ctx s) := by
  obtain ⟨r, hr, hout⟩ := Option.map_eq_some_iff.mp hends
  injection hout with hreply hstore
  subst hstore
  by_cases hexists : r.1.exists_ = 0
  · rw [createReply, if_pos hexists] at hreply
    injection hreply with herrno _ hctx
    exact Or.inl ⟨herrno ▸ by decide, hctx.symm, Store.handleCreateRequest_refused hr hexists⟩
  · obtain ⟨hid, hvt, hcount⟩ := Store.handleCreateRequest_made hr hexists
    have hcmap := Context.cmap_after_create e c.ctx assign pni hexists
    rw [hreply] at hcmap
    rw [createReply, if_neg hexists] at hreply
    injection hreply with herrno hpni _
    subst hpni
    refine Or.inr ⟨herrno.symm, h.wellFormed.change (Store.handleCreateRequest_change hm hr), ?_,
      hcount, fun id' => ?_⟩
    · rw [show _ = _ from hid]
      exact h.wellFormed.fresh
    · rw [show (ctx.cmap e id').1 = _ from hcmap id']
      split
      · exact htype r.1 hvt
      · rfl

theorem Cached.fresh (h : Cached e c) {type id : Word} {ctx : Context}
    (hmade : Made e c type id ctx s) : id ≠ 1 ∧ id ∉ c.created := by
  constructor
  · intro hroot
    have hlt := h.counter
    rw [← hmade.number, hroot] at hlt
    exact absurd hlt (by decide)
  · intro hmem
    have hlt := (h.issued id hmem).2
    rw [hmade.number] at hlt
    exact absurd hlt (Nat.lt_irrefl _)

theorem Cached.counter_made (h : Cached e c) {type id : Word} {ctx : Context}
    (hmade : Made e c type id ctx s) : 1 < s.id := by
  rw [hmade.counter]
  exact Nat.lt_succ_of_lt h.counter

theorem Cached.issued_made (h : Cached e c) {type id : Word} {ctx : Context}
    (hmade : Made e c type id ctx s) : ∀ id' ∈ c.created, id' ≠ 1 ∧ id'.toNat < s.id := by
  intro id' hmem
  rw [hmade.counter]
  exact (h.issued id' hmem).imp_right Nat.lt_succ_of_lt

theorem Cached.create (h : Cached e c) {id : Word} {ctx : Context}
    (hmade : Made e c vreg id ctx s) (n : Nat) :
    Cached e { c.after ctx s n with created := id :: c.created } where
  type id' := by
    change (ctx.cmap e id').1.vaType = if id' ∈ id :: c.created then vreg else _
    rw [hmade.type, h.type]
    by_cases hid : id = id'
    · rw [if_pos hid, if_pos (hid ▸ List.mem_cons_self)]
    · rw [if_neg hid]
      simp only [List.mem_cons, Ne.symm hid, false_or]
  wellFormed := hmade.wellFormed
  counter := h.counter_made hmade
  issued id' hmem := by
    cases hmem with
    | head =>
        refine ⟨(h.fresh hmade).1, ?_⟩
        change id.toNat < s.id
        rw [hmade.number, hmade.counter]
        exact Nat.lt_succ_self _
    | tail _ hold => exact h.issued_made hmade id' hold

theorem Cached.mkdir (h : Cached e c) {id : Word} {ctx : Context}
    (hmade : Made e c vnon id ctx s) (n : Nat) : Cached e (c.after ctx s n) where
  type id' := by
    change (ctx.cmap e id').1.vaType = if id' ∈ c.created then vreg else _
    rw [hmade.type, h.type]
    by_cases hid : id = id'
    · obtain ⟨hroot, hcreated⟩ := h.fresh hmade
      rw [if_pos hid, ← hid, if_neg hcreated, if_neg hroot]
    · rw [if_neg hid]
  wellFormed := hmade.wellFormed
  counter := h.counter_made hmade
  issued := h.issued_made hmade

theorem Browses.cached (hnew : e.pnNew.vaType = vnon) (h : Browses e junk c) : Cached e c := by
  induction h with
  | mount hs runs => exact .mount hnew hs runs
  | @lookup c opc pni pni' pcn errno s n _ hx ih =>
      have hends := (calls_lookup e junk c.store c.runs opc pni pcn).of_exchanges hx
      have hstore : s = c.store := by
        split at hends
        · exact (congrArg Prod.snd (Option.some.inj hends)).symm
        · obtain ⟨resp, _, hout⟩ := Option.map_eq_some_iff.mp hends
          exact (congrArg Prod.snd hout).symm
      rw [hstore]
      exact ih.keep n fun _ => rfl
  | @create c opc pni pni' pcn vaType errno ctx s n _ hx ih =>
      have hends := (calls_create e junk c.store c.runs c.ctx opc pni pcn vaType).of_exchanges hx
      have htype : ∀ resp : CreateResp, resp.vaType = Vtype.reg.code →
          (createTyped e.pnNew resp).vaType = vreg := fun resp h => h
      split at hends
      · rcases ih.made (m := .request (.create ⟨opc, pcn.name⟩)) rfl htype hends with
          ⟨herr, rfl, rfl⟩ | ⟨herr, hmade⟩
        · rw [if_neg herr]
          exact ih.keep n fun _ => rfl
        · rw [if_pos herr]
          exact ih.create hmade n
      · cases hends
        rw [if_neg (by decide)]
        exact ih.keep n fun _ => rfl
  | @mkdir c opc pni pni' pcn errno ctx s n _ hx ih =>
      have hends := (calls_mkdir e junk c.store c.runs c.ctx opc pni pcn).of_exchanges hx
      have htype : ∀ resp : CreateResp, resp.vaType = Vtype.dir.code →
          (createVattr e.pnNew resp).vaType = vnon := fun resp _ => hnew
      rcases ih.made (m := .request (.mkdir ⟨opc, pcn.name⟩)) rfl htype hends with
        ⟨herr, rfl, rfl⟩ | ⟨herr, hmade⟩
      · exact ih.keep n fun _ => rfl
      · exact ih.mkdir hmade n
  | @cmap c id _ ih => exact ih.keep c.runs (Context.cmap_after_cmap e c.ctx id)

theorem Cached.type_eq_vreg (h : Cached e c) (id : Word) :
    (c.ctx.cmap e id).1.vaType = vreg ↔ id ∈ c.created := by
  rw [h.type]
  by_cases hmem : id ∈ c.created
  · rw [if_pos hmem]
    exact ⟨fun _ => hmem, fun _ => rfl⟩
  · rw [if_neg hmem]
    refine ⟨fun heq => ?_, fun hin => absurd hin hmem⟩
    split at heq <;> exact absurd heq (by decide)

theorem Cached.type_eq_vdir (h : Cached e c) (id : Word) :
    (c.ctx.cmap e id).1.vaType = vdir ↔ id = 1 := by
  rw [h.type]
  by_cases hmem : id ∈ c.created
  · rw [if_pos hmem]
    exact ⟨fun heq => absurd heq (by decide), fun hroot => absurd hroot (h.issued id hmem).1⟩
  · rw [if_neg hmem]
    by_cases hroot : id = 1
    · rw [if_pos hroot]
      exact ⟨fun _ => hroot, fun _ => rfl⟩
    · rw [if_neg hroot]
      exact ⟨fun heq => absurd heq (by decide), fun hin => absurd hin hroot⟩

/-- Resizing works for an id exactly if CREATE has returned it, should it be that of a regular
file, and if it is the root's, should it be that of a directory. -/
theorem resizeWorks_iff (hnew : e.pnNew.vaType = vnon) (h : Browses e junk c) (id : Word) :
    ResizeWorks e c.ctx c.store id ↔ ∀ p, c.store.findById id = some p →
      ((c.store.entries p).vaType = Vtype.reg.code → id ∈ c.created) ∧
      ((c.store.entries p).vaType = Vtype.dir.code → id = 1) := by
  have hreg := (h.cached hnew).type_eq_vreg id
  have hdir := (h.cached hnew).type_eq_vdir id
  constructor
  · intro hworks p hp
    obtain ⟨hsends, hrefuses⟩ := hworks p hp 0 (by decide)
    rw [sendsSetsize_iff (by decide), hreg] at hsends
    rw [isDirectory_iff (by decide), hdir] at hrefuses
    exact ⟨hsends, hrefuses⟩
  · intro hcond p hp vaSize hsize
    rw [sendsSetsize_iff hsize, isDirectory_iff hsize, hreg, hdir]
    exact hcond p hp

end Runs

/-- A file that CREATE has made after the mount. -/
theorem resizeWorks_iff_created :
    ∃ (s s' : Store) (pni : Newinfo) (ctx : Context) (n : Nat), s.Reachable ∧
      (link .zero fun _ => .zero).Exchanges
        (nodeCreate .zero (domount .zero) 1 ⟨0, 0, 0, 0⟩ (cnOf [97]) vreg) ⟨⟨s, .dispatch⟩, 0⟩
        (.create 0 pni ctx) ⟨⟨s', .dispatch⟩, n⟩ ∧
      s'.findById pni.cookie = some newSlot ∧
      (s'.entries newSlot).vaType = Vtype.reg.code ∧ ResizeWorks .zero ctx s' pni.cookie := by
  obtain ⟨g, hg, hfacts⟩ := Option.map_eq_some_iff.mp
    (show (bootRun []).map (fun g =>
      (g.store.handleCreateRequest .zero .reg ⟨1, (cnOf [97]).name⟩).map fun r => decide (
        r.1.exists_ ≠ 0 ∧ r.2.findById r.1.vaFileid = some newSlot ∧
        (r.2.entries newSlot).vaType = Vtype.reg.code)) = some (some true) by decide +kernel)
  obtain ⟨r, hr, hmade⟩ := Option.map_eq_some_iff.mp hfacts
  obtain ⟨hexists, hfind, htype⟩ := of_decide_eq_true hmade
  have hs : g.store.Reachable := ⟨g.phase, bootRun_reachable hg⟩
  have hends := calls_create .zero (fun _ => .zero) g.store 0 (domount .zero) 1 ⟨0, 0, 0, 0⟩
    (cnOf [97]) vreg
  rw [if_pos (Or.inl rfl), hr, Option.map_some, createReply, if_neg hexists] at hends
  obtain ⟨n, hx⟩ := hends.exchanges
  have hmount : Browses .zero (fun _ => .zero) ⟨domount .zero, g.store, 0, []⟩ := .mount hs 0
  have hbrowses := hmount.create hx
  refine ⟨g.store, r.2, _, _, n, hs, hx, hfind, htype,
    (resizeWorks_iff rfl hbrowses r.1.vaFileid).mpr fun p hp => ?_⟩
  obtain rfl := Option.some.inj (hfind.symm.trans hp)
  exact ⟨fun _ => List.mem_cons_self,
    fun hdir => absurd (htype.symm.trans hdir) (by decide)⟩

/-- The test file, which was there before the mount, after LOOKUP and `pba_cmap`. -/
theorem resizeWorks_counterexample :
    ∃ (s : Store) (pni : Newinfo) (n : Nat), s.Reachable ∧
      (link .zero fun _ => .zero).Exchanges
        (nodeLookup .zero 1 ⟨0, 0, 0, 0⟩ (cnOf Store.testName)) ⟨⟨s, .dispatch⟩, 0⟩
        (.lookup 0 pni) ⟨⟨s, .dispatch⟩, n⟩ ∧ pni.cookie = 2 ∧
      Browses .zero (fun _ => .zero) ⟨((domount .zero).cmap .zero 2).2, s, n, []⟩ ∧
      ¬ ResizeWorks .zero ((domount .zero).cmap .zero 2).2 s 2 := by
  obtain ⟨g, hg, hfacts⟩ := Option.map_eq_some_iff.mp
    (show (bootRun []).map (fun g => decide (
      g.store.lookupMatch ⟨1, (cnOf Store.testName).name⟩ = some (some testSlot) ∧
      g.store.fileid testSlot = 2 ∧ g.store.findById 2 = some testSlot ∧
      (g.store.entries testSlot).vaType = Vtype.reg.code)) = some true by decide +kernel)
  obtain ⟨hmatch, hid, hfind, htype⟩ := of_decide_eq_true hfacts
  have hs : g.store.Reachable := ⟨g.phase, bootRun_reachable hg⟩
  obtain ⟨n, hx⟩ := exchanges_lookup .zero (fun _ => .zero) 0 ⟨0, 0, 0, 0⟩ (by decide) hmatch
  have hmount : Browses .zero (fun _ => .zero) ⟨domount .zero, g.store, 0, []⟩ := .mount hs 0
  have hbrowses := hmount.lookup hx
  refine ⟨g.store, _, n, hs, hx, hid, hbrowses.cmap 2, fun hworks => ?_⟩
  have hsends := (hworks testSlot hfind 0 (by decide)).1 htype
  rw [sendsSetsize_iff (by decide)] at hsends
  exact absurd hsends (by decide)

end WiiJoybus
