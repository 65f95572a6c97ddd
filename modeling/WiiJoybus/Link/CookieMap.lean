import WiiJoybus.Gba.Dispatcher
import WiiJoybus.Link.Calls

/-!
The map from cookies to nodes.

`ctx->head` only grows: `pba_cmap` looks before it makes an entry, CREATE and
MKDIR do not, and RECLAIM gives a node back to the library without taking its
entry out. Nodes are told apart by the order in which they are made.
-/

namespace WiiJoybus
open ByteMemory StructLayout Dialogue

/-- `puffboy_domount`; the entry of the root is the first one. -/
def domount (e : Puffs) : Context :=
  [⟨1, { e.pnNew with vaType := vdir, vaMode := 0o755 }, false⟩]

/-- A call that comes to `ctx->head`, with the reply it gets from the GBA. -/
inductive Call where
  | cmap (id : Word)
  | create (pni : Newinfo) (resp : CreateResp)
  | mkdir (pni : Newinfo) (resp : CreateResp)
  | remove (targ : Word) (resp : RmResp)
  | reclaim (opc : Word) (resp : ReclaimResp)
  | setattr (opc : Word) (resp : SetattrResp)

/-- `ctx->head` after an operation. -/
def Outcome.context (ctx : Context) : Outcome → Context
  | .create _ _ ctx' | .remove _ _ ctx' | .reclaim _ ctx' | .setattr _ ctx' => ctx'
  | _ => ctx

namespace Context

def ids (ctx : Context) : List Word := ctx.map Node.id

/-- The place of the first entry with a cookie, counted from the oldest one. -/
def number (id : Word) : Context → Nat
  | [] => 0
  | ent :: rest => if ent.id = id then rest.length else number id rest

/-- The node `pba_cmap` returns. -/
def cmapNode (e : Puffs) (ctx : Context) (id : Word) : Nat := (ctx.cmap e id).2.number id

def after (e : Puffs) (ctx : Context) : Call → Context
  | .cmap id => (ctx.cmap e id).2
  | .create pni resp => (createReply e createTyped ctx pni resp).context ctx
  | .mkdir pni resp => (createReply e createVattr ctx pni resp).context ctx
  | .remove targ resp => (removeReply (ctx.cmap e targ).2 targ resp).context ctx
  | .reclaim opc resp => (reclaimReply (ctx.cmap e opc).2 opc resp).context ctx
  | .setattr opc resp => (setattrReply (ctx.cmap e opc).2 opc resp).context ctx

end Context

/-- `ctx->head` after calls that follow the mount. -/
def mounted (e : Puffs) (calls : List Call) : Context := calls.foldl (Context.after e) (domount e)

section Operations

variable (e : Puffs) (ctx : Context)

/-- What an operation leaves of `ctx->head` is what calls leave of it. -/
def Leaves (r : Outcome) : Prop := ∃ calls : List Call, r.context ctx = calls.foldl (.after e) ctx

theorem leaves_of_context {r : Outcome} (h : r.context ctx = ctx) : Leaves e ctx r := ⟨[], h⟩

theorem leaves_of_after {r : Outcome} (call : Call) (h : r.context ctx = ctx.after e call) :
    Leaves e ctx r :=
  ⟨[call], h⟩

theorem body_leaves (h : WiiHead) : (h.body e).All (Sum.elim (fun _ => True) (Leaves e ctx)) := by
  cases h with
  | read l =>
      change (l.body e).All _
      rw [ReadLoop.body]
      split
      · exact leaves_of_context e ctx rfl
      · refine .bind _ fun resp => ?_
        rw [ReadLoop.reply]
        split
        · exact leaves_of_context e ctx rfl
        · split
          · exact leaves_of_context e ctx rfl
          · exact trivial
  | write l =>
      change (l.body e).All _
      rw [WriteLoop.body]
      split
      · exact leaves_of_context e ctx rfl
      · refine .bind _ fun bresp => ?_
        rw [WriteLoop.reply]
        split
        · exact leaves_of_context e ctx rfl
        · exact trivial
  | readdir l =>
      change (l.body e).All _
      rw [ReaddirLoop.body]
      refine .bind _ fun resp => ?_
      rw [ReaddirLoop.reply]
      split
      · exact leaves_of_context e ctx rfl
      · split
        · exact leaves_of_context e ctx rfl
        · exact trivial

theorem nodeSetattr_leaves (opc : Word) (vaSize : Word64) :
    (nodeSetattr e ctx opc vaSize).All (Sum.elim (fun _ => True) (Leaves e ctx)) := by
  by_cases h : vaSize ≠ puffsVnoval ∧ (ctx.cmap e opc).1.vaType = vreg
  · simp only [nodeSetattr, if_pos h.1, if_pos h.2]
    exact .bind _ fun resp => leaves_of_after e ctx (.setattr opc (SetattrResp.sswap resp)) rfl
  · rw [setattr_local e ctx opc h, setattrLocal]
    refine leaves_of_after e ctx (.cmap opc) ?_
    split_ifs <;> rfl

theorem lookupReply_context (pni : Newinfo) (resp : LookupResp) :
    (lookupReply pni resp).context ctx = ctx := by
  rw [lookupReply]
  split <;> rfl

theorem getattrReply_context (vap : Vattr) (resp : GetattrResp) :
    (getattrReply vap resp).context ctx = ctx := by
  rw [getattrReply]
  split <;> rfl

theorem run_leaves (op : Operation) :
    (op.run e ctx).All (Sum.elim (fun _ => True) (Leaves e ctx)) := by
  cases op with
  | statvfs => exact Proc.All.bind _ fun resp => leaves_of_context e ctx rfl
  | readdir opc dent readoff eofflag wanted => exact trivial
  | lookup opc pni pcn =>
      change (nodeLookup e opc pni pcn).All _
      rw [nodeLookup]
      split
      · exact leaves_of_context e ctx rfl
      · exact .bind _ fun resp => leaves_of_context e ctx (lookupReply_context ctx pni _)
  | getattr opc vap =>
      exact Proc.All.bind _ fun resp => leaves_of_context e ctx (getattrReply_context ctx vap _)
  | create opc pni pcn vaType =>
      change (nodeCreate e ctx opc pni pcn vaType).All _
      rw [nodeCreate]
      split
      · exact .bind _ fun resp => leaves_of_after e ctx (.create pni (GetattrResp.sswap resp)) rfl
      · exact leaves_of_context e ctx rfl
  | mkdir opc pni pcn =>
      exact Proc.All.bind _ fun resp =>
        leaves_of_after e ctx (.mkdir pni (GetattrResp.sswap resp)) rfl
  | write opc buf offset resid append =>
      refine Proc.All.bind _ fun wresp => ?_
      rw [writeReply]
      split
      · exact leaves_of_context e ctx rfl
      · split
        · exact leaves_of_context e ctx rfl
        · exact trivial
  | read opc buf offset resid => exact trivial
  | remove opc targ pcn =>
      exact Proc.All.bind _ fun resp => leaves_of_after e ctx (.remove targ (RmResp.sswap resp)) rfl
  | reclaim opc =>
      exact Proc.All.bind _ fun resp =>
        leaves_of_after e ctx (.reclaim opc (ReclaimResp.sswap resp)) rfl
  | setattr opc vaSize => exact nodeSetattr_leaves e ctx opc vaSize

/-- Whatever is at the other end of the wire, an operation does to `ctx->head` what calls do. -/
theorem leaves_of_follows {op : Operation} {c : List (Side × Word)} {r : Outcome}
    (h : Follows joybus (WiiHead.body e) wii (op.run e ctx) c (.ret (.inr r))) :
    Leaves e ctx r :=
  h.all (fun l _ => body_leaves e ctx l) (run_leaves e ctx op)

end Operations

namespace Call

/-- The cookie a call gives to `pba_cmap`. -/
def cookie : Call → Option Word
  | .cmap id | .remove id _ | .reclaim id _ | .setattr id _ => some id
  | .create _ _ | .mkdir _ _ => none

/-- The id the GBA hands out. -/
def created : Call → Option Word
  | .create _ resp | .mkdir _ resp => if resp.exists_ = 0 then none else some resp.vaFileid
  | _ => none

/-- `puffs_pn_put` is called. -/
def Releases : Call → Prop
  | .reclaim _ resp => resp.err = 0 ∧ resp.vaNlink = 0
  | _ => False

/-- No new id has an entry already, and no node is released. -/
def Keeps (ctx : Context) (call : Call) : Prop :=
  (∀ id, call.created = some id → id ∉ ctx.ids) ∧ ¬ call.Releases

end Call

/-- In every state of a run the map has one entry for each cookie and no released node in it, and
what `pba_cmap` returns depends on the cookie alone. -/
structure CookieMapRight (e : Puffs) (calls : List Call) : Prop where
  oneEntry (n : Nat) : (mounted e (calls.take n)).ids.Nodup
  sameNode (m n : Nat) (id id' : Word) (hm : calls[m]?.bind Call.cookie = some id)
    (hn : calls[n]?.bind Call.cookie = some id') :
    (mounted e (calls.take m)).cmapNode e id = (mounted e (calls.take n)).cmapNode e id' ↔ id = id'
  unreachable (n : Nat) : ∀ ent ∈ mounted e (calls.take n), ent.released = false
  notReturned (m n : Nat) (opc id : Word) (resp : ReclaimResp) (hmn : m < n)
    (hm : calls[m]? = some (.reclaim opc resp)) (hreleased : (Call.reclaim opc resp).Releases)
    (hn : calls[n]?.bind Call.cookie = some id) :
    (mounted e (calls.take n)).cmapNode e id ≠ (mounted e (calls.take m)).cmapNode e opc

namespace Context

section Entries

variable {ctx : Context} {id : Word} {f : Node → Node}

theorem ids_update (hid : ∀ ent, (f ent).id = ent.id) : (ctx.update f id).ids = ctx.ids := by
  induction ctx with
  | nil => rfl
  | cons ent rest ih =>
      rw [update]
      split
      · simp only [ids, List.map_cons, hid]
      · simpa only [ids, List.map_cons, List.cons.injEq, true_and] using ih

theorem ids_updateVa (va : Node → Vattr) :
    (ctx.update (fun ent => { ent with va := va ent }) id).ids = ctx.ids :=
  ids_update fun _ => rfl

theorem of_mem_update {x : Node} (h : x ∈ ctx.update f id) : x ∈ ctx ∨ ∃ ent ∈ ctx, x = f ent := by
  induction ctx with
  | nil => exact Or.inl h
  | cons ent rest ih =>
      rw [update] at h
      split at h
      · cases h with
        | head => exact Or.inr ⟨ent, List.mem_cons_self, rfl⟩
        | tail _ hrest => exact Or.inl (List.mem_cons_of_mem _ hrest)
      · cases h with
        | head => exact Or.inl List.mem_cons_self
        | tail _ hrest =>
            exact (ih hrest).imp (List.mem_cons_of_mem _)
              fun ⟨ent', hent, hx⟩ => ⟨ent', List.mem_cons_of_mem _ hent, hx⟩

theorem mem_update (h : id ∈ ctx.ids) : ∃ ent ∈ ctx, f ent ∈ ctx.update f id := by
  induction ctx with
  | nil => cases h
  | cons ent rest ih =>
      rw [update]
      split
      · exact ⟨ent, List.mem_cons_self, List.mem_cons_self⟩
      · have hrest : id ∈ ids rest := by
          cases h with
          | head => contradiction
          | tail _ hrest => exact hrest
        obtain ⟨ent', hent, hmem⟩ := ih hrest
        exact ⟨ent', List.mem_cons_of_mem _ hent, List.mem_cons_of_mem _ hmem⟩

theorem ids_cmap (e : Puffs) (ctx : Context) (id : Word) :
    (ctx.cmap e id).2.ids = if id ∈ ctx.ids then ctx.ids else id :: ctx.ids := by
  rw [cmap]
  cases hfind : ctx.find? fun ent => ent.id == id with
  | some ent =>
      have hmem : id ∈ ctx.ids := List.mem_map.mpr
        ⟨ent, List.mem_of_find?_eq_some hfind, eq_of_beq (List.find?_some hfind :)⟩
      rw [if_pos hmem]
  | none =>
      have hno : id ∉ ctx.ids := by
        intro hmem
        obtain ⟨ent, hent, hid⟩ := List.mem_map.mp hmem
        exact List.find?_eq_none.mp hfind ent hent (beq_iff_eq.mpr hid)
      rw [if_neg hno]
      rfl

theorem mem_ids_cmap (e : Puffs) (ctx : Context) (id : Word) : id ∈ (ctx.cmap e id).2.ids := by
  rw [ids_cmap]
  split
  · assumption
  · exact List.mem_cons_self

theorem ids_suffix_cmap (e : Puffs) (ctx : Context) (id : Word) :
    ctx.ids <:+ (ctx.cmap e id).2.ids := by
  rw [ids_cmap]
  split
  · exact List.suffix_refl _
  · exact List.suffix_cons _ _

theorem getElem_number (h : id ∈ ctx.ids) : ctx.ids.reverse[ctx.number id]? = some id := by
  induction ctx with
  | nil => cases h
  | cons ent rest ih =>
      rw [number, ids, List.map_cons, List.reverse_cons]
      split
      case isTrue hid =>
        rw [List.getElem?_append_right (by simp)]
        simp [hid]
      case isFalse hid =>
        have hrest : id ∈ ids rest := by
          cases h with
          | head => contradiction
          | tail _ hrest => exact hrest
        have hnumber := ih hrest
        rw [ids] at hnumber
        rw [List.getElem?_append_left (List.getElem?_eq_some_iff.mp hnumber).1]
        exact hnumber

end Entries

/-- One entry for each cookie, and all nodes in use. -/
structure Sound (ctx : Context) : Prop where
  nodup : ctx.ids.Nodup
  unreleased : ∀ ent ∈ ctx, ent.released = false

section Steps

variable {e : Puffs} {ctx : Context} {call : Call} {id : Word} {f : Node → Node} {b : Bool}

theorem sound_domount (e : Puffs) : Sound (domount e) where
  nodup := List.nodup_singleton _
  unreleased ent hent := by
    rw [List.mem_singleton.mp hent]

theorem Sound.cmap (h : ctx.Sound) (e : Puffs) (id : Word) : (ctx.cmap e id).2.Sound := by
  constructor
  case nodup =>
    rw [ids_cmap]
    split
    case isTrue => exact h.nodup
    case isFalse hnew => exact List.nodup_cons.mpr ⟨hnew, h.nodup⟩
  case unreleased =>
    intro ent hent
    rw [Context.cmap] at hent
    split at hent
    · exact h.unreleased ent hent
    · cases hent with
      | head => rfl
      | tail _ hrest => exact h.unreleased ent hrest

/-- A change of a node that is there keeps the map sound unless it releases the node. -/
theorem Sound.update_iff (h : ctx.Sound) (hmem : id ∈ ctx.ids)
    (hid : ∀ ent, (f ent).id = ent.id)
    (hreleased : ∀ ent, (f ent).released = (ent.released || b)) :
    (ctx.update f id).Sound ↔ b = false := by
  constructor
  · intro hsound
    obtain ⟨ent, hent, hchanged⟩ := mem_update (f := f) hmem
    have hin := hsound.unreleased _ hchanged
    rw [hreleased, h.unreleased ent hent, Bool.false_or] at hin
    exact hin
  · intro hb
    refine ⟨(ids_update hid).symm ▸ h.nodup, fun x hx => ?_⟩
    cases of_mem_update hx with
    | inl hold => exact h.unreleased x hold
    | inr hnew =>
        obtain ⟨ent, hent, rfl⟩ := hnew
        rw [hreleased, h.unreleased ent hent, hb, Bool.false_or]

theorem Sound.updateVa (h : ctx.Sound) (hmem : id ∈ ctx.ids) (va : Node → Vattr) :
    (ctx.update (fun ent => { ent with va := va ent }) id).Sound :=
  (h.update_iff (f := fun ent => { ent with va := va ent }) (b := false) hmem (fun _ => rfl)
    fun _ => (Bool.or_false _).symm).mpr rfl

theorem Sound.entryInit_iff (h : ctx.Sound) (e : Puffs) (id : Word) :
    (ctx.entryInit e id).Sound ↔ id ∉ ctx.ids := by
  constructor
  · exact fun hsound => (List.nodup_cons.mp hsound.nodup).1
  · intro hnew
    refine ⟨List.nodup_cons.mpr ⟨hnew, h.nodup⟩, fun ent hent => ?_⟩
    cases hent with
    | head => rfl
    | tail _ hrest => exact h.unreleased ent hrest

theorem Sound.createReply_iff (h : ctx.Sound) (assign : Vattr → CreateResp → Vattr)
    (pni : Newinfo) (resp : CreateResp) :
    ((createReply e assign ctx pni resp).context ctx).Sound ↔
      resp.exists_ = 0 ∨ resp.vaFileid ∉ ctx.ids := by
  by_cases hexists : resp.exists_ = 0
  · rw [createReply, if_pos hexists]
    exact ⟨fun _ => Or.inl hexists, fun _ => h⟩
  · rw [createReply, if_neg hexists]
    rw [or_iff_right hexists]
    constructor
    · intro hsound
      have hnodup := hsound.nodup
      rw [Outcome.context, ids_updateVa fun ent => assign ent.va resp] at hnodup
      exact (List.nodup_cons.mp hnodup).1
    · intro hnew
      exact ((h.entryInit_iff e _).mpr hnew).updateVa List.mem_cons_self fun ent =>
        assign ent.va resp

theorem Sound.removeReply (h : ctx.Sound) (targ : Word) (resp : RmResp)
    (hmem : targ ∈ ctx.ids) (old : Context) : ((removeReply ctx targ resp).context old).Sound := by
  rw [WiiJoybus.removeReply]
  split
  · exact h
  · exact h.updateVa hmem fun ent => { ent.va with vaNlink := resp.vaNlink }

theorem Sound.setattrReply (h : ctx.Sound) (opc : Word) (resp : SetattrResp)
    (hmem : opc ∈ ctx.ids) (old : Context) : ((setattrReply ctx opc resp).context old).Sound := by
  rw [WiiJoybus.setattrReply]
  split
  · exact h
  · exact h.updateVa hmem fun ent => { ent.va with vaSize := resp.vaSize, vaBytes := resp.vaSize }

theorem Sound.reclaimReply_iff (h : ctx.Sound) (opc : Word) (resp : ReclaimResp)
    (hmem : opc ∈ ctx.ids) (old : Context) :
    ((reclaimReply ctx opc resp).context old).Sound ↔ ¬ (Call.reclaim opc resp).Releases := by
  by_cases herr : resp.err = 0
  · rw [reclaimReply, if_neg (not_not.mpr herr)]
    have hsound : (ctx.update (fun ent =>
        { ent with
          va := { ent.va with vaNlink := resp.vaNlink }
          released := ent.released || resp.vaNlink == 0 }) opc).Sound ↔
        (resp.vaNlink == 0) = false :=
      h.update_iff hmem (fun ent => rfl) fun ent => rfl
    rw [beq_eq_false_iff_ne] at hsound
    exact hsound.trans ⟨fun hn hrel => hn hrel.2, fun hn hz => hn ⟨herr, hz⟩⟩
  · rw [reclaimReply, if_pos herr]
    exact ⟨fun _ hrel => herr hrel.1, fun _ => h⟩

/-- What each call does to a sound map. -/
theorem Sound.after_iff (h : ctx.Sound) (e : Puffs) (call : Call) :
    (ctx.after e call).Sound ↔ call.Keeps ctx := by
  have hcreated : ∀ resp : CreateResp, (resp.exists_ = 0 ∨ resp.vaFileid ∉ ctx.ids) ↔
      ∀ id, (if resp.exists_ = 0 then none else some resp.vaFileid) = some id → id ∉ ctx.ids := by
    intro resp
    by_cases hexists : resp.exists_ = 0
    · simp only [hexists, true_or, if_true, reduceCtorEq, false_imp_iff, implies_true]
    · simp only [hexists, false_or, if_false, Option.some.injEq, forall_eq']
  cases call with
  | cmap id =>
      exact ⟨fun _ => ⟨fun _ hno => (nomatch hno), not_false⟩, fun _ => h.cmap e id⟩
  | create pni resp =>
      rw [after, h.createReply_iff, hcreated]
      exact ⟨fun hnew => ⟨hnew, not_false⟩, fun hk => hk.1⟩
  | mkdir pni resp =>
      rw [after, h.createReply_iff, hcreated]
      exact ⟨fun hnew => ⟨hnew, not_false⟩, fun hk => hk.1⟩
  | remove targ resp =>
      exact ⟨fun _ => ⟨fun _ hno => (nomatch hno), not_false⟩,
        fun _ => (h.cmap e targ).removeReply targ resp (mem_ids_cmap e ctx targ) ctx⟩
  | reclaim opc resp =>
      rw [after, (h.cmap e opc).reclaimReply_iff opc resp (mem_ids_cmap e ctx opc)]
      exact ⟨fun hk => ⟨fun _ hno => (nomatch hno), hk⟩, fun hk => hk.2⟩
  | setattr opc resp =>
      exact ⟨fun _ => ⟨fun _ hno => (nomatch hno), not_false⟩,
        fun _ => (h.cmap e opc).setattrReply opc resp (mem_ids_cmap e ctx opc) ctx⟩

theorem ids_after_of_cookie (h : call.cookie = some id) :
    (ctx.after e call).ids = (ctx.cmap e id).2.ids := by
  cases call with
  | create pni resp | mkdir pni resp => cases h
  | cmap id' =>
      cases h
      rfl
  | remove targ resp =>
      cases h
      rw [after, WiiJoybus.removeReply]
      split
      · rfl
      · exact ids_update fun ent => rfl
  | reclaim opc resp =>
      cases h
      rw [after, reclaimReply]
      split
      · rfl
      · exact ids_update fun ent => rfl
  | setattr opc resp =>
      cases h
      rw [after, WiiJoybus.setattrReply]
      split
      · rfl
      · exact ids_update fun ent => rfl

theorem ids_suffix_createReply (assign : Vattr → CreateResp → Vattr) (pni : Newinfo)
    (resp : CreateResp) : ctx.ids <:+ ids ((createReply e assign ctx pni resp).context ctx) := by
  rw [createReply]
  split
  · exact List.suffix_refl _
  · rw [Outcome.context, ids_updateVa fun ent => assign ent.va resp]
    exact List.suffix_cons _ _

theorem ids_suffix_after (e : Puffs) (ctx : Context) (call : Call) :
    ctx.ids <:+ (ctx.after e call).ids := by
  cases hcookie : call.cookie with
  | some id =>
      rw [ids_after_of_cookie hcookie]
      exact ids_suffix_cmap e ctx id
  | none =>
      cases call with
      | create pni resp => exact ids_suffix_createReply createTyped pni resp
      | mkdir pni resp => exact ids_suffix_createReply createVattr pni resp
      | cmap id | remove targ resp | reclaim opc resp | setattr opc resp => cases hcookie

end Steps

end Context

section Runs

variable {e : Puffs} {calls : List Call}

theorem mounted_append (e : Puffs) (calls later : List Call) :
    mounted e (calls ++ later) = later.foldl (Context.after e) (mounted e calls) :=
  List.foldl_append

theorem mounted_take_succ {n : Nat} {call : Call} (h : calls[n]? = some call) :
    mounted e (calls.take (n + 1)) = (mounted e (calls.take n)).after e call := by
  rw [List.take_add_one, h, mounted_append]
  rfl

theorem ids_suffix_foldl (e : Puffs) (ctx : Context) (later : List Call) :
    ctx.ids <:+ (later.foldl (Context.after e) ctx).ids := by
  induction later generalizing ctx with
  | nil => exact List.suffix_refl _
  | cons call later ih => exact (ctx.ids_suffix_after e call).trans (ih (ctx.after e call))

theorem node_stays {n : Nat} {id : Word} (h : calls[n]?.bind Call.cookie = some id) :
    (mounted e calls).ids.reverse[(mounted e (calls.take n)).cmapNode e id]? = some id := by
  obtain ⟨call, hcall, hcookie⟩ := Option.bind_eq_some_iff.mp h
  have hnow : (Context.ids ((mounted e (calls.take n)).cmap e id).2).reverse[
      (mounted e (calls.take n)).cmapNode e id]? = some id :=
    Context.getElem_number (Context.mem_ids_cmap e (mounted e (calls.take n)) id)
  rw [← Context.ids_after_of_cookie hcookie, ← mounted_take_succ hcall] at hnow
  have hlater := ids_suffix_foldl e (mounted e (calls.take (n + 1))) (calls.drop (n + 1))
  rw [← mounted_append, List.take_append_drop] at hlater
  obtain ⟨rest, hrest⟩ := List.reverse_prefix.mpr hlater
  rw [← hrest, List.getElem?_append_left (List.getElem?_eq_some_iff.mp hnow).1]
  exact hnow

theorem sameNode_iff (hnodup : (mounted e calls).ids.Nodup) {m n : Nat} {id id' : Word}
    (hm : calls[m]?.bind Call.cookie = some id) (hn : calls[n]?.bind Call.cookie = some id') :
    (mounted e (calls.take m)).cmapNode e id = (mounted e (calls.take n)).cmapNode e id' ↔
      id = id' := by
  have hat := node_stays (e := e) hm
  have hat' := node_stays (e := e) hn
  constructor
  · intro heq
    rw [heq, hat', Option.some.injEq] at hat
    exact hat.symm
  · rintro rfl
    have hlt := (List.getElem?_eq_some_iff.mp hat).1
    exact (List.getElem?_inj hlt (List.nodup_reverse.mpr hnodup)).mp (hat.trans hat'.symm)

theorem mounted_sound_iff (e : Puffs) (calls : List Call) :
    (∀ n, (mounted e (calls.take n)).Sound) ↔
      ∀ (n : Nat) (call : Call), calls[n]? = some call → call.Keeps (mounted e (calls.take n)) := by
  constructor
  · intro hsound n call hcall
    have hnext := hsound (n + 1)
    rw [mounted_take_succ hcall] at hnext
    exact ((hsound n).after_iff e call).mp hnext
  · intro hkeeps n
    induction n with
    | zero => exact Context.sound_domount e
    | succ n ih =>
        cases hcall : calls[n]? with
        | none =>
            rw [List.take_add_one, hcall]
            simpa using ih
        | some call =>
            rw [mounted_take_succ hcall]
            exact (ih.after_iff e call).mpr (hkeeps n call hcall)

theorem CookieMapRight.sound (h : CookieMapRight e calls) (n : Nat) :
    (mounted e (calls.take n)).Sound :=
  ⟨h.oneEntry n, h.unreachable n⟩

/-- The map is right exactly as long as no CREATE or MKDIR comes up with an id that has an entry
and no RECLAIM finds the last link gone. -/
theorem cookieMapRight_iff (e : Puffs) (calls : List Call) :
    CookieMapRight e calls ↔
      ∀ (n : Nat) (call : Call), calls[n]? = some call → call.Keeps (mounted e (calls.take n)) := by
  rw [← mounted_sound_iff]
  constructor
  · exact CookieMapRight.sound
  · intro hsound
    have hend : (mounted e calls).ids.Nodup := by
      have hall := (hsound calls.length).nodup
      rwa [List.take_length] at hall
    refine ⟨fun n => (hsound n).nodup, fun m n id id' hm hn => sameNode_iff hend hm hn,
      fun n => (hsound n).unreleased, fun m n opc id resp hmn hm hreleased hn => ?_⟩
    exact absurd hreleased ((mounted_sound_iff e calls).mp hsound m _ hm).2

theorem not_right_of_releases {n : Nat} {call : Call} (hcall : calls[n]? = some call)
    (hreleases : call.Releases) : ¬ CookieMapRight e calls :=
  fun h => ((mounted_sound_iff e calls).mp h.sound n call hcall).2 hreleases

end Runs

/-- The first file made after boot is removed and reclaimed; then its cookie is asked for. -/
theorem cookieMapRight_counterexample :
    ∃ (s s₁ s₂ : Store) (created : CreateResp) (removed : RmResp) (calls : List Call),
      Store.boot 0 0 = some s ∧
      s.handleCreateRequest .zero .reg ⟨1, byteName 97⟩ = some (created, s₁) ∧
      s₁.handleRmRequest .zero ⟨1, byteName 97⟩ = some (removed, s₂) ∧
      calls = [.create ⟨0, 0, 0, 0⟩ created, .remove 3 removed,
        .reclaim 3 (s₂.handleReclaimRequest .zero ⟨3⟩).1, .cmap 3] ∧
      (1 :: calls.filterMap Call.created).Nodup ∧ ∀ e, ¬ CookieMapRight e calls := by
  obtain ⟨s, hs, hafter⟩ := Option.bind_eq_some_iff.mp
    (show ((Store.boot 0 0).bind fun s =>
      (s.handleCreateRequest .zero .reg ⟨1, byteName 97⟩).bind fun r =>
        (r.2.handleRmRequest .zero ⟨1, byteName 97⟩).map fun r' => decide (r.1.exists_ = 1 ∧
          r.1.vaFileid = 3 ∧ (r'.2.handleReclaimRequest .zero ⟨3⟩).1.err = 0 ∧
          (r'.2.handleReclaimRequest .zero ⟨3⟩).1.vaNlink = 0)) = some true by decide +kernel)
  obtain ⟨⟨created, s₁⟩, hcreate, hafter⟩ := Option.bind_eq_some_iff.mp hafter
  obtain ⟨⟨removed, s₂⟩, hremove, hfacts⟩ := Option.map_eq_some_iff.mp hafter
  obtain ⟨hexists, hid, herr, hlink⟩ := of_decide_eq_true hfacts
  have hcreated : (Call.create ⟨0, 0, 0, 0⟩ created).created = some 3 := by
    rw [Call.created, if_neg (hexists ▸ by decide), hid]
  refine ⟨s, s₁, s₂, created, removed, _, hs, hcreate, hremove, rfl, ?_, fun e => ?_⟩
  · rw [List.filterMap_cons_some hcreated]
    exact (show ([1, 3] : List Word).Nodup by decide)
  · exact not_right_of_releases (n := 2) rfl ⟨herr, hlink⟩

end WiiJoybus
