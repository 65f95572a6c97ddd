import WiiJoybus.Gba.Sizes
import WiiJoybus.Link.Listing
import WiiJoybus.Link.WriteEnds

/-!
What reaches the Wii of memory nobody has written.

A reply is sent whole, with what the stack held where the handler assigns nothing.
Most of that is never looked at. The exceptions are the block size among the
attributes, and the answer to the chunks of a write.
-/

namespace WiiJoybus
open ByteMemory StructLayout Dialogue Dialogue.Network

/-- The same but for what the stack held. -/
def Puffs.SameButStack (e e' : Puffs) : Prop := e' = { e with stack := e'.stack }

def Junk.SameButStack (j j' : Junk) : Prop := j' = { j with stack := j'.stack }

/-- The operation ends in the same way whatever the stacks held: with the same outcome, which is
its error code and all it hands to puffs, and with the same store. -/
def Store.Independent (s : Store) (ctx : Context) (op : Operation) : Prop :=
  ∀ (e e' : Puffs) (junk junk' : Nat → Junk) (runs : Nat),
    e.SameButStack e' → (∀ n, (junk n).SameButStack (junk' n)) → ∀ (r : Outcome) (h : GbaHead),
      (link e junk).Returns (op.run e ctx) ⟨⟨s, .dispatch⟩, runs⟩ r h →
        ∃ h', (link e' junk').Returns (op.run e' ctx) ⟨⟨s, .dispatch⟩, runs⟩ r h' ∧
          h'.state.store = h.state.store

/-- The handlers send a field that they have not assigned and that the Wii makes use of: GETATTR,
CREATE and MKDIR the block size, WRITE the answer to its chunks. -/
def Store.SendsStack (s : Store) : Operation → Prop
  | .getattr opc _ => s.findById opc ≠ none
  | .create opc _ _ vaType => (vaType = vreg ∨ vaType = vsock) ∧ s.Accepts opc
  | .mkdir opc _ _ => s.Accepts opc
  | .write opc _ offset resid _ => ∃ p, s.findById opc = some p ∧
      s.Growable p offset (resid.setWidth 64) ∧ resid ≠ 0 ∧
      (128 ∣ offset.toNat ∨ resid.toNat ≤ 128)
  | _ => False

section Independence

variable {s : Store} {ctx : Context} {op : Operation}

theorem independent_of_calls {ends : Puffs → (Nat → Junk) → Nat → Option (Outcome × Store)}
    (hc : ∀ e junk runs, Calls e junk s runs (op.run e ctx) (ends e junk runs))
    (hsame : ∀ e e' junk junk' runs, e.SameButStack e' → ends e junk runs = ends e' junk' runs) :
    s.Independent ctx op := by
  intro e e' junk junk' runs he _ r h hr
  have hends := ((hc e junk runs).returns hr).1
  rw [hsame e e' junk junk' runs he] at hends
  have hc' := hc e' junk' runs
  rw [hends] at hc'
  obtain ⟨n, hx⟩ := hc'.exchanges
  exact ⟨_, hx.returns, rfl⟩

theorem listing_sameButStack {e e' : Puffs} (he : e.SameButStack e') (opc : Word)
    (dent : DirentBuf) (readoff : Word64) (eofflag : Word) (wanted : Bool) :
    s.listing e opc dent readoff eofflag wanted = s.listing e' opc dent readoff eofflag wanted := by
  have hfill : ∀ (listed : Nat → Word → Option Dirent) (fuel n : Nat) (l : ReaddirLoop),
      l.fill { e with stack := e'.stack } listed fuel n = l.fill e listed fuel n := by
    intro listed fuel
    induction fuel with
    | zero => exact fun _ _ => rfl
    | succ fuel ih =>
        intro n l
        rw [ReaddirLoop.fill, ReaddirLoop.fill]
        simp only [ih]
        rfl
  rw [he]
  exact (hfill _ _ _ _).symm

/-- LOOKUP assigns all of its reply, or only that there is no entry. -/
theorem lookupOutcome_same (j j' : Junk) (req : LookupReq) (pni : Newinfo) :
    (s.handleLookupRequest j req).map (fun resp => (lookupOutcome pni resp, s)) =
      (s.handleLookupRequest j' req).map fun resp => (lookupOutcome pni resp, s) := by
  rw [Store.handleLookupRequest, Store.handleLookupRequest]
  cases s.lookupMatch req with
  | none => rfl
  | some m =>
      cases m with
      | none => simp only [Option.map_some, lookupOutcome, lookupReply, if_true]
      | some m => rfl

theorem cmap_sameButStack {e e' : Puffs} (he : e.SameButStack e') (id : Word) :
    ctx.cmap e' id = ctx.cmap e id := by
  rw [he]
  rfl

theorem createReply_same {opc : Word} (h : ¬ s.Accepts opc) (name : Name) (j j' : Junk)
    (vt : Vtype) (e e' : Puffs) (assign : Vattr → CreateResp → Vattr) (pni : Newinfo) :
    (s.handleCreateRequest j vt ⟨opc, name⟩).map
        (fun r => (createReply e assign ctx pni r.1, r.2)) =
      (s.handleCreateRequest j' vt ⟨opc, name⟩).map
        fun r => (createReply e' assign ctx pni r.1, r.2) := by
  have hrefused : ∀ j e, (s.handleCreateRequest j vt ⟨opc, name⟩).map
      (fun r => (createReply e assign ctx pni r.1, r.2)) =
        if s.findById opc = none ∨ s.findById 0 = none then
          some (.create Errno.enodev pni ctx, s) else none := by
    intro j e
    cases hr : s.handleCreateRequest j vt ⟨opc, name⟩ with
    | none =>
        rw [if_neg]
        · rfl
        · rintro (hparent | hfree)
          · simp [Store.handleCreateRequest, hparent] at hr
          · cases hparent : s.findById opc with
            | none => simp [Store.handleCreateRequest, hparent] at hr
            | some parent =>
                simp only [Store.handleCreateRequest, hparent, Store.entryInit, hfree] at hr
                cases hr
    | some r =>
        have hzero : r.1.exists_ = 0 := by
          by_contra hexists
          exact h ((Store.accepts_iff j vt).mpr ⟨r, hr, hexists⟩)
        rcases Store.handleCreateRequest_cases hr with
          ⟨_, hsame, hwhy⟩ | ⟨_, _, _, _, _, _, _, rfl⟩
        · rw [if_pos hwhy, Option.map_some, createReply, if_pos hzero, hsame]
        · exact absurd (show (1 : Word) = 0 from hzero) (by decide)
  rw [hrefused, hrefused]

theorem rmTarget_err {req : RmReq} {err : Word} (h : s.rmTarget req = some (.inl err)) :
    err ≠ 0 := by
  have hnoent : enoent ≠ 0 := by decide
  have hnotdir : enotdir ≠ 0 := by decide
  rw [Store.rmTarget] at h
  split at h
  · cases h
    exact hnoent
  · split at h
    · cases h
      exact hnoent
    · split at h
      · cases h
        exact hnotdir
      · split at h
        · cases h
        · cases h
          exact hnoent
        · cases h

theorem removeReply_same (j j' : Junk) (req : RmReq) (targ : Word) :
    (s.handleRmRequest j req).map (fun r => (removeReply ctx targ r.1, r.2)) =
      (s.handleRmRequest j' req).map fun r => (removeReply ctx targ r.1, r.2) := by
  rw [Store.handleRmRequest, Store.handleRmRequest]
  cases htarget : s.rmTarget req with
  | none => rfl
  | some target =>
      cases target with
      | inl err => simp only [Option.map_some, removeReply, if_pos (rmTarget_err htarget)]
      | inr call => simp only

theorem reclaimReply_same (j j' : Junk) (req : ReclaimReq) (opc : Word) :
    (reclaimReply ctx opc (s.handleReclaimRequest j req).1, (s.handleReclaimRequest j req).2) =
      (reclaimReply ctx opc (s.handleReclaimRequest j' req).1,
        (s.handleReclaimRequest j' req).2) := by
  rw [Store.handleReclaimRequest, Store.handleReclaimRequest]
  cases s.findById req.vaFileid with
  | none => simp only [reclaimReply, if_pos (show enoent ≠ 0 by decide)]
  | some p => rfl

theorem setattrReply_same (j j' : Junk) (req : SetattrReq) (opc : Word) :
    (setattrReply ctx opc (s.handleSetsizeRequest j req).1, (s.handleSetsizeRequest j req).2) =
      (setattrReply ctx opc (s.handleSetsizeRequest j' req).1,
        (s.handleSetsizeRequest j' req).2) := by
  rw [Store.handleSetsizeRequest, Store.handleSetsizeRequest]
  cases s.findById req.vaFileid with
  | none => simp only [setattrReply, if_pos (show enoent ≠ 0 by decide)]
  | some p => rfl

theorem independent_setattr (opc : Word) (vaSize : Word64) :
    s.Independent ctx (.setattr opc vaSize) := by
  have hc : ∀ e junk runs, Calls e junk s runs (nodeSetattr e ctx opc vaSize)
      (if vaSize ≠ puffsVnoval ∧ (ctx.cmap e opc).1.vaType = vreg then
        some (setattrReply (ctx.cmap e opc).2 opc
            (s.handleSetsizeRequest (junk runs) ⟨opc, vaSize⟩).1,
          (s.handleSetsizeRequest (junk runs) ⟨opc, vaSize⟩).2)
      else some (setattrLocal (ctx.cmap e opc).2 (ctx.cmap e opc).1 vaSize, s)) := by
    intro e junk runs
    split
    · rename_i hsend
      exact calls_setattr e junk s runs ctx opc hsend.1 hsend.2
    · rename_i hlocal
      rw [setattr_local e ctx opc hlocal]
      exact calls_finish _
  refine independent_of_calls hc ?_
  intro e e' junk junk' runs he
  rw [cmap_sameButStack he, setattrReply_same (junk runs) (junk' runs)]

theorem independent_write (hw : s.WellFormed) {opc : Word} {buf : Memory} {offset : Word64}
    {resid : Word} {append : Bool} (h : ¬ s.SendsStack (.write opc buf offset resid append)) :
    s.Independent ctx (.write opc buf offset resid append) := by
  cases hp : s.findById opc with
  | none =>
      exact independent_of_calls
        (fun e junk runs => calls_write_missing e junk runs buf append hp) fun _ _ _ _ _ _ => rfl
  | some p =>
      by_cases hok : (s.prepared p offset resid).1 = 0
      · by_cases hresid : resid = 0
        · subst hresid
          exact independent_of_calls
            (fun e junk runs => calls_write_empty e junk runs buf append hp hok)
            fun _ _ _ _ _ _ => rfl
        · have hcuts : ¬ (128 ∣ offset.toNat ∨ resid.toNat ≤ 128) := fun hcuts =>
            h ⟨p, hp, (Store.prepare_ok_iff hw p _).mp hok, hresid, hcuts⟩
          obtain ⟨hborder, hlong⟩ := not_or.mp hcuts
          exact independent_of_calls (fun e junk runs =>
            calls_write_endless e junk runs buf append hp hok hborder (Nat.not_le.mp hlong))
            fun _ _ _ _ _ _ => rfl
      · exact independent_of_calls
          (fun e junk runs => calls_write_refused e junk runs buf append hp hok)
          fun _ _ _ _ _ _ => rfl

/-- Where nothing unassigned is sent, the end is a matter of the store and the request. -/
theorem independent_of_not_sendsStack (hw : s.WellFormed) (ht : s.Terminated)
    (hop : ∀ opc buf offset resid, op ≠ .read opc buf offset resid) (h : ¬ s.SendsStack op) :
    s.Independent ctx op := by
  cases op with
  | read opc buf offset resid => exact absurd rfl (hop opc buf offset resid)
  | statvfs =>
      exact independent_of_calls (fun e junk runs => calls_statvfs e junk s runs)
        fun _ _ _ _ _ _ => rfl
  | readdir opc dent readoff eofflag wanted =>
      refine independent_of_calls
        (fun e junk runs => calls_readdir ht e junk runs opc dent readoff eofflag wanted) ?_
      intro e e' _ _ _ he
      simp only [listing_sameButStack he]
  | lookup opc pni pcn =>
      refine independent_of_calls (fun e junk runs => calls_lookup e junk s runs opc pni pcn) ?_
      intro _ _ junk junk' runs _
      rw [lookupOutcome_same (junk runs) (junk' runs)]
  | getattr opc vap =>
      refine independent_of_calls (fun e junk runs => calls_getattr e junk s runs opc vap) ?_
      intro _ _ junk junk' runs _
      have hgone : ∀ j, getattrReply vap (s.handleGetattrRequest j ⟨opc⟩) =
          .getattr Errno.estale vap := by
        intro j
        simp only [Store.handleGetattrRequest, not_not.mp h, getattrReply, if_true]
      rw [hgone, hgone]
  | create opc pni pcn vaType =>
      refine independent_of_calls
        (fun e junk runs => calls_create e junk s runs ctx opc pni pcn vaType) ?_
      intro e e' junk junk' runs _
      by_cases htype : vaType = vreg ∨ vaType = vsock
      · have hno : ¬ s.Accepts opc := fun hacc => h ⟨htype, hacc⟩
        rw [if_pos htype, if_pos htype]
        exact createReply_same hno _ _ _ _ _ _ _ _
      · rw [if_neg htype, if_neg htype]
  | mkdir opc pni pcn =>
      refine independent_of_calls (fun e junk runs => calls_mkdir e junk s runs ctx opc pni pcn) ?_
      intro e e' junk junk' runs _
      exact createReply_same h _ _ _ _ _ _ _ _
  | write opc buf offset resid append => exact independent_write hw h
  | remove opc targ pcn =>
      refine independent_of_calls
        (fun e junk runs => calls_remove e junk s runs ctx opc targ pcn) ?_
      intro e e' junk junk' runs he
      rw [cmap_sameButStack he, removeReply_same (junk runs) (junk' runs)]
  | reclaim opc =>
      refine independent_of_calls (fun e junk runs => calls_reclaim e junk s runs ctx opc) ?_
      intro e e' junk junk' runs he
      rw [cmap_sameButStack he, reclaimReply_same (junk runs) (junk' runs)]
  | setattr opc vaSize => exact independent_setattr opc vaSize

end Independence

def Junk.ones : Junk := { Junk.zero with stack := fun _ => 1 }

section Dependence

variable {s : Store} {ctx : Context} {op : Operation}

theorem blocksize_ones : (Junk.zero.uninit : GetattrResp).vaBlocksize ≠
    (Junk.ones.uninit : GetattrResp).vaBlocksize := by
  decide +kernel

theorem Store.Independent.returns_ones (hi : s.Independent ctx op) {r : Outcome} {h : GbaHead}
    (hr : (link .zero fun _ => .zero).Returns (op.run .zero ctx) ⟨⟨s, .dispatch⟩, 0⟩ r h) :
    ∃ h', (link .zero fun _ => .ones).Returns (op.run .zero ctx) ⟨⟨s, .dispatch⟩, 0⟩ r h' := by
  obtain ⟨h', hr', _⟩ := hi .zero .zero _ (fun _ => .ones) 0 rfl (fun _ => rfl) r h hr
  exact ⟨h', hr'⟩

theorem Store.Independent.ends_ones (hi : s.Independent ctx op)
    (ends : Junk → Option (Outcome × Store)) {r : Outcome} {s' : Store}
    (hc : ∀ junk, Calls .zero junk s 0 (op.run .zero ctx) (ends (junk 0)))
    (h : ends .zero = some (r, s')) : ∃ s₂, ends .ones = some (r, s₂) := by
  have hzero := hc fun _ => .zero
  rw [h] at hzero
  obtain ⟨n, hx⟩ := hzero.exchanges
  obtain ⟨h', hr⟩ := hi.returns_ones hx.returns
  exact ⟨_, ((hc fun _ => .ones).returns hr).1⟩

/-- The node of a new entry has the block size that was on the stack. -/
theorem createReply_blocksize (ctx : Context) {vt : Vtype} {opc : Word} {name : Name}
    {assign : Vattr → CreateResp → Vattr}
    (hassign : ∀ va resp, (assign va resp).vaBlocksize = resp.vaBlocksize) (pni : Newinfo)
    {j : Junk} {r : CreateResp × Store}
    (hr : s.handleCreateRequest j vt ⟨opc, name⟩ = some r) (hexists : r.1.exists_ ≠ 0) :
    ∃ pni' node rest, createReply .zero assign ctx pni r.1 = .create 0 pni' (node :: rest) ∧
      node.va.vaBlocksize = (j.uninit : GetattrResp).vaBlocksize := by
  refine ⟨{ pni with cookie := r.1.vaFileid }, ⟨r.1.vaFileid, assign Puffs.zero.pnNew r.1, false⟩,
    ctx, ?_, ?_⟩
  · simp only [createReply, if_neg hexists, Context.entryInit, Context.update, if_true]
  · rcases Store.handleCreateRequest_cases hr with ⟨hzero, _⟩ | ⟨_, _, _, _, _, _, _, rfl⟩
    · exact absurd hzero hexists
    · exact hassign _ _

theorem dependent_creation {vt : Vtype} {opc : Word} {name : Name}
    (assign : Vattr → CreateResp → Vattr)
    (hassign : ∀ va resp, (assign va resp).vaBlocksize = resp.vaBlocksize) (pni : Newinfo)
    (hc : ∀ junk, Calls .zero junk s 0 (op.run .zero ctx)
      ((s.handleCreateRequest (junk 0) vt ⟨opc, name⟩).map fun r =>
        (createReply .zero assign ctx pni r.1, r.2)))
    (hacc : s.Accepts opc) : ¬ s.Independent ctx op := by
  intro hi
  have haccepted : ∀ j, ∃ r, s.handleCreateRequest j vt ⟨opc, name⟩ = some r ∧ r.1.exists_ ≠ 0 :=
    fun j => (Store.accepts_iff j vt).mp hacc
  obtain ⟨r, hr, hexists⟩ := haccepted .zero
  obtain ⟨r₂, hr₂, hexists₂⟩ := haccepted .ones
  obtain ⟨_, node, _, hreply, hnode⟩ := createReply_blocksize ctx hassign pni hr hexists
  obtain ⟨_, node₂, _, hreply₂, hnode₂⟩ :=
    createReply_blocksize ctx hassign pni hr₂ hexists₂
  obtain ⟨s₂, hends⟩ := hi.ends_ones (fun j => (s.handleCreateRequest j vt ⟨opc, name⟩).map
    fun r => (createReply .zero assign ctx pni r.1, r.2)) hc (congrArg _ hr)
  simp only [hr₂, Option.map_some] at hends
  have hsame : createReply .zero assign ctx pni r₂.1 = createReply .zero assign ctx pni r.1 :=
    congrArg Prod.fst (Option.some.inj hends)
  rw [hreply, hreply₂] at hsame
  injection hsame with _ _ hctx
  injection hctx with hhead _
  rw [hhead, hnode] at hnode₂
  exact blocksize_ones hnode₂

theorem dependent_getattr {opc : Word} {p : EntryPtr} (vap : Vattr) (hp : s.findById opc = some p) :
    ¬ s.Independent ctx (.getattr opc vap) := by
  intro hi
  have hreply : ∀ j, getattrReply vap (s.handleGetattrRequest j ⟨opc⟩) = .getattr 0
      (getattrVattr vap (Store.attributes (j.uninit : GetattrResp) (s.entries p))) := by
    intro j
    simp only [Store.handleGetattrRequest, hp]
    exact if_neg (show ¬ (1 : Word) = 0 by decide)
  obtain ⟨s₂, hends⟩ := hi.ends_ones
    (fun j => some (getattrReply vap (s.handleGetattrRequest j ⟨opc⟩), s))
    (fun junk => calls_getattr .zero junk s 0 opc vap) rfl
  have hsame := congrArg Prod.fst (Option.some.inj hends)
  simp only [hreply] at hsame
  injection hsame with _ hva
  exact blocksize_ones (congrArg Vattr.vaBlocksize hva).symm

theorem dependent_write {opc : Word} {buf : Memory} {offset : Word64} {resid : Word}
    {append : Bool} {p : EntryPtr} (hp : s.findById opc = some p)
    (hok : (s.prepared p offset resid).1 = 0) (hresid : resid ≠ 0)
    (hborder : 128 ∣ offset.toNat ∨ resid.toNat ≤ 128) :
    ¬ s.Independent ctx (.write opc buf offset resid append) := by
  intro hi
  obtain ⟨s', hc⟩ := calls_write_done .zero (fun _ => .zero) 0 buf append hp hok hborder
    (show chunkErr (fun _ => .zero) 0 = 0 by decide +kernel)
  obtain ⟨n, hx⟩ := hc.exchanges
  obtain ⟨h', hr⟩ := hi.returns_ones hx.returns
  have herr : chunkErr (fun _ => .ones) 0 ≠ 0 := by decide +kernel
  obtain ⟨c, hplays, _⟩ := plays_write_failed .zero (fun _ => .ones) 0 buf append hp hok hresid
    hborder herr
  obtain ⟨hsame, _⟩ := hr.unique (hplays.returns (gba_waits .zero _ _))
  injection hsame with hzero _
  exact herr hzero.symm

theorem not_independent_of_sendsStack (hw : s.WellFormed) (h : s.SendsStack op) :
    ¬ s.Independent ctx op := by
  cases op with
  | getattr opc vap =>
      obtain ⟨p, hp⟩ := Option.ne_none_iff_exists'.mp h
      exact dependent_getattr vap hp
  | create opc pni pcn vaType =>
      have hc := fun junk => calls_create .zero junk s 0 ctx opc pni pcn vaType
      simp only [if_pos h.1] at hc
      exact dependent_creation createTyped (fun _ _ => rfl) pni hc h.2
  | mkdir opc pni pcn =>
      exact dependent_creation createVattr (fun _ _ => rfl) pni
        (fun junk => calls_mkdir .zero junk s 0 ctx opc pni pcn) h
  | write opc buf offset resid append =>
      obtain ⟨p, hp, hgrow, hresid, hborder⟩ := h
      exact dependent_write hp ((Store.prepare_ok_iff hw p _).mpr hgrow) hresid hborder
  | statvfs | readdir | lookup | read | remove | reclaim | setattr => exact h.elim

/-- The stacks make no difference to an operation exactly when no reply to it has a field
that the Wii makes use of and the GBA has not assigned. -/
theorem independent_iff (h : s.Reachable) (ctx : Context)
    (hop : ∀ opc buf offset resid, op ≠ .read opc buf offset resid) :
    s.Independent ctx op ↔ ¬ s.SendsStack op :=
  ⟨fun hi hs => not_independent_of_sendsStack h.wellFormed hs hi,
    independent_of_not_sendsStack h.wellFormed h.terminated hop⟩

end Dependence

/-- GETATTR of an id that no entry has. -/
theorem independent_iff_missing :
    ∃ g : Gba, bootRun [] = some g ∧ g.store.Independent [] (.getattr 99 Puffs.zero.pnNew) := by
  obtain ⟨g, hg, hfacts⟩ := Option.map_eq_some_iff.mp
    (show (bootRun []).map (fun g => decide (g.store.findById 99 = none)) = some true by
      decide +kernel)
  refine ⟨g, hg, (independent_iff ⟨g.phase, bootRun_reachable hg⟩ [] ?_).mpr ?_⟩
  · rintro _ _ _ _ ⟨⟩
  · exact fun hs => hs (of_decide_eq_true hfacts)

/-- The block size of the test file, and a byte written to it. -/
theorem independent_counterexample :
    ∃ g : Gba, bootRun [] = some g ∧ g.Reachable ∧
      ¬ g.store.Independent [] (.getattr 2 Puffs.zero.pnNew) ∧
      ¬ g.store.Independent [] (.write 2 (fun _ => 97) 0 1 false) := by
  obtain ⟨g, hg, hfacts⟩ := Option.map_eq_some_iff.mp
    (show (bootRun []).map (fun g => decide (g.store.findById 2 = some testSlot ∧
      (g.store.prepared testSlot 0 1).1 = 0)) = some true by decide +kernel)
  obtain ⟨htest, hok⟩ := of_decide_eq_true hfacts
  exact ⟨g, hg, bootRun_reachable hg, dependent_getattr _ htest,
    dependent_write htest hok (by decide) (Or.inl (by decide))⟩

end WiiJoybus
