import WiiJoybus.Link.Network

/-!
Operations as remote calls.

Seen from outside, an operation either ends with an outcome while the GBA is back
in its dispatcher, or waits for ever for a handler that does not end. For an
operation of one exchange, the handler's result says which.
-/

namespace WiiJoybus
open ByteMemory StructLayout Dialogue Dialogue.Network

/-- The operation ends with the outcome of `ends`, and the GBA with its store; without one
the Wii waits for ever. -/
def Calls (e : Puffs) (junk : Nat → Junk) (s : Store) (runs : Nat) (p : WiiProc) :
    Option (Outcome × Store) → Prop
  | some (r, s') => ∃ n, (link e junk).Meets linkCubeQueueSize p
      (.ret (.inl ⟨⟨s, .dispatch⟩, runs⟩)) r ⟨⟨s', .dispatch⟩, n⟩
  | none => (link e junk).Stalls linkCubeQueueSize p (.ret (.inl ⟨⟨s, .dispatch⟩, runs⟩))

section Calls

variable {e : Puffs} {junk : Nat → Junk} {s s' : Store} {runs : Nat} {p : WiiProc}
variable {ends : Option (Outcome × Store)} {r : Outcome} {h : GbaHead}

theorem Calls.talks (hc : Calls e junk s runs p ends) :
    (link e junk).Talks linkCubeQueueSize ⟨⟨s, .dispatch⟩, runs⟩ p := by
  cases ends with
  | none => exact Stalls.talks hc
  | some a =>
      obtain ⟨n, hn⟩ := hc
      exact hn.talks

theorem Calls.exchanges (hc : Calls e junk s runs p (some (r, s'))) :
    ∃ n, (link e junk).Exchanges p ⟨⟨s, .dispatch⟩, runs⟩ r ⟨⟨s', .dispatch⟩, n⟩ := by
  obtain ⟨n, hn⟩ := hc
  exact ⟨n, hn.exchanges⟩

theorem Calls.returns (hc : Calls e junk s runs p ends)
    (hr : (link e junk).Returns p ⟨⟨s, .dispatch⟩, runs⟩ r h) :
    ends = some (r, h.state.store) ∧ h.Home := by
  cases ends with
  | none => exact absurd hr (Stalls.hangs hc).not_returns
  | some a =>
      obtain ⟨n, hn⟩ := hc.exchanges
      obtain ⟨rfl, rfl⟩ := hr.unique hn.returns
      exact ⟨rfl, rfl⟩

theorem Calls.of_exchanges (hc : Calls e junk s runs p ends)
    (hx : (link e junk).Exchanges p ⟨⟨s, .dispatch⟩, runs⟩ r h) :
    ends = some (r, h.state.store) :=
  (hc.returns hx.returns).1

theorem calls_finish (r : Outcome) : Calls e junk s runs (finish r) (some (r, s)) :=
  ⟨runs, .done rfl⟩

theorem calls_command {α β : Type} [CStruct α] [CStruct β] [Fits α] [Fits β] {cmd : Cmd}
    {sswap : α → α} {req : α} (handle : α → Option (β × Store))
    (hcase : s.switch (junk runs) runs cmd = answer (junk runs) runs sswap fun req =>
      (handle req).map fun r => (r.1, ⟨r.2, .dispatch⟩))
    (hs : sswap (swapped req) = req) {f out : β → Outcome} (hf : ∀ r, f (swapped r) = out r) :
    Calls e junk s runs (command e cmd req >>= fun resp => finish (f resp))
      ((handle req).map fun r => (out r.1, r.2)) := by
  cases hh : handle req with
  | none => exact stalls_command _ (h := ⟨⟨s, .dispatch⟩, runs⟩) rfl hcase hs (by rw [hh]; rfl)
  | some r =>
      have hround : (link e junk).Round linkCubeQueueSize
          (command e cmd req >>= fun resp => finish (f resp)) (finish (f (swapped r.1))) _ _ _ _ :=
        round_command _ (h := ⟨⟨s, .dispatch⟩, runs⟩) rfl hcase hs (by rw [hh]; rfl) rfl
      rw [hf] at hround
      exact ⟨runs + 1, hround.meets (.done rfl)⟩

end Calls

section Nodes

variable (e : Puffs) (junk : Nat → Junk) (s : Store) (runs : Nat)

theorem calls_statvfs :
    Calls e junk s runs (fsStatvfs e) (some (.statvfs s.handleStatvfsRequest, s)) := by
  refine ⟨runs + 1, (round_statvfs (h := ⟨⟨s, .dispatch⟩, runs⟩) rfl rfl).meets ?_⟩
  rw [StatvfsResp.sswap_swapped]
  exact .done rfl

/-- The outcome of LOOKUP for a reply as the GBA makes it. -/
def lookupOutcome (pni : Newinfo) (resp : LookupResp) : Outcome :=
  lookupReply pni { resp with vaSize := bswap resp.vaSize, vaRdev := bswap resp.vaRdev }

theorem calls_lookup (opc : Word) (pni : Newinfo) (pcn : Cn) :
    Calls e junk s runs (nodeLookup e opc pni pcn)
      (if pcn.isDotDot then some (.lookup Errno.enoent pni, s)
      else (s.handleLookupRequest (junk runs) ⟨opc, pcn.name⟩).map fun resp =>
        (lookupOutcome pni resp, s)) := by
  rw [nodeLookup]
  split
  · exact calls_finish _
  · have hreply : ∀ r : LookupResp,
        lookupReply pni (LookupResp.sswap (swapped r)) = lookupOutcome pni r :=
      fun r => congrArg (lookupReply pni) r.sswap_swapped
    have hcase : s.switch (junk runs) runs .lookup =
        answer (junk runs) runs LookupReq.sswap fun req =>
          ((s.handleLookupRequest (junk runs) req).map fun resp => (resp, s)).map fun r =>
            (r.1, ⟨r.2, .dispatch⟩) := by
      simp only [Option.map_map]
      rfl
    have hc : Calls e junk s runs _ _ :=
      calls_command _ hcase (LookupReq.sswap_swapped ⟨opc, pcn.name⟩)
        (f := fun resp => lookupReply pni (LookupResp.sswap resp)) hreply
    rwa [Option.map_map] at hc

theorem calls_getattr (opc : Word) (vap : Vattr) :
    Calls e junk s runs (nodeGetattr e opc vap)
      (some (getattrReply vap (s.handleGetattrRequest (junk runs) ⟨opc⟩), s)) :=
  calls_command (fun req => some (s.handleGetattrRequest (junk runs) req, s)) rfl
    (GetattrReq.sswap_swapped ⟨opc⟩) fun r => congrArg (getattrReply vap) r.sswap_swapped

/-- CREATE and MKDIR differ in the command, the type and the attributes. -/
theorem calls_creation (cmd : Cmd) (vt : Vtype) (hcase : s.switch (junk runs) runs cmd =
      answer (junk runs) runs CreateReq.sswap fun req =>
        (s.handleCreateRequest (junk runs) vt req).map fun r => (r.1, ⟨r.2, .dispatch⟩))
    (assign : Vattr → CreateResp → Vattr) (ctx : Context) (opc : Word) (pni : Newinfo)
    (pcn : Cn) :
    Calls e junk s runs
      (command e cmd (⟨opc, pcn.name⟩ : CreateReq) >>= fun resp =>
        finish (createReply e assign ctx pni (GetattrResp.sswap resp)))
      ((s.handleCreateRequest (junk runs) vt ⟨opc, pcn.name⟩).map fun r =>
        (createReply e assign ctx pni r.1, r.2)) :=
  calls_command (s.handleCreateRequest (junk runs) vt) hcase
    (CreateReq.sswap_swapped ⟨opc, pcn.name⟩)
    fun r => congrArg (createReply e assign ctx pni) r.sswap_swapped

theorem calls_create (ctx : Context) (opc : Word) (pni : Newinfo) (pcn : Cn) (vaType : Word) :
    Calls e junk s runs (nodeCreate e ctx opc pni pcn vaType)
      (if vaType = vreg ∨ vaType = vsock then
        (s.handleCreateRequest (junk runs) .reg ⟨opc, pcn.name⟩).map fun r =>
          (createReply e createTyped ctx pni r.1, r.2)
      else some (.create Errno.enodev pni ctx, s)) := by
  rw [nodeCreate]
  split
  · exact calls_creation e junk s runs .create .reg rfl createTyped ctx opc pni pcn
  · exact calls_finish _

theorem calls_mkdir (ctx : Context) (opc : Word) (pni : Newinfo) (pcn : Cn) :
    Calls e junk s runs (nodeMkdir e ctx opc pni pcn)
      ((s.handleCreateRequest (junk runs) .dir ⟨opc, pcn.name⟩).map fun r =>
        (createReply e createVattr ctx pni r.1, r.2)) :=
  calls_creation e junk s runs .mkdir .dir rfl createVattr ctx opc pni pcn

theorem calls_remove (ctx : Context) (opc targ : Word) (pcn : Cn) :
    Calls e junk s runs (nodeRemove e ctx opc targ pcn)
      ((s.handleRmRequest (junk runs) ⟨opc, pcn.name⟩).map fun r =>
        (removeReply (ctx.cmap e targ).2 targ r.1, r.2)) :=
  calls_command (s.handleRmRequest (junk runs)) rfl (RmReq.sswap_swapped ⟨opc, pcn.name⟩)
    fun r => congrArg (removeReply (ctx.cmap e targ).2 targ) r.sswap_swapped

theorem calls_reclaim (ctx : Context) (opc : Word) :
    Calls e junk s runs (nodeReclaim e ctx opc)
      (some (reclaimReply (ctx.cmap e opc).2 opc (s.handleReclaimRequest (junk runs) ⟨opc⟩).1,
        (s.handleReclaimRequest (junk runs) ⟨opc⟩).2)) :=
  calls_command (fun req => some (s.handleReclaimRequest (junk runs) req)) rfl
    (ReclaimReq.sswap_swapped ⟨opc⟩)
    fun r => congrArg (reclaimReply (ctx.cmap e opc).2 opc) r.sswap_swapped

theorem calls_setattr (ctx : Context) (opc : Word) {vaSize : Word64}
    (hsize : vaSize ≠ puffsVnoval) (htype : (ctx.cmap e opc).1.vaType = vreg) :
    Calls e junk s runs (nodeSetattr e ctx opc vaSize)
      (some (setattrReply (ctx.cmap e opc).2 opc
          (s.handleSetsizeRequest (junk runs) ⟨opc, vaSize⟩).1,
        (s.handleSetsizeRequest (junk runs) ⟨opc, vaSize⟩).2)) := by
  simp only [nodeSetattr, if_pos hsize, if_pos htype]
  exact calls_command (fun req => some (s.handleSetsizeRequest (junk runs) req)) rfl
    (SetattrReq.sswap_swapped ⟨opc, vaSize⟩)
    fun r => congrArg (setattrReply (ctx.cmap e opc).2 opc) r.sswap_swapped

/-- The outcome of a SETATTR that does not reach the GBA. -/
def setattrLocal (ctx : Context) (pnVa : Vattr) (vaSize : Word64) : Outcome :=
  if vaSize = puffsVnoval then .setattr 0 ctx
  else if pnVa.vaType = vblk ∨ pnVa.vaType = vchr ∨ pnVa.vaType = vfifo then .setattr 0 ctx
  else if pnVa.vaType = vdir then .setattr Errno.eisdir ctx
  else .setattr Errno.eopnotsupp ctx

theorem setattr_local (ctx : Context) (opc : Word) {vaSize : Word64}
    (h : ¬ (vaSize ≠ puffsVnoval ∧ (ctx.cmap e opc).1.vaType = vreg)) :
    nodeSetattr e ctx opc vaSize =
      finish (setattrLocal (ctx.cmap e opc).2 (ctx.cmap e opc).1 vaSize) := by
  rw [nodeSetattr, setattrLocal]
  by_cases hsize : vaSize = puffsVnoval
  · simp only [hsize, ne_eq, not_true, if_false, if_true]
  · have htype : ¬ (ctx.cmap e opc).1.vaType = vreg := fun htype => h ⟨hsize, htype⟩
    simp only [ne_eq, hsize, not_false_iff, if_true, if_false, htype]
    split_ifs <;> rfl

end Nodes

end WiiJoybus
