import WiiJoybus.Link.DriverRuns

/-!
The calls of a session, one after the other.

Each call is an operation with the nodes that the Wii has then, and has a result. Where
the GBA is when a call starts depends on those before it, so what is asked of the calls
is asked along the session.
-/

namespace WiiJoybus
open ByteMemory Dialogue Dialogue.Network

/-- An operation of a session, with the nodes the Wii has then and the result. -/
structure SessionCall where
  ctx : Context
  op : Operation
  result : Outcome

def SessionCall.run (e : Puffs) (c : SessionCall) : WiiProc × Outcome :=
  (c.op.run e c.ctx, c.result)

/-- No call derails where the GBA is. -/
def KeptAlong (e : Puffs) (junk : Nat → Junk) : GbaHead → List SessionCall → Prop
  | _, [] => True
  | h, c :: cs => ¬ h.state.store.Derails junk h.runs c.op ∧
      ∀ h', (link e junk).Exchanges (c.op.run e c.ctx) h c.result h' → KeptAlong e junk h' cs

/-- A message of a write to the file `id`. -/
def Message.Writes (id : Word) : Message → Prop
  | .request (.write req) => req.fileid = id
  | .chunk _ => True
  | _ => False

section Calls

variable {e : Puffs} {junk : Nat → Junk} {s s' : Store} {runs : Nat} {r : Outcome}
variable {g g' : Gba} {h : GbaHead} {m : Message} {cs : List SessionCall}

theorem KeptAlong.allowed (h : GbaHead) (hk : KeptAlong e junk h cs) :
    (link e junk).AllowedAlong (KeptOperation e junk) h (cs.map (SessionCall.run e)) := by
  induction cs generalizing h with
  | nil => exact trivial
  | cons c cs ih => exact ⟨⟨c.ctx, c.op, rfl, hk.1⟩, fun h' hx => ih h' (hk.2 h' hx)⟩

/-- With no error on the stack no call derails. -/
theorem keptAlong_of_zero (hzero : ∀ n, chunkErr junk n = 0) (h : GbaHead)
    (cs : List SessionCall) : KeptAlong e junk h cs := by
  induction cs generalizing h with
  | nil => exact trivial
  | cons c cs ih =>
      refine ⟨fun hderails => ?_, fun h' _ => ih h'⟩
      cases hop : c.op with
      | write opc buf offset resid append =>
          rw [hop] at hderails
          obtain ⟨_, _, _, _, _, herr⟩ := hderails
          exact herr (hzero _)
      | statvfs | readdir | lookup | getattr | create | mkdir | read | remove | reclaim
          | setattr => rw [hop] at hderails; exact hderails

theorem Calls.state {q : WiiProc} {ends : Option (Outcome × Store)}
    (hc : Calls e junk s runs q ends)
    (hx : (link e junk).Exchanges q ⟨⟨s, .dispatch⟩, runs⟩ r h) :
    ∃ s', ends = some (r, s') ∧ h.state = ⟨s', .dispatch⟩ := by
  obtain ⟨hends, hhome⟩ := hc.returns hx.returns
  obtain ⟨⟨s', phase⟩, n⟩ := h
  obtain rfl : phase = .dispatch := hhome
  exact ⟨s', hends, rfl⟩

theorem ChunksCopied.run {l : WriteLoop} {n n' : Nat} (h : ChunksCopied junk l n g n' g')
    (id : Word) : ∃ ms, g.Run ms g' ∧ ∀ m ∈ ms, m.Writes id := by
  induction h with
  | done _ => exact ⟨[], .nil _, fun _ hm => by cases hm⟩
  | @chunk l n s w c n' g' hresid hloop hsrc _ ih =>
      obtain ⟨ms, hrun, hms⟩ := ih
      refine ⟨.chunk l.breq :: ms, .cons (j := junk n) ?_ hrun, fun m hm => ?_⟩
      · simp only [Gba.receive, handleWriteBuf_eq hloop, Option.map_some]
      · cases hm with
        | head => exact trivial
        | tail _ hm => exact hms m hm

theorem Gba.run_single {j : Junk} {id : Word} (hs : g.receive j m = some g') (hm : m.Writes id) :
    ∃ ms, g.Run ms g' ∧ ∀ m ∈ ms, m.Writes id :=
  ⟨[m], .cons hs (.nil g'), fun _ hmem => List.mem_singleton.mp hmem ▸ hm⟩

/-- The error in the answer comes after the first chunk. -/
theorem run_write_failed {p : EntryPtr} {opc : Word} {buf : Memory} {offset : Word64}
    {resid : Word} {append : Bool} (hp : s.findById opc = some p)
    (hok : (s.prepared p offset resid).1 = 0) (hresid : resid ≠ 0) (hshort : resid.toNat ≤ 128)
    (herr : chunkErr junk runs ≠ 0)
    (hx : (link e junk).Exchanges (nodeWrite e opc buf offset resid append)
      ⟨⟨s, .dispatch⟩, runs⟩ r h) :
    ∃ ms, Gba.Run ⟨s, .dispatch⟩ ms h.state ∧ ∀ m ∈ ms, m.Writes opc := by
  obtain ⟨_, _, hround⟩ := round_prepare e junk runs buf append hp hok
  have hreceive : Gba.receive (junk runs) ⟨s, .dispatch⟩
      (.request (.write ⟨opc, if append then 1 else 0, offset, resid.setWidth 64⟩)) = some
      ⟨(s.prepared p offset resid).2,
        .writing ⟨p, offset, resid.setWidth 64, (junk runs).uninit⟩⟩ := by
    rw [← next_of_resid hresid]
    simp only [Gba.receive, Store.serve, handleWriteRequest_prepared hp hok]
  rw [next_of_resid hresid] at hround
  have hwide := widen_toNat resid
  have hlen := chunkLen_toNat resid
  have hpos : 0 < resid.toNat := Nat.pos_of_ne_zero fun hz => hresid (BitVec.eq_of_toNat_eq hz)
  let l : WriteLoop := ⟨0, buf, resid⟩
  obtain ⟨c, hloop, hc⟩ := Copying.loop_counted (junk (runs + 1)) l.breq p
    (c := ⟨(s.prepared p offset resid).2, offset, resid.setWidth 64, l.breq.buflen, 0⟩)
    (show 0 < (resid.setWidth 64).toNat by omega)
    (show (chunkLen resid).toNat = min (resid.setWidth 64).toNat 128 by omega)
    (Or.inr (hwide.trans_le hshort)) (show 2 ≤ (resid.setWidth 64).toNat + 1 by omega)
  let w : Writing := ⟨p, offset, resid.setWidth 64, (junk runs).uninit⟩
  have hbuf := handleWriteBuf_eq (w := w) hloop
  have hchunk := round_failed e junk (runs + 1) (w := w) (l := l) hresid hloop herr
  have hreturns := (hround.plays (.client_loop (hchunk.plays .done))).returns (gba_waits e junk _)
  obtain ⟨_, rfl⟩ := hx.returns.unique hreturns
  refine ⟨[_, .chunk l.breq], .cons hreceive (.cons (j := junk (runs + 1)) ?_ (.nil _)), ?_⟩
  · change (Store.handleWriteBuf _ _ w l.breq).map _ = _
    rw [hbuf, Option.map_some]
  · intro m hm
    cases hm with
    | head => exact rfl
    | tail _ hm =>
        rw [List.mem_singleton.mp hm]
        exact trivial

theorem run_write (hw : s.WellFormed) {opc : Word} {buf : Memory} {offset : Word64} {resid : Word}
    {append : Bool} (hk : ¬ s.Derails junk runs (.write opc buf offset resid append))
    (hx : (link e junk).Exchanges (nodeWrite e opc buf offset resid append)
      ⟨⟨s, .dispatch⟩, runs⟩ r h) :
    ∃ ms, Gba.Run ⟨s, .dispatch⟩ ms h.state ∧ ∀ m ∈ ms, m.Writes opc := by
  have hreceive : Gba.receive (junk runs) ⟨s, .dispatch⟩
      (.request (.write ⟨opc, if append then 1 else 0, offset, resid.setWidth 64⟩)) = some
      ⟨(s.handleWriteRequest (junk runs)
          ⟨opc, if append then 1 else 0, offset, resid.setWidth 64⟩).2.1,
        (s.handleWriteRequest (junk runs)
          ⟨opc, if append then 1 else 0, offset, resid.setWidth 64⟩).2.2⟩ := rfl
  cases hp : s.findById opc with
  | none =>
      obtain ⟨s', hends, hstate⟩ := (calls_write_missing e junk runs buf append hp).state hx
      cases hends
      rw [hstate]
      exact ⟨[], .nil _, fun _ hm => by cases hm⟩
  | some p =>
      by_cases hok : (s.prepared p offset resid).1 = 0
      · rw [handleWriteRequest_prepared hp hok] at hreceive
        by_cases hborder : 128 ∣ offset.toNat ∨ resid.toNat ≤ 128
        · by_cases hzero : resid ≠ 0 → chunkErr junk runs = 0
          · obtain ⟨_, _, hround⟩ := round_prepare e junk runs buf append hp hok
            have hwide := widen_toNat resid
            obtain ⟨n, s', hchunks⟩ := chunksCopied_of_border junk ⟨0, buf, resid⟩
              (s.prepared p offset resid).2
              ⟨p, offset, resid.setWidth 64, (junk runs).uninit⟩ (runs + 1) hwide
              (hborder.imp_right fun h => hwide ▸ h)
            have hx' := (hround.meets (hchunks.meets rfl fun w hphase => by
              obtain ⟨rfl, hpos⟩ := Writing.next_eq_writing hphase
              refine hzero fun hz => ?_
              subst hz
              exact absurd hpos (Nat.lt_irrefl 0))).exchanges
            obtain ⟨_, rfl⟩ := hx.unique_out hx'
            obtain ⟨ms, hrun, hms⟩ := hchunks.run opc
            refine ⟨_, .cons hreceive hrun, fun m hm => ?_⟩
            cases hm with
            | head => exact rfl
            | tail _ hm => exact hms m hm
          · obtain ⟨hresid, herr⟩ := Classical.not_imp.mp hzero
            by_cases hshort : resid.toNat ≤ 128
            · exact run_write_failed hp hok hresid hshort herr hx
            · exact absurd ⟨p, hp, (Store.prepare_ok_iff hw p _).mp hok,
                hborder.resolve_right hshort, Nat.not_le.mp hshort, herr⟩ hk
        · obtain ⟨hunaligned, hlong⟩ := not_or.mp hborder
          have hhangs := Stalls.hangs (calls_write_endless e junk runs buf append hp hok
            hunaligned (Nat.not_le.mp hlong))
          exact absurd hx hhangs.not_exchanges
      · obtain ⟨s', hends, hstate⟩ := (calls_write_refused e junk runs buf append hp hok).state hx
        cases hends
        have hprepare : s.prepare p ⟨opc, if append then 1 else 0, offset, resid.setWidth 64⟩ =
            s.prepared p offset resid := rfl
        rw [Store.handleWriteRequest_some hp, hprepare, if_pos hok] at hreceive
        rw [hstate]
        exact Gba.run_single hreceive rfl

end Calls

end WiiJoybus
