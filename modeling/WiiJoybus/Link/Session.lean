import WiiJoybus.Link.Read
import WiiJoybus.Link.Uninit

/-!
Whole sessions: operation after operation, in any order of steps of the two programs.

There is nothing on the wire that tells a command from a payload. The two programs
stay in step because each operation has a conversation that leaves the GBA in its
dispatcher. A write of several chunks has none when its first answer happens to
carry an error: the Wii gives up, and the GBA waits for the next chunk.
-/

namespace WiiJoybus
open ByteMemory StructLayout Dialogue Dialogue.Network

section Read

variable {s : Store}

theorem handleReadRequest_within (j : Junk) (req : ReadReq)
    (hbytes : (s.handleReadRequest j req).copylen ≠ 0) :
    req.offset.toNat + (s.handleReadRequest j req).copylen.toNat < 2 ^ 32 := by
  cases hp : s.findById req.fileid with
  | none =>
      simp only [Store.handleReadRequest, hp] at hbytes
      exact absurd rfl hbytes
  | some p =>
      by_cases hpast : req.offset > (s.entries p).file.datalen.setWidth 64
      · simp only [Store.handleReadRequest, hp, if_pos hpast] at hbytes
        exact absurd rfl hbytes
      · have hlt := (s.entries p).file.datalen.isLt
        have hwide : ((s.entries p).file.datalen.setWidth 64 : Word64).toNat =
            (s.entries p).file.datalen.toNat := widen_toNat _
        have hle := BitVec.not_lt.mp hpast
        have hblock : (pbaBlocksize 64).toNat = 128 := by decide
        simp only [Store.handleReadRequest, hp, if_neg hpast, BitVec.toNat_setWidth, min64_toNat,
          hblock, BitVec.toNat_sub_of_le hle]
        rw [BitVec.le_def, hwide] at hle
        omega

/-- The loop of READ ends, whatever the id and the offset are. -/
theorem readLoop_meets (e : Puffs) (junk : Nat → Junk) (s : Store) (l : ReadLoop) (runs : Nat) :
    ∃ r n, (link e junk).Meets linkCubeQueueSize (.ret (.inl (.read l)))
      (.ret (.inl ⟨⟨s, .dispatch⟩, runs⟩)) r ⟨⟨s, .dispatch⟩, n⟩ := by
  induction hm : 2 ^ 32 - l.offset.toNat using Nat.strong_induction_on generalizing l runs with
  | _ m ih =>
      by_cases hresid : l.resid = 0
      · refine ⟨.read 0 l.buf l.resid, runs, .client_loop ?_⟩
        change (link e junk).Meets linkCubeQueueSize (l.body e) _ _ _
        rw [ReadLoop.body, if_pos hresid]
        exact .done rfl
      · have hround := round_read e junk s runs hresid
        have hwithin := handleReadRequest_within (s := s) (junk runs) l.req
        generalize s.handleReadRequest (junk runs) l.req = resp at hround hwithin
        by_cases herr : resp.err = 0
        · by_cases hcopy : resp.copylen = 0
          · rw [ReadLoop.reply, if_neg (not_not.mpr herr), if_pos hcopy] at hround
            exact ⟨_, runs + 1, .client_loop (hround.meets (.done rfl))⟩
          · rw [ReadLoop.reply, if_neg (not_not.mpr herr), if_neg hcopy] at hround
            have hend := hwithin hcopy
            have hpos : 0 < resp.copylen.toNat :=
              Nat.pos_of_ne_zero fun hz => hcopy (BitVec.eq_of_toNat_eq hz)
            have hoff : (l.deliver e resp).offset.toNat =
                l.offset.toNat + resp.copylen.toNat := by
              change (l.offset + resp.copylen.setWidth 64).toNat = _
              rw [show l.req.offset = l.offset from rfl] at hend
              rw [BitVec.toNat_add, BitVec.toNat_setWidth]
              omega
            rw [show l.req.offset = l.offset from rfl] at hend
            obtain ⟨r, n, hn⟩ := ih _ (by omega) (l.deliver e resp) (runs + 1) rfl
            exact ⟨r, n, .client_loop (hround.meets hn)⟩
        · rw [ReadLoop.reply, if_pos herr] at hround
          exact ⟨_, runs + 1, .client_loop (hround.meets (.done rfl))⟩

end Read

/-- The operation leaves the GBA in the middle of a write: more than one chunk is to come, and
the word that answers the first one is not zero. -/
def Store.Derails (s : Store) (junk : Nat → Junk) (runs : Nat) : Operation → Prop
  | .write opc _ offset resid _ => ∃ p, s.findById opc = some p ∧
      s.Growable p offset (resid.setWidth 64) ∧ 128 ∣ offset.toNat ∧ 128 < resid.toNat ∧
      chunkErr junk runs ≠ 0
  | _ => False

section Talks

variable {s : Store} {junk : Nat → Junk} {runs : Nat}

theorem talks_write (hw : s.WellFormed) (e : Puffs) (opc : Word) (buf : Memory) (offset : Word64)
    (resid : Word) (append : Bool)
    (h : ¬ s.Derails junk runs (.write opc buf offset resid append)) :
    (link e junk).Talks linkCubeQueueSize ⟨⟨s, .dispatch⟩, runs⟩
      (nodeWrite e opc buf offset resid append) := by
  cases hp : s.findById opc with
  | none => exact (calls_write_missing e junk runs buf append hp).talks
  | some p =>
      by_cases hok : (s.prepared p offset resid).1 = 0
      · by_cases hresid : resid = 0
        · subst hresid
          exact (calls_write_empty e junk runs buf append hp hok).talks
        · by_cases hborder : 128 ∣ offset.toNat ∨ resid.toNat ≤ 128
          · by_cases herr : chunkErr junk runs = 0
            · obtain ⟨s', hc⟩ := calls_write_done e junk runs buf append hp hok hborder herr
              exact hc.talks
            · by_cases hshort : resid.toNat ≤ 128
              · obtain ⟨s', hc⟩ :=
                  calls_write_failed e junk runs buf append hp hok hresid hshort herr
                exact hc.talks
              · exact absurd ⟨p, hp, (Store.prepare_ok_iff hw p _).mp hok,
                  hborder.resolve_right hshort, Nat.not_le.mp hshort, herr⟩ h
          · obtain ⟨hunaligned, hlong⟩ := not_or.mp hborder
            exact (calls_write_endless e junk runs buf append hp hok hunaligned
              (Nat.not_le.mp hlong)).talks
      · exact (calls_write_refused e junk runs buf append hp hok).talks

/-- Every operation but a write that derails has a conversation. -/
theorem talks_of_not_derails (hw : s.WellFormed) (ht : s.Terminated) (e : Puffs) (ctx : Context)
    {op : Operation} (h : ¬ s.Derails junk runs op) :
    (link e junk).Talks linkCubeQueueSize ⟨⟨s, .dispatch⟩, runs⟩ (op.run e ctx) := by
  cases op with
  | statvfs => exact (calls_statvfs e junk s runs).talks
  | readdir opc dent readoff eofflag wanted =>
      exact (calls_readdir ht e junk runs opc dent readoff eofflag wanted).talks
  | lookup opc pni pcn => exact (calls_lookup e junk s runs opc pni pcn).talks
  | getattr opc vap => exact (calls_getattr e junk s runs opc vap).talks
  | create opc pni pcn vaType => exact (calls_create e junk s runs ctx opc pni pcn vaType).talks
  | mkdir opc pni pcn => exact (calls_mkdir e junk s runs ctx opc pni pcn).talks
  | write opc buf offset resid append => exact talks_write hw e opc buf offset resid append h
  | read opc buf offset resid =>
      obtain ⟨r, n, hm⟩ := readLoop_meets e junk s ⟨opc, offset, 0, buf, resid⟩ runs
      exact hm.talks
  | remove opc targ pcn => exact (calls_remove e junk s runs ctx opc targ pcn).talks
  | reclaim opc => exact (calls_reclaim e junk s runs ctx opc).talks
  | setattr opc vaSize =>
      by_cases hsend : vaSize ≠ puffsVnoval ∧ (ctx.cmap e opc).1.vaType = vreg
      · exact (calls_setattr e junk s runs ctx opc hsend.1 hsend.2).talks
      · rw [Operation.run, setattr_local e ctx opc hsend]
        exact Calls.talks (calls_finish _)

end Talks

abbrev LinkConfig := Config Word Heads Outs

/-- The GBA has just booted, and the Wii is between two operations. -/
def booted (s : Store) (r : Outcome) : LinkConfig where
  proc
    | wii => .ret (.inr r)
    | gba => .ret (.inl ⟨⟨s, .dispatch⟩, 0⟩)
  inbox _ := []

/-- Any operation, with any nodes on the Wii. -/
def AnyOperation (e : Puffs) (_ : GbaHead) (p : WiiProc) : Prop :=
  ∃ (ctx : Context) (op : Operation), p = op.run e ctx

/-- An operation that does not derail where the GBA is. -/
def KeptOperation (e : Puffs) (junk : Nat → Junk) (h : GbaHead) (p : WiiProc) : Prop :=
  ∃ (ctx : Context) (op : Operation), p = op.run e ctx ∧ ¬ h.state.store.Derails junk h.runs op

/-- The two sides are in step. -/
structure SessionOk (N : Network Word Heads Outs) (cfg : LinkConfig) : Prop where
  returned : ∀ r, cfg.proc wii = .ret (.inr r) →
    (∀ side, cfg.inbox side = []) ∧ N.Home (cfg.proc gba)
  notBlocked : ¬ ((∀ side, cfg.inbox side = []) ∧ ∀ side, ∃ k, cfg.proc side = .recv k)
  pending : ∀ side, (cfg.inbox side).length ≤ linkCubeQueueSize

section Session

variable {e : Puffs} {junk : Nat → Junk} {s : Store} {r : Outcome} {cfg : LinkConfig}

/-- The stores the GBA process gets to are those of the machine. -/
theorem holds_reachable (e : Puffs) (junk : Nat → Junk) :
    (link e junk).Holds fun h => h.state.Reachable where
  body _ hr := GbaHead.body_all (fun _ => hr) fun _ _ hm => .step hr hm
  home _ hh hwithin := GbaHead.of_body_all hh hwithin

theorem inStep_booted (s : Store) (r : Outcome) :
    (link e junk).InStep linkCubeQueueSize (booted s r) :=
  ⟨.client, .server, [], (booted s r).proc, rfl, rfl, .done _, .done _,
    Or.inl ⟨r, rfl, ⟨⟨s, .dispatch⟩, 0⟩, rfl, Or.inl (.done _)⟩, .nil _, fun _ x hx => by cases hx⟩

/-- However the steps of the two programs are interleaved, a session in which no write derails
stays in step. -/
theorem session_ok {rootGen testGen : Word64} (hboot : Store.boot rootGen testGen = some s)
    (h : (link e junk).Reach (KeptOperation e junk) (booted s r) cfg) :
    SessionOk (link e junk) cfg := by
  have hstart : Within (fun h : GbaHead => h.state.Reachable) ((booted s r).proc gba) :=
    Gba.Reachable.boot hboot
  have hin : (link e junk).InStep linkCubeQueueSize cfg := by
    refine h.inStep (holds_reachable e junk) hstart ?_ (inStep_booted s r)
    rintro ⟨⟨s', phase⟩, runs⟩ p hh hr ⟨ctx, op, rfl, hop⟩
    obtain rfl : phase = .dispatch := hh
    have hs' : s'.Reachable := ⟨_, hr⟩
    exact talks_of_not_derails hs'.wellFormed hs'.terminated e ctx hop
  exact ⟨fun _ hret => hin.returned hret, fun hb => hin.not_blocked hb.1 hb.2, hin.inbox_le⟩

/-- In the middle of a write the GBA is not in its dispatcher: it takes more than one word
before it is at a loop head again. -/
theorem not_home_of_writing {h : GbaHead} {w : Writing} (hphase : h.state.phase = .writing w) :
    ¬ (link e junk).Home (.ret (.inl h)) := by
  obtain ⟨k, hk, hmore⟩ : ∃ k, h.body junk = .recv k ∧ ∀ v, ∃ k', k v = .recv k' := by
    rw [GbaHead.body, hphase]
    exact ⟨_, rfl, fun v => ⟨_, rfl⟩⟩
  have hnone : Cmd.ofCode (bswap (0 : Word)) = none := by decide +kernel
  rintro ⟨d, hd, hf | hf⟩
  · cases hf with
    | done =>
        rw [show h.state.phase = .dispatch from hd] at hphase
        cases hphase
    | loop rest =>
        rw [show (link e junk).body gba h = .recv k from hk] at rest
        cases rest
  · obtain ⟨kd, hkd, hback⟩ : ∃ kd, d.body junk = .recv kd ∧
        ∀ v, Cmd.ofCode (bswap v) = none → kd v = .ret (.inl d) := by
      rw [GbaHead.body, show d.state.phase = .dispatch from hd]
      refine ⟨_, rfl, fun v hv => ?_⟩
      simp only [hv]
    rw [show (link e junk).body gba d = .recv kd from hkd] at hf
    cases hf with
    | loop rest =>
        rw [show (link e junk).body gba h = .recv k from hk] at rest
        cases rest with
        | done =>
            obtain ⟨k', hk'⟩ := hmore 0
            rw [hback 0 hnone] at hk'
            cases hk'

theorem derailed (hp : ∃ p, s.findById 2 = some p ∧ (s.prepared p 0 200).1 = 0) (r : Outcome) :
    ∃ cfg, (link .zero fun _ => .ones).Reach (AnyOperation .zero) (booted s r) cfg ∧
      ¬ SessionOk (link .zero fun _ => .ones) cfg := by
  obtain ⟨p, hp, hok⟩ := hp
  obtain ⟨c, hplays, hc⟩ := plays_write_failed .zero (fun _ => .ones) 0 (fun _ => 97) false hp hok
    (by decide) (Or.inl (by decide)) (show chunkErr (fun _ => .ones) 0 ≠ 0 by decide +kernel)
  have hnext : Writing.next ⟨p, c.offset, c.resid, (Junk.ones.uninit : WriteBufResp)⟩ =
      .writing ⟨p, c.offset, c.resid, Junk.ones.uninit⟩ := by
    refine if_neg fun hz => ?_
    rw [show c.resid = 0 from hz] at hc
    exact absurd hc (by decide)
  have hstart : (link .zero fun _ => .ones).Reach (AnyOperation .zero) (booted s r)
      ((booted s r).start (nodeWrite .zero 2 (fun _ => 97) 0 200 false)) :=
    .start .refl rfl fun _ _ _ => ⟨[], .write 2 (fun _ => 97) 0 200 false, rfl⟩
  obtain ⟨cfg, hreach, hclient, hserver, _⟩ := hplays.reach hstart fun _ => rfl
  refine ⟨cfg, hreach, fun hok => ?_⟩
  have hhome := (hok.returned _ hclient).2
  rw [hserver] at hhome
  exact not_home_of_writing hnext hhome

end Session

theorem boot_writable : ∃ s, Store.boot 0 0 = some s ∧
    ∃ p, s.findById 2 = some p ∧ (s.prepared p 0 200).1 = 0 := by
  obtain ⟨g, hg, hfacts⟩ := Option.map_eq_some_iff.mp
    (show (bootRun []).map (fun g => decide (g.store.findById 2 = some testSlot ∧
      (g.store.prepared testSlot 0 200).1 = 0)) = some true by decide +kernel)
  obtain ⟨s, hs, rfl⟩ := bootRun_nil hg
  exact ⟨s, hs, testSlot, of_decide_eq_true hfacts⟩

/-- A write of two chunks with zeros on the stack. -/
theorem session_ok_write : ∃ s cfg, Store.boot 0 0 = some s ∧
    (link .zero fun _ => .zero).Reach (KeptOperation .zero fun _ => .zero)
      (booted s (.write 0 0)) cfg ∧ cfg.proc wii = .ret (.inr (.write 0 0)) ∧
    SessionOk (link .zero fun _ => .zero) cfg := by
  obtain ⟨s, hs, p, hp, hok⟩ := boot_writable
  have herr : ∀ n, chunkErr (fun _ => .zero) n = 0 := by
    intro n
    change ((Junk.zero.uninit : WriteBufResp)).err = 0
    decide +kernel
  obtain ⟨s', n, hmeets⟩ := calls_write_done .zero (fun _ => .zero) 0 (fun _ => 97) false hp hok
    (Or.inl (by decide)) (herr 0)
  have hstart : (link .zero fun _ => .zero).Reach (KeptOperation .zero fun _ => .zero)
      (booted s (.write 0 0))
      ((booted s (.write 0 0)).start (nodeWrite .zero 2 (fun _ => 97) 0 200 false)) := by
    refine .start .refl rfl fun d _ _ => ⟨[], .write 2 (fun _ => 97) 0 200 false, rfl, ?_⟩
    rintro ⟨_, _, _, _, _, hne⟩
    exact hne (herr d.runs)
  obtain ⟨cfg, hreach, hclient, _, _⟩ := hmeets.plays.reach hstart fun _ => rfl
  exact ⟨s, cfg, hs, hreach, hclient, session_ok hs hreach⟩

/-- The same write with ones on the stack: the Wii is done after one chunk, the GBA is not. -/
theorem session_counterexample : ∃ s, Store.boot 0 0 = some s ∧
    ∃ cfg, (link .zero fun _ => .ones).Reach (AnyOperation .zero) (booted s (.write 0 0)) cfg ∧
      ¬ SessionOk (link .zero fun _ => .ones) cfg := by
  obtain ⟨s, hs, hwrite⟩ := boot_writable
  exact ⟨s, hs, derailed hwrite (.write 0 0)⟩

end WiiJoybus
