import WiiJoybus.Link.DriverProgress

/-!
The file system over the driver.

The results of `Link/Session.lean` are about lossless channels. They carry over to the
driver of the GBA and its three queues, whatever the order of the GBA's accesses, of the
interrupts and of the polls of the Wii is.
-/

namespace WiiJoybus
open ByteMemory StructLayout Dialogue Dialogue.Network Interrupt RingBuffer

section Program

variable {e : Puffs} {junk : Nat → Junk}

theorem link_polled (e : Puffs) (junk : Nat → Junk) : Polled (link e junk) where
  idle_zero := by
    change (joybus 0 == 0) = true
    decide +kernel
  heard _ := rfl

theorem plain_doReceive : doReceive.Plain := fun _ => trivial

theorem plain_receiveLoop (me : Side) (sz left i : Nat) (inWord : Word) (carry : Nat)
    (b : Memory) : (receiveLoop me sz left i inWord carry b).Plain := by
  induction left generalizing i inWord carry b with
  | zero => exact trivial
  | succ left ih =>
      refine plain_doReceive.bind fun recv => ?_
      dsimp only
      split
      · split
        · exact plain_doReceive.bind fun recv => ih _ _ _ _
        · exact ih _ _ _ _
      · exact ih _ _ _ _

theorem plain_receiveStruct {α : Type} [CStruct α] (me : Side) (uninit : Memory) :
    (receiveStruct me uninit : Proc Word α).Plain :=
  (plain_doReceive.bind fun _ => plain_receiveLoop me _ _ _ _ _ _).bind fun _ => trivial

theorem plain_reply {α : Type} [CStruct α] (uninit : Memory) (resp : α) (h : GbaHead) :
    (sendStruct gba uninit resp >>= fun _ => .ret (.inl h) : GbaProc).Plain := by
  rw [sendStruct_eq]
  exact (Proc.plain_sendAll _).bind fun _ => trivial

theorem plain_answer {α β : Type} [CStruct α] [CStruct β] (j : Junk) (runs : Nat)
    (sswap : α → α) (handle : α → Option (β × Gba)) : (answer j runs sswap handle).Plain := by
  refine (plain_receiveStruct gba j.stack).bind fun req => ?_
  cases handle (sswap req) with
  | none => exact trivial
  | some r => exact plain_reply j.stack r.1 _

theorem Store.plain_switch (s : Store) (j : Junk) (runs : Nat) (cmd : Cmd) :
    (s.switch j runs cmd).Plain := by
  cases cmd with
  | statvfs => exact plain_reply _ _ _
  | readdir | lookup | getattr | create | write | read | mkdir | rm | reclaim | setsize =>
      rw [Store.switch]
      exact plain_answer _ _ _ _

theorem GbaHead.plain_body (junk : Nat → Junk) (h : GbaHead) : (h.body junk).Plain := by
  rw [GbaHead.body]
  cases h.state.phase with
  | writing w => exact plain_answer _ _ _ _
  | dispatch =>
      intro w
      cases hcmd : Cmd.ofCode (bswap w) with
      | none => simp only [hcmd, Proc.Plain]
      | some cmd => simp only [hcmd, Store.plain_switch]

end Program

section Operations

variable {e : Puffs} {junk : Nat → Junk} {s : Store} {runs : Nat} {p : WiiProc}

theorem Calls.called {ends : Option (Outcome × Store)} (hc : Calls e junk s runs p ends) :
    Called (link e junk) linkCubeQueueSize ⟨⟨s, .dispatch⟩, runs⟩ p := by
  cases ends with
  | none => exact Or.inr hc
  | some a =>
      obtain ⟨n, hn⟩ := hc
      exact Or.inl ⟨_, _, hn⟩

theorem called_write (hw : s.WellFormed) (e : Puffs) (opc : Word) (buf : Memory)
    (offset : Word64) (resid : Word) (append : Bool)
    (h : ¬ s.Derails junk runs (.write opc buf offset resid append)) :
    Called (link e junk) linkCubeQueueSize ⟨⟨s, .dispatch⟩, runs⟩
      (nodeWrite e opc buf offset resid append) := by
  cases hp : s.findById opc with
  | none => exact (calls_write_missing e junk runs buf append hp).called
  | some p =>
      by_cases hok : (s.prepared p offset resid).1 = 0
      · by_cases hresid : resid = 0
        · subst hresid
          exact (calls_write_empty e junk runs buf append hp hok).called
        · by_cases hborder : 128 ∣ offset.toNat ∨ resid.toNat ≤ 128
          · by_cases herr : chunkErr junk runs = 0
            · obtain ⟨s', hc⟩ := calls_write_done e junk runs buf append hp hok hborder herr
              exact hc.called
            · by_cases hshort : resid.toNat ≤ 128
              · obtain ⟨s', hc⟩ :=
                  calls_write_failed e junk runs buf append hp hok hresid hshort herr
                exact hc.called
              · exact absurd ⟨p, hp, (Store.prepare_ok_iff hw p _).mp hok,
                  hborder.resolve_right hshort, Nat.not_le.mp hshort, herr⟩ h
          · obtain ⟨hunaligned, hlong⟩ := not_or.mp hborder
            exact (calls_write_endless e junk runs buf append hp hok hunaligned
              (Nat.not_le.mp hlong)).called
      · exact (calls_write_refused e junk runs buf append hp hok).called

/-- Every operation but a write that derails ends, or waits for a handler that does not. -/
theorem called_of_not_derails (hw : s.WellFormed) (ht : s.Terminated) (e : Puffs)
    (ctx : Context) {op : Operation} (h : ¬ s.Derails junk runs op) :
    Called (link e junk) linkCubeQueueSize ⟨⟨s, .dispatch⟩, runs⟩ (op.run e ctx) := by
  cases op with
  | statvfs => exact (calls_statvfs e junk s runs).called
  | readdir opc dent readoff eofflag wanted =>
      exact (calls_readdir ht e junk runs opc dent readoff eofflag wanted).called
  | lookup opc pni pcn => exact (calls_lookup e junk s runs opc pni pcn).called
  | getattr opc vap => exact (calls_getattr e junk s runs opc vap).called
  | create opc pni pcn vaType => exact (calls_create e junk s runs ctx opc pni pcn vaType).called
  | mkdir opc pni pcn => exact (calls_mkdir e junk s runs ctx opc pni pcn).called
  | write opc buf offset resid append => exact called_write hw e opc buf offset resid append h
  | read opc buf offset resid =>
      obtain ⟨r, n, hm⟩ := readLoop_meets e junk s ⟨opc, offset, 0, buf, resid⟩ runs
      exact Or.inl ⟨_, _, hm⟩
  | remove opc targ pcn => exact (calls_remove e junk s runs ctx opc targ pcn).called
  | reclaim opc => exact (calls_reclaim e junk s runs ctx opc).called
  | setattr opc vaSize =>
      by_cases hsend : vaSize ≠ puffsVnoval ∧ (ctx.cmap e opc).1.vaType = vreg
      · exact (calls_setattr e junk s runs ctx opc hsend.1 hsend.2).called
      · rw [Operation.run, setattr_local e ctx opc hsend]
        exact Calls.called (calls_finish _)

theorem called_of_kept (h : GbaHead) (p : WiiProc) (hh : (link e junk).home h)
    (hr : h.state.Reachable) (hk : KeptOperation e junk h p) :
    Called (link e junk) linkCubeQueueSize h p := by
  obtain ⟨⟨s, phase⟩, runs⟩ := h
  obtain ⟨ctx, op, rfl, hop⟩ := hk
  obtain rfl : phase = .dispatch := hh
  have hs : s.Reachable := ⟨_, hr⟩
  exact called_of_not_derails hs.wellFormed hs.terminated e ctx hop

end Operations

abbrev DriverConfig := Driven Heads Outs linkCubeQueueSize

/-- The GBA has activated the driver and is at its dispatcher. -/
def started (s : Store) (r : Outcome) : DriverConfig where
  client := .ret (.inr r)
  thread := .ret (.ret (.inl ⟨⟨s, .dispatch⟩, 0⟩))
  cube := LinkCube.initial.activate

/-- The two sides are in step, driver included. -/
structure DriverOk (N : Network Word Heads Outs) (d : DriverConfig) : Prop where
  /-- Nothing is left in the driver when an operation has returned, and the GBA is in its
  dispatcher. -/
  returned : ∀ r, d.client = .ret (.inr r) → Rested d.cube [] [] ∧ N.Home d.goesOn
  /-- No word has been dropped. -/
  overflow : d.cube.newIncomingQueue.ring.overflow = false
  /-- When both sides wait and two polls have found nothing, the GBA finds a word. -/
  alive : ∀ k k', d.client = .recv k → d.thread = .ret (.recv k') →
    N.idle wii (N.wire d.cube.joyTrans) = true →
    N.idle wii (N.wire d.cube.sent.joyTrans) = true → d.cube.sent.incomingQueue.isEmpty = false

section Runs

variable {e : Puffs} {junk : Nat → Junk} {s : Store} {r : Outcome} {d d' : DriverConfig}
variable {cfg : LinkConfig} {inc out : List Word}
variable {rootGen testGen : Word64}

theorem rested_started (s : Store) (r : Outcome) : Rested (started s r).cube [] [] where
  free := ⟨rfl, rfl⟩
  held :=
    ⟨rfl, rfl, rfl, rfl, rfl, fun _ => Ring.holds_clear (by decide) _,
      fun _ => Ring.holds_clear (by decide) _, ⟨[], Ring.holds_clear (by decide) _, rfl⟩, rfl⟩

theorem shows_started (s : Store) (r : Outcome) :
    Shows (link e junk) (started s r) (booted s r) [] [] where
  client := rfl
  stage := .between (rested_started s r).free
  held := (rested_started s r).held

theorem inStep_of_reach (hboot : Store.boot rootGen testGen = some s)
    (h : (link e junk).Reach (KeptOperation e junk) (booted s r) cfg) :
    (link e junk).InStep linkCubeQueueSize cfg := by
  have hstart : Within (fun h : GbaHead => h.state.Reachable) ((booted s r).proc gba) :=
    Gba.Reachable.boot hboot
  refine h.inStep (holds_reachable e junk) hstart ?_ (inStep_booted s r)
  rintro ⟨⟨s', phase⟩, runs⟩ p hh hr ⟨ctx, op, rfl, hop⟩
  obtain rfl : phase = .dispatch := hh
  have hs' : s'.Reachable := ⟨_, hr⟩
  exact talks_of_not_derails hs'.wellFormed hs'.terminated e ctx hop

theorem shows_of_driverReach (hboot : Store.boot rootGen testGen = some s)
    (h : DriverReach (link e junk) (KeptOperation e junk) (started s r) d) :
    ∃ cfg inc out, (link e junk).Reach (KeptOperation e junk) (booted s r) cfg ∧
      Shows (link e junk) d cfg inc out :=
  h.shows (link_polled e junk) (Nat.le_refl _) (fun _ hreach => inStep_of_reach hboot hreach)
    (shows_started s r)

theorem Shows.ok (h : Shows (link e junk) d cfg inc out)
    (hin : (link e junk).InStep linkCubeQueueSize cfg) : DriverOk (link e junk) d where
  returned _ hr := by
    obtain ⟨hf, hgoes⟩ := h.returned hin hr
    obtain ⟨hempty, hhome⟩ := hin.returned (h.client.trans hr)
    have hheld := h.held
    rw [hempty, hempty, List.map_nil] at hheld
    obtain ⟨_, _, hins⟩ := hheld.ins_eq
    obtain rfl := (List.append_eq_nil_iff.mp hins.symm).1
    obtain rfl := (List.append_eq_nil_iff.mp hheld.outs_eq.symm).2
    exact ⟨⟨hf, hheld⟩, hgoes ▸ hhome⟩
  overflow := h.held.overflow
  alive _ _ hk hk' := h.alive hin (Nat.le_refl _) (link_polled e junk) hk hk'

theorem serial_of_driverSession {ops : List (WiiProc × Outcome)}
    (hboot : Store.boot rootGen testGen = some s)
    (hkept : (link e junk).AllowedAlong (KeptOperation e junk) ⟨⟨s, .dispatch⟩, 0⟩ ops)
    (hd : DriverSession (link e junk) (started s r) ops d) :
    ∃ h, (link e junk).Serial ⟨⟨s, .dispatch⟩, 0⟩ ops h := by
  have hquiet : (link e junk).Quiet ⟨⟨s, .dispatch⟩, 0⟩ (booted s r) :=
    ⟨fun _ => rfl, rfl, Or.inl (.done _)⟩
  obtain ⟨h', _, _, _, hserial, _⟩ := hd.serial (link_polled e junk) (Nat.le_refl _)
    (holds_reachable e junk) called_of_kept (shows_started s r) hquiet (Gba.Reachable.boot hboot)
    hkept
  exact ⟨h', hserial⟩

theorem driverSession_of_serial {ops : List (WiiProc × Outcome)} {h : GbaHead}
    (hboot : Store.boot rootGen testGen = some s)
    (hkept : (link e junk).AllowedAlong (KeptOperation e junk) ⟨⟨s, .dispatch⟩, 0⟩ ops)
    (hserial : (link e junk).Serial ⟨⟨s, .dispatch⟩, 0⟩ ops h) :
    ∃ d, DriverSession (link e junk) (started s r) ops d :=
  Serial.driverSession (link_polled e junk) (by decide) (holds_reachable e junk)
    (GbaHead.plain_body junk) called_of_kept hserial rfl (Gba.Reachable.boot hboot) hkept
    (rested_started s r)

theorem driverReach_exchanges {p : WiiProc} {r' : Outcome} {h' : GbaHead}
    (hboot : Store.boot rootGen testGen = some s) (hkept : ∀ h, KeptOperation e junk h p)
    (hx : (link e junk).Exchanges p ⟨⟨s, .dispatch⟩, 0⟩ r' h') :
    ∃ d, DriverReach (link e junk) (KeptOperation e junk) (started s r) d ∧
      d.client = .ret (.inr r') := by
  have hr : (⟨s, .dispatch⟩ : Gba).Reachable := .boot hboot
  obtain ⟨cube', hsteps, _⟩ := (rested_started s r).exchanges (link_polled e junk) (by decide)
    (GbaHead.plain_body junk) (called_of_kept ⟨⟨s, .dispatch⟩, 0⟩ p rfl hr (hkept _)) hx
  have hstart : DriverReach (link e junk) (KeptOperation e junk) (started s r)
      { started s r with client := p } := .start .refl rfl fun h _ _ => hkept h
  exact ⟨_, hstart.steps hsteps, rfl⟩

/-- The boot and a write of two chunks, with zeros on the stack. -/
theorem written_twice : ∃ s n s', Store.boot 0 0 = some s ∧
    (∀ h : GbaHead, KeptOperation .zero (fun _ => .zero) h
      (nodeWrite .zero 2 (fun _ => 97) 0 200 false)) ∧
    (link .zero fun _ => .zero).Exchanges (nodeWrite .zero 2 (fun _ => 97) 0 200 false)
      ⟨⟨s, .dispatch⟩, 0⟩ (.write 0 0) ⟨⟨s', .dispatch⟩, n⟩ := by
  obtain ⟨s, hs, p, hp, hok⟩ := boot_writable
  have herr : ∀ n, chunkErr (fun _ => .zero) n = 0 := by
    intro n
    change ((Junk.zero.uninit : WriteBufResp)).err = 0
    decide +kernel
  obtain ⟨s', hc⟩ := calls_write_done .zero (fun _ => .zero) 0 (fun _ => 97) false hp hok
    (Or.inl (by decide)) (herr 0)
  obtain ⟨n, hx⟩ := hc.exchanges
  refine ⟨s, n, s', hs, fun h => ⟨[], .write 2 (fun _ => 97) 0 200 false, rfl, ?_⟩, hx⟩
  rintro ⟨_, _, _, _, _, hne⟩
  exact hne (herr h.runs)

theorem driverReach_write : ∃ (s : Store) (d : DriverConfig), Store.boot 0 0 = some s ∧
    DriverReach (link .zero fun _ => .zero) (KeptOperation .zero fun _ => .zero)
      (started s (.write 0 0)) d ∧ d.client = .ret (.inr (.write 0 0)) := by
  obtain ⟨s, n, s', hs, hkept, hx⟩ := written_twice
  obtain ⟨d, hreach, hd⟩ := driverReach_exchanges (r := .write 0 0) hs hkept hx
  exact ⟨s, d, hs, hreach, hd⟩

/-- A run with the driver in which no operation derails is a run on lossless channels. -/
theorem driver_refines (hboot : Store.boot rootGen testGen = some s)
    (h : DriverReach (link e junk) (KeptOperation e junk) (started s r) d) :
    ∃ cfg inc out, (link e junk).Reach (KeptOperation e junk) (booted s r) cfg ∧
      Shows (link e junk) d cfg inc out :=
  shows_of_driverReach hboot h

theorem driver_refines_write : ∃ (s : Store) (d : DriverConfig), Store.boot 0 0 = some s ∧
    d.client = .ret (.inr (.write 0 0)) ∧ ∃ cfg inc out, (link .zero fun _ => .zero).Reach
      (KeptOperation .zero fun _ => .zero) (booted s (.write 0 0)) cfg ∧
      Shows (link .zero fun _ => .zero) d cfg inc out := by
  obtain ⟨s, d, hs, hreach, hd⟩ := driverReach_write
  exact ⟨s, d, hs, hd, driver_refines hs hreach⟩

/-- However the accesses, the interrupts and the polls are interleaved, the two sides stay in
step as long as no operation derails. -/
theorem driver_ok (hboot : Store.boot rootGen testGen = some s)
    (h : DriverReach (link e junk) (KeptOperation e junk) (started s r) d) :
    DriverOk (link e junk) d := by
  obtain ⟨cfg, inc, out, hreach, hshows⟩ := shows_of_driverReach hboot h
  exact hshows.ok (inStep_of_reach hboot hreach)

theorem driver_ok_write : ∃ (s : Store) (d : DriverConfig), Store.boot 0 0 = some s ∧
    d.client = .ret (.inr (.write 0 0)) ∧ DriverOk (link .zero fun _ => .zero) d := by
  obtain ⟨s, d, hs, hreach, hd⟩ := driverReach_write
  exact ⟨s, d, hs, hd, driver_ok hs hreach⟩

/-- From every state of such a run an operation can still be brought to its end, unless the GBA
is in a loop that it does not leave. -/
theorem driver_finishes (hboot : Store.boot rootGen testGen = some s)
    (h : DriverReach (link e junk) (KeptOperation e junk) (started s r) d) :
    ∃ d', DriverSteps (link e junk) d d' ∧
      ((∃ r', d'.client = .ret (.inr r')) ∨ d'.thread = .ret .halt) := by
  obtain ⟨cfg, inc, out, hreach, hshows⟩ := shows_of_driverReach hboot h
  have hplain := hreach.plain (GbaHead.plain_body junk) trivial
  obtain ⟨ends, cube', hfinal, hs, _⟩ := hshows.finish (link_polled e junk) (Nat.le_refl _)
    (by decide) (GbaHead.plain_body junk) (inStep_of_reach hboot hreach) hplain
  refine ⟨_, hs, ?_⟩
  rcases hfinal with ⟨r', hr, _⟩ | ⟨_, _, hhalt⟩
  · exact Or.inl ⟨r', hr⟩
  · exact Or.inr (congrArg Code.ret hhalt)

theorem driver_finishes_write : ∃ (s : Store) (d' : DriverConfig), Store.boot 0 0 = some s ∧
    DriverSteps (link .zero fun _ => .zero) { started s (.write 0 0) with
      client := nodeWrite .zero 2 (fun _ => 97) 0 200 false } d' ∧
    ((∃ r, d'.client = .ret (.inr r)) ∨ d'.thread = .ret .halt) := by
  obtain ⟨s, _, _, hs, hkept, _⟩ := written_twice
  obtain ⟨d', h⟩ := driver_finishes (e := .zero) (r := .write 0 0) hs
    (.start .refl rfl fun h _ _ => hkept h)
  exact ⟨s, d', hs, h⟩

/-- The sessions of the Wii with the driver in which no operation derails are those in which
each operation is one indivisible step. -/
theorem driver_linearizes {ops : List (WiiProc × Outcome)}
    (hboot : Store.boot rootGen testGen = some s)
    (hkept : (link e junk).AllowedAlong (KeptOperation e junk) ⟨⟨s, .dispatch⟩, 0⟩ ops) :
    (∃ d, DriverSession (link e junk) (started s r) ops d) ↔
      ∃ h, (link e junk).Serial ⟨⟨s, .dispatch⟩, 0⟩ ops h :=
  ⟨fun ⟨_, hd⟩ => serial_of_driverSession hboot hkept hd,
    fun ⟨_, hserial⟩ => driverSession_of_serial hboot hkept hserial⟩

theorem driver_linearizes_write : ∃ (s : Store) (d : DriverConfig), Store.boot 0 0 = some s ∧
    DriverSession (link .zero fun _ => .zero) (started s (.write 0 0))
      [(nodeWrite .zero 2 (fun _ => 97) 0 200 false, .write 0 0)] d := by
  obtain ⟨s, n, s', hs, hkept, hx⟩ := written_twice
  have hallowed : (link .zero fun _ => .zero).AllowedAlong (KeptOperation .zero fun _ => .zero)
      ⟨⟨s, .dispatch⟩, 0⟩ [(nodeWrite .zero 2 (fun _ => 97) 0 200 false, .write 0 0)] :=
    ⟨hkept _, fun _ _ => trivial⟩
  obtain ⟨d, hd⟩ := (driver_linearizes (r := .write 0 0) hs hallowed).mpr
    ⟨⟨⟨s', .dispatch⟩, n⟩, .cons hx (.nil _)⟩
  exact ⟨s, d, hs, hd⟩

end Runs

end WiiJoybus
