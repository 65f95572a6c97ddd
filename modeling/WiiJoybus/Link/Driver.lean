import WiiJoybus.Gba.LinkCube
import WiiJoybus.Link.Session

/-!
The link with its driver.

The GBA's program is played access by access against the driver, and every word the
Wii writes or polls is an interrupt that may come in between. A run of this is a run
of the two programs on lossless channels: a channel is what the queues and the port
hold together.
-/

namespace WiiJoybus
open Dialogue Dialogue.Network Interrupt RingBuffer

variable {Head Out : Side → Type} {size : Nat}

abbrev Thread (Head Out : Side → Type) (size : Nat) :=
  Code (LinkCube size) (Proc Word (Head gba ⊕ Out gba))

structure Driven (Head Out : Side → Type) (size : Nat) where
  client : Proc Word (Head wii ⊕ Out wii)
  /-- The rest of the call the GBA is in; it returns what the program goes on with. -/
  thread : Thread Head Out size
  cube : LinkCube size

/-- The call a program makes next. `do_receive` looks for a word until there is one. -/
def perform (N : Network Word Head Out) : Proc Word (Head gba ⊕ Out gba) → Thread Head Out size
  | .send w k => do
      LinkCube.send w
      return k
  | .recv k => do
      if (← LinkCube.canRead) then
        return k (← LinkCube.read)
      else return .recv k
  | .ret (.inl h) => .ret (N.body gba h)
  | p => .ret p

/-- One step: a transfer that the Wii starts, with the interrupt it causes, or one access of
the GBA's program. So the interrupt of a transfer is served before the next transfer. -/
inductive DriverStep (N : Network Word Head Out) :
    Driven Head Out size → Driven Head Out size → Prop where
  | write {w k thread cube} : DriverStep N ⟨.send w k, thread, cube⟩
      ⟨k, thread, cube.receive (N.wire w)⟩
  | poll {k thread cube} : DriverStep N ⟨.recv k, thread, cube⟩
      ⟨if N.idle wii (N.wire cube.joyTrans) then .recv k else k (N.wire cube.joyTrans),
        thread, cube.sent⟩
  | clear {k thread cube} : DriverStep N ⟨.clear k, thread, cube⟩
      ⟨if N.idle wii (N.wire cube.joyTrans) then k else .clear k, thread, cube.sent⟩
  | loop {h thread cube} : DriverStep N ⟨.ret (.inl h), thread, cube⟩ ⟨N.body wii h, thread, cube⟩
  | access {client thread thread' cube cube'} (h : Interrupt.Step thread cube thread' cube') :
      DriverStep N ⟨client, thread, cube⟩ ⟨client, thread', cube'⟩
  | next {client p cube} : DriverStep N ⟨client, .ret p, cube⟩ ⟨client, perform N p, cube⟩

def Driven.goesOn (d : Driven Head Out size) : Proc Word (Head gba ⊕ Out gba) :=
  (d.thread.run d.cube).1

/-- The runs in which every operation the Wii starts is allowed where the GBA is. -/
inductive DriverReach (N : Network Word Head Out)
    (allowed : Head gba → Proc Word (Head wii ⊕ Out wii) → Prop)
    (d₀ : Driven Head Out size) : Driven Head Out size → Prop where
  | refl : DriverReach N allowed d₀ d₀
  | step {d d'} (h : DriverReach N allowed d₀ d) (hs : DriverStep N d d') :
      DriverReach N allowed d₀ d'
  | start {d r p} (h : DriverReach N allowed d₀ d) (hr : d.client = .ret (.inr r))
      (ha : ∀ l, N.home l → N.AtHome l d.goesOn → allowed l p) :
      DriverReach N allowed d₀ { d with client := p }

theorem DriverReach.steps {N : Network Word Head Out}
    {allowed : Head gba → Proc Word (Head wii ⊕ Out wii) → Prop} {d₀ d d' : Driven Head Out size}
    (h : DriverReach N allowed d₀ d) (hs : Relation.ReflTransGen (DriverStep N) d d') :
    DriverReach N allowed d₀ d' := by
  induction hs with
  | refl => exact h
  | tail _ hstep ih => exact .step ih hstep

/-- `Stage N c inc out code p`: the program is at `code`. Seen from outside it is at `p`. -/
inductive Stage (N : Network Word Head Out) (c : LinkCube size) (inc out : List Word) :
    Thread Head Out size → Proc Word (Head gba ⊕ Out gba) → Prop where
  | between {p} (h : Free c) : Stage N c inc out (.ret p) p
  | sends {w k} (h : Free c) : Stage N c inc out (perform N (.send w k)) (.send w k)
  | enabled {w k} (h : Free c) : Stage N c inc out
      (Queue.syncPush LinkCube.outgoingPart w >>= fun _ => .ret k) (.send w k)
  | pushing {w k} {r : Code (Ring Word size) Unit} (hr : c.incomingQueue.isReading = false)
      (hw : c.outgoingQueue.isWriting = true)
      (hring : (r.run c.outgoingQueue.ring).2.Holds (out ++ [w])) : Stage N c inc out
      (r.on outgoingRing >>= fun _ =>
        .write (fun c => { c with outgoingQueue := { c.outgoingQueue with isWriting := false } })
          (Queue.clearLate LinkCube.outgoingPart >>= fun _ => .ret k)) (.send w k)
  | pushed {k} (h : Free c) : Stage N c inc out
      (Queue.clearLate LinkCube.outgoingPart >>= fun _ => .ret k) k
  | receives {k} (h : Free c) : Stage N c inc out (perform N (.recv k)) (.recv k)
  | ready {k} (h : Free c) (hinc : inc ≠ []) : Stage N c inc out
      (LinkCube.read >>= fun v => .ret (k v)) (.recv k)
  | popping {k v rest} {r : Code (Ring Word size) Word} (hr : c.incomingQueue.isReading = true)
      (hw : c.outgoingQueue.isWriting = false) (hinc : inc = v :: rest)
      (hvalue : (r.run c.incomingQueue.ring).1 = v)
      (hring : (r.run c.incomingQueue.ring).2.Holds rest) : Stage N c inc out
      (r.on incomingRing >>= fun v =>
        .write (fun c => { c with incomingQueue := { c.incomingQueue with isReading := false } })
          (.ret (k v))) (.recv k)

section Put

variable {c : LinkCube size} {inc out ins outs : List Word}

theorem LinkCube.Held.put_outgoing (h : c.Held inc out ins outs)
    (hw : c.outgoingQueue.isWriting = true) (t : Ring Word size) :
    (outgoingRing.put t c).Held inc out ins outs :=
  ⟨h.isEnabled, h.needsClear, h.outgoingClear, h.joyCnt, h.overflow, h.incoming,
    fun hfree => absurd (hw.symm.trans hfree) (by decide), h.ins_eq, h.outs_eq⟩

theorem LinkCube.Held.put_incoming (h : c.Held inc out ins outs)
    (hr : c.incomingQueue.isReading = true) (t : Ring Word size) :
    (incomingRing.put t c).Held inc out ins outs :=
  ⟨h.isEnabled, h.needsClear, h.outgoingClear, h.joyCnt, h.overflow,
    fun hfree => absurd (hr.symm.trans hfree) (by decide), h.outgoing, h.ins_eq, h.outs_eq⟩

end Put

section Calls

variable {N : Network Word Head Out} {c c' : LinkCube size} {inc out ins outs : List Word}
variable {code code' : Thread Head Out size} {p : Proc Word (Head gba ⊕ Out gba)}

theorem perform_send (w : Word) (k : Proc Word (Head gba ⊕ Out gba)) :
    (perform N (.send w k) : Thread Head Out size) = .read fun c =>
      if c.isEnabled then Queue.syncPush LinkCube.outgoingPart w >>= fun _ => .ret k
      else .ret k := by
  refine congrArg Code.read (funext fun c => ?_)
  change Code.bind (if (!c.isEnabled) = true then _ else _) _ = _
  cases c.isEnabled <;> rfl

theorem perform_recv (k : Word → Proc Word (Head gba ⊕ Out gba)) :
    (perform N (.recv k) : Thread Head Out size) = .read fun c =>
      if c.incomingQueue.isEmpty then .ret (.recv k)
      else LinkCube.read >>= fun v => .ret (k v) := by
  refine congrArg Code.read (funext fun c => ?_)
  change (if (!c.incomingQueue.isEmpty) = true then _ else _) = _
  cases c.incomingQueue.isEmpty <;> rfl

theorem Stage.spared (h : Stage N c inc out code p) (hs : LinkCube.Spared c c')
    (ins' out₁ : List Word) (hins : inc ≠ [] → ins' ≠ []) :
    Stage N c' (if c.incomingQueue.isReading then inc else ins')
      (if c.outgoingQueue.isWriting then out else out₁) code p := by
  cases h with
  | between hf => exact .between (hf.spared hs)
  | sends hf => exact .sends (hf.spared hs)
  | enabled hf => exact .enabled (hf.spared hs)
  | pushed hf => exact .pushed (hf.spared hs)
  | receives hf => exact .receives (hf.spared hs)
  | ready hf hinc =>
      refine .ready (hf.spared hs) ?_
      rw [hf.isReading]
      exact hins hinc
  | pushing hr hw hring =>
      refine .pushing (hs.isReading.trans hr) (hs.isWriting.trans hw) ?_
      rw [hs.outgoing hw, hw]
      exact hring
  | popping hr hw hinc hvalue hring =>
      rw [← hs.incoming hr] at hvalue hring
      rw [if_pos hr]
      exact .popping (hs.isReading.trans hr) (hs.isWriting.trans hw) hinc hvalue hring

/-- What one access of the program amounts to: nothing, a word sent or a word received. -/
inductive Access (N : Network Word Head Out) (c' : LinkCube size) (code' : Thread Head Out size)
    (ins outs : List Word) : Proc Word (Head gba ⊕ Out gba) → Prop where
  | silent {q} (inc out) (hh : c'.Held inc out ins outs) (hs : Stage N c' inc out code' q) :
      Access N c' code' ins outs q
  | send {w k} (inc out) (hh : c'.Held inc out ins (outs ++ [w]))
      (hs : Stage N c' inc out code' k) : Access N c' code' ins outs (.send w k)
  | recv {v rest k} (inc out) (hins : ins = v :: rest) (hh : c'.Held inc out rest outs)
      (hs : Stage N c' inc out code' (k v)) : Access N c' code' ins outs (.recv k)

theorem Stage.access (h : Stage N c inc out code p) (hh : c.Held inc out ins outs)
    (hroom : ∀ w k, p = .send w k → outs.length < size)
    (hstep : Interrupt.Step code c code' c') : Access N c' code' ins outs p := by
  cases h with
  | between hf => cases hstep
  | @sends w k hf =>
      rw [perform_send] at hstep
      cases hstep with
      | read =>
          simp only [hh.isEnabled, if_true]
          exact .silent inc out hh (.enabled hf)
  | @enabled w k hf =>
      rw [syncPush_eq] at hstep
      cases hstep with
      | write =>
          have hlen : out.length < size := by
            have := hroom w k rfl
            rw [hh.outs_eq, List.length_append] at this
            omega
          refine .silent inc out
            ⟨hh.isEnabled, hh.needsClear, hh.outgoingClear, hh.joyCnt, hh.overflow, hh.incoming,
              fun hw => ?_, hh.ins_eq, hh.outs_eq⟩
            (.pushing hf.isReading rfl ((hh.outgoing hf.isWriting).push hlen w).1)
          cases hw
  | @pushing w k r hr hw hring =>
      rcases hstep.on_bind with ⟨_, rfl, hstep⟩ | ⟨r', rfl, hrun, hput⟩
      · cases hstep with
        | write =>
            refine .send inc (out ++ [w])
              ⟨hh.isEnabled, hh.needsClear, hh.outgoingClear, hh.joyCnt, hh.overflow, hh.incoming,
                fun _ => hring, hh.ins_eq, ?_⟩ (.pushed ⟨hr, rfl⟩)
            rw [hh.outs_eq, List.append_assoc]
            rfl
      · change _ = r.run c.outgoingQueue.ring at hrun
        rw [← hrun] at hring
        rcases hput with rfl | ⟨t, rfl⟩
        · exact .silent inc out hh (.pushing hr hw hring)
        · exact .silent inc out (hh.put_outgoing hw t) (.pushing hr hw hring)
  | pushed hf =>
      obtain ⟨rfl, rfl⟩ := step_clearLate hstep hh.outgoingClear
      exact .silent _ _ hh (.between hf)
  | @receives k hf =>
      rw [perform_recv] at hstep
      cases hstep with
      | read =>
          simp only [LinkCube.isEmpty_eq (hh.incoming hf.isReading)]
          cases inc with
          | nil => exact .silent _ _ hh (.between hf)
          | cons v rest => exact .silent _ _ hh (.ready hf (List.cons_ne_nil v rest))
  | @ready k hf hinc =>
      rw [read_eq] at hstep
      obtain ⟨v, rest, rfl⟩ := List.exists_cons_of_ne_nil hinc
      obtain ⟨hvalue, hring, _⟩ := (hh.incoming hf.isReading).pop_cons
      cases hstep with
      | write =>
          refine .silent (v :: rest) out
            ⟨hh.isEnabled, hh.needsClear, hh.outgoingClear, hh.joyCnt, hh.overflow, fun hr => ?_,
              hh.outgoing, hh.ins_eq, hh.outs_eq⟩ (.popping rfl hf.isWriting rfl hvalue hring)
          cases hr
  | @popping k v rest r hr hw hinc hvalue hring =>
      rcases hstep.on_bind with ⟨_, rfl, hstep⟩ | ⟨r', rfl, hrun, hput⟩
      · cases hstep with
        | write =>
            obtain ⟨new, hnew, hins⟩ := hh.ins_eq
            subst hvalue
            rw [hinc] at hins
            exact .recv rest out hins
              ⟨hh.isEnabled, hh.needsClear, hh.outgoingClear, hh.joyCnt, hh.overflow,
                fun _ => hring, hh.outgoing, ⟨new, hnew, rfl⟩, hh.outs_eq⟩ (.between ⟨rfl, hw⟩)
      · change _ = r.run c.incomingQueue.ring at hrun
        rw [← hrun] at hvalue hring
        rcases hput with rfl | ⟨t, rfl⟩
        · exact .silent inc out hh (.popping hr hw hinc hvalue hring)
        · exact .silent inc out (hh.put_incoming hr t) (.popping hr hw hinc hvalue hring)

end Calls

section Simulation

variable {N : Network Word Head Out} {cfg : Config Word Head Out} {n : Nat}
variable {client : Proc Word (Head wii ⊕ Out wii)} {thread thread' : Thread Head Out size}
variable {cube cube' : LinkCube size} {inc out : List Word}

/-- What the driver and the port hold is what is in flight on the channels. -/
structure Shows (N : Network Word Head Out) (d : Driven Head Out size)
    (cfg : Config Word Head Out) (inc out : List Word) : Prop where
  client : cfg.proc wii = d.client
  stage : Stage N d.cube inc out d.thread (cfg.proc gba)
  held : d.cube.Held inc out ((cfg.inbox gba).map N.wire) (cfg.inbox wii)

/-- The Wii takes 0 for no word, and the GBA takes every word. -/
structure Polled (N : Network Word Head Out) : Prop where
  idle_zero : N.idle wii (N.wire 0) = true
  heard : ∀ w, N.idle gba w = false

theorem Polled.ne_zero (hN : Polled N) {w : Word} (h : N.idle wii (N.wire w) = false) :
    w ≠ 0 := by
  rintro rfl
  rw [hN.idle_zero] at h
  cases h

/-- The channels take a step too, or stay as they are. -/
def Answered (N : Network Word Head Out) (d : Driven Head Out size)
    (cfg : Config Word Head Out) : Prop :=
  ∃ cfg' inc out, (cfg' = cfg ∨ N.Step cfg cfg') ∧ Shows N d cfg' inc out

theorem Shows.answered {d : Driven Head Out size} (h : Shows N d cfg inc out) :
    Answered N d cfg :=
  ⟨cfg, inc, out, Or.inl rfl, h⟩

theorem answered_client {i o : List Word} {p : Proc Word (Head wii ⊕ Out wii)}
    (hstep : N.LocalStep wii (cfg.proc wii) (cfg.inbox wii) p i o)
    (hstage : Stage N cube inc out thread (cfg.proc gba))
    (hheld : cube.Held inc out ((cfg.inbox gba ++ o).map N.wire) i) :
    Answered N ⟨p, thread, cube⟩ cfg := by
  refine ⟨cfg.after wii p i o, inc, out, Or.inr ⟨wii, p, i, o, hstep, rfl⟩, ?_, ?_, ?_⟩
  · rw [Config.after_proc_self]
  · rwa [Config.after_proc_of_ne cfg wii p i o (by decide)]
  · rw [Config.after_inbox_self, Config.after_inbox_of_ne cfg wii p i o (by decide)]
    exact hheld

theorem answered_server {i o : List Word} {p : Proc Word (Head gba ⊕ Out gba)}
    (hstep : N.LocalStep gba (cfg.proc gba) (cfg.inbox gba) p i o)
    (hclient : cfg.proc wii = client) (hstage : Stage N cube inc out thread p)
    (hheld : cube.Held inc out (i.map N.wire) (cfg.inbox wii ++ o)) :
    Answered N ⟨client, thread, cube⟩ cfg := by
  refine ⟨cfg.after gba p i o, inc, out, Or.inr ⟨gba, p, i, o, hstep, rfl⟩, ?_, ?_, ?_⟩
  · rwa [Config.after_proc_of_ne cfg gba p i o (by decide)]
  · rwa [Config.after_proc_self]
  · rw [Config.after_inbox_self, Config.after_inbox_of_ne cfg gba p i o (by decide)]
    exact hheld

theorem Stage.of_ret {p q : Proc Word (Head gba ⊕ Out gba)}
    (h : Stage N cube inc out (.ret p) q) : q = p ∧ Free cube := by
  generalize hcode : (.ret p : Thread Head Out size) = code at h
  cases h with
  | between hf =>
      cases hcode
      exact ⟨rfl, hf⟩
  | sends => rw [perform_send] at hcode; cases hcode
  | receives => rw [perform_recv] at hcode; cases hcode
  | enabled => rw [syncPush_eq] at hcode; cases hcode
  | ready => rw [read_eq] at hcode; cases hcode
  | pushed => cases hcode
  | @pushing _ _ r => cases r <;> cases hcode
  | @popping _ _ _ r => cases r <;> cases hcode

/-- What the queues and the polls of the Wii ask of the channels. -/
structure Carried (N : Network Word Head Out) (n : Nat) (cfg : Config Word Head Out) : Prop where
  inbox_le : ∀ s, (cfg.inbox s).length ≤ n
  inbox_lt : ∀ {s w k}, cfg.proc s = .send w k → (cfg.inbox s.other).length < n
  audible : ∀ {w}, w ∈ cfg.inbox wii → N.idle wii (N.wire w) = false
  clear_empty : ∀ {k}, cfg.proc wii = .clear k → cfg.inbox wii = []

theorem carried_of_inStep (h : N.InStep n cfg) : Carried N n cfg where
  inbox_le := h.inbox_le
  inbox_lt := h.inbox_lt
  audible := h.audible
  clear_empty := h.clear_empty

section Wii

variable (h : Shows N ⟨client, thread, cube⟩ cfg inc out) (hin : Carried N n cfg) (hn : n ≤ size)
include h hin hn

omit h in
theorem ins_le : ((cfg.inbox gba).map N.wire).length ≤ size := by
  rw [List.length_map]
  exact (hin.inbox_le gba).trans hn

omit h hn in
theorem outs_ne_zero (hN : Polled N) : ∀ w ∈ cfg.inbox wii, w ≠ 0 :=
  fun _ hw => hN.ne_zero (hin.audible hw)

omit hin hn in
theorem Shows.ins_ne_nil (hne : inc ≠ []) : (cfg.inbox gba).map N.wire ≠ [] := by
  obtain ⟨new, _, hins⟩ := h.held.ins_eq
  rw [hins]
  exact List.append_ne_nil_of_left_ne_nil hne _

theorem Shows.write {w : Word} {k : Proc Word (Head wii ⊕ Out wii)} (hk : client = .send w k) :
    Answered N ⟨k, thread, cube.receive (N.wire w)⟩ cfg := by
  have hclient : cfg.proc wii = .send w k := h.client.trans hk
  have hlt : ((cfg.inbox gba).map N.wire).length < size := by
    rw [List.length_map]
    exact (hin.inbox_lt hclient).trans_le hn
  obtain ⟨hheld, hspared⟩ := h.held.receive hlt (N.wire w)
  have hstage := h.stage.spared hspared ((cfg.inbox gba).map N.wire ++ [N.wire w]) out
    fun _ => List.append_ne_nil_of_right_ne_nil _ (List.cons_ne_nil (N.wire w) [])
  rw [ite_self] at hstage
  refine answered_client (i := cfg.inbox wii) (o := [w]) ?_ hstage ?_
  · rw [hclient]
    exact .send w k _
  · rw [List.map_append]
    exact hheld

theorem Shows.sent (hN : Polled N) :
    ∃ inc' out', cube.sent.Held inc' out' ((cfg.inbox gba).map N.wire) out ∧
      Stage N cube.sent inc' out' thread (cfg.proc gba) ∧
      (N.idle wii (N.wire cube.joyTrans) = true ∧ cfg.inbox wii = out ∨
        N.idle wii (N.wire cube.joyTrans) = false ∧ cfg.inbox wii = cube.joyTrans :: out) := by
  have houts := h.held.outs_eq
  obtain ⟨hheld, hspared⟩ := h.held.sent (ins_le hin hn) fun w hw =>
    outs_ne_zero hin hN w (houts ▸ List.mem_append_right _ hw)
  refine ⟨_, _, hheld, h.stage.spared hspared _ _ h.ins_ne_nil, ?_⟩
  by_cases hzero : cube.joyTrans = 0
  · rw [LinkCube.latch, if_pos hzero] at houts
    exact Or.inl ⟨by rw [hzero, hN.idle_zero], houts⟩
  · rw [LinkCube.latch, if_neg hzero] at houts
    refine Or.inr ⟨hin.audible ?_, houts⟩
    rw [houts]
    exact List.mem_cons_self

theorem Shows.poll (hN : Polled N) {k : Word → Proc Word (Head wii ⊕ Out wii)}
    (hk : client = .recv k) :
    Answered N ⟨if N.idle wii (N.wire cube.joyTrans) then .recv k else k (N.wire cube.joyTrans),
      thread, cube.sent⟩ cfg := by
  have hclient : cfg.proc wii = .recv k := h.client.trans hk
  obtain ⟨inc', out', hheld, hstage, ⟨hidle, houts⟩ | ⟨hidle, houts⟩⟩ := h.sent hin hn hN
  · rw [if_pos hidle]
    exact Shows.answered ⟨hclient, hstage, houts ▸ hheld⟩
  · rw [hidle]
    refine answered_client (i := out) (o := []) ?_ hstage ?_
    · rw [hclient, houts]
      exact .recv _ k out hidle
    · rwa [List.append_nil]

theorem Shows.clear (hN : Polled N) {k : Proc Word (Head wii ⊕ Out wii)}
    (hk : client = .clear k) :
    Answered N ⟨if N.idle wii (N.wire cube.joyTrans) then k else .clear k, thread, cube.sent⟩
      cfg := by
  have hclient : cfg.proc wii = .clear k := h.client.trans hk
  have hempty := hin.clear_empty hclient
  obtain ⟨inc', out', hheld, hstage, ⟨hidle, houts⟩ | ⟨_, houts⟩⟩ := h.sent hin hn hN
  · rw [if_pos hidle]
    rw [← houts, hempty] at hheld
    refine answered_client (i := []) (o := []) ?_ hstage ?_
    · rw [hclient, hempty]
      exact .clear k
    · rwa [List.append_nil]
  · rw [hempty] at houts
    cases houts

end Wii

theorem answered_next (hclient : cfg.proc wii = client)
    (hheld : cube.Held inc out ((cfg.inbox gba).map N.wire) (cfg.inbox wii)) (hf : Free cube) :
    Answered N ⟨client, perform N (cfg.proc gba), cube⟩ cfg := by
  have hstay : Stage N cube inc out (perform N (cfg.proc gba)) (cfg.proc gba) →
      Answered N ⟨client, perform N (cfg.proc gba), cube⟩ cfg :=
    fun hstage => Shows.answered ⟨hclient, hstage, hheld⟩
  cases hp : cfg.proc gba with
  | send w k => rw [hp] at hstay; exact hstay (.sends hf)
  | recv k => rw [hp] at hstay; exact hstay (.receives hf)
  | clear k => rw [hp] at hstay; exact hstay (.between hf)
  | halt => rw [hp] at hstay; exact hstay (.between hf)
  | ret x =>
      cases x with
      | inr r => rw [hp] at hstay; exact hstay (.between hf)
      | inl l =>
          have hbetween : Stage N cube inc out (.ret (N.body gba l)) (N.body gba l) := .between hf
          refine answered_server (i := cfg.inbox gba) (o := []) ?_ hclient hbetween ?_
          · rw [hp]
            exact .loop l _
          · rwa [List.append_nil]

/-- Whatever step is taken with the driver, the channels take it too or stay as they are. -/
theorem Shows.step (hN : Polled N) (hn : n ≤ size) {d d' : Driven Head Out size}
    (h : Shows N d cfg inc out) (hin : Carried N n cfg) (hstep : DriverStep N d d') :
    Answered N d' cfg := by
  cases hstep with
  | write => exact h.write hin hn rfl
  | poll => exact h.poll hin hn hN rfl
  | clear => exact h.clear hin hn hN rfl
  | @loop l thread cube =>
      have hclient : cfg.proc wii = .ret (.inl l) := h.client
      refine answered_client (i := cfg.inbox wii) (o := []) ?_ h.stage ?_
      · rw [hclient]
        exact .loop l _
      · rw [List.append_nil]
        exact h.held
  | @access client thread thread' cube cube' ha =>
      have haccess := h.stage.access h.held (fun w k hk => (hin.inbox_lt hk).trans_le hn) ha
      generalize hp : cfg.proc gba = p at haccess
      generalize hi : (cfg.inbox gba).map N.wire = ins at haccess
      cases haccess with
      | silent inc' out' hheld hstage =>
          exact Shows.answered ⟨h.client, hp ▸ hstage, hi ▸ hheld⟩
      | @send w k inc' out' hheld hstage =>
          refine answered_server (i := cfg.inbox gba) (o := [w]) ?_ h.client hstage (hi ▸ hheld)
          rw [hp]
          exact .send w k _
      | @recv v rest k inc' out' hins hheld hstage =>
          subst hins
          obtain ⟨w, ws, hws, rfl, rfl⟩ := List.map_eq_cons_iff.mp hi
          refine answered_server (i := ws) (o := []) ?_ h.client hstage ?_
          · rw [hp, hws]
            exact .recv w k ws (hN.heard _)
          · rwa [List.append_nil]
  | @next client p cube =>
      obtain ⟨hp, hf⟩ := h.stage.of_ret
      rw [← hp]
      exact answered_next h.client h.held hf

/-- Where the Wii is between two operations, no call has a queue in hand and the program goes on
from where it is seen to be. -/
theorem Shows.returned {d : Driven Head Out size} (h : Shows N d cfg inc out)
    (hin : N.InStep n cfg) {r : Out wii} (hr : d.client = .ret (.inr r)) :
    Free d.cube ∧ d.goesOn = cfg.proc gba := by
  obtain ⟨hempty, hhome⟩ := hin.returned (h.client.trans hr)
  have hinc : inc = [] := by
    by_contra hne
    exact h.ins_ne_nil hne (by rw [hempty gba, List.map_nil])
  have hnotSend : ∀ w k, cfg.proc gba ≠ .send w k := by
    intro w k hk
    rcases hhome.cases with ⟨l, hl, _⟩ | ⟨k', hl⟩
    · rw [hk] at hl
      cases hl
    · rw [hk] at hl
      cases hl
  have hheld := h.held
  have hstage := h.stage
  rw [Driven.goesOn]
  generalize cfg.proc gba = p at hstage hnotSend
  generalize d.thread = code at hstage
  cases hstage with
  | between hf => exact ⟨hf, rfl⟩
  | sends | enabled | pushing => exact absurd rfl (hnotSend _ _)
  | pushed hf =>
      refine ⟨hf, ?_⟩
      rw [Code.run_bind]
      rfl
  | receives hf =>
      have hempty := LinkCube.isEmpty_eq (hheld.incoming hf.isReading)
      rw [hinc, List.isEmpty_nil] at hempty
      refine ⟨hf, ?_⟩
      rw [perform_recv, Code.run, if_pos hempty]
      rfl
  | ready _ hne => exact absurd hinc hne
  | popping _ _ hcons => rw [hinc] at hcons; cases hcons

theorem latch_of_idle (hin : N.InStep n cfg) (hmem : ∀ w ∈ cube.latch, w ∈ cfg.inbox wii)
    (hidle : N.idle wii (N.wire cube.joyTrans) = true) : cube.latch = [] := by
  rw [LinkCube.latch] at hmem ⊢
  by_cases hzero : cube.joyTrans = 0
  · rw [if_pos hzero]
  · rw [if_neg hzero] at hmem
    have haud := hin.audible (hmem _ List.mem_cons_self)
    rw [hidle] at haud
    cases haud

/-- When two reads of the Wii in a row find nothing while both programs wait, the GBA's program
finds a word. -/
theorem Shows.alive {d : Driven Head Out size} (h : Shows N d cfg inc out)
    (hin : N.InStep n cfg) (hn : n ≤ size) (hN : Polled N)
    {k : Word → Proc Word (Head wii ⊕ Out wii)} {k' : Word → Proc Word (Head gba ⊕ Out gba)}
    (hk : d.client = .recv k) (hk' : d.thread = .ret (.recv k'))
    (hidle : N.idle wii (N.wire d.cube.joyTrans) = true)
    (hidle' : N.idle wii (N.wire d.cube.sent.joyTrans) = true) :
    d.cube.sent.incomingQueue.isEmpty = false := by
  obtain ⟨hgba, hf⟩ := (hk' ▸ h.stage).of_ret
  have houts := h.held.outs_eq
  have hlatch := latch_of_idle hin (fun w hw => houts ▸ List.mem_append_left _ hw) hidle
  rw [hlatch, List.nil_append] at houts
  obtain ⟨hheld, hspared⟩ := h.held.sent (ins_le (carried_of_inStep hin) hn)
    (houts ▸ outs_ne_zero (carried_of_inStep hin) hN)
  rw [hf.isReading, hf.isWriting] at hheld
  have hout := hheld.outs_eq
  have hlatch' := latch_of_idle hin
    (fun w hw => houts ▸ hout ▸ List.mem_append_left _ hw) hidle'
  rw [hlatch', List.nil_append] at hout
  have hnone : out = [] := by
    cases out with
    | nil => rfl
    | cons w out => exact absurd hout (List.cons_ne_self w out)
  rw [LinkCube.isEmpty_eq (hheld.incoming (hspared.isReading.trans hf.isReading))]
  refine List.isEmpty_eq_false_iff.mpr fun hempty => ?_
  refine hin.not_blocked ?_ ?_
  · intro s
    cases s with
    | client => exact houts.trans hnone
    | server => exact List.map_eq_nil_iff.mp hempty
  · intro s
    cases s with
    | client => exact ⟨k, h.client.trans hk⟩
    | server => exact ⟨k', hgba⟩

section Runs

variable {allowed : Head gba → Proc Word (Head wii ⊕ Out wii) → Prop}
variable {d₀ d : Driven Head Out size} {cfg₀ : Config Word Head Out}

/-- A run with the driver is a run on the channels, as long as the channels never hold more
words than a queue. -/
theorem DriverReach.shows (hN : Polled N) (hn : n ≤ size)
    (hin : ∀ cfg, N.Reach allowed cfg₀ cfg → N.InStep n cfg) (h₀ : Shows N d₀ cfg₀ [] [])
    (h : DriverReach N allowed d₀ d) :
    ∃ cfg inc out, N.Reach allowed cfg₀ cfg ∧ Shows N d cfg inc out := by
  induction h with
  | refl => exact ⟨cfg₀, [], [], .refl, h₀⟩
  | step _ hs ih =>
      obtain ⟨cfg, inc, out, hreach, hshows⟩ := ih
      obtain ⟨cfg', inc', out', rfl | hstep, hshows'⟩ :=
        hshows.step hN hn (carried_of_inStep (hin cfg hreach)) hs
      · exact ⟨cfg', inc', out', hreach, hshows'⟩
      · exact ⟨cfg', inc', out', hreach.step hstep, hshows'⟩
  | @start d r p _ hr ha ih =>
      obtain ⟨cfg, inc, out, hreach, hshows⟩ := ih
      have hgoes := (hshows.returned (hin cfg hreach) hr).2
      refine ⟨cfg.start p, inc, out, hreach.start (hshows.client.trans hr) fun l hl hh =>
        ha l hl (hgoes ▸ hh), ?_, hshows.stage, hshows.held⟩
      simp only [Config.start, Function.update_self]

end Runs

end Simulation

end WiiJoybus
