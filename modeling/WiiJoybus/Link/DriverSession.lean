import WiiJoybus.Library.Serial
import WiiJoybus.Link.Driver

/-!
Sessions with the driver.

Whatever the order of the accesses, the polls and the interrupts is, a session ends
as its operations do one by one; and every session of operations one by one is one
that the driver can play.
-/

namespace WiiJoybus
open ByteMemory StructLayout Dialogue Dialogue.Network Interrupt RingBuffer

variable {Head Out : Side → Type} {size : Nat} {N : Network Word Head Out}

abbrev DriverSteps (N : Network Word Head Out) :
    Driven Head Out size → Driven Head Out size → Prop :=
  Relation.ReflTransGen (DriverStep N)

/-- The Wii performs the given operations and gets the given results. -/
inductive DriverSession (N : Network Word Head Out) : Driven Head Out size →
    List (Proc Word (Head wii ⊕ Out wii) × Out wii) → Driven Head Out size → Prop where
  | nil (d) : DriverSession N d [] d
  | cons {d d₁ d₂ r₀ p r ops} (hr₀ : d.client = .ret (.inr r₀))
      (hs : DriverSteps N { d with client := p } d₁) (hr : d₁.client = .ret (.inr r))
      (rest : DriverSession N d₁ ops d₂) : DriverSession N d ((p, r) :: ops) d₂

section Sound

variable {n : Nat} {cfg : Config Word Head Out} {d d' : Driven Head Out size}
variable {inc out : List Word}

theorem Shows.steps (hN : Polled N) (hn : n ≤ size)
    {e : (s : Side) → Proc Word (Head s ⊕ Out s)} (h : Shows N d cfg inc out)
    (hin : N.InStepFrom n e cfg) (hs : DriverSteps N d d') :
    ∃ cfg' inc' out', Relation.ReflTransGen N.Step cfg cfg' ∧ Shows N d' cfg' inc' out' := by
  induction hs with
  | refl => exact ⟨cfg, inc, out, .refl, h⟩
  | tail _ hstep ih =>
      obtain ⟨cfg₁, inc₁, out₁, hreach, hshows⟩ := ih
      obtain ⟨cfg₂, inc₂, out₂, rfl | hstep', hshows'⟩ :=
        hshows.step hN hn (carried_of_inStep (hin.steps hreach).inStep) hstep
      · exact ⟨cfg₂, inc₂, out₂, hreach, hshows'⟩
      · exact ⟨cfg₂, inc₂, out₂, hreach.tail hstep', hshows'⟩

theorem Shows.start (h : Shows N d cfg inc out) (p : Proc Word (Head wii ⊕ Out wii)) :
    Shows N { d with client := p } (cfg.start p) inc out where
  client := by simp only [Config.start, Function.update_self]
  stage := h.stage
  held := h.held

/-- An operation either ends or waits for ever for a handler that does not end. -/
def Called (N : Network Word Head Out) (n : Nat) (h : Head gba)
    (p : Proc Word (Head wii ⊕ Out wii)) : Prop :=
  (∃ r h', N.Meets n p (.ret (.inl h)) r h') ∨ N.Stalls n p (.ret (.inl h))

/-- With the driver an operation ends as it does by itself. -/
theorem Shows.exchanges (hN : Polled N) (hn : n ≤ size) {h : Head gba} {r : Out wii}
    {p : Proc Word (Head wii ⊕ Out wii)} (hshows : Shows N d cfg inc out) (hq : N.Quiet h cfg)
    (hcall : Called N n h p) (hs : DriverSteps N { d with client := p } d')
    (hr : d'.client = .ret (.inr r)) :
    ∃ h' cfg' inc' out', N.Exchanges p h r h' ∧ N.Quiet h' cfg' ∧ Shows N d' cfg' inc' out' := by
  rcases hcall with ⟨r', h', hm⟩ | hm
  · obtain ⟨e, he, hhome, hat, hin⟩ := hm.start hq
    obtain ⟨cfg', inc', out', hreach, hshows'⟩ := (hshows.start p).steps hN hn hin hs
    obtain ⟨hclient, hquiet⟩ := (hin.steps hreach).returned (hshows'.client.trans hr)
    rw [he] at hclient
    cases hclient
    exact ⟨h', cfg', inc', out', hm.exchanges, hquiet h' hhome hat, hshows'⟩
  · obtain ⟨e, k, he, hin⟩ := hm.start hq
    obtain ⟨cfg', inc', out', hreach, hshows'⟩ := (hshows.start p).steps hN hn hin hs
    have hclient := ((hin.steps hreach).returned (hshows'.client.trans hr)).1
    rw [he] at hclient
    cases hclient

variable {Q : Head gba → Prop} {allowed : Head gba → Proc Word (Head wii ⊕ Out wii) → Prop}
variable {ops : List (Proc Word (Head wii ⊕ Out wii) × Out wii)} {h : Head gba}

/-- A session with the driver is one of operations one by one. -/
theorem DriverSession.serial (hN : Polled N) (hn : n ≤ size) (hQ : N.Holds Q)
    (hcalls : ∀ h p, N.home h → Q h → allowed h p → Called N n h p)
    (hs : DriverSession N d ops d') (hshows : Shows N d cfg inc out) (hq : N.Quiet h cfg)
    (hh : Q h) (hallowed : N.AllowedAlong allowed h ops) :
    ∃ h' cfg' inc' out', N.Serial h ops h' ∧ N.Quiet h' cfg' ∧ Shows N d' cfg' inc' out' := by
  induction hs generalizing h cfg inc out with
  | nil d => exact ⟨h, cfg, inc, out, .nil h, hq, hshows⟩
  | cons _ hsteps hr _ ih =>
      obtain ⟨h₁, cfg₁, inc₁, out₁, hx, hq₁, hshows₁⟩ :=
        hshows.exchanges hN hn hq (hcalls h _ hq.home hh hallowed.1) hsteps hr
      obtain ⟨h₂, cfg₂, inc₂, out₂, hserial, hq₂, hshows₂⟩ :=
        ih hshows₁ hq₁ (hQ.exchanges hx hh) (hallowed.2 h₁ hx)
      exact ⟨h₂, cfg₂, inc₂, out₂, .cons hx hserial, hq₂, hshows₂⟩

end Sound

section Play

variable {cube : LinkCube size} {client p p' : Proc Word (Head wii ⊕ Out wii)}
variable {q q' : Proc Word (Head gba ⊕ Out gba)} {thread : Thread Head Out size} {w : Word}
variable {inc out ins outs : List Word} {c : List (Side × Word)}

/-- Nothing is anywhere in the driver but the given words: they are in the two queues that
the program uses, and it is at work on neither. -/
structure Rested (cube : LinkCube size) (ins outs : List Word) : Prop where
  free : Free cube
  held : cube.Held ins outs ins outs

section Rested

theorem Rested.latch_eq (h : Rested cube ins outs) : cube.latch = [] :=
  List.self_eq_append_left.mp h.held.outs_eq

theorem Rested.new_holds (h : Rested cube ins outs) : cube.newIncomingQueue.ring.Holds [] := by
  obtain ⟨new, hnew, hins⟩ := h.held.ins_eq
  rwa [List.self_eq_append_right.mp hins] at hnew

theorem Free.receive (hf : Free cube) (hheld : cube.Held inc out ins outs)
    (hroom : ins.length < size) (w : Word) :
    Free (cube.receive w) ∧ (cube.receive w).Held (ins ++ [w]) out (ins ++ [w]) outs := by
  obtain ⟨hheld', hspared⟩ := hheld.receive hroom w
  rw [hf.isReading] at hheld'
  exact ⟨hf.spared hspared, hheld'⟩

theorem Free.sent (hf : Free cube) (hheld : cube.Held inc out ins outs)
    (hroom : ins.length ≤ size) (hout : ∀ w ∈ out, w ≠ 0) :
    Free cube.sent ∧ cube.sent.Held ins out.tail ins out := by
  obtain ⟨hheld', hspared⟩ := hheld.sent hroom hout
  rw [hf.isReading, hf.isWriting] at hheld'
  exact ⟨hf.spared hspared, hheld'⟩

theorem LinkCube.Held.joyTrans_nil (h : cube.Held inc out ins []) : cube.joyTrans = 0 := by
  have hlatch := (List.append_eq_nil_iff.mp h.outs_eq.symm).1
  rw [LinkCube.latch] at hlatch
  by_contra hne
  rw [if_neg hne] at hlatch
  cases hlatch

theorem Free.sent_nil (hf : Free cube) (hheld : cube.Held inc out ins [])
    (hroom : ins.length ≤ size) : Rested cube.sent ins [] := by
  obtain rfl := (List.append_eq_nil_iff.mp hheld.outs_eq.symm).2
  obtain ⟨hf', hheld'⟩ := hf.sent hheld hroom fun _ hw => by cases hw
  exact ⟨hf', hheld'⟩

/-- After one read that finds nothing, if need be, the next word is at the port. -/
theorem Free.at_port (hf : Free cube) (hheld : cube.Held inc out ins (w :: outs))
    (hroom : ins.length ≤ size) (hne : ∀ v ∈ w :: outs, v ≠ 0) :
    ∃ cube', (cube' = cube ∨ cube.joyTrans = 0 ∧ cube' = cube.sent) ∧ cube'.joyTrans = w ∧
      Free cube'.sent ∧ cube'.sent.Held ins outs.tail ins outs := by
  have hports : ∀ {cube' : LinkCube size} {inc' : List Word}, Free cube' → cube'.joyTrans ≠ 0 →
      ∀ {out' : List Word}, cube'.Held inc' out' ins (w :: outs) → cube'.joyTrans = w ∧
        Free cube'.sent ∧ cube'.sent.Held ins outs.tail ins outs := by
    intro cube' inc' hf' hport out' hheld'
    have houts := hheld'.outs_eq
    rw [LinkCube.latch, if_neg hport, List.singleton_append, List.cons.injEq] at houts
    obtain ⟨hw, rfl⟩ := houts
    exact ⟨hw.symm, hf'.sent hheld' hroom fun v hv => hne v (List.mem_cons_of_mem w hv)⟩
  by_cases hzero : cube.joyTrans = 0
  · have houts := hheld.outs_eq
    rw [LinkCube.latch, if_pos hzero, List.nil_append] at houts
    subst houts
    obtain ⟨hf', hheld'⟩ := hf.sent hheld hroom hne
    refine ⟨cube.sent, Or.inr ⟨hzero, rfl⟩, hports hf' (fun hport => ?_) hheld'⟩
    have houts' := hheld'.outs_eq
    rw [LinkCube.latch, if_pos hport] at houts'
    exact List.cons_ne_self w outs houts'
  · exact ⟨cube, Or.inl rfl, hports hf hzero hheld⟩

theorem Rested.pushed (h : Rested cube ins outs) (hroom : outs.length < size) (w : Word) :
    Rested { cube with outgoingQueue := cube.outgoingQueue.pushed w } ins (outs ++ [w]) where
  free := ⟨h.free.isReading, h.free.isWriting⟩
  held :=
    ⟨h.held.isEnabled, h.held.needsClear, h.held.outgoingClear, h.held.joyCnt, h.held.overflow,
      h.held.incoming, fun _ => ((h.held.outgoing h.free.isWriting).push hroom w).1,
      ⟨[], h.new_holds, (List.append_nil ins).symm⟩,
      congrArg (· ++ (outs ++ [w])) h.latch_eq.symm⟩

theorem Rested.popped (h : Rested cube (w :: ins) outs) :
    cube.incomingQueue.front = w ∧
      Rested { cube with incomingQueue := cube.incomingQueue.popped } ins outs := by
  obtain ⟨hfront, hpopped, _⟩ := (h.held.incoming h.free.isReading).pop_cons
  exact ⟨hfront, ⟨h.free.isReading, h.free.isWriting⟩,
    ⟨h.held.isEnabled, h.held.needsClear, h.held.outgoingClear, h.held.joyCnt, h.held.overflow,
      fun _ => hpopped, h.held.outgoing, ⟨[], h.new_holds, (List.append_nil ins).symm⟩,
      h.held.outs_eq⟩⟩

end Rested

theorem steps_thread (client : Proc Word (Head wii ⊕ Out wii)) (code : Thread Head Out size)
    (cube : LinkCube size) :
    DriverSteps N ⟨client, code, cube⟩ ⟨client, .ret (code.run cube).1, (code.run cube).2⟩ := by
  induction code generalizing cube with
  | ret p => exact .refl
  | read k ih => exact .head (.access (.read k cube)) (ih cube cube)
  | write f k ih => exact .head (.access (.write f k cube)) (ih (f cube))

theorem steps_perform (client : Proc Word (Head wii ⊕ Out wii))
    (q : Proc Word (Head gba ⊕ Out gba)) (cube : LinkCube size) :
    DriverSteps N ⟨client, .ret q, cube⟩ ⟨client, .ret ((perform N q).run cube).1,
      ((perform N q).run cube).2⟩ :=
  .head .next (steps_thread client (perform N q) cube)

theorem step_poll_idle (hN : Polled N) {k : Word → Proc Word (Head wii ⊕ Out wii)}
    (hport : cube.joyTrans = 0) :
    DriverStep N ⟨.recv k, thread, cube⟩ ⟨.recv k, thread, cube.sent⟩ := by
  have hstep : DriverStep N ⟨.recv k, thread, cube⟩ _ := .poll
  rwa [hport, if_pos hN.idle_zero] at hstep

theorem step_clear_idle (hN : Polled N) {k : Proc Word (Head wii ⊕ Out wii)}
    (hport : cube.joyTrans = 0) :
    DriverStep N ⟨.clear k, thread, cube⟩ ⟨k, thread, cube.sent⟩ := by
  have hstep : DriverStep N ⟨.clear k, thread, cube⟩ _ := .clear
  rwa [hport, if_pos hN.idle_zero] at hstep

theorem Acts.client_send (hN : Polled N) (hsize : 0 < size)
    (ha : Acts N.wire (N.body wii) wii p (wii, w) p') (hc : Rested cube [] []) :
    ∃ cube', DriverSteps N ⟨p, thread, cube⟩ ⟨p', thread, cube'⟩ ∧
      Rested cube' [N.wire w] [] := by
  generalize hx : (wii, w) = x at ha
  induction ha generalizing cube with
  | send v k =>
      cases hx
      obtain ⟨hf, hheld⟩ := hc.free.receive hc.held hsize (N.wire w)
      exact ⟨_, .single .write, hf, hheld⟩
  | recv v k => exact absurd (congrArg Prod.fst hx).symm (Side.other_ne wii)
  | @clear v k p' _ ih =>
      obtain ⟨cube', hs, hc'⟩ := ih (hc.free.sent_nil hc.held (Nat.zero_le size)) hx
      exact ⟨cube', .head (step_clear_idle hN hc.held.joyTrans_nil) hs, hc'⟩
  | @loop l y p' _ ih =>
      obtain ⟨cube', hs, hc'⟩ := ih hc hx
      exact ⟨cube', .head .loop hs, hc'⟩

theorem Acts.server_recv (hbody : ∀ l, (N.body gba l).Plain)
    (ha : Acts N.wire (N.body gba) gba q (wii, w) q') (hplain : q.Plain)
    (hc : Rested cube (N.wire w :: ins) outs) :
    ∃ cube', DriverSteps N ⟨client, .ret q, cube⟩ ⟨client, .ret q', cube'⟩ ∧
      Rested cube' ins outs := by
  generalize hx : (wii, w) = x at ha
  induction ha with
  | send v k => cases hx
  | recv v k =>
      cases hx
      obtain ⟨hfront, hc'⟩ := hc.popped
      refine ⟨_, steps_perform client (.recv k) cube |>.trans ?_, hc'⟩
      have hempty : cube.incomingQueue.isEmpty = false :=
        LinkCube.isEmpty_eq (hc.held.incoming hc.free.isReading)
      rw [perform_recv, Code.run, if_neg (by rw [hempty]; decide), Code.run_bind,
        LinkCube.run_read hc.free.isReading, hfront]
      exact .refl
  | clear _ _ => exact absurd hplain id
  | @loop l y q' _ ih =>
      obtain ⟨cube', hs, hc'⟩ := ih (hbody l) hx
      exact ⟨cube', .head .next hs, hc'⟩

theorem Acts.server_send (hbody : ∀ l, (N.body gba l).Plain)
    (ha : Acts N.wire (N.body gba) gba q (gba, w) q') (hplain : q.Plain)
    (hc : Rested cube ins outs) (hroom : outs.length < size) :
    ∃ cube', DriverSteps N ⟨client, .ret q, cube⟩ ⟨client, .ret q', cube'⟩ ∧
      Rested cube' ins (outs ++ [w]) := by
  generalize hx : (gba, w) = x at ha
  induction ha with
  | send v k =>
      cases hx
      refine ⟨_, steps_perform client (.send w k) cube |>.trans ?_, hc.pushed hroom w⟩
      change DriverSteps N ⟨client, .ret ((LinkCube.send w >>= fun _ => .ret k).run cube).1,
        ((LinkCube.send w >>= fun _ => .ret k).run cube).2⟩ _
      rw [Code.run_bind,
        LinkCube.run_send hc.held.isEnabled hc.held.outgoingClear hc.free.isWriting]
      exact .refl
  | recv v k => cases hx
  | clear _ _ => exact absurd hplain id
  | @loop l y q' _ ih =>
      obtain ⟨cube', hs, hc'⟩ := ih (hbody l) hx
      exact ⟨cube', .head .next hs, hc'⟩

theorem Acts.client_recv (hN : Polled N)
    (ha : Acts N.wire (N.body wii) wii p (gba, w) p') (hf : Free cube)
    (hheld : cube.Held inc out ins (w :: outs)) (hroom : ins.length ≤ size)
    (hne : ∀ v ∈ w :: outs, v ≠ 0) (haud : N.idle wii (N.wire w) = false) :
    ∃ cube', DriverSteps N ⟨p, thread, cube⟩ ⟨p', thread, cube'⟩ ∧ Free cube' ∧
      cube'.Held ins outs.tail ins outs := by
  obtain ⟨cube', hport, hw, hf', hheld'⟩ := hf.at_port hheld hroom hne
  generalize hx : (gba, w) = x at ha
  induction ha with
  | send v k => cases hx
  | recv v k =>
      cases hx
      have hfirst : DriverSteps N ⟨.recv k, thread, cube⟩ ⟨.recv k, thread, cube'⟩ := by
        rcases hport with rfl | ⟨hzero, rfl⟩
        · exact .refl
        · exact .single (step_poll_idle hN hzero)
      have hsecond : DriverStep N ⟨.recv k, thread, cube'⟩
          ⟨k (N.wire w), thread, cube'.sent⟩ := by
        have hstep : DriverStep N ⟨.recv k, thread, cube'⟩ _ := .poll
        rwa [hw, if_neg (by rw [haud]; decide)] at hstep
      exact ⟨_, hfirst.tail hsecond, hf', hheld'⟩
  | clear ha _ => cases hx
  | @loop l y p' _ ih =>
      obtain ⟨cube'', hs, hc''⟩ := ih hx
      exact ⟨cube'', .head .loop hs, hc''⟩

theorem Follows.client_rest (cube : LinkCube size)
    (hf : Follows N.wire (N.body wii) wii p c p') (hc : c = []) :
    DriverSteps N ⟨p, thread, cube⟩ ⟨p', thread, cube⟩ := by
  induction hf with
  | done p => exact .refl
  | @loop l c p' _ ih => exact .head .loop (ih hc)
  | send | recv | clear => cases hc

theorem Follows.server_rest (cube : LinkCube size)
    (hf : Follows N.wire (N.body gba) gba q c q') (hc : c = []) :
    DriverSteps N ⟨client, .ret q, cube⟩ ⟨client, .ret q', cube⟩ := by
  induction hf with
  | done q => exact .refl
  | @loop l c q' _ ih => exact .head .next (ih hc)
  | send | recv | clear => cases hc

theorem Rested.play (hN : Polled N) (hsize : 0 < size) (hbody : ∀ l, (N.body gba l).Plain)
    (hp : Follows N.wire (N.body wii) wii p c p') (hq : Follows N.wire (N.body gba) gba q c q')
    (hplain : q.Plain) (haud : ∀ x ∈ c, N.idle x.1.other (N.wire x.2) = false)
    (hc : Rested cube [] []) :
    ∃ cube', DriverSteps N ⟨p, .ret q, cube⟩ ⟨p', .ret q', cube'⟩ ∧ Rested cube' [] [] := by
  induction c generalizing p q cube with
  | nil =>
      exact ⟨cube, (Follows.client_rest cube hp rfl).trans (Follows.server_rest cube hq rfl), hc⟩
  | cons x c ih =>
      obtain ⟨p₁, hpa, hpf⟩ := hp.acts
      obtain ⟨q₁, hqa, hqf⟩ := hq.acts
      have hx := haud x List.mem_cons_self
      have hplain₁ := hqa.plain hbody hplain
      have hrest := fun y hy => haud y (List.mem_cons_of_mem x hy)
      obtain ⟨cube₁, hs₁, hc₁⟩ : ∃ cube₁, DriverSteps N ⟨p, .ret q, cube⟩ ⟨p₁, .ret q₁, cube₁⟩ ∧
          Rested cube₁ [] [] := by
        obtain ⟨s, w⟩ := x
        cases s with
        | client =>
            obtain ⟨cube₁, hs₁, hc₁⟩ := Acts.client_send hN hsize hpa hc
            obtain ⟨cube₂, hs₂, hc₂⟩ := Acts.server_recv hbody hqa hplain hc₁
            exact ⟨cube₂, hs₁.trans hs₂, hc₂⟩
        | server =>
            have hw : ∀ v ∈ [w], v ≠ 0 := fun v hv => hN.ne_zero (by rwa [List.mem_singleton.mp hv])
            obtain ⟨cube₁, hs₁, hc₁⟩ := Acts.server_send hbody hqa hplain hc hsize
            obtain ⟨cube₂, hs₂, hf₂, hheld₂⟩ :=
              Acts.client_recv hN hpa hc₁.free hc₁.held (Nat.zero_le size) hw hx
            exact ⟨cube₂, hs₁.trans hs₂, hf₂, hheld₂⟩
      obtain ⟨cube₂, hs₂, hc₂⟩ := ih hpf hqf hplain₁ hrest hc₁
      exact ⟨cube₂, hs₁.trans hs₂, hc₂⟩

end Play

section Complete

variable {n : Nat} {Q : Head gba → Prop} {cube : LinkCube size}
variable {p : Proc Word (Head wii ⊕ Out wii)}
variable {allowed : Head gba → Proc Word (Head wii ⊕ Out wii) → Prop}
variable {ops : List (Proc Word (Head wii ⊕ Out wii) × Out wii)} {h h' : Head gba} {r₀ r : Out wii}

theorem Rested.exchanges (hN : Polled N) (hsize : 0 < size) (hbody : ∀ l, (N.body gba l).Plain)
    (hcall : Called N n h p) (hx : N.Exchanges p h r h') (hc : Rested cube [] []) :
    ∃ cube', DriverSteps N ⟨p, .ret (.ret (.inl h)), cube⟩
      ⟨.ret (.inr r), .ret (.ret (.inl h')), cube'⟩ ∧ Rested cube' [] [] := by
  rcases hcall with ⟨r₁, h₁, hm⟩ | hm
  · obtain ⟨rfl, rfl⟩ := hm.exchanges.unique_out hx
    obtain ⟨c, hrounds, hp, hq, _⟩ := hm
    exact hc.play hN hsize hbody hp hq trivial hrounds.orderly.audible
  · exact absurd hx hm.hangs.not_exchanges

/-- Operations that end one by one are a session that the driver can play. -/
theorem Serial.driverSession (hN : Polled N) (hsize : 0 < size) (hQ : N.Holds Q)
    (hbody : ∀ l, (N.body gba l).Plain)
    (hcalls : ∀ h p, N.home h → Q h → allowed h p → Called N n h p)
    (hs : N.Serial h ops h') (hhome : N.home h) (hh : Q h) (hallowed : N.AllowedAlong allowed h ops)
    (hc : Rested cube [] []) :
    ∃ d, DriverSession N ⟨.ret (.inr r₀), .ret (.ret (.inl h)), cube⟩ ops d := by
  induction hs generalizing cube r₀ with
  | nil h => exact ⟨_, .nil _⟩
  | cons hx _ ih =>
      obtain ⟨cube', hsteps, hc'⟩ :=
        hc.exchanges hN hsize hbody (hcalls _ _ hhome hh hallowed.1) hx
      obtain ⟨_, _, _, hhome'⟩ := id hx
      obtain ⟨d, hd⟩ := ih hhome' (hQ.exchanges hx hh) (hallowed.2 _ hx) hc'
      exact ⟨d, .cons rfl hsteps rfl hd⟩

end Complete

end WiiJoybus
