import WiiJoybus.Echo.EchoDriver

/-!
Sessions of the echo program.

Line after line comes back, whatever the order of the transfers and the accesses of the
GBA is, and no line can get stuck on its way.
-/

namespace WiiJoybus
open ByteMemory CString Dialogue Dialogue.Network RingBuffer

section Steps

variable {size : Nat} {cube : LinkCube size} {thread : Thread EchoHeads EchoOuts size}
variable {client : EchoProc wii} {q : EchoProc gba} {st : Received}
variable {inc out ins outs hand ws : List Word}

theorem steps_sendAll (ws : List Word) (hf : Free cube) (hheld : cube.Held inc out ins outs)
    (hroom : ins.length + ws.length ≤ size) (next : Unit → EchoProc wii) :
    ∃ cube' inc', DriverSteps echo ⟨Proc.sendAll ws >>= next, thread, cube⟩
        ⟨next (), thread, cube'⟩ ∧
      Free cube' ∧ cube'.Held inc' out (ins ++ ws.map joybus) outs := by
  induction ws generalizing cube inc ins with
  | nil =>
      rw [List.map_nil, List.append_nil]
      exact ⟨cube, inc, .refl, hf, hheld⟩
  | cons w ws ih =>
      rw [List.length_cons] at hroom
      obtain ⟨hf', hheld'⟩ := hf.receive hheld (by omega) (joybus w)
      obtain ⟨cube', inc', hs, hdone⟩ := ih hf' hheld'
        (by rw [List.length_append, List.length_singleton]; omega)
      rw [List.append_assoc] at hdone
      exact ⟨cube', inc', .head .write hs, hdone⟩

theorem steps_receiveLine (hf : Free cube) (hheld : cube.Held inc out ins outs)
    (hroom : ins.length ≤ size) (hne : ∀ w ∈ outs, w ≠ 0) (n : Nat) :
    ∃ cube' inc' out' st', DriverSteps echo
        ⟨receiveLine (outs.length + n) st >>= fun st => .ret (.inr st), thread, cube⟩
        ⟨receiveLine n st' >>= fun st => .ret (.inr st), thread, cube'⟩ ∧
      Free cube' ∧ cube'.Held inc' out' ins [] := by
  induction outs generalizing cube inc out st with
  | nil =>
      rw [List.length_nil, Nat.zero_add]
      exact ⟨cube, inc, out, st, .refl, hf, hheld⟩
  | cons w outs ih =>
      have haud : echo.idle wii (echo.wire w) = false := by
        refine beq_false_of_ne fun hzero => hne w List.mem_cons_self ?_
        change joybus w = 0 at hzero
        rw [← joybus_joybus w, hzero]
        decide +kernel
      have hacts : Acts echo.wire (echo.body wii) wii
          (receiveLine (outs.length + 1 + n) st >>= fun st => .ret (.inr st)) (gba, w)
          (receiveLine (outs.length + n) (st.take (joybus w)) >>= fun st => .ret (.inr st)) := by
        rw [Nat.add_right_comm]
        exact .recv w _
      obtain ⟨cube₁, hs₁, hf₁, hheld₁⟩ := Acts.client_recv echo_polled hacts hf
        hheld hroom hne haud
      obtain ⟨cube₂, inc₂, out₂, st₂, hs₂, hdone⟩ :=
        ih hf₁ hheld₁ fun v hv => hne v (List.mem_cons_of_mem w hv)
      exact ⟨cube₂, inc₂, out₂, st₂, hs₁.trans hs₂, hdone⟩

theorem echo_plain (l : EchoHeads gba) : (echo.body gba l).Plain := fun _ => trivial

theorem steps_hand (hq : Serves q hand) (hc : Rested cube ins outs)
    (hroom : outs.length + hand.length ≤ size) :
    ∃ q' cube', DriverSteps echo ⟨client, .ret q, cube⟩ ⟨client, .ret q', cube'⟩ ∧
      Serves q' [] ∧ Rested cube' ins (outs ++ hand) := by
  cases hq with
  | loop => exact ⟨_, cube, .refl, .loop, (List.append_nil outs).symm ▸ hc⟩
  | waits => exact ⟨_, cube, .refl, .waits, (List.append_nil outs).symm ▸ hc⟩
  | holds w =>
      have hplain : (Proc.send w (.ret (.inl ())) : EchoProc gba).Plain := trivial
      obtain ⟨cube', hs, hc'⟩ := Acts.server_send echo_plain (.send w _) hplain hc hroom
      exact ⟨_, cube', hs, .loop, hc'⟩

theorem steps_serve (hq : Serves q []) (hc : Rested cube (ws.map joybus) outs)
    (hroom : outs.length + ws.length ≤ size) :
    ∃ q' cube', DriverSteps echo ⟨client, .ret q, cube⟩ ⟨client, .ret q', cube'⟩ ∧
      Serves q' [] ∧ Rested cube' [] (outs ++ ws.map joybus) := by
  induction ws generalizing q cube outs with
  | nil => exact ⟨q, cube, .refl, hq, (List.append_nil outs).symm ▸ hc⟩
  | cons w ws ih =>
      rw [List.length_cons] at hroom
      have hacts : Acts echo.wire (echo.body gba) gba q (wii, w)
          (.send (joybus w) (.ret (.inl ()))) := by
        cases hq with
        | loop => exact .loop (.recv w _)
        | waits => exact .recv w _
      have hplain : q.Plain := by
        cases hq with
        | loop => exact trivial
        | waits => exact fun _ => trivial
      obtain ⟨cube₁, hs₁, hc₁⟩ := Acts.server_recv echo_plain hacts hplain hc
      obtain ⟨q₂, cube₂, hs₂, hq₂, hc₂⟩ := steps_hand (.holds (joybus w)) hc₁
        (by rw [List.length_singleton]; omega)
      obtain ⟨q₃, cube₃, hs₃, hq₃, hc₃⟩ := ih hq₂ hc₂
        (by rw [List.length_append, List.length_singleton]; omega)
      rw [List.append_assoc] at hc₃
      exact ⟨q₃, cube₃, (hs₁.trans hs₂).trans hs₃, hq₃, hc₃⟩

end Steps

section Finish

variable {size : Nat} {cube : LinkCube size} {thread : Thread EchoHeads EchoOuts size}
variable {q : EchoProc gba} {st : Received} {inc out outs hand rest ws vs got : List Word}
variable {cfg : Config Word EchoHeads EchoOuts} {d : Driven EchoHeads EchoOuts size}

/-- When the Wii has written its line, the words in flight can be brought to it. -/
theorem steps_back (hq : Serves q hand) (hf : Free cube)
    (hheld : cube.Held inc out (vs.map joybus) outs) (houts : ∀ w ∈ outs, w ≠ 0)
    (hback : ∀ w ∈ hand ++ vs.map joybus, w ≠ 0)
    (hroom : outs.length + (hand ++ vs.map joybus).length ≤ size) :
    ∃ d' r, DriverSteps echo ⟨receiveLine (outs.length + (hand ++ vs.map joybus).length) st >>=
        fun st => .ret (.inr st), .ret q, cube⟩ d' ∧ d'.client = .ret (.inr r) := by
  have hlen : (hand ++ vs.map joybus).length = hand.length + vs.length := by
    rw [List.length_append, List.length_map]
  obtain ⟨cube₁, inc₁, out₁, st₁, hs₁, hf₁, hheld₁⟩ := steps_receiveLine hf hheld
    (by rw [List.length_map]; omega) houts (hand ++ vs.map joybus).length
  obtain ⟨n, hn⟩ : ∃ n, (hand ++ vs.map joybus).length = n := ⟨_, rfl⟩
  rw [hn] at hs₁ hroom hlen ⊢
  cases n with
  | zero => exact ⟨_, st₁, hs₁, rfl⟩
  | succ n =>
      have hpoll : DriverStep echo
          ⟨receiveLine (n + 1) st₁ >>= fun st => .ret (.inr st), .ret q, cube₁⟩
          ⟨receiveLine (n + 1) st₁ >>= fun st => .ret (.inr st), .ret q, cube₁.sent⟩ :=
        step_poll_idle echo_polled hheld₁.joyTrans_nil
      have hc₁ := hf₁.sent_nil hheld₁ (by rw [List.length_map]; omega)
      obtain ⟨q₂, cube₂, hs₂, hq₂, hc₂⟩ := steps_hand hq hc₁ (by simp only [List.length_nil]; omega)
      obtain ⟨q₃, cube₃, hs₃, hq₃, hc₃⟩ := steps_serve hq₂ hc₂
        (by simp only [List.length_append, List.length_nil]; omega)
      rw [List.nil_append] at hc₃
      obtain ⟨cube₄, inc₄, out₄, st₄, hs₄, _⟩ :=
        steps_receiveLine hc₃.free hc₃.held (Nat.zero_le size) hback 0
      rw [hn] at hs₄
      exact ⟨_, st₄, ((hs₁.tail hpoll).trans hs₂).trans (hs₃.trans hs₄), rfl⟩

theorem steps_line (hq : Serves q hand) (hf : Free cube)
    (hheld : cube.Held inc out (vs.map joybus) outs) (houts : ∀ w ∈ outs, w ≠ 0)
    (hback : ∀ w ∈ hand ++ (vs ++ rest).map joybus, w ≠ 0)
    (hlen : ws.length = outs.length + (hand ++ (vs ++ rest).map joybus).length)
    (hroom : ws.length ≤ size) :
    ∃ d' r, DriverSteps echo ⟨Proc.sendAll rest >>= fun _ => receiveLine ws.length st >>=
        fun st => .ret (.inr st), .ret q, cube⟩ d' ∧ d'.client = .ret (.inr r) := by
  have hlens : (hand ++ (vs ++ rest).map joybus).length =
      hand.length + (vs.length + rest.length) := by
    simp only [List.length_append, List.length_map]
  obtain ⟨cube₁, inc₁, hs₁, hf₁, hheld₁⟩ := steps_sendAll rest hf hheld
    (by rw [List.length_map]; omega) fun _ => receiveLine ws.length st >>= fun st => .ret (.inr st)
  rw [← List.map_append] at hheld₁
  obtain ⟨d', r, hs₂, hr⟩ := steps_back hq hf₁ hheld₁ houts hback (by omega)
  rw [← hlen] at hs₂
  exact ⟨d', r, hs₁.trans hs₂, hr⟩

/-- From wherever it is a line can be brought to its end. -/
theorem Shows.echo_finish (h : Shows echo d cfg inc out) (he : Echoing ws st got hand rest cfg)
    (hne : ∀ w ∈ ws, w ≠ 0) (hsize : ws.length ≤ size) :
    ∃ d' r, DriverSteps echo d d' ∧ d'.client = .ret (.inr r) := by
  obtain ⟨client, thread, cube⟩ := d
  have hthread := steps_thread (N := echo) client thread cube
  obtain ⟨cfg', inc', out', got', hand', rest', hshows, hecho⟩ := h.echo_steps he hne hsize hthread
  obtain ⟨hproc, hf⟩ := hshows.stage.of_ret
  have hq : Serves (thread.run cube).1 hand' := hproc ▸ hecho.serves
  have hheld : (thread.run cube).2.Held inc' out' ((cfg'.inbox gba).map joybus) (cfg'.inbox wii) :=
    hshows.held
  have hwords := hecho.words
  have hlen := congrArg List.length hwords
  have hnonzero : ∀ v, joybus v ∈ ws → v ≠ 0 := by
    rintro v hv rfl
    exact hne _ hv (by decide +kernel)
  have hspeaks := hecho.speaks
  rw [show cfg'.proc wii = client from hshows.client] at hspeaks
  have hplay : ∀ {p}, DriverSteps echo ⟨client, thread, cube⟩ p →
      (∃ d' r, DriverSteps echo p d' ∧ d'.client = .ret (.inr r)) →
      ∃ d' r, DriverSteps echo ⟨client, thread, cube⟩ d' ∧ d'.client = .ret (.inr r) :=
    fun hs ⟨d', r, hs', hr⟩ => ⟨d', r, hs.trans hs', hr⟩
  have houts : ∀ w ∈ cfg'.inbox wii, w ≠ 0 := fun w hw => hnonzero w (by
    rw [hwords]
    exact List.mem_append_left _ (List.mem_append_right _
      (List.mem_map_of_mem (List.mem_append_left _ hw))))
  have hback : ∀ w ∈ hand' ++ (cfg'.inbox gba ++ rest').map joybus, w ≠ 0 := fun w hw => by
    refine hnonzero w ?_
    rw [hwords]
    rcases List.mem_append.mp hw with hw | hw
    · exact List.mem_append_left _ (List.mem_append_right _
        (List.mem_map_of_mem (List.mem_append_right _ hw)))
    · obtain ⟨v, hv, rfl⟩ := List.mem_map.mp hw
      rw [joybus_joybus]
      exact List.mem_append_right _ hv
  simp only [List.length_append, List.length_map] at hlen
  cases hspeaks with
  | starts =>
      obtain ⟨hwii, rfl, hgba⟩ := hecho.start_empty
      rw [hwii, hgba] at hheld
      rw [hgba, List.nil_append] at hback
      have hc := hf.sent_nil hheld (Nat.zero_le size)
      refine hplay (hthread.tail (step_clear_idle echo_polled hheld.joyTrans_nil)) ?_
      refine steps_line hq hc.free hc.held (fun _ hw => by cases hw) hback ?_ hsize
      simp only [List.length_map, List.length_nil, List.nil_append]
      omega
  | sends w rest' =>
      refine hplay hthread (steps_line hq hf hheld houts hback ?_ hsize)
      simp only [List.length_append, List.length_map, List.length_nil] at hlen ⊢
      omega
  | @receives _ n hn =>
      refine hplay hthread ?_
      rw [List.append_nil] at hback
      have hn' : n = (cfg'.inbox wii).length +
          (hand' ++ (cfg'.inbox gba).map joybus).length := by
        simp only [List.length_append, List.length_map, List.length_nil] at hlen ⊢
        omega
      rw [hn']
      exact steps_back hq hf hheld houts hback (by omega)

end Finish

abbrev EchoDriven := Driven EchoHeads EchoOuts linkCubeQueueSize

def echoStarted (r : Received) : EchoDriven where
  client := .ret (.inr r)
  thread := .ret (.ret (.inl ()))
  cube := LinkCube.initial.activate

structure EchoCall where
  input : List Byte
  beyond : Memory
  result : Received

def EchoCall.run (c : EchoCall) : EchoProc wii × Received := (echoLine c.input c.beyond, c.result)

/-- What has come back is the line, and it is within the buffer. -/
def EchoCall.Right (c : EchoCall) : Prop :=
  (∀ i ∈ c.result.stores, i < msgSize) ∧
    ofArray (fun i : Fin msgSize => c.result.inmsg i) = ofArray (message c.input)

section Session

variable {d d' : EchoDriven} {r : Received} {cs : List EchoCall} {inc out : List Word}
variable {cfg : Config Word EchoHeads EchoOuts} {input : List Byte}

theorem shows_echoStarted (r : Received) : ∃ cfg inc out,
    Shows echo (echoStarted r) cfg inc out ∧ Silent cfg := by
  have hcleared : ∀ q : Queue linkCubeQueueSize, q.cleared.ring.Holds [] :=
    fun q => Ring.holds_clear (by decide) _
  let proc : ∀ side, EchoProc side := fun side =>
    Side.rec (motive := EchoProc) (.ret (.inr r)) (.ret (.inl ())) side
  refine ⟨⟨proc, fun _ => []⟩, [], [], ⟨rfl, .between ⟨rfl, rfl⟩, ?_⟩, .loop, fun _ => rfl⟩
  exact ⟨rfl, rfl, rfl, rfl, rfl, fun _ => hcleared _, fun _ => hcleared _, ⟨[], hcleared _, rfl⟩,
    rfl⟩

theorem lineWords_fit (h : (ofArray (message input)).length ≤ 124) (beyond : Memory) :
    (lineWords input beyond).length ≤ linkCubeQueueSize :=
  (length_lineWords h beyond).trans (by decide)

theorem DriverSession.echo_right (h : DriverSession echo d (cs.map EchoCall.run) d')
    (hshort : ∀ c ∈ cs, (ofArray (message c.input)).length ≤ 124)
    (hshows : Shows echo d cfg inc out) (hq : Silent cfg) :
    (∀ c ∈ cs, c.Right) ∧ ∃ cfg' inc' out', Shows echo d' cfg' inc' out' ∧ Silent cfg' := by
  induction cs generalizing d cfg inc out with
  | nil =>
      cases h with
      | nil => exact ⟨fun _ hc => (by cases hc), cfg, inc, out, hshows, hq⟩
  | cons c cs ih =>
      cases h with
      | cons _ hsteps hr hrest =>
          have hline := hshort c List.mem_cons_self
          obtain ⟨hne, hright⟩ := lineWords_received hline c.beyond
          obtain ⟨hres, cfg₁, inc₁, out₁, hshows₁, hq₁⟩ :=
            hshows.echo_line hq hne (lineWords_fit hline c.beyond) hsteps hr
          obtain ⟨hall, hend⟩ :=
            ih hrest (fun c' hc' => hshort c' (List.mem_cons_of_mem c hc')) hshows₁ hq₁
          refine ⟨fun c' hc' => ?_, hend⟩
          cases hc' with
          | head =>
              rw [EchoCall.Right, show c.result = _ from hres]
              exact hright
          | tail _ hc' => exact hall c' hc'

/-- In every session of lines that fit into the buffers each line comes back, and the next line
cannot get stuck: no word of it is dropped, and from wherever it is it can be brought to its
end. -/
theorem echo_driver (cs : List EchoCall)
    (hshort : ∀ c ∈ cs, (ofArray (message c.input)).length ≤ 124)
    (hd : DriverSession echo (echoStarted r) (cs.map EchoCall.run) d) :
    (∀ c ∈ cs, c.Right) ∧
      ∀ (input : List Byte) (beyond : Memory) (d₁ : EchoDriven),
        (ofArray (message input)).length ≤ 124 →
        DriverSteps echo { d with client := echoLine input beyond } d₁ →
          d₁.cube.newIncomingQueue.ring.overflow = false ∧
          ∃ d₂ st, DriverSteps echo d₁ d₂ ∧ d₂.client = .ret (.inr st) := by
  obtain ⟨_, _, _, hshows, hq⟩ := shows_echoStarted r
  obtain ⟨hright, _, _, _, hshows', hq'⟩ := hd.echo_right hshort hshows hq
  refine ⟨hright, fun input beyond d₁ hline hsteps => ?_⟩
  have hne := (lineWords_received hline beyond).1
  have hfit := lineWords_fit hline beyond
  obtain ⟨_, _, _, _, _, _, hshows₁, hecho₁⟩ :=
    (hshows'.start (echoLine input beyond)).echo_steps (hq'.echoing _ _) hne hfit hsteps
  exact ⟨hshows₁.held.overflow, hshows₁.echo_finish hecho₁ hne hfit⟩

/-- The line "hi" comes back. -/
theorem echo_driver_hi : ∃ (r st : Received) (d : EchoDriven),
    DriverSession echo (echoStarted r) [(echoLine [104, 105, 10] fun _ => 0, st)] d ∧
    ofArray (fun i : Fin msgSize => st.inmsg i) = [104, 105, 10] := by
  have hline : (ofArray (message [104, 105, 10])) = [104, 105, 10] := by decide +kernel
  have hshort : (ofArray (message [104, 105, 10])).length ≤ 124 := by
    rw [hline]
    decide
  let r : Received := ⟨0, fun _ => 0, []⟩
  obtain ⟨_, d, st, hsteps, hr⟩ := (echo_driver (r := r) [] (fun _ hc => by cases hc)
    (.nil _)).2 [104, 105, 10] (fun _ => 0) _ hshort .refl
  have hd : DriverSession echo (echoStarted r) ([(⟨[104, 105, 10], fun _ => 0, st⟩ : EchoCall)].map
      EchoCall.run) d := .cons rfl hsteps hr (.nil d)
  have hright := (echo_driver _ (fun c hc => by rwa [List.mem_singleton.mp hc]) hd).1 _
    List.mem_cons_self
  exact ⟨r, st, d, hd, hright.2.trans hline⟩

end Session

end WiiJoybus
