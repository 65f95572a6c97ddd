import WiiJoybus.Echo.Echo
import WiiJoybus.Link.DriverProgress

/-!
The echo program over the driver.

Here both sides are at work at once: the GBA sends words back while the Wii is still
writing its line. The words of the line are then in five places, and from one place to
the next they keep their order.
-/

namespace WiiJoybus
open ByteMemory Port CString Dialogue Dialogue.Network RingBuffer

section Program

abbrev EchoHeads : Side → Type
  | wii => Empty
  | gba => Unit

abbrev EchoOuts : Side → Type
  | wii => Received
  | gba => Empty

abbrev EchoProc (s : Side) := Proc Word (EchoHeads s ⊕ EchoOuts s)

/-- `recv = linkCube->read(); linkCube->send(recv)` -/
def echoServe : EchoProc gba := .recv fun recv => .send recv (.ret (.inl ()))

def echo : Network Word EchoHeads EchoOuts where
  wire := joybus
  idle := idle
  body
    | wii, h => nomatch h
    | gba, _ => echoServe
  home _ := True
  home_recv _ _ := ⟨_, rfl⟩

/-- The loop that receives, for `n` more words. -/
def receiveLine : Nat → Received → Proc Word Received
  | 0, st => .ret st
  | n + 1, st => .recv fun readIn => receiveLine n (st.take readIn)

/-- The part of the program between two lines: `wait_clear` and the two loops. -/
def echoWords (ws : List Word) (st : Received) : EchoProc wii :=
  .clear (Proc.sendAll ws >>= fun _ => receiveLine ws.length st >>= fun st => .ret (.inr st))

def lineWords (input : List Byte) (beyond : Memory) : List Word :=
  (positions 0 (((echoSize (message input)).toNat + 3) / 4)).map fun i =>
    bswap (hostWord (placed (message input) beyond) i)

def echoLine (input : List Byte) (beyond : Memory) : EchoProc wii :=
  echoWords (lineWords input beyond) ⟨0, placed (fun _ => 0) beyond, []⟩

/-- The loops of the two descriptions send the same words. -/
theorem written_echoSend {input : List Byte} {beyond : Memory} {ev : List Event}
    (h : Runs (placed (message input) beyond) (echoSend (echoSize (message input))) ev ()) :
    ev.filterMap written? = (lineWords input beyond).map hostBytes := by
  rw [echoSend_written h, lineWords, List.map_map]
  rfl

theorem consume_receiveLine (n : Nat) (st : Received) (polls : List Word) :
    (receiveLine n st).consume (idle wii) polls = echoReceive (st.i + 4 * n) polls st := by
  induction polls generalizing n st with
  | nil =>
      cases n with
      | zero => simp [receiveLine, Proc.consume, echoReceive]
      | succ n => simp [receiveLine, Proc.consume, echoReceive]
  | cons readIn polls ih =>
      cases n with
      | zero => simp [receiveLine, Proc.consume, echoReceive]
      | succ n =>
          rw [echoReceive, if_pos (by omega)]
          by_cases hzero : readIn = 0
          · have hskip : (receiveLine (n + 1) st).consume (idle wii) (readIn :: polls) =
                (receiveLine (n + 1) st).consume (idle wii) polls := by
              simp [receiveLine, Proc.consume, idle, hzero]
            rw [hskip, ih, if_neg (not_not.mpr hzero)]
          · have haudible : idle wii readIn = false := beq_false_of_ne hzero
            have htake : (receiveLine (n + 1) st).consume (idle wii) (readIn :: polls) =
                (receiveLine n (st.take readIn)).consume (idle wii) polls := by
              simp only [receiveLine, Proc.consume, List.dropWhile_cons, haudible,
                Bool.false_eq_true, if_false]
            have hi : (st.take readIn).i + 4 * n = st.i + 4 * (n + 1) := by
              change st.i + 4 + 4 * n = _
              omega
            rw [htake, ih, if_pos hzero, hi]

end Program

section Flight

variable {ws got hand rest : List Word} {st : Received} {cfg cfg' : Config Word EchoHeads EchoOuts}

/-- Where the GBA's program is, with the word it has in hand. -/
inductive Serves : EchoProc gba → List Word → Prop where
  | loop : Serves (.ret (.inl ())) []
  | waits : Serves echoServe []
  | holds (w) : Serves (.send w (.ret (.inl ()))) [w]

/-- Where the Wii's program is, with the words it has got and those it has still to send. -/
inductive Speaks (ws : List Word) (st : Received) :
    EchoProc wii → List Word → List Word → Prop where
  | starts : Speaks ws st (echoWords ws st) [] ws
  | sends (w rest) : Speaks ws st (Proc.sendAll (w :: rest) >>= fun _ =>
      receiveLine ws.length st >>= fun st => .ret (.inr st)) [] (w :: rest)
  | receives {got n} (hn : got.length + n = ws.length) : Speaks ws st
      (receiveLine n (got.foldl Received.take st) >>= fun st => .ret (.inr st)) got []

/-- The words of a line are with the Wii, in flight, in the GBA's hand or still to be sent. -/
structure Echoing (ws : List Word) (st : Received) (got hand rest : List Word)
    (cfg : Config Word EchoHeads EchoOuts) : Prop where
  serves : Serves (cfg.proc gba) hand
  speaks : Speaks ws st (cfg.proc wii) got rest
  words : ws = got ++ (cfg.inbox wii ++ hand).map joybus ++ (cfg.inbox gba ++ rest)

theorem speaks_rest (ws rest : List Word) (st : Received) : Speaks ws st
    (Proc.sendAll rest >>= fun _ => receiveLine ws.length st >>= fun st => .ret (.inr st))
    [] rest := by
  cases rest with
  | nil =>
      have hn : ([] : List Word).length + ws.length = ws.length := Nat.zero_add _
      exact .receives hn
  | cons w rest => exact .sends w rest

theorem Speaks.of_send {w : Word} {k : EchoProc wii} (h : Speaks ws st (.send w k) got rest) :
    ∃ rest', rest = w :: rest' := by
  generalize hp : (.send w k : EchoProc wii) = p at h
  cases h with
  | starts => cases hp
  | sends v rest' =>
      cases hp
      exact ⟨rest', rfl⟩
  | @receives _ n _ => cases n <;> cases hp

theorem Speaks.of_clear {k : EchoProc wii} (h : Speaks ws st (.clear k) got rest) :
    got = [] ∧ rest = ws := by
  generalize hp : (.clear k : EchoProc wii) = p at h
  cases h with
  | starts => exact ⟨rfl, rfl⟩
  | sends v rest' => cases hp
  | @receives _ n _ => cases n <;> cases hp

theorem Speaks.of_ret {r : Received} (h : Speaks ws st (.ret (.inr r)) got rest) :
    r = got.foldl Received.take st ∧ got.length = ws.length ∧ rest = [] := by
  generalize hp : (.ret (.inr r) : EchoProc wii) = p at h
  cases h with
  | starts => cases hp
  | sends v rest' => cases hp
  | @receives _ n hn =>
      cases n with
      | zero =>
          cases hp
          exact ⟨rfl, hn, rfl⟩
      | succ n => cases hp

theorem joybus_joybus (w : Word) : joybus (joybus w) = w := bswap_bswap (by decide) w

theorem Echoing.start_empty (h : Echoing ws st [] hand ws cfg) :
    cfg.inbox wii = [] ∧ hand = [] ∧ cfg.inbox gba = [] := by
  have hlen := congrArg List.length h.words
  simp only [List.nil_append, List.length_append, List.length_map] at hlen
  exact ⟨List.length_eq_zero_iff.mp (by omega), List.length_eq_zero_iff.mp (by omega),
    List.length_eq_zero_iff.mp (by omega)⟩

theorem Echoing.step_wii (h : Echoing ws st got hand rest cfg) (hne : ∀ w ∈ ws, w ≠ 0)
    {p : EchoProc wii} {i out : List Word}
    (hl : echo.LocalStep wii (cfg.proc wii) (cfg.inbox wii) p i out) :
    ∃ got' rest', Echoing ws st got' hand rest' (cfg.after wii p i out) := by
  have hwords := h.words
  have hspeaks := h.speaks
  have hafter : ∀ {got' rest'}, Speaks ws st p got' rest' →
      ws = got' ++ (i ++ hand).map joybus ++ (cfg.inbox gba ++ out ++ rest') →
      Echoing ws st got' hand rest' (cfg.after wii p i out) := fun hp hw =>
    { serves := by
        rw [Config.after_proc_of_ne cfg wii p i out (by decide)]
        exact h.serves
      speaks := by rwa [Config.after_proc_self]
      words := by
        rw [Config.after_inbox_self, Config.after_inbox_of_ne cfg wii p i out (by decide)]
        exact hw }
  generalize hproc : cfg.proc wii = q at hl hspeaks
  generalize hinbox : cfg.inbox wii = ins at hl hwords
  cases hspeaks with
  | starts =>
      cases hl with
      | clear k => exact ⟨[], ws, hafter (speaks_rest ws ws st) (by simpa using hwords)⟩
      | drain w k i =>
          rw [h.start_empty.1] at hinbox
          cases hinbox
  | sends w rest =>
      cases hl with
      | send _ k i => exact ⟨[], rest, hafter (speaks_rest ws rest st) (by simpa using hwords)⟩
  | @receives _ n hn =>
      cases n with
      | zero => cases hl
      | succ n =>
          cases hl with
          | recv w k i hidle =>
              have hp : Speaks ws st (receiveLine n ((got ++ [joybus w]).foldl Received.take st) >>=
                  fun st => .ret (.inr st)) (got ++ [joybus w]) [] :=
                .receives (by rw [List.length_append, List.length_singleton]; omega)
              rw [List.foldl_append] at hp
              exact ⟨got ++ [joybus w], [], hafter hp (by simpa using hwords)⟩
          | skip w k i hidle =>
              have hzero : joybus w = 0 := eq_of_beq hidle
              exact absurd hzero (hne _ (by rw [hwords]; simp))

theorem Echoing.step_gba (h : Echoing ws st got hand rest cfg) {p : EchoProc gba}
    {i out : List Word}
    (hl : echo.LocalStep gba (cfg.proc gba) (cfg.inbox gba) p i out) :
    ∃ hand', Echoing ws st got hand' rest (cfg.after gba p i out) := by
  have hwords := h.words
  have hserves := h.serves
  have hafter : ∀ {hand'}, Serves p hand' →
      ws = got ++ (cfg.inbox wii ++ out ++ hand').map joybus ++ (i ++ rest) →
      Echoing ws st got hand' rest (cfg.after gba p i out) := fun hp hw =>
    { serves := by rwa [Config.after_proc_self]
      speaks := by
        rw [Config.after_proc_of_ne cfg gba p i out (by decide)]
        exact h.speaks
      words := by
        rw [Config.after_inbox_self, Config.after_inbox_of_ne cfg gba p i out (by decide)]
        exact hw }
  generalize hproc : cfg.proc gba = q at hl hserves
  generalize hinbox : cfg.inbox gba = ins at hl hwords
  cases hserves with
  | loop =>
      cases hl with
      | loop _ i => exact ⟨[], hafter .waits (by simpa using hwords)⟩
  | waits =>
      cases hl with
      | recv w k i hidle =>
          refine ⟨[joybus w], hafter (.holds (joybus w)) ?_⟩
          rw [hwords]
          simp [joybus_joybus]
      | skip w k i hidle => cases hidle
  | holds w =>
      cases hl with
      | send _ k i => exact ⟨[], hafter .loop (by simpa using hwords)⟩

theorem Echoing.step (h : Echoing ws st got hand rest cfg) (hne : ∀ w ∈ ws, w ≠ 0)
    (hstep : echo.Step cfg cfg') : ∃ got' hand' rest', Echoing ws st got' hand' rest' cfg' := by
  obtain ⟨s, p, i, out, hl, rfl⟩ := hstep
  cases s with
  | client =>
      obtain ⟨got', rest', h'⟩ := h.step_wii hne hl
      exact ⟨got', hand, rest', h'⟩
  | server =>
      obtain ⟨hand', h'⟩ := h.step_gba hl
      exact ⟨got, hand', rest, h'⟩

/-- There are never more words in a place than the line has. -/
theorem Echoing.carried (h : Echoing ws st got hand rest cfg) (hne : ∀ w ∈ ws, w ≠ 0) :
    Carried echo ws.length cfg := by
  have hlen := congrArg List.length h.words
  simp only [List.length_append, List.length_map] at hlen
  refine ⟨fun s => ?_, fun {s w k} hproc => ?_, fun {w} hw => ?_, fun {k} hproc => ?_⟩
  · cases s with
    | client => change (cfg.inbox wii).length ≤ _; omega
    | server => change (cfg.inbox gba).length ≤ _; omega
  · cases s with
    | client =>
        have hspeaks := h.speaks
        change (cfg.inbox gba).length < _
        change cfg.proc wii = _ at hproc
        rw [hproc] at hspeaks
        obtain ⟨rest', rfl⟩ := hspeaks.of_send
        rw [List.length_cons] at hlen
        omega
    | server =>
        have hserves := h.serves
        change (cfg.inbox wii).length < _
        change cfg.proc gba = _ at hproc
        rw [hproc] at hserves
        cases hserves with
        | holds w => simp only [List.length_singleton] at hlen; omega
  · have hmem : joybus w ∈ (cfg.inbox wii ++ hand).map joybus :=
      List.mem_map_of_mem (List.mem_append_left _ hw)
    refine beq_false_of_ne (hne _ ?_)
    rw [h.words]
    exact List.mem_append_left _ (List.mem_append_right _ hmem)
  · have hspeaks := h.speaks
    rw [hproc] at hspeaks
    obtain ⟨rfl, rfl⟩ := hspeaks.of_clear
    exact h.start_empty.1

end Flight

section Line

variable {input : List Byte} {ws : List Word}

theorem consume_words (hne : ∀ w ∈ ws, w ≠ 0) (st : Received) :
    (receiveLine ws.length st).consume (idle wii) ws = some (ws.foldl Received.take st, []) := by
  induction ws generalizing st with
  | nil => rfl
  | cons w ws ih =>
      have haudible : idle wii w = false := beq_false_of_ne (hne w List.mem_cons_self)
      rw [List.length_cons, receiveLine, Proc.consume, List.dropWhile_cons, haudible]
      exact ih (fun v hv => hne v (List.mem_cons_of_mem w hv)) (st.take w)

theorem length_lineWords (h : (ofArray (message input)).length ≤ 124) (beyond : Memory) :
    (lineWords input beyond).length ≤ 31 := by
  rw [lineWords, List.length_map, positions, List.length_map, List.length_range, echoSize_toNat]
  omega

theorem lineWords_received (h : (ofArray (message input)).length ≤ 124) (beyond : Memory) :
    (∀ w ∈ lineWords input beyond, w ≠ 0) ∧
      (∀ i ∈ ((lineWords input beyond).foldl Received.take
        ⟨0, placed (fun _ => 0) beyond, []⟩).stores, i < msgSize) ∧
      ofArray (fun i : Fin msgSize => ((lineWords input beyond).foldl Received.take
        ⟨0, placed (fun _ => 0) beyond, []⟩).inmsg i) = ofArray (message input) := by
  obtain ⟨ev, hrun⟩ := exists_echoSend (placed (message input) beyond) (echoSize (message input))
  obtain ⟨_, hsent, hback⟩ := echoRight_of_short h beyond ev hrun
  rw [written_echoSend hrun] at hsent hback
  have hechoed : ((lineWords input beyond).map hostBytes).map echoed = lineWords input beyond := by
    rw [lineWords, List.map_map, List.map_map]
    exact List.map_congr_left fun i _ => echoed_hostBytes _
  have hne : ∀ w ∈ lineWords input beyond, w ≠ 0 := by
    intro w hw hzero
    obtain ⟨i, hi, rfl⟩ := List.mem_map.mp hw
    have hword := hsent _ (List.mem_map_of_mem hw)
    rw [wireWord_hostBytes] at hword
    exact hword ((bswap_eq_zero_iff (by decide) _).mp hzero)
  rw [hechoed] at hback
  have hfilter : (lineWords input beyond).filter (· ≠ 0) = lineWords input beyond ++ [] := by
    rw [List.append_nil, List.filter_eq_self]
    exact fun w hw => decide_eq_true (hne w hw)
  obtain ⟨st, rest, hreceive, _, hstores, hline⟩ := hback _ _ hfilter
  have hcount : 0 + 4 * (lineWords input beyond).length = (echoSize (message input)).toNat := by
    rw [lineWords, List.length_map, positions, List.length_map, List.length_range, echoSize_toNat]
    omega
  have hconsume := consume_receiveLine (lineWords input beyond).length
    ⟨0, placed (fun _ => 0) beyond, []⟩ (lineWords input beyond)
  change _ = echoReceive (0 + 4 * _) _ _ at hconsume
  rw [consume_words hne, hcount, hreceive, Option.some.injEq, Prod.mk.injEq] at hconsume
  rw [hconsume.1]
  exact ⟨hne, hstores, hline⟩

end Line

section Driver

variable {size : Nat} {ws got hand rest : List Word} {st : Received} {inc out : List Word}
variable {cfg : Config Word EchoHeads EchoOuts} {d d' : Driven EchoHeads EchoOuts size}

theorem echo_polled : Polled echo where
  idle_zero := by
    change (joybus 0 == 0) = true
    decide +kernel
  heard _ := rfl

/-- Nothing is in flight, and the GBA waits. -/
structure Silent (cfg : Config Word EchoHeads EchoOuts) : Prop where
  serves : Serves (cfg.proc gba) []
  inbox : ∀ s, cfg.inbox s = []

theorem Shows.echo_steps (h : Shows echo d cfg inc out) (he : Echoing ws st got hand rest cfg)
    (hne : ∀ w ∈ ws, w ≠ 0) (hsize : ws.length ≤ size) (hs : DriverSteps echo d d') :
    ∃ cfg' inc' out' got' hand' rest',
      Shows echo d' cfg' inc' out' ∧ Echoing ws st got' hand' rest' cfg' := by
  induction hs with
  | refl => exact ⟨cfg, inc, out, got, hand, rest, h, he⟩
  | tail _ hstep ih =>
      obtain ⟨cfg₁, inc₁, out₁, got₁, hand₁, rest₁, hshows, hecho⟩ := ih
      obtain ⟨cfg₂, inc₂, out₂, rfl | hstep', hshows'⟩ :=
        hshows.step echo_polled hsize (hecho.carried hne) hstep
      · exact ⟨cfg₂, inc₂, out₂, got₁, hand₁, rest₁, hshows', hecho⟩
      · obtain ⟨got₂, hand₂, rest₂, hecho'⟩ := hecho.step hne hstep'
        exact ⟨cfg₂, inc₂, out₂, got₂, hand₂, rest₂, hshows', hecho'⟩

theorem Silent.echoing (h : Silent cfg) (ws : List Word) (st : Received) :
    Echoing ws st [] [] ws (cfg.start (echoWords ws st)) where
  serves := by
    have hside : gba ≠ wii := by decide
    simp only [Config.start, Function.update_of_ne hside]
    exact h.serves
  speaks := by
    simp only [Config.start, Function.update_self]
    exact .starts
  words := by
    simp only [Config.start, h.inbox, List.append_nil, List.map_nil, List.nil_append]

/-- A program that has returned has the words of the line, and nothing is left in flight. -/
theorem Echoing.returned (h : Echoing ws st got hand rest cfg) {r : Received}
    (hr : cfg.proc wii = .ret (.inr r)) : r = ws.foldl Received.take st ∧ Silent cfg := by
  have hspeaks := h.speaks
  rw [hr] at hspeaks
  obtain ⟨rfl, hgot, rfl⟩ := hspeaks.of_ret
  have hwords := h.words
  have hlen := congrArg List.length hwords
  simp only [List.length_append, List.length_map, List.append_nil] at hlen
  have hwii : cfg.inbox wii = [] := List.length_eq_zero_iff.mp (by omega)
  have hhand : hand = [] := List.length_eq_zero_iff.mp (by omega)
  have hgba : cfg.inbox gba = [] := List.length_eq_zero_iff.mp (by omega)
  rw [hwii, hhand, hgba] at hwords
  simp only [List.append_nil, List.map_nil] at hwords
  refine ⟨by rw [hwords], hhand ▸ h.serves, fun s => ?_⟩
  cases s with
  | client => exact hwii
  | server => exact hgba

theorem Shows.echo_line (h : Shows echo d cfg inc out) (hq : Silent cfg)
    (hne : ∀ w ∈ ws, w ≠ 0) (hsize : ws.length ≤ size)
    (hs : DriverSteps echo { d with client := echoWords ws st } d') {r : Received}
    (hr : d'.client = .ret (.inr r)) :
    r = ws.foldl Received.take st ∧
      ∃ cfg' inc' out', Shows echo d' cfg' inc' out' ∧ Silent cfg' := by
  obtain ⟨cfg', inc', out', got', hand', rest', hshows, hecho⟩ :=
    (h.start (echoWords ws st)).echo_steps (hq.echoing ws st) hne hsize hs
  obtain ⟨hres, hq'⟩ := hecho.returned (hshows.client.trans hr)
  exact ⟨hres, cfg', inc', out', hshows, hq'⟩

end Driver

end WiiJoybus
