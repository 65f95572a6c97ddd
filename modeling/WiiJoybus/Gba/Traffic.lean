import WiiJoybus.Gba.LinkCube

/-!
The driver under any traffic.

Nothing is assumed of the program on the GBA but that it calls `send`, and `read` after
`canRead`, and nothing of the Wii. The queues may run over then: what comes through
still keeps its order, and the flags of the queues tell whether anything was lost.
-/

namespace WiiJoybus
open Interrupt RingBuffer

variable {size : Nat}

section Conserves

variable {lost : Bool} {xs xs' ys : List Word}

/-- `ys` has come through as `xs`, but for what was lost. -/
structure Conserves (lost : Bool) (xs ys : List Word) : Prop where
  sublist : xs.Sublist ys
  eq_iff : lost = false ↔ xs = ys

theorem Conserves.append (h : Conserves lost xs ys) (w : Word) :
    Conserves lost (xs ++ [w]) (ys ++ [w]) :=
  ⟨h.sublist.append (.refl [w]), h.eq_iff.trans (List.append_left_inj [w]).symm⟩

theorem Conserves.drop (h : Conserves lost xs ys) (hs : xs'.Sublist xs)
    (hlt : xs'.length < xs.length) : Conserves true xs' ys := by
  refine ⟨hs.trans h.sublist, fun hf => (by cases hf), fun heq => ?_⟩
  have hle := h.sublist.length_le
  rw [heq] at hlt
  omega

end Conserves

namespace LinkCube

variable {c c' : LinkCube size} {inc new out : List Word} {lost : Bool}

/-- What is in the queues. One that the program is at work on may be in any state; then what was
in it before is meant, and whether words had been lost. -/
structure Loaded (c : LinkCube size) (inc new out : List Word) (lost : Bool) : Prop where
  isEnabled : c.isEnabled = true
  needsClear : c.needsClear = false
  outgoingClear : c.outgoingQueue.needsClear = false
  joyCnt : c.joyCnt = .none
  incoming : c.incomingQueue.isReading = false → c.incomingQueue.ring.Holds inc
  newIncoming : c.newIncomingQueue.ring.Holds new
  outgoing : c.outgoingQueue.isWriting = false →
    c.outgoingQueue.ring.Holds out ∧ c.outgoingQueue.ring.overflow = lost

theorem Loaded.withOutgoing (h : c.Loaded inc new out lost) {q : Queue size} {after : List Word}
    {flag : Bool} (hclear : q.needsClear = false)
    (hq : q.isWriting = false → q.ring.Holds after ∧ q.ring.overflow = flag) :
    Loaded { c with outgoingQueue := q } inc new after flag :=
  ⟨h.isEnabled, h.needsClear, hclear, h.joyCnt, h.incoming, h.newIncoming, hq⟩

theorem Loaded.withIncoming (h : c.Loaded inc new out lost) {q : Queue size} {after : List Word}
    (hq : q.isReading = false → q.ring.Holds after) :
    Loaded { c with incomingQueue := q } after new out lost :=
  ⟨h.isEnabled, h.needsClear, h.outgoingClear, h.joyCnt, hq, h.newIncoming, h.outgoing⟩

/-- The loop of `copyState` stops when there is no more room. -/
theorem transfer_split (n : Nat) {new incoming : Queue size} {xs ys : List Word}
    (hnew : new.ring.Holds xs) (hinc : incoming.ring.Holds ys) :
    ∃ moved rest, xs = moved ++ rest ∧ (transfer n new incoming).1.ring.Holds rest ∧
      (transfer n new incoming).2.ring.Holds (ys ++ moved) ∧
      (transfer n new incoming).1.ring.overflow = new.ring.overflow := by
  induction n generalizing new incoming xs ys with
  | zero => exact ⟨[], xs, rfl, hnew, by rwa [List.append_nil], rfl⟩
  | succ n ih =>
      rw [transfer]
      split
      next hmore =>
        simp only [Bool.and_eq_true, Bool.not_eq_true', isEmpty_eq hnew,
          Queue.isFull, hinc.count_eq, beq_eq_false_iff_ne] at hmore
        obtain ⟨x, xs, rfl⟩ : ∃ x xs', xs = x :: xs' := List.exists_cons_of_ne_nil (by
          rintro rfl
          cases hmore.1)
        obtain ⟨hx, hpopped, hoverflow⟩ := hnew.pop_cons
        have hroom : ys.length < size := Nat.lt_of_le_of_ne hinc.length_le hmore.2
        have hpushed : (incoming.pushed new.front).ring.Holds (ys ++ [x]) := by
          rw [Queue.front, hx]
          exact (hinc.push hroom x).1
        have hleft : new.popped.ring.Holds xs := hpopped
        obtain ⟨moved, rest, rfl, hrest, hmoved, hflag⟩ := ih hleft hpushed
        rw [List.append_assoc, List.singleton_append] at hmoved
        exact ⟨x :: moved, rest, rfl, hrest, hmoved, hflag.trans hoverflow⟩
      next => exact ⟨[], xs, rfl, hnew, by rwa [List.append_nil], rfl⟩

theorem Loaded.copyState (h : c.Loaded inc new out lost) :
    ∃ moved rest, new = moved ++ rest ∧ c.copyState.Loaded (inc ++ moved) rest out lost ∧
      Spared c c.copyState ∧ (c.incomingQueue.isReading = true → moved = []) ∧
      c.copyState.newIncomingQueue.ring.overflow = c.newIncomingQueue.ring.overflow ∧
      c.copyState.joyTrans = c.joyTrans := by
  cases hreading : c.incomingQueue.isReading with
  | true =>
      simp only [LinkCube.copyState, hreading, if_true]
      refine ⟨[], new, rfl, ?_, ⟨rfl, rfl, fun _ => rfl, fun _ => rfl⟩, fun _ => rfl, trivial,
        trivial⟩
      rwa [List.append_nil]
  | false =>
      obtain ⟨moved, rest, hnew, hrest, hmoved, hoverflow⟩ :=
        transfer_split c.newIncomingQueue.ring.count h.newIncoming (h.incoming hreading)
      have hflags := transfer_flags c.newIncomingQueue.ring.count c.newIncomingQueue c.incomingQueue
      simp only [LinkCube.copyState, hreading, h.needsClear, Bool.false_eq_true, if_false]
      refine ⟨moved, rest, hnew, ⟨h.isEnabled, rfl, h.outgoingClear, h.joyCnt, fun _ => hmoved,
        hrest, h.outgoing⟩, ⟨hflags, rfl, fun hr => ?_, fun _ => rfl⟩, fun hr => (by cases hr),
        hoverflow, trivial⟩
      rw [hreading] at hr
      cases hr

/-- A word from the Wii drops the oldest of the new ones when there is no room for it. -/
theorem Loaded.receive (h : c.Loaded inc new out lost) (data : Word) :
    ∃ moved rest, (c.receive data).Loaded (inc ++ moved) rest out lost ∧
      Spared c (c.receive data) ∧ (c.incomingQueue.isReading = true → moved = []) ∧
      (c.receive data).joyTrans = c.joyTrans ∧
      (moved ++ rest = new ++ [data] ∧
          (c.receive data).newIncomingQueue.ring.overflow = c.newIncomingQueue.ring.overflow ∨
        ∃ y left, new = y :: left ∧ new.length = size ∧ moved ++ rest = left ++ [data] ∧
          (c.receive data).newIncomingQueue.ring.overflow = true) := by
  have hstored : ∀ {new'}, (c.newIncomingQueue.pushed data).ring.Holds new' →
      Loaded { c with
        joyRecv := data
        newIncomingQueue := c.newIncomingQueue.pushed data } inc new' out lost := fun hnew =>
    ⟨h.isEnabled, h.needsClear, h.outgoingClear, h.joyCnt, h.incoming, hnew, h.outgoing⟩
  rw [receive_eq h.isEnabled h.joyCnt]
  by_cases hfull : new.length = size
  · have hpos := Nat.lt_of_le_of_lt (Nat.zero_le _) h.newIncoming.front_lt
    obtain ⟨y, left, rfl⟩ : ∃ y left, new = y :: left := List.exists_cons_of_length_pos (by omega)
    obtain ⟨hpushed, hoverflow⟩ := h.newIncoming.push_full hfull data
    obtain ⟨moved, rest, heq, hloaded, hspared, hreading, hflag, htrans⟩ :=
      (hstored hpushed).copyState
    exact ⟨moved, rest, hloaded, ⟨hspared.isReading, hspared.isWriting, hspared.incoming,
      hspared.outgoing⟩, hreading, htrans,
      Or.inr ⟨y, left, rfl, hfull, heq.symm, hflag.trans hoverflow⟩⟩
  · obtain ⟨hpushed, hoverflow⟩ :=
      h.newIncoming.push (Nat.lt_of_le_of_ne h.newIncoming.length_le hfull) data
    obtain ⟨moved, rest, heq, hloaded, hspared, hreading, hflag, htrans⟩ :=
      (hstored hpushed).copyState
    exact ⟨moved, rest, hloaded, ⟨hspared.isReading, hspared.isWriting, hspared.incoming,
      hspared.outgoing⟩, hreading, htrans, Or.inl ⟨heq.symm, hflag.trans hoverflow⟩⟩

/-- The port gets the oldest word, or 0 while the program is at work on the queue. -/
theorem Loaded.setPendingData (h : c.Loaded inc new out lost) :
    ∃ gone left, out = gone ++ left ∧ c.setPendingData.Loaded inc new left lost ∧
      Spared c c.setPendingData ∧ (c.outgoingQueue.isWriting = true → gone = []) ∧
      [c.setPendingData.joyTrans].filter (· ≠ 0) = gone.filter (· ≠ 0) ∧
      c.setPendingData.newIncomingQueue = c.newIncomingQueue := by
  cases hwriting : c.outgoingQueue.isWriting with
  | true =>
      simp only [LinkCube.setPendingData, hwriting, if_true]
      exact ⟨[], out, rfl, ⟨h.isEnabled, h.needsClear, h.outgoingClear, h.joyCnt, h.incoming,
        h.newIncoming, h.outgoing⟩, ⟨rfl, rfl, fun _ => rfl, fun _ => rfl⟩, fun _ => rfl, rfl,
        trivial⟩
  | false =>
      have hspared : c.outgoingQueue.isWriting = true → c.outgoingQueue.popped.ring =
          c.outgoingQueue.ring := fun hw => by
        rw [hwriting] at hw
        cases hw
      obtain ⟨hout, hlost⟩ := h.outgoing hwriting
      simp only [LinkCube.setPendingData, hwriting, Bool.false_eq_true, if_false]
      cases out with
      | nil =>
          have hpop := hout.pop_nil
          refine ⟨[], [], rfl, ⟨h.isEnabled, h.needsClear, h.outgoingClear, h.joyCnt, h.incoming,
            h.newIncoming, fun _ => ?_⟩, ⟨rfl, rfl, fun _ => rfl, hspared⟩, fun _ => rfl, ?_,
            trivial⟩
          · simpa only [Queue.popped, hpop] using And.intro hout hlost
          · simp only [Queue.front, hpop]
            rfl
      | cons w out =>
          obtain ⟨hfront, hpopped, hoverflow⟩ := hout.pop_cons
          refine ⟨[w], out, rfl, ⟨h.isEnabled, h.needsClear, h.outgoingClear, h.joyCnt, h.incoming,
            h.newIncoming, fun _ => ⟨hpopped, hoverflow.trans hlost⟩⟩,
            ⟨rfl, rfl, fun _ => rfl, hspared⟩, fun hw => (by cases hw), ?_, trivial⟩
          simp only [Queue.front, hfront]

theorem Loaded.sent (h : c.Loaded inc new out lost) :
    ∃ moved rest gone left, new = moved ++ rest ∧ out = gone ++ left ∧
      c.sent.Loaded (inc ++ moved) rest left lost ∧ Spared c c.sent ∧
      (c.incomingQueue.isReading = true → moved = []) ∧
      (c.outgoingQueue.isWriting = true → gone = []) ∧
      [c.sent.joyTrans].filter (· ≠ 0) = gone.filter (· ≠ 0) ∧
      c.sent.newIncomingQueue.ring.overflow = c.newIncomingQueue.ring.overflow := by
  obtain ⟨gone, left, hout, hset, hspared, hwriting, hport, hnew⟩ := h.setPendingData
  obtain ⟨moved, rest, heq, hloaded, hspared', hreading, hflag, htrans⟩ := hset.copyState
  rw [sent_eq h.isEnabled h.joyCnt]
  refine ⟨moved, rest, gone, left, heq, hout, hloaded, hspared.trans hspared', fun hr => ?_,
    hwriting, ?_, ?_⟩
  · exact hreading (hspared.isReading.trans hr)
  · rw [htrans, hport]
  · rw [hflag, hnew]

theorem transfer_moves (n : Nat) {new incoming : Queue size} {x : Word} {xs : List Word}
    (hnew : new.ring.Holds (x :: xs)) (hinc : incoming.ring.Holds []) :
    (transfer (n + 1) new incoming).2.ring.count ≠ 0 := by
  have hsize := Nat.lt_of_le_of_lt (Nat.zero_le _) hinc.front_lt
  obtain ⟨hx, hpopped, _⟩ := hnew.pop_cons
  have hpushed : (incoming.pushed new.front).ring.Holds [x] := by
    rw [Queue.front, hx]
    exact (hinc.push hsize x).1
  have hleft : new.popped.ring.Holds xs := hpopped
  obtain ⟨moved, _, _, _, hmoved, _⟩ := transfer_split n hleft hpushed
  rw [transfer, isEmpty_eq hnew, isFull_of_lt hinc hsize]
  change (transfer n new.popped (incoming.pushed new.front)).2.ring.count ≠ 0
  rw [hmoved.count_eq]
  exact Nat.succ_ne_zero _

theorem Loaded.counts (h : c.Loaded inc new out lost) (hf : Free c) :
    c.incomingQueue.ring.count = inc.length ∧ c.newIncomingQueue.ring.count = new.length ∧
      c.outgoingQueue.ring.count = out.length :=
  ⟨(h.incoming hf.isReading).count_eq, h.newIncoming.count_eq, (h.outgoing hf.isWriting).1.count_eq⟩

theorem Loaded.sent_counts (h : c.Loaded inc new out lost) (hf : Free c) :
    c.sent.outgoingQueue.ring.count = c.outgoingQueue.ring.count - 1 ∧
      (c.outgoingQueue.ring.count = 0 → c.sent.joyTrans = 0) ∧
      (c.incomingQueue.ring.count = 0 → c.newIncomingQueue.ring.count ≠ 0 →
        c.sent.incomingQueue.ring.count ≠ 0) := by
  have hsent : c.sent = LinkCube.copyState { c with
      outgoingQueue := c.outgoingQueue.popped, joyTrans := c.outgoingQueue.front } := by
    rw [sent_eq h.isEnabled h.joyCnt, LinkCube.setPendingData, hf.isWriting]
    rfl
  obtain ⟨hinc, hnew, _⟩ := h.counts hf
  rw [hsent, LinkCube.copyState]
  simp only [hf.isReading, h.needsClear, Bool.false_eq_true, if_false]
  refine ⟨?_, fun hzero => ?_, fun hnone hsome => ?_⟩
  · rw [Queue.popped, Ring.run_pop]
    split
    next hzero => rw [hzero]
    next => rfl
  · rw [Queue.front, Ring.run_pop, if_pos hzero]
    rfl
  · obtain rfl := List.length_eq_zero_iff.mp (hinc.symm.trans hnone)
    obtain ⟨n, hn⟩ := Nat.exists_eq_succ_of_ne_zero hsome
    obtain ⟨x, xs, rfl⟩ : ∃ x xs, new = x :: xs := List.exists_cons_of_length_pos (by omega)
    rw [hn]
    exact transfer_moves n h.newIncoming (h.incoming hf.isReading)

def load (c : LinkCube size) : Nat :=
  c.incomingQueue.ring.count + 2 * c.newIncomingQueue.ring.count + 2 * c.outgoingQueue.ring.count +
    if c.joyTrans = 0 then 0 else 1

/-- A poll lessens the load, unless there are only words for the program. -/
theorem Loaded.load_sent (h : c.Loaded inc new out lost) (hf : Free c) (hload : c.load ≠ 0)
    (hnone : c.incomingQueue.ring.count = 0) : c.sent.load < c.load := by
  obtain ⟨moved, rest, gone, left, hnew, hout, hloaded, hspared, _⟩ := h.sent
  obtain ⟨hcount, hlatch, hmoved⟩ := h.sent_counts hf
  obtain ⟨hinc₁, hnew₁, _⟩ := h.counts hf
  obtain ⟨hinc₂, hnew₂, _⟩ := hloaded.counts (hf.spared hspared)
  have hsplit := congrArg List.length hnew
  rw [List.length_append] at hsplit hinc₂
  simp only [load] at hload ⊢
  by_cases hnil : c.outgoingQueue.ring.count = 0
  · rw [if_pos (hlatch hnil)]
    by_cases hzero : c.newIncomingQueue.ring.count = 0
    · split at hload
      next => omega
      next hjoy =>
        rw [if_neg hjoy]
        omega
    · have := hmoved hnone hzero
      omega
  · split <;> split <;> omega

end LinkCube

section Traffic

def sendCall (w : Word) : Code (LinkCube size) (Option Word) := do
  LinkCube.send w
  return none

def readCall : Code (LinkCube size) (Option Word) := do
  if (← LinkCube.canRead) then
    return some (← LinkCube.read)
  else return none

/-- The driver with the words that have passed at either end. -/
structure Traffic (size : Nat) where
  cube : LinkCube size
  /-- The rest of the call that the program is in. -/
  code : Code (LinkCube size) (Option Word)
  /-- What the Wii has written, and what the program has read. -/
  received : List Word
  taken : List Word
  /-- What the program has handed to `send`, and what the Wii has read. -/
  given : List Word
  polled : List Word

def Traffic.activated (size : Nat) : Traffic size :=
  ⟨LinkCube.initial.activate, .ret none, [], [], [], []⟩

/-- A transfer that the Wii starts, an access of the program, or the begin or end of a call. A
transfer and its interrupt are one step: the interrupt is served before the next transfer. -/
inductive TrafficStep : Traffic size → Traffic size → Prop where
  | write {t} (w : Word) :
      TrafficStep t { t with cube := t.cube.receive w, received := t.received ++ [w] }
  | poll {t} : TrafficStep t { t with cube := t.cube.sent, polled := t.polled ++ [t.cube.joyTrans] }
  | access {t code cube} (h : Interrupt.Step t.code t.cube code cube) :
      TrafficStep t { t with code := code, cube := cube }
  | send {t} (w : Word) (h : t.code = .ret none) :
      TrafficStep t { t with code := sendCall w, given := t.given ++ [w] }
  | read {t} (h : t.code = .ret none) : TrafficStep t { t with code := readCall }
  | got {t} {w : Word} (h : t.code = .ret (some w)) :
      TrafficStep t { t with code := .ret none, taken := t.taken ++ [w] }

end Traffic

section Underway

variable {c c' : LinkCube size} {inc inc' new out out' : List Word} {lost : Bool}
variable {code code' : Code (LinkCube size) (Option Word)} {pend got : List Word}

theorem step_sendCall {w : Word} (h : Interrupt.Step (sendCall w) c code' c')
    (henabled : c.isEnabled = true) :
    code' = (Queue.syncPush LinkCube.outgoingPart w >>= fun _ => .ret none) ∧ c' = c := by
  cases h with
  | read =>
      refine ⟨?_, rfl⟩
      change Code.bind (if (!c.isEnabled) = true then _ else _) _ = _
      rw [henabled]
      rfl

theorem step_readCall (h : Interrupt.Step readCall c code' c') :
    code' = (if c.incomingQueue.isEmpty then .ret none
      else LinkCube.read >>= fun v => .ret (some v)) ∧ c' = c := by
  cases h with
  | read =>
      refine ⟨?_, rfl⟩
      change (if (!c.incomingQueue.isEmpty) = true then _ else _) = _
      cases c.incomingQueue.isEmpty <;> rfl

/-- What a push is going to make of the queue, and whether words will have been lost. -/
inductive Pushes (size : Nat) (out : List Word) (lost : Bool) (w : Word) :
    List Word → Bool → Prop where
  | room : Pushes size out lost w (out ++ [w]) lost
  | full {y left} (h : out = y :: left) (hfull : out.length = size) :
      Pushes size out lost w (left ++ [w]) true

/-- Where in a call the program is: `pend` is still to be pushed, `got` has been read. -/
inductive Underway (c : LinkCube size) (inc out : List Word) (lost : Bool) :
    Code (LinkCube size) (Option Word) → List Word → List Word → Prop where
  | done (r : Option Word) (h : Free c) : Underway c inc out lost (.ret r) [] r.toList
  | sends (w) (h : Free c) : Underway c inc out lost (sendCall w) [w] []
  | enabled (w) (h : Free c) : Underway c inc out lost
      (Queue.syncPush LinkCube.outgoingPart w >>= fun _ => .ret none) [w] []
  | pushing {w after flag} {r : Code (Ring Word size) Unit}
      (hr : c.incomingQueue.isReading = false) (hw : c.outgoingQueue.isWriting = true)
      (hp : Pushes size out lost w after flag)
      (hring : (r.run c.outgoingQueue.ring).2.Holds after ∧
        (r.run c.outgoingQueue.ring).2.overflow = flag) :
      Underway c inc out lost (r.on outgoingRing >>= fun _ =>
        .write (fun c => { c with outgoingQueue := { c.outgoingQueue with isWriting := false } })
          (Queue.clearLate LinkCube.outgoingPart >>= fun _ => .ret none)) [w] []
  | pushed (h : Free c) : Underway c inc out lost
      (Queue.clearLate LinkCube.outgoingPart >>= fun _ => .ret none) [] []
  | reads (h : Free c) : Underway c inc out lost readCall [] []
  | ready (h : Free c) (hinc : inc ≠ []) : Underway c inc out lost
      (LinkCube.read >>= fun v => .ret (some v)) [] []
  | popping {v left} {r : Code (Ring Word size) Word} (hr : c.incomingQueue.isReading = true)
      (hw : c.outgoingQueue.isWriting = false) (hinc : inc = v :: left)
      (hvalue : (r.run c.incomingQueue.ring).1 = v)
      (hring : (r.run c.incomingQueue.ring).2.Holds left) :
      Underway c inc out lost (r.on incomingRing >>= fun v =>
        .write (fun c => { c with incomingQueue := { c.incomingQueue with isReading := false } })
          (.ret (some v))) [] []

theorem Underway.spared (h : Underway c inc out lost code pend got) (hs : LinkCube.Spared c c')
    {moved gone left : List Word} (hout : out = gone ++ left)
    (hmoved : c.incomingQueue.isReading = true → moved = [])
    (hgone : c.outgoingQueue.isWriting = true → gone = []) :
    Underway c' (inc ++ moved) left lost code pend got := by
  cases h with
  | done r hf => exact .done r (hf.spared hs)
  | sends w hf => exact .sends w (hf.spared hs)
  | enabled w hf => exact .enabled w (hf.spared hs)
  | pushed hf => exact .pushed (hf.spared hs)
  | reads hf => exact .reads (hf.spared hs)
  | ready hf hinc => exact .ready (hf.spared hs) fun hnil => hinc (List.append_eq_nil_iff.mp hnil).1
  | pushing hr hw hp hring =>
      rw [hgone hw, List.nil_append] at hout
      subst hout
      rw [← hs.outgoing hw] at hring
      exact .pushing (hs.isReading.trans hr) (hs.isWriting.trans hw) hp hring
  | popping hr hw hinc hvalue hring =>
      rw [← hs.incoming hr] at hvalue hring
      rw [hmoved hr, List.append_nil]
      exact .popping (hs.isReading.trans hr) (hs.isWriting.trans hw) hinc hvalue hring

/-- An access of the program does nothing to the words, reads one or pushes one. -/
inductive Accessed (c' : LinkCube size) (code' : Code (LinkCube size) (Option Word))
    (inc new out : List Word) (lost : Bool) : List Word → List Word → Prop where
  | silent {pend got : List Word} (hl : c'.Loaded inc new out lost)
      (hu : Underway c' inc out lost code' pend got) : Accessed c' code' inc new out lost pend got
  | read {v left} (hinc : inc = v :: left) (hl : c'.Loaded left new out lost)
      (hu : Underway c' left out lost code' [] [v]) : Accessed c' code' inc new out lost [] []
  | push {w after flag} (hp : Pushes size out lost w after flag)
      (hl : c'.Loaded inc new after flag) (hu : Underway c' inc after flag code' [] []) :
      Accessed c' code' inc new out lost [w] []

theorem Underway.access (h : Underway c inc out lost code pend got)
    (hl : c.Loaded inc new out lost) (hstep : Interrupt.Step code c code' c') :
    Accessed c' code' inc new out lost pend got ∧
      c'.newIncomingQueue = c.newIncomingQueue ∧ c'.joyTrans = c.joyTrans := by
  cases h with
  | done r hf => cases hstep
  | sends w hf =>
      obtain ⟨rfl, rfl⟩ := step_sendCall hstep hl.isEnabled
      exact ⟨.silent hl (.enabled w hf), rfl, rfl⟩
  | enabled w hf =>
      obtain ⟨hout, hlost⟩ := hl.outgoing hf.isWriting
      rw [syncPush_eq] at hstep
      cases hstep with
      | write =>
          refine ⟨.silent (hl.withOutgoing hl.outgoingClear fun hw => by cases hw) ?_, rfl, rfl⟩
          by_cases hfull : out.length = size
          · have hpos := Nat.lt_of_le_of_lt (Nat.zero_le _) hout.front_lt
            obtain ⟨y, left, rfl⟩ : ∃ y left, out = y :: left :=
              List.exists_cons_of_length_pos (by omega)
            exact .pushing hf.isReading rfl (.full rfl hfull) (hout.push_full hfull w)
          · obtain ⟨hpushed, hflag⟩ := hout.push (Nat.lt_of_le_of_ne hout.length_le hfull) w
            exact .pushing hf.isReading rfl .room ⟨hpushed, hflag.trans hlost⟩
  | @pushing w after flag r hr hw hp hring =>
      rcases hstep.on_bind with ⟨_, rfl, hstep⟩ | ⟨r', rfl, hrun, hput⟩
      · cases hstep with
        | write =>
            exact ⟨.push hp (hl.withOutgoing hl.outgoingClear fun _ => hring) (.pushed ⟨hr, rfl⟩),
              rfl, rfl⟩
      · change _ = r.run c.outgoingQueue.ring at hrun
        rw [← hrun] at hring
        rcases hput with rfl | ⟨t, rfl⟩
        · exact ⟨.silent hl (.pushing hr hw hp hring), rfl, rfl⟩
        · refine ⟨.silent (hl.withOutgoing hl.outgoingClear fun hfree => ?_)
            (.pushing hr hw hp hring), rfl, rfl⟩
          exact absurd (hw.symm.trans hfree) (by decide)
  | pushed hf =>
      obtain ⟨rfl, rfl⟩ := step_clearLate hstep hl.outgoingClear
      exact ⟨.silent hl (.done none hf), rfl, rfl⟩
  | reads hf =>
      obtain ⟨rfl, rfl⟩ := step_readCall hstep
      rw [LinkCube.isEmpty_eq (hl.incoming hf.isReading)]
      cases inc with
      | nil => exact ⟨.silent hl (.done none hf), rfl, rfl⟩
      | cons v left => exact ⟨.silent hl (.ready hf (List.cons_ne_nil v left)), rfl, rfl⟩
  | ready hf hinc =>
      obtain ⟨v, left, rfl⟩ := List.exists_cons_of_ne_nil hinc
      obtain ⟨hvalue, hring, _⟩ := (hl.incoming hf.isReading).pop_cons
      rw [read_eq] at hstep
      cases hstep with
      | write =>
          exact ⟨.silent (hl.withIncoming fun hr => by cases hr)
            (.popping rfl hf.isWriting rfl hvalue hring), rfl, rfl⟩
  | @popping v left r hr hw hinc hvalue hring =>
      rcases hstep.on_bind with ⟨_, rfl, hstep⟩ | ⟨r', rfl, hrun, hput⟩
      · cases hstep with
        | write =>
            subst hvalue
            exact ⟨.read hinc (hl.withIncoming fun _ => hring) (.done (some _) ⟨rfl, hw⟩), rfl, rfl⟩
      · change _ = r.run c.incomingQueue.ring at hrun
        rw [← hrun] at hvalue hring
        rcases hput with rfl | ⟨t, rfl⟩
        · exact ⟨.silent hl (.popping hr hw hinc hvalue hring), rfl, rfl⟩
        · refine ⟨.silent (hl.withIncoming fun hfree => ?_) (.popping hr hw hinc hvalue hring),
            rfl, rfl⟩
          exact absurd (hr.symm.trans hfree) (by decide)

theorem Underway.at_ret {r : Option Word} (h : Underway c inc out lost (.ret r) pend got) :
    Free c ∧ pend = [] ∧ got = r.toList := by
  generalize hcode : (Code.ret r : Code (LinkCube size) (Option Word)) = code at h
  cases h with
  | done r' hf =>
      cases hcode
      exact ⟨hf, rfl, rfl⟩
  | sends w hf => cases hcode
  | enabled w hf => cases hcode
  | @pushing _ _ _ r => cases r <;> cases hcode
  | pushed hf => cases hcode
  | reads hf => cases hcode
  | ready hf hinc => cases hcode
  | @popping _ _ r => cases r <;> cases hcode

end Underway

section Accounts

variable {t t' : Traffic size} {inc new out pend got gone : List Word} {lost : Bool}

/-- The words that a read of the Wii can tell from none. -/
def spoken (ws : List Word) : List Word := ws.filter (· ≠ 0)

/-- Every word is accounted for: it has come through, is under way or has been lost. `gone` is
what the port has got. -/
structure Accounted (t : Traffic size) (inc new out pend got gone : List Word) (lost : Bool) :
    Prop where
  loaded : t.cube.Loaded inc new out lost
  underway : Underway t.cube inc out lost t.code pend got
  inward : Conserves t.cube.newIncomingQueue.ring.overflow (t.taken ++ got ++ inc ++ new) t.received
  outward : Conserves lost (gone ++ out ++ pend) t.given
  port : spoken (t.polled ++ [t.cube.joyTrans]) = spoken gone

/-- Neither side is ahead of the other by more than a queue has room for. -/
def Traffic.InTime (t : Traffic size) : Prop :=
  t.received.length ≤ t.taken.length + size ∧ t.given.length ≤ (spoken t.polled).length + size

def Traffic.Intact (t : Traffic size) (lost : Bool) : Prop :=
  t.cube.newIncomingQueue.ring.overflow = false ∧ lost = false

theorem Accounted.write (h : Accounted t inc new out pend got gone lost) (w : Word) :
    ∃ inc' new', Accounted
        { t with cube := t.cube.receive w, received := t.received ++ [w] } inc' new' out pend got
        gone lost ∧
      ((t.cube.receive w).newIncomingQueue.ring.overflow = t.cube.newIncomingQueue.ring.overflow ∨
        new.length = size) := by
  obtain ⟨moved, rest, hloaded, hspared, hreading, htrans, hnew⟩ := h.loaded.receive w
  have hunderway := h.underway.spared hspared (List.nil_append out).symm hreading fun _ => rfl
  have hport : spoken (t.polled ++ [(t.cube.receive w).joyTrans]) = spoken gone := by
    rw [htrans, h.port]
  have hshift : ∀ xs, moved ++ rest = xs ++ [w] →
      t.taken ++ got ++ (inc ++ moved) ++ rest = t.taken ++ got ++ inc ++ xs ++ [w] := by
    intro xs hxs
    rw [List.append_assoc, List.append_assoc inc, hxs]
    simp only [List.append_assoc]
  refine ⟨inc ++ moved, rest, ?_⟩
  rcases hnew with ⟨hkept, hflag⟩ | ⟨y, left, rfl, hfull, hkept, hflag⟩
  · refine ⟨⟨hloaded, hunderway, ?_, h.outward, hport⟩, Or.inl hflag⟩
    rw [hshift new hkept]
    exact hflag ▸ h.inward.append w
  · refine ⟨⟨hloaded, hunderway, ?_, h.outward, hport⟩, Or.inr hfull⟩
    have hdrop : Conserves true (t.taken ++ got ++ inc ++ left) t.received :=
      h.inward.drop ((List.sublist_cons_self y left).append_left _) (by simp)
    rw [hshift left hkept]
    exact hflag ▸ hdrop.append w

theorem Accounted.poll (h : Accounted t inc new out pend got gone lost) :
    ∃ inc' new' out' gone', Accounted
      { t with cube := t.cube.sent, polled := t.polled ++ [t.cube.joyTrans] } inc' new' out' pend
      got gone' lost ∧
      t.cube.sent.newIncomingQueue.ring.overflow = t.cube.newIncomingQueue.ring.overflow ∧
      inc' ++ new' = inc ++ new ∧ gone' ++ out' = gone ++ out := by
  obtain ⟨moved, rest, gone', left, rfl, rfl, hloaded, hspared, hreading, hwriting, hport, hflag⟩ :=
    h.loaded.sent
  refine ⟨inc ++ moved, rest, left, gone ++ gone', ⟨hloaded,
    h.underway.spared hspared rfl hreading hwriting, ?_, ?_, ?_⟩, hflag, List.append_assoc ..,
    List.append_assoc ..⟩
  · have hin := h.inward
    simp only [List.append_assoc] at hin ⊢
    exact hflag ▸ hin
  · have hout := h.outward
    simp only [List.append_assoc] at hout ⊢
    exact hout
  · have hp := h.port
    simp only [spoken, List.filter_append] at hp hport ⊢
    rw [hp, hport]

theorem Accounted.access {code : Code (LinkCube size) (Option Word)} {cube : LinkCube size}
    (h : Accounted t inc new out pend got gone lost)
    (hstep : Interrupt.Step t.code t.cube code cube) :
    ∃ inc' out' pend' got' lost',
      Accounted { t with code := code, cube := cube } inc' new out' pend' got' gone lost' ∧
      cube.newIncomingQueue = t.cube.newIncomingQueue ∧
      (lost' = lost ∨ out.length = size ∧ 0 < pend.length) := by
  obtain ⟨haccess, hnew, htrans⟩ := h.underway.access h.loaded hstep
  have hinward := h.inward
  have houtward := h.outward
  have hport : spoken (t.polled ++ [cube.joyTrans]) = spoken gone := by rw [htrans, h.port]
  rw [← hnew] at hinward
  cases haccess with
  | silent hl hu =>
      exact ⟨inc, out, pend, got, lost, ⟨hl, hu, hinward, houtward, hport⟩, hnew, Or.inl rfl⟩
  | @read v left hinc hl hu =>
      subst hinc
      refine ⟨left, out, [], [v], lost, ⟨hl, hu, ?_, houtward, hport⟩, hnew, Or.inl rfl⟩
      simp only [List.append_assoc, List.nil_append, List.cons_append] at hinward ⊢
      exact hinward
  | @push w after flag hp hl hu =>
      cases hp with
      | room =>
          refine ⟨inc, _, [], [], lost, ⟨hl, hu, hinward, ?_, hport⟩, hnew, Or.inl rfl⟩
          rw [List.append_nil, ← List.append_assoc]
          exact houtward
      | @full y left hout hfull =>
          refine ⟨inc, _, [], [], true, ⟨hl, hu, hinward, ?_, hport⟩, hnew,
            Or.inr ⟨hfull, Nat.one_pos⟩⟩
          subst hout
          rw [List.append_nil, ← List.append_assoc]
          exact houtward.drop (((List.sublist_cons_self y left).append_left gone).append_right [w])
            (by simp)

theorem Accounted.at_ret {r : Option Word} (h : Accounted t inc new out pend got gone lost)
    (hcode : t.code = .ret r) : Free t.cube ∧ pend = [] ∧ got = r.toList := by
  have hunderway := h.underway
  rw [hcode] at hunderway
  exact hunderway.at_ret

theorem Accounted.took {w : Word} (h : Accounted t inc new out pend got gone lost)
    (hcode : t.code = .ret (some w)) :
    Accounted { t with code := .ret none, taken := t.taken ++ [w] } inc new out [] [] gone
      lost := by
  obtain ⟨hfree, rfl, rfl⟩ := h.at_ret hcode
  refine ⟨h.loaded, .done none hfree, ?_, h.outward, h.port⟩
  rw [List.append_nil]
  exact h.inward

theorem accounted_activated (hsize : 0 < size) :
    Accounted (Traffic.activated size) [] [] [] [] [] [] false := by
  have hcleared : ∀ q : Queue size, q.cleared.ring.Holds [] := fun q => Ring.holds_clear hsize _
  refine ⟨⟨rfl, rfl, rfl, rfl, fun _ => hcleared _, hcleared _, fun _ => ⟨hcleared _, rfl⟩⟩,
    .done none ⟨rfl, rfl⟩, ?_, ?_, rfl⟩
  · exact ⟨.refl _, fun _ => rfl, fun _ => rfl⟩
  · exact ⟨.refl _, fun _ => rfl, fun _ => rfl⟩

/-- Everything stays accounted for, and nothing is lost while the two sides are in time. -/
theorem Accounted.step (h : Accounted t inc new out pend got gone lost) (hs : TrafficStep t t') :
    ∃ inc' new' out' pend' got' gone' lost', Accounted t' inc' new' out' pend' got' gone' lost' ∧
      (t'.InTime → t.Intact lost → t'.Intact lost') := by
  cases hs with
  | write w =>
      obtain ⟨inc', new', h', hflag⟩ := h.write w
      refine ⟨inc', new', out, pend, got, gone, lost, h', fun htime hintact => ⟨?_, hintact.2⟩⟩
      refine hflag.elim (fun hkept => hkept.trans hintact.1) fun hfull => ?_
      have hall := congrArg List.length (h.inward.eq_iff.mp hintact.1)
      have hahead := htime.1
      simp only [List.length_append, List.length_singleton] at hall hahead
      omega
  | poll =>
      obtain ⟨inc', new', out', gone', h', hflag, _⟩ := h.poll
      exact ⟨inc', new', out', pend, got, gone', lost, h', fun _ hintact =>
        ⟨hflag.trans hintact.1, hintact.2⟩⟩
  | access haccess =>
      obtain ⟨inc', out', pend', got', lost', h', hnew, hlost⟩ := h.access haccess
      refine ⟨inc', new, out', pend', got', gone, lost', h', fun htime hintact => ⟨?_, ?_⟩⟩
      · exact (congrArg (fun q : Queue size => q.ring.overflow) hnew).trans hintact.1
      · refine hlost.elim (fun hkept => hkept.trans hintact.2) fun hfull => ?_
        have hall := congrArg List.length (h.outward.eq_iff.mp hintact.2)
        have hport := congrArg List.length h.port
        have hgone : (spoken gone).length ≤ gone.length := List.length_filter_le _ _
        have hahead := htime.2
        simp only [spoken, List.filter_append, List.length_append] at hall hport hgone hahead
        omega
  | send w hcode =>
      obtain ⟨hfree, rfl, rfl⟩ := h.at_ret hcode
      have houtward := h.outward
      rw [List.append_nil] at houtward
      exact ⟨inc, new, out, [w], [], gone, lost, ⟨h.loaded, .sends w hfree, h.inward,
        houtward.append w, h.port⟩, fun _ hintact => hintact⟩
  | read hcode =>
      obtain ⟨hfree, rfl, rfl⟩ := h.at_ret hcode
      exact ⟨inc, new, out, [], [], gone, lost, ⟨h.loaded, .reads hfree, h.inward, h.outward,
        h.port⟩, fun _ hintact => hintact⟩
  | @got w hcode =>
      obtain ⟨_, rfl, _⟩ := h.at_ret hcode
      exact ⟨inc, new, out, [], [], gone, lost, h.took hcode, fun _ hintact => hintact⟩

theorem accounted_run (hsize : 0 < size)
    (h : Relation.ReflTransGen TrafficStep (Traffic.activated size) t) :
    ∃ inc new out pend got gone lost, Accounted t inc new out pend got gone lost := by
  induction h with
  | refl => exact ⟨_, _, _, _, _, _, _, accounted_activated hsize⟩
  | tail _ hstep ih =>
      obtain ⟨_, _, _, _, _, _, _, h⟩ := ih
      obtain ⟨_, _, _, _, _, _, _, h', _⟩ := h.step hstep
      exact ⟨_, _, _, _, _, _, _, h'⟩

theorem accounted_timely_run (hsize : 0 < size) (h : Relation.ReflTransGen
      (fun t t' => TrafficStep t t' ∧ t'.InTime) (Traffic.activated size) t) :
    ∃ inc new out pend got gone lost, Accounted t inc new out pend got gone lost ∧
      t.Intact lost := by
  induction h with
  | refl => exact ⟨_, _, _, _, _, _, _, accounted_activated hsize, rfl, rfl⟩
  | tail _ hstep ih =>
      obtain ⟨_, _, _, _, _, _, _, h, hintact⟩ := ih
      obtain ⟨_, _, _, _, _, _, _, h', hkept⟩ := h.step hstep.1
      exact ⟨_, _, _, _, _, _, _, h', hkept hstep.2 hintact⟩

/-- The program finishes its call without an interrupt. -/
def Traffic.settled (t : Traffic size) : Traffic size :=
  { t with code := .ret (t.code.run t.cube).1, cube := (t.code.run t.cube).2 }

theorem Traffic.steps_settled (t : Traffic size) :
    Relation.ReflTransGen (fun t₁ t₂ => TrafficStep t₁ t₂ ∧ (t.InTime → t₂.InTime)) t
      t.settled := by
  have hlift := Relation.ReflTransGen.lift
    (p := fun t₁ t₂ => TrafficStep t₁ t₂ ∧ (t.InTime → t₂.InTime))
    (fun x : Code (LinkCube size) (Option Word) × LinkCube size =>
      ({ t with code := x.1, cube := x.2 } : Traffic size))
    (fun _ _ hstep => ⟨.access hstep, id⟩) _ _ (steps_run t.code t.cube)
  exact hlift

theorem Accounted.settled {r : Option Word} (h : Accounted t inc new out pend got gone lost)
    (hcode : t.code = .ret r) :
    t.cube.incomingQueue.ring.Holds inc ∧ t.cube.newIncomingQueue.ring.Holds new ∧
      t.cube.outgoingQueue.ring.Holds out ∧ t.cube.outgoingQueue.ring.overflow = lost ∧
      Conserves t.cube.newIncomingQueue.ring.overflow (t.taken ++ r.toList ++ inc ++ new)
        t.received ∧
      Conserves lost (gone ++ out) t.given := by
  obtain ⟨hfree, rfl, rfl⟩ := h.at_ret hcode
  have houtward := h.outward
  rw [List.append_nil] at houtward
  obtain ⟨hout, hlost⟩ := h.loaded.outgoing hfree.isWriting
  exact ⟨h.loaded.incoming hfree.isReading, h.loaded.newIncoming, hout, hlost, h.inward, houtward⟩

end Accounts

section Drain

variable {t t₁ t₂ t₃ : Traffic size} {inc new out gone : List Word} {lost : Bool}
variable {ins₁ ins₂ ins₃ outs₁ outs₂ outs₃ : List Word}

theorem run_readCall {c : LinkCube size} (hr : c.incomingQueue.isReading = false)
    (hsome : c.incomingQueue.ring.count ≠ 0) : readCall.run c =
      (some c.incomingQueue.front, { c with incomingQueue := c.incomingQueue.popped }) := by
  have hempty : c.incomingQueue.isEmpty = false := beq_false_of_ne hsome
  simp [readCall, LinkCube.canRead, hempty, LinkCube.run_read hr]

theorem Traffic.steps_read {v : Word} {c' : LinkCube size} (hcode : t.code = .ret none)
    (hrun : readCall.run t.cube = (some v, c')) : Relation.ReflTransGen TrafficStep t
      { t with cube := c', code := .ret none, taken := t.taken ++ [v] } := by
  have hsettled : Traffic.settled { t with code := readCall } =
      { t with cube := c', code := .ret (some v) } := by
    simp only [Traffic.settled, hrun]
  have hsteps : Relation.ReflTransGen TrafficStep { t with code := readCall }
      { t with cube := c', code := .ret (some v) } :=
    hsettled ▸ Relation.ReflTransGen.mono (fun _ _ hstep => hstep.1) _ _ (Traffic.steps_settled _)
  exact .head (.read hcode) (hsteps.tail (.got rfl))

/-- `t'` comes after `t`, and nothing has been added or lost: `ins` is what the program has still
to read, and `outs` what the port has got or is to get. -/
structure Traffic.Lossless (t t' : Traffic size) (ins ins' outs outs' : List Word) : Prop where
  steps : Relation.ReflTransGen TrafficStep t t'
  received : t'.received = t.received
  given : t'.given = t.given
  overflow : t'.cube.newIncomingQueue.ring.overflow = t.cube.newIncomingQueue.ring.overflow
  inward : t'.taken ++ ins' = t.taken ++ ins
  outward : outs' = outs

theorem Traffic.Lossless.trans (h : t₁.Lossless t₂ ins₁ ins₂ outs₁ outs₂)
    (h' : t₂.Lossless t₃ ins₂ ins₃ outs₂ outs₃) : t₁.Lossless t₃ ins₁ ins₃ outs₁ outs₃ where
  steps := h.steps.trans h'.steps
  received := h'.received.trans h.received
  given := h'.given.trans h.given
  overflow := h'.overflow.trans h.overflow
  inward := h'.inward.trans h.inward
  outward := h'.outward.trans h.outward

theorem Accounted.hand_on (h : Accounted t inc new out [] [] gone lost)
    (hcode : t.code = .ret none) (hload : t.cube.load ≠ 0) :
    ∃ t' inc' new' out' gone',
      t.Lossless t' (inc ++ new) (inc' ++ new') (gone ++ out) (gone' ++ out') ∧
      Accounted t' inc' new' out' [] [] gone' lost ∧ t'.code = .ret none ∧
      t'.cube.load < t.cube.load := by
  obtain ⟨hf, _, _⟩ := h.at_ret hcode
  by_cases hnone : t.cube.incomingQueue.ring.count = 0
  · obtain ⟨inc', new', out', gone', h', hflag, hins, houts⟩ := h.poll
    exact ⟨_, inc', new', out', gone',
      ⟨.single .poll, rfl, rfl, hflag, congrArg (t.taken ++ ·) hins, houts⟩, h', hcode,
      h.loaded.load_sent hf hload hnone⟩
  · have hcount := (h.loaded.counts hf).1
    obtain ⟨v, left, rfl⟩ : ∃ v left, inc = v :: left := List.exists_cons_of_length_pos (by omega)
    obtain ⟨hfront, hpopped, _⟩ := (h.loaded.incoming hf.isReading).pop_cons
    have hinward := h.inward
    have hsteps := Traffic.steps_read hcode (run_readCall hf.isReading hnone)
    rw [Queue.front, hfront] at hsteps
    refine ⟨_, left, new, out, gone, ⟨hsteps, rfl, rfl, rfl, ?_, rfl⟩,
      ⟨h.loaded.withIncoming fun _ => hpopped, .done none ⟨hf.isReading, hf.isWriting⟩, ?_,
        h.outward, h.port⟩, rfl, ?_⟩
    · exact List.append_assoc t.taken [v] (left ++ new)
    · simp only [List.append_assoc, List.nil_append, List.cons_append] at hinward ⊢
      exact hinward
    · have hleft : t.cube.incomingQueue.popped.ring.count = left.length := hpopped.count_eq
      simp only [LinkCube.load, hleft, hcount, List.length_cons]
      omega

/-- No call is under way, and there is nothing left to hand on. -/
structure Traffic.Drained (t : Traffic size) : Prop where
  code : t.code = .ret none
  incoming : t.cube.incomingQueue.ring.Holds []
  newIncoming : t.cube.newIncomingQueue.ring.Holds []
  outgoing : t.cube.outgoingQueue.ring.Holds []
  joyTrans : t.cube.joyTrans = 0

/-- By induction on what the driver still has to hand on. -/
theorem Accounted.drain (n : Nat) (h : Accounted t inc new out [] [] gone lost)
    (hcode : t.code = .ret none) (hn : t.cube.load ≤ n) :
    ∃ t' gone', t.Lossless t' (inc ++ new) [] (gone ++ out) gone' ∧ t'.Drained ∧
      Accounted t' [] [] [] [] [] gone' lost := by
  induction n generalizing t inc new out gone with
  | zero =>
      obtain ⟨hf, _, _⟩ := h.at_ret hcode
      obtain ⟨hinc, hnew, hout⟩ := h.loaded.counts hf
      rw [LinkCube.load] at hn
      obtain rfl : inc = [] := List.length_eq_zero_iff.mp (by omega)
      obtain rfl : new = [] := List.length_eq_zero_iff.mp (by omega)
      obtain rfl : out = [] := List.length_eq_zero_iff.mp (by omega)
      have hjoy : t.cube.joyTrans = 0 := by
        by_contra hjoy
        rw [if_neg hjoy] at hn
        omega
      exact ⟨t, gone, ⟨.refl, rfl, rfl, rfl, rfl, (List.append_nil gone).symm⟩,
        ⟨hcode, h.loaded.incoming hf.isReading, h.loaded.newIncoming,
          (h.loaded.outgoing hf.isWriting).1, hjoy⟩, h⟩
  | succ n ih =>
      by_cases hload : t.cube.load = 0
      · exact ih h hcode (by omega)
      · obtain ⟨t₁, _, _, _, _, hlossless, h₁, hcode₁, hless⟩ := h.hand_on hcode hload
        obtain ⟨t', gone', hlossless', hdrained, h'⟩ := ih h₁ hcode₁ (by omega)
        exact ⟨t', gone', hlossless.trans hlossless', hdrained, h'⟩

theorem Accounted.settled_taken {pend got : List Word}
    (h : Accounted t.settled inc new out pend got gone lost) :
    ∃ t₁, t.settled.Lossless t₁ ((t.code.run t.cube).1.toList ++ (inc ++ new)) (inc ++ new)
        (gone ++ out) (gone ++ out) ∧
      Accounted t₁ inc new out [] [] gone lost ∧ t₁.code = .ret none := by
  obtain ⟨_, rfl, rfl⟩ := h.at_ret rfl
  cases hresult : (t.code.run t.cube).1 with
  | none =>
      have hcode : t.settled.code = .ret none := congrArg Code.ret hresult
      rw [hresult] at h
      exact ⟨_, ⟨.refl, rfl, rfl, rfl, rfl, rfl⟩, h, hcode⟩
  | some w =>
      have hcode : t.settled.code = .ret (some w) := congrArg Code.ret hresult
      exact ⟨_, ⟨.single (.got hcode), rfl, rfl, rfl, List.append_assoc .., rfl⟩, h.took hcode, rfl⟩

end Drain

section Results

variable {t : Traffic size}

/-- Whatever the traffic is, and wherever an interrupt strikes: when the program has finished its
call, what it has read and what is in the queues is what the Wii has written, in its order, up to
words that were dropped; likewise for what the port has got and what was sent. The flags of the
queues tell exactly whether words were dropped, and the Wii reads what the port gets. -/
theorem linkCube_traffic (hsize : 0 < size)
    (h : Relation.ReflTransGen TrafficStep (Traffic.activated size) t) :
    ∃ inc new out gone, t.settled.cube.incomingQueue.ring.Holds inc ∧
      t.settled.cube.newIncomingQueue.ring.Holds new ∧
      t.settled.cube.outgoingQueue.ring.Holds out ∧
      Conserves t.settled.cube.newIncomingQueue.ring.overflow
        (t.taken ++ (t.code.run t.cube).1.toList ++ inc ++ new) t.received ∧
      Conserves t.settled.cube.outgoingQueue.ring.overflow (gone ++ out) t.given ∧
      spoken (t.polled ++ [t.settled.cube.joyTrans]) = spoken gone := by
  have hsteps : Relation.ReflTransGen TrafficStep t t.settled :=
    Relation.ReflTransGen.mono (fun _ _ hstep => hstep.1) _ _ t.steps_settled
  obtain ⟨inc, new, out, _, _, gone, _, hacc⟩ := accounted_run hsize (h.trans hsteps)
  obtain ⟨hinc, hnew, hout, rfl, hinward, houtward⟩ := hacc.settled rfl
  exact ⟨inc, new, out, gone, hinc, hnew, hout, hinward, houtward, hacc.port⟩

/-- Three words come in before the program reads one. -/
theorem linkCube_traffic_dropped : ∃ (t : Traffic 1) (inc new : List Word),
    Relation.ReflTransGen TrafficStep (Traffic.activated 1) t ∧
      t.cube.incomingQueue.ring.Holds inc ∧ t.cube.newIncomingQueue.ring.Holds new ∧
      Conserves true (inc ++ new) [1, 2, 3] := by
  have hrun := (Relation.ReflTransGen.refl (r := TrafficStep) (a := Traffic.activated 1)).tail
    (.write 1) |>.tail (.write 2) |>.tail (.write 3)
  obtain ⟨inc, new, _, _, hinc, hnew, _, hinward, _⟩ := linkCube_traffic Nat.one_pos hrun
  exact ⟨_, inc, new, hrun, hinc, hnew, hinward⟩

/-- Nothing is lost in a run in which neither side gets further ahead than a queue has room. -/
theorem linkCube_lossless (hsize : 0 < size) (h : Relation.ReflTransGen
      (fun t t' => TrafficStep t t' ∧ t'.InTime) (Traffic.activated size) t) :
    ∃ inc new out gone, t.settled.cube.incomingQueue.ring.Holds inc ∧
      t.settled.cube.newIncomingQueue.ring.Holds new ∧
      t.settled.cube.outgoingQueue.ring.Holds out ∧
      t.taken ++ (t.code.run t.cube).1.toList ++ inc ++ new = t.received ∧
      gone ++ out = t.given ∧
      spoken (t.polled ++ [t.settled.cube.joyTrans]) = spoken gone := by
  have htime : t.InTime := by
    cases h with
    | refl => exact ⟨Nat.zero_le _, Nat.zero_le _⟩
    | tail _ hstep => exact hstep.2
  have hsteps : Relation.ReflTransGen (fun t t' => TrafficStep t t' ∧ t'.InTime) t t.settled :=
    Relation.ReflTransGen.mono (fun _ _ hstep => ⟨hstep.1, hstep.2 htime⟩) _ _ t.steps_settled
  obtain ⟨inc, new, out, _, _, gone, _, hacc, hin, hlost⟩ :=
    accounted_timely_run hsize (h.trans hsteps)
  obtain ⟨hinc, hnew, hout, rfl, hinward, houtward⟩ := hacc.settled rfl
  exact ⟨inc, new, out, gone, hinc, hnew, hout, hinward.eq_iff.mp hin, houtward.eq_iff.mp hlost,
    hacc.port⟩

/-- The Wii writes a word and reads one while the program is in `send`. -/
theorem interrupted_run : ∃ t : Traffic 1,
    Relation.ReflTransGen (fun t t' => TrafficStep t t' ∧ t'.InTime) (Traffic.activated 1) t ∧
      t.received = [5] ∧ t.given = [7] ∧ t.taken ++ (t.code.run t.cube).1.toList = [] ∧
      t.settled.cube.newIncomingQueue.ring.overflow = false ∧
      t.settled.cube.outgoingQueue.ring.overflow = false := by
  have hrun := (Relation.ReflTransGen.refl
    (r := fun t t' : Traffic 1 => TrafficStep t t' ∧ t'.InTime) (a := Traffic.activated 1))
    |>.tail ⟨.send 7 rfl, by decide, by decide⟩
    |>.tail ⟨.access (.read _ _), by decide, by decide⟩
    |>.tail ⟨.access (.write _ _ _), by decide, by decide⟩
    |>.tail ⟨.access (.read _ _), by decide, by decide⟩
    |>.tail ⟨.write 5, by decide, by decide⟩
    |>.tail ⟨.poll, by decide, by decide⟩
    |>.tail ⟨.access (.read _ _), by decide, by decide⟩
    |>.tail ⟨.access (.write _ _ _), by decide, by decide⟩
  exact ⟨_, hrun, rfl, rfl, rfl, rfl, rfl⟩

theorem linkCube_lossless_write : ∃ (t : Traffic 1) (inc new out gone : List Word),
    Relation.ReflTransGen (fun t t' => TrafficStep t t' ∧ t'.InTime) (Traffic.activated 1) t ∧
      t.settled.cube.incomingQueue.ring.Holds inc ∧
      t.settled.cube.newIncomingQueue.ring.Holds new ∧
      t.settled.cube.outgoingQueue.ring.Holds out ∧ inc ++ new = [5] ∧ gone ++ out = [7] := by
  obtain ⟨t, hrun, hreceived, hgiven, htaken, _⟩ := interrupted_run
  obtain ⟨inc, new, out, gone, hinc, hnew, hout, hin, hgone, _⟩ :=
    linkCube_lossless Nat.one_pos hrun
  rw [htaken, hreceived] at hin
  exact ⟨t, inc, new, out, gone, hrun, hinc, hnew, hout, hin, hgone.trans hgiven⟩

/-- From every state the program and the Wii can read all that is under way: the word that the
call under way reads, what is in the queues and what is at the port, in this order. The queues are
empty then, and no word more has been lost. -/
theorem linkCube_drains (hsize : 0 < size)
    (h : Relation.ReflTransGen TrafficStep (Traffic.activated size) t) :
    ∃ inc new out t', t.settled.cube.incomingQueue.ring.Holds inc ∧
      t.settled.cube.newIncomingQueue.ring.Holds new ∧
      t.settled.cube.outgoingQueue.ring.Holds out ∧
      Relation.ReflTransGen TrafficStep t t' ∧ t'.Drained ∧
      t'.received = t.received ∧ t'.given = t.given ∧
      t'.taken = t.taken ++ (t.code.run t.cube).1.toList ++ inc ++ new ∧
      spoken t'.polled = spoken (t.polled ++ [t.settled.cube.joyTrans] ++ out) ∧
      Conserves t.settled.cube.newIncomingQueue.ring.overflow t'.taken t.received ∧
      ∃ gone, Conserves t.settled.cube.outgoingQueue.ring.overflow gone t.given ∧
        spoken t'.polled = spoken gone := by
  have hsteps : Relation.ReflTransGen TrafficStep t t.settled :=
    Relation.ReflTransGen.mono (fun _ _ hstep => hstep.1) _ _ t.steps_settled
  obtain ⟨inc, new, out, _, _, gone, lost, hacc⟩ := accounted_run hsize (h.trans hsteps)
  obtain ⟨hinc, hnew, hout, rfl, _⟩ := hacc.settled rfl
  obtain ⟨t₁, hlossless₁, hacc₁, hcode₁⟩ := hacc.settled_taken
  obtain ⟨t', gone', hlossless', hdrained, hacc'⟩ := hacc₁.drain _ hcode₁ (Nat.le_refl _)
  have hlossless := hlossless₁.trans hlossless'
  have htaken := hlossless.inward
  rw [List.append_nil] at htaken
  have hpolled : spoken t'.polled = spoken gone' := by
    rw [← hacc'.port, hdrained.joyTrans, spoken, spoken, List.filter_append]
    exact (List.append_nil _).symm
  refine ⟨inc, new, out, t', hinc, hnew, hout, hsteps.trans hlossless.steps, hdrained,
    hlossless.received, hlossless.given, ?_, ?_, ?_, gone', ?_, hpolled⟩
  · rw [htaken, List.append_assoc, List.append_assoc]
    rfl
  · rw [hpolled, hlossless.outward, spoken, List.filter_append, ← spoken, ← hacc.port]
    exact (List.filter_append ..).symm
  · have hinward := hacc'.inward
    rw [List.append_nil, List.append_nil, List.append_nil, hlossless.overflow, hlossless.received]
      at hinward
    exact hinward
  · have houtward := hacc'.outward
    rw [List.append_nil, List.append_nil, hlossless.given] at houtward
    exact houtward

/-- Both words are read in the end. -/
theorem linkCube_drains_write : ∃ t t' : Traffic 1,
    Relation.ReflTransGen TrafficStep (Traffic.activated 1) t ∧
      Relation.ReflTransGen TrafficStep t t' ∧ t'.Drained ∧ t'.taken = [5] ∧
      spoken t'.polled = [7] := by
  obtain ⟨t, hrun, hreceived, hgiven, _, hin, hout⟩ := interrupted_run
  have hsteps : Relation.ReflTransGen TrafficStep (Traffic.activated 1) t :=
    Relation.ReflTransGen.mono (fun _ _ hstep => hstep.1) _ _ hrun
  obtain ⟨_, _, _, t', _, _, _, hsteps', hdrained, _, _, _, _, hinward, gone, houtward, hpolled⟩ :=
    linkCube_drains Nat.one_pos hsteps
  have hgone : gone = [7] := (houtward.eq_iff.mp hout).trans hgiven
  rw [hgone] at hpolled
  exact ⟨t, t', hsteps, hsteps', hdrained, (hinward.eq_iff.mp hin).trans hreceived, hpolled⟩

end Results

end WiiJoybus
