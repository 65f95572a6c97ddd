import WiiJoybus.Library.Ring
import WiiJoybus.Shared.Command

/-!
The driver of the link port.

The interrupt handler moves words between the port and three queues; the program
calls `send`, `canRead` and `read`, and an interrupt may come between any two
accesses of such a call. A queue that the program is at work on is marked, and the
handler leaves it alone.
-/

namespace WiiJoybus
open Interrupt RingBuffer

/-- `Link::Queue` -/
structure Queue (size : Nat) where
  ring : Ring Word size
  isReading : Bool
  isWriting : Bool
  needsClear : Bool

namespace Queue

variable {σ : Type} {size : Nat}

def ringPart : Part (Queue size) (Ring Word size) :=
  ⟨ring, fun r q => { q with ring := r }, fun _ _ => rfl, fun _ => rfl, fun _ _ _ => rfl⟩

def initial : Queue size := ⟨⟨fun _ => 0, 0, -1, 0, false⟩, false, false, false⟩

def cleared (q : Queue size) : Queue size := { q with ring := (Ring.clear.run q.ring).2 }

def pushed (q : Queue size) (item : Word) : Queue size :=
  { q with ring := ((Ring.push item).run q.ring).2 }

def popped (q : Queue size) : Queue size := { q with ring := (Ring.pop.run q.ring).2 }

def front (q : Queue size) : Word := (Ring.pop.run q.ring).1

def isEmpty (q : Queue size) : Bool := q.ring.count == 0

def isFull (q : Queue size) : Bool := q.ring.count == size

/-- The end of `syncPush`: the handler has been told to clear the queue meanwhile. -/
def clearLate (Q : Part σ (Queue size)) : Code σ Unit := do
  if (← .look fun s => (Q.get s).needsClear) then
    Ring.clear.on (Q.trans ringPart)
    .modify fun s => Q.put { Q.get s with needsClear := false } s

def syncPush (Q : Part σ (Queue size)) (item : Word) : Code σ Unit := do
  .modify fun s => Q.put { Q.get s with isWriting := true } s
  (Ring.push item).on (Q.trans ringPart)
  .modify fun s => Q.put { Q.get s with isWriting := false } s
  clearLate Q

def syncPop (Q : Part σ (Queue size)) : Code σ Word := do
  .modify fun s => Q.put { Q.get s with isReading := true } s
  let value ← Ring.pop.on (Q.trans ringPart)
  .modify fun s => Q.put { Q.get s with isReading := false } s
  return value

def syncClear (q : Queue size) : Queue size :=
  if q.isReading then q
  else if !q.isWriting then q.cleared
  else { q with needsClear := true }

end Queue

/-- The flags of `_REG_JOYCNT`, which the port raises. -/
structure JoyCnt where
  cmdReset : Bool
  cmdReceive : Bool
  cmdSend : Bool

def JoyCnt.none : JoyCnt := ⟨false, false, false⟩

structure LinkCube (size : Nat) where
  newIncomingQueue : Queue size
  incomingQueue : Queue size
  outgoingQueue : Queue size
  resetFlag : Bool
  needsClear : Bool
  isEnabled : Bool
  joyCnt : JoyCnt
  joyRecv : Word
  joyTrans : Word

namespace LinkCube

variable {size : Nat}

section Handler

/-- `setBitHigh` for a flag. Writing a 1 takes a flag back, and all flags that are high are
written. -/
def acknowledge (c : LinkCube size) : LinkCube size := { c with joyCnt := .none }

def resetState (c : LinkCube size) : LinkCube size :=
  { c with
    newIncomingQueue :=
      let q := c.newIncomingQueue.cleared
      { q with ring := { q.ring with overflow := false } }
    needsClear := c.incomingQueue.isReading
    incomingQueue := if c.incomingQueue.isReading then c.incomingQueue else c.incomingQueue.cleared
    outgoingQueue := c.outgoingQueue.syncClear
    resetFlag := false }

/-- The loop of `copyState`, which takes an item at a time. -/
def transfer : Nat → Queue size → Queue size → Queue size × Queue size
  | 0, new, incoming => (new, incoming)
  | n + 1, new, incoming =>
      if !new.isEmpty && !incoming.isFull then
        transfer n new.popped (incoming.pushed new.front)
      else (new, incoming)

def copyState (c : LinkCube size) : LinkCube size :=
  if c.incomingQueue.isReading then c
  else
    let incoming := if c.needsClear then c.incomingQueue.cleared else c.incomingQueue
    let moved := transfer c.newIncomingQueue.ring.count c.newIncomingQueue incoming
    { c with needsClear := false, newIncomingQueue := moved.1, incomingQueue := moved.2 }

def setPendingData (c : LinkCube size) : LinkCube size :=
  if c.outgoingQueue.isWriting then { c with joyTrans := 0 }
  else { c with outgoingQueue := c.outgoingQueue.popped, joyTrans := c.outgoingQueue.front }

def onReset (c : LinkCube size) : LinkCube size :=
  if c.joyCnt.cmdReset then { c.resetState with resetFlag := true }.acknowledge else c

def onReceive (c : LinkCube size) : LinkCube size :=
  if c.joyCnt.cmdReceive then
    { c with newIncomingQueue := c.newIncomingQueue.pushed c.joyRecv }.acknowledge
  else c

def onSend (c : LinkCube size) : LinkCube size :=
  if c.joyCnt.cmdSend then c.setPendingData.acknowledge else c

/-- `_onSerial` -/
def onSerial (c : LinkCube size) : LinkCube size :=
  if !c.isEnabled then c else c.onReset.onReceive.onSend.copyState

end Handler

section Program

/-- The driver before it is activated, with the registers of the port at 0. -/
def initial : LinkCube size :=
  ⟨.initial, .initial, .initial, false, false, false, .none, 0, 0⟩

def activate (c : LinkCube size) : LinkCube size :=
  { ({ c with isEnabled := false } : LinkCube size).resetState with isEnabled := true }

def outgoingPart : Part (LinkCube size) (Queue size) :=
  ⟨outgoingQueue, fun q c => { c with outgoingQueue := q }, fun _ _ => rfl, fun _ => rfl,
    fun _ _ _ => rfl⟩

def incomingPart : Part (LinkCube size) (Queue size) :=
  ⟨incomingQueue, fun q c => { c with incomingQueue := q }, fun _ _ => rfl, fun _ => rfl,
    fun _ _ _ => rfl⟩

def canRead : Code (LinkCube size) Bool := .look fun c => !c.incomingQueue.isEmpty

def read : Code (LinkCube size) Word := Queue.syncPop incomingPart

def send (data : Word) : Code (LinkCube size) Unit := do
  if !(← .look isEnabled) then return
  Queue.syncPush outgoingPart data

end Program

section Port

/-- The Wii writes a word. The interrupt is served before the Wii's next transfer, so the handler
finds this word in `_REG_JOY_RECV`. -/
def receive (c : LinkCube size) (data : Word) : LinkCube size :=
  { c with joyRecv := data, joyCnt := { c.joyCnt with cmdReceive := true } }.onSerial

/-- The Wii has read the word in `_REG_JOY_TRANS`. The interrupt is served before the Wii's next
transfer, so the next word is there by then. -/
def sent (c : LinkCube size) : LinkCube size :=
  { c with joyCnt := { c.joyCnt with cmdSend := true } }.onSerial

end Port

section Held

variable {c : LinkCube size} {inc out ins outs : List Word}

/-- The word that the next read of the Wii gets, if any. -/
def latch (c : LinkCube size) : List Word := if c.joyTrans = 0 then [] else [c.joyTrans]

/-- What the driver holds: `ins` is what has come in and has not been read, `outs` what is to go
out. The program may be at work on a queue; `inc` and `out` are what was in it before. -/
structure Held (c : LinkCube size) (inc out ins outs : List Word) : Prop where
  isEnabled : c.isEnabled = true
  needsClear : c.needsClear = false
  outgoingClear : c.outgoingQueue.needsClear = false
  joyCnt : c.joyCnt = .none
  overflow : c.newIncomingQueue.ring.overflow = false
  incoming : c.incomingQueue.isReading = false → c.incomingQueue.ring.Holds inc
  outgoing : c.outgoingQueue.isWriting = false → c.outgoingQueue.ring.Holds out
  ins_eq : ∃ new, c.newIncomingQueue.ring.Holds new ∧ ins = inc ++ new
  outs_eq : outs = c.latch ++ out

/-- The handler has left the queues alone that the program is at work on. -/
structure Spared (c c' : LinkCube size) : Prop where
  isReading : c'.incomingQueue.isReading = c.incomingQueue.isReading
  isWriting : c'.outgoingQueue.isWriting = c.outgoingQueue.isWriting
  incoming : c.incomingQueue.isReading = true → c'.incomingQueue.ring = c.incomingQueue.ring
  outgoing : c.outgoingQueue.isWriting = true → c'.outgoingQueue.ring = c.outgoingQueue.ring

theorem isEmpty_eq {q : Queue size} {xs : List Word} (h : q.ring.Holds xs) :
    q.isEmpty = xs.isEmpty := by
  rw [Queue.isEmpty, Bool.eq_iff_iff, beq_iff_eq, h.count_eq_zero, List.isEmpty_iff]

theorem isFull_of_lt {q : Queue size} {xs : List Word} (h : q.ring.Holds xs)
    (hlt : xs.length < size) : q.isFull = false := by
  rw [Queue.isFull, h.count_eq]
  exact beq_false_of_ne (Nat.ne_of_lt hlt)

theorem transfer_holds {n : Nat} {new incoming : Queue size} {xs ys : List Word}
    (hnew : new.ring.Holds xs) (hinc : incoming.ring.Holds ys) (hn : xs.length ≤ n)
    (hroom : ys.length + xs.length ≤ size) :
    (transfer n new incoming).1.ring.Holds [] ∧
      (transfer n new incoming).2.ring.Holds (ys ++ xs) ∧
      (transfer n new incoming).1.ring.overflow = new.ring.overflow := by
  induction n generalizing new incoming xs ys with
  | zero =>
      obtain rfl := List.length_eq_zero_iff.mp (Nat.le_zero.mp hn)
      rw [List.append_nil]
      exact ⟨hnew, hinc, rfl⟩
  | succ n ih =>
      cases xs with
      | nil =>
          rw [transfer, isEmpty_eq hnew, List.append_nil]
          exact ⟨hnew, hinc, rfl⟩
      | cons x xs =>
          rw [List.length_cons] at hn hroom
          obtain ⟨hx, hpopped, hoverflow⟩ := hnew.pop_cons
          have hpushed : (incoming.pushed new.front).ring.Holds (ys ++ [x]) := by
            rw [Queue.front, hx]
            exact (hinc.push (by omega) x).1
          rw [transfer, isEmpty_eq hnew, isFull_of_lt hinc (by omega)]
          have hleft : new.popped.ring.Holds xs := hpopped
          have hrest := ih hleft hpushed (Nat.le_of_succ_le_succ hn)
            (by simp only [List.length_append, List.length_singleton]; omega)
          rw [List.append_assoc, List.singleton_append] at hrest
          exact ⟨hrest.1, hrest.2.1, hrest.2.2.trans hoverflow⟩

theorem transfer_flags (n : Nat) (new incoming : Queue size) :
    (transfer n new incoming).2.isReading = incoming.isReading := by
  induction n generalizing new incoming with
  | zero => rfl
  | succ n ih =>
      rw [transfer]
      split
      · exact ih _ _
      · rfl

/-- At the end of the handler the new words are where the program can read them, unless it is
reading. -/
theorem Held.copyState (h : c.Held inc out ins outs) (hroom : ins.length ≤ size) :
    c.copyState.Held (if c.incomingQueue.isReading then inc else ins) out ins outs ∧
      Spared c c.copyState := by
  cases hreading : c.incomingQueue.isReading with
  | true =>
      simp only [LinkCube.copyState, hreading, if_true]
      exact ⟨h, rfl, rfl, fun _ => rfl, fun _ => rfl⟩
  | false =>
      obtain ⟨new, hnew, rfl⟩ := h.ins_eq
      rw [List.length_append] at hroom
      obtain ⟨hempty, hmoved, hoverflow⟩ := transfer_holds hnew (h.incoming hreading)
        (Nat.le_of_eq hnew.count_eq.symm) hroom
      have hflags := transfer_flags c.newIncomingQueue.ring.count c.newIncomingQueue c.incomingQueue
      simp only [LinkCube.copyState, hreading, h.needsClear, Bool.false_eq_true, if_false]
      refine ⟨⟨h.isEnabled, rfl, h.outgoingClear, h.joyCnt, hoverflow.trans h.overflow,
        fun _ => hmoved, h.outgoing, ⟨[], hempty, (List.append_nil _).symm⟩, h.outs_eq⟩,
        hflags, rfl, fun hr => ?_, fun _ => rfl⟩
      rw [hreading] at hr
      cases hr

theorem Spared.trans {c₁ c₂ c₃ : LinkCube size} (h : Spared c₁ c₂) (h' : Spared c₂ c₃) :
    Spared c₁ c₃ where
  isReading := h'.isReading.trans h.isReading
  isWriting := h'.isWriting.trans h.isWriting
  incoming hr := (h'.incoming (h.isReading.trans hr)).trans (h.incoming hr)
  outgoing hw := (h'.outgoing (h.isWriting.trans hw)).trans (h.outgoing hw)

theorem receive_eq (henabled : c.isEnabled = true) (hcnt : c.joyCnt = .none) (data : Word) :
    c.receive data = ({ c with
      joyRecv := data
      newIncomingQueue := c.newIncomingQueue.pushed data } : LinkCube size).copyState := by
  simp [LinkCube.receive, onSerial, onReset, onReceive, onSend, acknowledge, henabled, hcnt,
    JoyCnt.none]

theorem sent_eq (henabled : c.isEnabled = true) (hcnt : c.joyCnt = .none) :
    c.sent = c.setPendingData.copyState := by
  cases hwriting : c.outgoingQueue.isWriting <;>
    simp [LinkCube.sent, onSerial, onReset, onReceive, onSend, acknowledge, henabled, hcnt,
      JoyCnt.none, setPendingData, hwriting]

theorem Held.receive (h : c.Held inc out ins outs) (hroom : ins.length < size) (data : Word) :
    (c.receive data).Held (if c.incomingQueue.isReading then inc else ins ++ [data]) out
      (ins ++ [data]) outs ∧ Spared c (c.receive data) := by
  obtain ⟨new, hnew, hins⟩ := h.ins_eq
  have hlen : ins.length = inc.length + new.length := by rw [hins, List.length_append]
  obtain ⟨hpushed, hoverflow⟩ := hnew.push (by omega) data
  rw [receive_eq h.isEnabled h.joyCnt]
  have hstored : Held { c with
      joyRecv := data
      newIncomingQueue := c.newIncomingQueue.pushed data } inc out (ins ++ [data]) outs :=
    ⟨h.isEnabled, h.needsClear, h.outgoingClear, h.joyCnt, hoverflow.trans h.overflow, h.incoming,
      h.outgoing, ⟨new ++ [data], hpushed, by rw [hins, List.append_assoc]⟩, h.outs_eq⟩
  obtain ⟨hheld, hspared⟩ := hstored.copyState
    (by rw [List.length_append, List.length_singleton]; omega)
  exact ⟨hheld, hspared.isReading, hspared.isWriting, hspared.incoming, hspared.outgoing⟩

theorem Held.setPendingData (h : c.Held inc out ins outs) (hout : ∀ w ∈ out, w ≠ 0) :
    c.setPendingData.Held inc (if c.outgoingQueue.isWriting then out else out.tail) ins out ∧
      Spared c c.setPendingData := by
  cases hwriting : c.outgoingQueue.isWriting with
  | true =>
      simp only [LinkCube.setPendingData, hwriting, if_true]
      exact ⟨⟨h.isEnabled, h.needsClear, h.outgoingClear, h.joyCnt, h.overflow, h.incoming,
        h.outgoing, h.ins_eq, rfl⟩, rfl, rfl, fun _ => rfl, fun _ => rfl⟩
  | false =>
      have hspared : ∀ hw : c.outgoingQueue.isWriting = true, c.outgoingQueue.popped.ring =
          c.outgoingQueue.ring := fun hw => by rw [hwriting] at hw; cases hw
      simp only [LinkCube.setPendingData, hwriting, Bool.false_eq_true, if_false]
      cases out with
      | nil =>
          have hpop := (h.outgoing hwriting).pop_nil
          refine ⟨⟨h.isEnabled, h.needsClear, h.outgoingClear, h.joyCnt, h.overflow, h.incoming,
            fun _ => ?_, h.ins_eq, ?_⟩, rfl, rfl, fun _ => rfl, hspared⟩
          · simpa [Queue.popped, hpop] using h.outgoing hwriting
          · simp only [latch, Queue.front, hpop]
            rfl
      | cons w out =>
          obtain ⟨hfront, hpopped, _⟩ := (h.outgoing hwriting).pop_cons
          refine ⟨⟨h.isEnabled, h.needsClear, h.outgoingClear, h.joyCnt, h.overflow, h.incoming,
            fun _ => hpopped, h.ins_eq, ?_⟩, rfl, rfl, fun _ => rfl, hspared⟩
          simp only [latch, Queue.front, hfront, if_neg (hout w List.mem_cons_self), List.tail_cons,
            List.singleton_append]

/-- A read of the Wii takes the word at the port and has the next one put there. -/
theorem Held.sent (h : c.Held inc out ins outs) (hroom : ins.length ≤ size)
    (hout : ∀ w ∈ out, w ≠ 0) :
    c.sent.Held (if c.incomingQueue.isReading then inc else ins)
      (if c.outgoingQueue.isWriting then out else out.tail) ins out ∧ Spared c c.sent := by
  obtain ⟨hset, hspared⟩ := h.setPendingData hout
  obtain ⟨hheld, hspared'⟩ := hset.copyState hroom
  rw [sent_eq h.isEnabled h.joyCnt]
  rw [hspared.isReading] at hheld
  exact ⟨hheld, hspared.trans hspared'⟩

theorem run_send (henabled : c.isEnabled = true) (hclear : c.outgoingQueue.needsClear = false)
    (hw : c.outgoingQueue.isWriting = false) (w : Word) :
    (send w).run c = ((), { c with outgoingQueue := c.outgoingQueue.pushed w }) := by
  simp [send, Queue.syncPush, Queue.clearLate, henabled, outgoingPart, Part.trans, Queue.ringPart,
    hclear, Queue.pushed, hw]

theorem run_read (hr : c.incomingQueue.isReading = false) :
    read.run c =
      (c.incomingQueue.front, { c with incomingQueue := c.incomingQueue.popped }) := by
  simp [read, Queue.syncPop, incomingPart, Part.trans, Queue.ringPart, Queue.popped, Queue.front,
    hr]

end Held

end LinkCube

section Calls

variable {size : Nat} {α : Type} {c c' : LinkCube size} {code' : Code (LinkCube size) α}

/-- No call of the program has a queue in hand. -/
structure Free (c : LinkCube size) : Prop where
  isReading : c.incomingQueue.isReading = false
  isWriting : c.outgoingQueue.isWriting = false

theorem Free.spared (h : Free c) (hs : LinkCube.Spared c c') : Free c' :=
  ⟨hs.isReading.trans h.isReading, hs.isWriting.trans h.isWriting⟩

abbrev outgoingRing : Part (LinkCube size) (Ring Word size) :=
  LinkCube.outgoingPart.trans Queue.ringPart

abbrev incomingRing : Part (LinkCube size) (Ring Word size) :=
  LinkCube.incomingPart.trans Queue.ringPart

theorem syncPush_eq (w : Word) (a : α) :
    (Queue.syncPush LinkCube.outgoingPart w >>= fun _ => .ret a : Code (LinkCube size) α) =
      .write (fun c => { c with outgoingQueue := { c.outgoingQueue with isWriting := true } })
        ((Ring.push w).on outgoingRing >>= fun _ =>
          .write (fun c => { c with outgoingQueue := { c.outgoingQueue with isWriting := false } })
            (Queue.clearLate LinkCube.outgoingPart >>= fun _ => .ret a)) := by
  rw [Queue.syncPush, Code.bind_assoc]
  refine congrArg (Code.write _) ?_
  change (Ring.push w).on outgoingRing >>= _ >>= _ = _
  rw [Code.bind_assoc]
  rfl

theorem read_eq (k : Word → α) :
    (LinkCube.read >>= fun v => .ret (k v) : Code (LinkCube size) α) =
      .write (fun c => { c with incomingQueue := { c.incomingQueue with isReading := true } })
        (Ring.pop.on incomingRing >>= fun v =>
          .write (fun c => { c with incomingQueue := { c.incomingQueue with isReading := false } })
            (.ret (k v))) := by
  rw [LinkCube.read, Queue.syncPop, Code.bind_assoc]
  refine congrArg (Code.write _) ?_
  change Ring.pop.on incomingRing >>= _ >>= _ = _
  rw [Code.bind_assoc]
  rfl

theorem step_clearLate {a : α}
    (h : Interrupt.Step (Queue.clearLate LinkCube.outgoingPart >>= fun _ => .ret a) c code' c')
    (hclear : c.outgoingQueue.needsClear = false) : code' = .ret a ∧ c' = c := by
  cases h with
  | read =>
      refine ⟨?_, rfl⟩
      change Code.bind (if c.outgoingQueue.needsClear = true then _ else _) _ = _
      rw [hclear]
      rfl

end Calls

end WiiJoybus
