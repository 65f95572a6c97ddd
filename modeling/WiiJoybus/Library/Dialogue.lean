import Mathlib

/-!
Two sequential processes over lossless FIFO channels.

A process sends words, receives words, discards what is pending, or halts. Its
loops are kept out of the inductive type: a process returns either a loop head,
from which its program continues, or a result. `Follows` says that a process
plays its part of a conversation, the one sequence of words both sides see.

The point of the module is that a conversation both sides follow determines
every interleaving: whatever the order of steps, one side is ahead of the other
by exactly the words in flight.
-/

namespace Dialogue

inductive Side where
  | client
  | server
  deriving DecidableEq, Repr

def Side.other : Side → Side
  | .client => .server
  | .server => .client

theorem Side.other_ne (s : Side) : s.other ≠ s := by
  cases s <;> decide

theorem Side.other_other (s : Side) : s.other.other = s := by
  cases s <;> rfl

theorem Side.eq_or_eq_other (s t : Side) : t = s ∨ t = s.other := by
  cases s <;> cases t <;> decide

inductive Proc (W α : Type) where
  | ret (a : α)
  | send (w : W) (k : Proc W α)
  | recv (k : W → Proc W α)
  /-- Poll and throw away until nothing is pending. -/
  | clear (k : Proc W α)
  | halt

namespace Proc

variable {W α β γ : Type}

def bind : Proc W α → (α → Proc W β) → Proc W β
  | .ret a, f => f a
  | .send w k, f => .send w (k.bind f)
  | .recv k, f => .recv fun w => (k w).bind f
  | .clear k, f => .clear (k.bind f)
  | .halt, _ => .halt

instance : Monad (Proc W) where
  pure := .ret
  bind := .bind

theorem bind_assoc (p : Proc W α) (f : α → Proc W β) (g : β → Proc W γ) :
    p >>= f >>= g = p >>= fun a => f a >>= g := by
  change (p.bind f).bind g = p.bind fun a => (f a).bind g
  induction p with
  | ret a => rfl
  | send w k ih => simp only [bind, ih]
  | recv k ih => simp only [bind, ih]
  | clear k ih => simp only [bind, ih]
  | halt => rfl

def sendAll : List W → Proc W Unit
  | [] => .ret ()
  | w :: ws => .send w (sendAll ws)

theorem sendAll_append (ws vs : List W) :
    sendAll (ws ++ vs) = sendAll ws >>= fun _ => sendAll vs := by
  induction ws with
  | nil => rfl
  | cons w ws ih => exact congrArg (Proc.send w) ih

/-- What is left of a process after it has received the given words. -/
def feed : Proc W α → List W → Option (Proc W α)
  | p, [] => some p
  | .recv k, w :: ws => feed (k w) ws
  | _, _ :: _ => none

theorem feed_bind {p : Proc W α} {ws vs : List W} {a : α} {f : α → Proc W β}
    (h : p.feed ws = some (.ret a)) : (p >>= f).feed (ws ++ vs) = (f a).feed vs := by
  change (p.bind f).feed (ws ++ vs) = (f a).feed vs
  induction ws generalizing p with
  | nil =>
      simp only [feed, Option.some.injEq] at h
      subst h
      rfl
  | cons w ws ih =>
      cases p with
      | recv k => exact ih h
      | ret _ | send _ _ | clear _ | halt => simp [feed] at h

/-- Run a process that only receives against the words on their way to it;
`idle` words are polled and passed over. -/
def consume (idle : W → Bool) : Proc W α → List W → Option (α × List W)
  | .ret a, ws => some (a, ws)
  | .recv k, ws =>
      match ws.dropWhile idle with
      | [] => none
      | w :: rest => consume idle (k w) rest
  | _, _ => none

/-- Whatever the process receives, its result satisfies `Q`. -/
def All (Q : α → Prop) : Proc W α → Prop
  | .ret a => Q a
  | .send _ k => All Q k
  | .recv k => ∀ w, All Q (k w)
  | .clear k => All Q k
  | .halt => True

theorem All.bind {Q : β → Prop} (p : Proc W α) {f : α → Proc W β} (h : ∀ a, (f a).All Q) :
    (p >>= f).All Q := by
  change (p.bind f).All Q
  induction p with
  | ret a => exact h a
  | send w k ih => exact ih
  | recv k ih => exact fun w => ih w
  | clear k ih => exact ih
  | halt => exact trivial

private theorem dropWhile_of_filter (idle : W → Bool) (w : W) (rest polls : List W)
    (h : polls.filter (fun w => !idle w) = w :: rest) :
    ∃ polls', polls.dropWhile idle = w :: polls' ∧
      polls'.filter (fun w => !idle w) = rest := by
  induction polls with
  | nil => simp at h
  | cons v polls ih =>
      cases hv : idle v with
      | true =>
          rw [List.filter_cons_of_neg (by simp [hv])] at h
          rw [List.dropWhile_cons_of_pos hv]
          exact ih h
      | false =>
          rw [List.filter_cons_of_pos (by simp [hv]), List.cons.injEq] at h
          obtain ⟨rfl, hrest⟩ := h
          exact ⟨polls, List.dropWhile_cons_of_neg (by simp [hv]), hrest⟩

/-- Idle polls between the words do not disturb a receiver. -/
theorem consume_of_feed (idle : W → Bool) (p : Proc W α) (a : α) (ws polls rest : List W)
    (hp : p.feed ws = some (.ret a))
    (hpolls : polls.filter (fun w => !idle w) = ws ++ rest) :
    ∃ polls', p.consume idle polls = some (a, polls') ∧
      polls'.filter (fun w => !idle w) = rest := by
  induction ws generalizing p polls with
  | nil =>
      simp only [feed, Option.some.injEq] at hp
      subst hp
      exact ⟨polls, rfl, hpolls⟩
  | cons w ws ih =>
      cases p with
      | recv k =>
          obtain ⟨polls', hdrop, hrest⟩ := dropWhile_of_filter idle w (ws ++ rest) polls hpolls
          obtain ⟨left, hc, hl⟩ := ih (k w) polls' hp hrest
          refine ⟨left, ?_, hl⟩
          simpa only [consume, hdrop] using hc
      | ret _ | send _ _ | clear _ | halt => simp [feed] at hp

end Proc

variable {W H R : Type}

/-- `Follows wire body me p c q`: the process `p`, run by side `me`, plays its
part of the conversation `c` and is then at `q`. Words are received as `wire`
delivers them. -/
inductive Follows (wire : W → W) (body : H → Proc W (H ⊕ R)) (me : Side) :
    Proc W (H ⊕ R) → List (Side × W) → Proc W (H ⊕ R) → Prop where
  | done (p) : Follows wire body me p [] p
  | loop {h c q} (rest : Follows wire body me (body h) c q) :
      Follows wire body me (.ret (.inl h)) c q
  | send {w k c q} (rest : Follows wire body me k c q) :
      Follows wire body me (.send w k) ((me, w) :: c) q
  | recv {w k c q} (rest : Follows wire body me (k (wire w)) c q) :
      Follows wire body me (.recv k) ((me.other, w) :: c) q
  | clear {w k c q} (rest : Follows wire body me k ((me, w) :: c) q) :
      Follows wire body me (.clear k) ((me, w) :: c) q

namespace Follows

variable {wire : W → W} {body : H → Proc W (H ⊕ R)} {me : Side}
variable {c : List (Side × W)} {q : Proc W (H ⊕ R)}

theorem sendAll (ws : List W) {f : Unit → Proc W (H ⊕ R)}
    (h : Follows wire body me (f ()) c q) :
    Follows wire body me (Proc.sendAll ws >>= f) (ws.map (Prod.mk me) ++ c) q := by
  induction ws with
  | nil => exact h
  | cons w ws ih => exact .send ih

theorem feed {α : Type} {p : Proc W α} {a : α} (ws : List W) {f : α → Proc W (H ⊕ R)}
    (hp : p.feed (ws.map wire) = some (.ret a)) (h : Follows wire body me (f a) c q) :
    Follows wire body me (p >>= f) (ws.map (Prod.mk me.other) ++ c) q := by
  induction ws generalizing p with
  | nil =>
      simp only [List.map_nil, Proc.feed, Option.some.injEq] at hp
      subst hp
      exact h
  | cons w ws ih =>
      cases p with
      | recv k => exact .recv (ih hp)
      | ret _ | send _ _ | clear _ | halt => simp [Proc.feed] at hp

theorem of_send {w : W} {k : Proc W (H ⊕ R)} {x : Side × W}
    (h : Follows wire body me (.send w k) (x :: c) q) :
    x = (me, w) ∧ Follows wire body me k c q := by
  cases h with
  | send rest => exact ⟨rfl, rest⟩

theorem of_recv {k : W → Proc W (H ⊕ R)} {x : Side × W}
    (h : Follows wire body me (.recv k) (x :: c) q) :
    x.1 = me.other ∧ Follows wire body me (k (wire x.2)) c q := by
  cases h with
  | recv rest => exact ⟨rfl, rest⟩

theorem of_clear {k : Proc W (H ⊕ R)} {x : Side × W}
    (h : Follows wire body me (.clear k) (x :: c) q) :
    x.1 = me ∧ Follows wire body me k (x :: c) q := by
  cases h with
  | clear rest => exact ⟨rfl, rest⟩

theorem of_loop {l : H} {x : Side × W}
    (h : Follows wire body me (.ret (.inl l)) (x :: c) q) :
    Follows wire body me (body l) (x :: c) q := by
  cases h with
  | loop rest => exact rest

/-- What holds of every result is an invariant of the loops, and so it holds to the end of a
conversation. -/
theorem all {Q : H ⊕ R → Prop} {p : Proc W (H ⊕ R)} (hf : Follows wire body me p c q)
    (hbody : ∀ l, Q (.inl l) → (body l).All Q) (hp : p.All Q) : q.All Q := by
  induction hf with
  | done p => exact hp
  | @loop l _ _ _ ih => exact ih (hbody l hp)
  | send _ ih => exact ih hp
  | recv _ ih => exact ih (hp _)
  | clear _ ih => exact ih hp

end Follows

end Dialogue
