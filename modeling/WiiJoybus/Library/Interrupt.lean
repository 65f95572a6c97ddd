import Mathlib.Logic.Relation

/-!
Code that an interrupt handler may cut into.

A thread reads and writes a shared state, one access after the other, and a
handler may run between any two of them. The handler itself is never cut into.
Code that works on a part of the state which the handler leaves alone meanwhile
has the effect it has by itself.
-/

namespace Interrupt

inductive Code (σ α : Type) where
  | ret (a : α)
  | read (k : σ → Code σ α)
  | write (f : σ → σ) (k : Code σ α)

variable {σ τ α β γ : Type}

namespace Code

def bind : Code σ α → (α → Code σ β) → Code σ β
  | .ret a, f => f a
  | .read k, f => .read fun s => (k s).bind f
  | .write g k, f => .write g (k.bind f)

instance : Monad (Code σ) where
  pure := .ret
  bind := .bind

theorem bind_assoc (c : Code σ α) (f : α → Code σ β) (g : β → Code σ γ) :
    c >>= f >>= g = c >>= fun a => f a >>= g := by
  change (c.bind f).bind g = c.bind fun a => (f a).bind g
  induction c with
  | ret a => rfl
  | read k ih => simp only [bind, ih]
  | write f k ih => simp only [bind, ih]

def look (g : σ → α) : Code σ α := .read fun s => .ret (g s)

def modify (f : σ → σ) : Code σ Unit := .write f (.ret ())

def run : Code σ α → σ → α × σ
  | .ret a, s => (a, s)
  | .read k, s => (k s).run s
  | .write f k, s => k.run (f s)

@[simp] theorem run_pure (a : α) (s : σ) : (pure a : Code σ α).run s = (a, s) := rfl

@[simp] theorem run_look (g : σ → α) (s : σ) : (look g).run s = (g s, s) := rfl

@[simp] theorem run_modify (f : σ → σ) (s : σ) : (modify f).run s = ((), f s) := rfl

@[simp] theorem run_bind (c : Code σ α) (f : α → Code σ β) (s : σ) :
    (c >>= f).run s = (f (c.run s).1).run (c.run s).2 := by
  change (c.bind f).run s = _
  induction c generalizing s with
  | ret a => rfl
  | read k ih => exact ih s s
  | write g k ih => exact ih (g s)

end Code

inductive Step : Code σ α → σ → Code σ α → σ → Prop where
  | read (k : σ → Code σ α) (s : σ) : Step (.read k) s (k s) s
  | write (f : σ → σ) (k : Code σ α) (s : σ) : Step (.write f k) s k (f s)

structure Part (σ τ : Type) where
  get : σ → τ
  put : τ → σ → σ
  get_put : ∀ t s, get (put t s) = t
  put_get : ∀ s, put (get s) s = s
  put_put : ∀ t u s, put t (put u s) = put t s

def Part.trans {ρ : Type} (P : Part σ τ) (Q : Part τ ρ) : Part σ ρ where
  get s := Q.get (P.get s)
  put r s := P.put (Q.put r (P.get s)) s
  get_put r s := by rw [P.get_put, Q.get_put]
  put_get s := by rw [Q.put_get, P.put_get]
  put_put r u s := by rw [P.put_put, P.get_put, Q.put_put]

section Part

variable (P : Part σ τ)

/-- Code that works on a part of the state only. -/
def Code.on : Code τ α → Code σ α
  | .ret a => .ret a
  | .read k => .read fun s => (k (P.get s)).on
  | .write f k => .write (fun s => P.put (f (P.get s)) s) k.on

@[simp] theorem Code.run_on (c : Code τ α) (s : σ) :
    (c.on P).run s = ((c.run (P.get s)).1, P.put (c.run (P.get s)).2 s) := by
  induction c generalizing s with
  | ret a => simp only [Code.on, Code.run, P.put_get]
  | read k ih => exact ih (P.get s) s
  | write f k ih =>
      refine (ih _).trans ?_
      simp only [P.get_put, P.put_put]
      rfl

variable {P}

/-- An access of such code, with what comes after it: what the code is going to leave in
its part does not change, and it touches nothing else. -/
theorem Step.on_bind {c : Code τ α} {f : α → Code σ β} {s s' : σ} {d : Code σ β}
    (h : Step (c.on P >>= f) s d s') :
    (∃ a, c = .ret a ∧ Step (f a) s d s') ∨
      ∃ c' : Code τ α, d = c'.on P >>= f ∧ c'.run (P.get s') = c.run (P.get s) ∧
        (s' = s ∨ ∃ t, s' = P.put t s) := by
  cases c with
  | ret a => exact Or.inl ⟨a, rfl, h⟩
  | read k =>
      cases h with
      | read => exact Or.inr ⟨k (P.get s), rfl, rfl, Or.inl rfl⟩
  | write g k =>
      cases h with
      | write =>
          refine Or.inr ⟨k, rfl, ?_, Or.inr ⟨_, rfl⟩⟩
          rw [P.get_put]
          rfl

end Part

theorem steps_run (c : Code σ α) (s : σ) :
    Relation.ReflTransGen (fun x y : Code σ α × σ => Step x.1 x.2 y.1 y.2) (c, s)
      (.ret (c.run s).1, (c.run s).2) := by
  induction c generalizing s with
  | ret a => exact .refl
  | read k ih => exact .head (.read k s) (ih s s)
  | write f k ih => exact .head (.write f k s) (ih (f s))

end Interrupt
