import WiiJoybus.Library.Bytes

/-!
Programs that read a byte buffer and exchange bytes with a device.

A run is seen as the list of its events, the indices it reads and the transfers
it makes. What a device answers is part of the event, so a statement about all
runs is one about all devices.
-/

namespace Port
open ByteMemory

/-- `transfer` sends bytes and gets a buffer with what the device answered, or
nothing when the transfer failed. -/
inductive Prog (α : Type) where
  | ret (a : α)
  | load (i : Nat) (k : Byte → Prog α)
  | transfer (out : List Byte) (k : Option Memory → Prog α)
  | exit

inductive Event where
  | load (i : Nat)
  | transfer (out : List Byte) (reply : Option Memory)

variable {α β γ σ ι : Type}

namespace Prog

def bind : Prog α → (α → Prog β) → Prog β
  | .ret a, f => f a
  | .load i k, f => .load i fun b => (k b).bind f
  | .transfer out k, f => .transfer out fun r => (k r).bind f
  | .exit, _ => .exit

instance : Monad Prog where
  pure := .ret
  bind := .bind

/-- A loop over the given values of its variable. -/
def loop (f : ι → σ → Prog σ) : List ι → σ → Prog σ
  | [], st => .ret st
  | i :: rest, st => f i st >>= fun st => loop f rest st

end Prog

/-- The program may run with these events and return `a`. -/
inductive Runs (buf : Memory) : Prog α → List Event → α → Prop where
  | ret (a : α) : Runs buf (.ret a) [] a
  | load {i k ev a} (h : Runs buf (k (buf i)) ev a) : Runs buf (.load i k) (.load i :: ev) a
  | transfer {out k r ev a} (h : Runs buf (k r) ev a) :
      Runs buf (.transfer out k) (.transfer out r :: ev) a

section Runs

variable {buf : Memory} {ev : List Event} {a : α} {b : β}

theorem Runs.bind {p : Prog α} {f : α → Prog β} {ev' : List Event} (hp : Runs buf p ev a)
    (hf : Runs buf (f a) ev' b) : Runs buf (p >>= f) (ev ++ ev') b := by
  change Runs buf (p.bind f) _ _
  induction hp with
  | ret a => exact hf
  | load h ih => exact .load (ih hf)
  | transfer h ih => exact .transfer (ih hf)

theorem Runs.of_bind {p : Prog α} {f : α → Prog β} (h : Runs buf (p >>= f) ev b) :
    ∃ ev₁ a ev₂, ev = ev₁ ++ ev₂ ∧ Runs buf p ev₁ a ∧ Runs buf (f a) ev₂ b := by
  change Runs buf (p.bind f) ev b at h
  induction p generalizing ev with
  | ret a => exact ⟨[], a, ev, rfl, .ret a, h⟩
  | load i k ih =>
      cases h with
      | load h =>
          obtain ⟨ev₁, a, ev₂, rfl, hp, hf⟩ := ih _ h
          exact ⟨_, a, ev₂, rfl, .load hp, hf⟩
  | transfer out k ih =>
      cases h with
      | transfer h =>
          obtain ⟨ev₁, a, ev₂, rfl, hp, hf⟩ := ih _ h
          exact ⟨_, a, ev₂, rfl, .transfer hp, hf⟩
  | exit => cases h

theorem Runs.of_ret {a' : α} (h : Runs buf (.ret a) ev a') : ev = [] ∧ a' = a := by
  cases h with
  | ret => exact ⟨rfl, rfl⟩

def shownAll (next : ι → σ → σ) (shown : ι → σ → List γ) : List ι → σ → List γ
  | [], _ => []
  | i :: rest, st => shown i st ++ shownAll next shown rest (next i st)

/-- The loop rule: what one iteration does, all of them do in turn. -/
theorem Runs.of_loop {f : ι → σ → Prog σ} (g : Event → Option γ) (next : ι → σ → σ)
    (shown : ι → σ → List γ) (hf : ∀ i st ev st', Runs buf (f i st) ev st' →
      st' = next i st ∧ ev.filterMap g = shown i st)
    {is : List ι} {st st' : σ} (h : Runs buf (Prog.loop f is st) ev st') :
    st' = is.foldl (fun st i => next i st) st ∧
      ev.filterMap g = shownAll next shown is st := by
  induction is generalizing st ev with
  | nil =>
      obtain ⟨rfl, rfl⟩ := h.of_ret
      exact ⟨rfl, rfl⟩
  | cons i is ih =>
      obtain ⟨ev₁, st₁, ev₂, rfl, hi, hrest⟩ := Runs.of_bind h
      obtain ⟨rfl, hshown⟩ := hf i st ev₁ st₁ hi
      obtain ⟨hst, hall⟩ := ih hrest
      exact ⟨hst, by rw [List.filterMap_append, hshown, hall, shownAll]⟩

theorem Runs.loop_shows {f : ι → σ → Prog σ} (g : Event → Option γ) (shown : ι → List γ)
    (hf : ∀ i st ev st', Runs buf (f i st) ev st' → ev.filterMap g = shown i)
    {is : List ι} {st st' : σ} (h : Runs buf (Prog.loop f is st) ev st') :
    ev.filterMap g = is.flatMap shown := by
  induction is generalizing st ev with
  | nil =>
      obtain ⟨rfl, _⟩ := h.of_ret
      rfl
  | cons i is ih =>
      obtain ⟨ev₁, st₁, ev₂, rfl, hi, hrest⟩ := Runs.of_bind h
      rw [List.filterMap_append, hf i st ev₁ st₁ hi, ih hrest, List.flatMap_cons]

theorem runs_loop {f : ι → σ → Prog σ} {next : ι → σ → σ}
    (hf : ∀ i st, ∃ ev, Runs buf (f i st) ev (next i st)) (is : List ι) (st : σ) :
    ∃ ev, Runs buf (Prog.loop f is st) ev (is.foldl (fun st i => next i st) st) := by
  induction is generalizing st with
  | nil => exact ⟨[], .ret st⟩
  | cons i is ih =>
      obtain ⟨ev₁, h₁⟩ := hf i st
      obtain ⟨ev₂, h₂⟩ := ih (next i st)
      exact ⟨ev₁ ++ ev₂, h₁.bind h₂⟩

end Runs

/-- The indices a run reads, in order. -/
def Event.index? : Event → Option Nat
  | .load i => some i
  | .transfer _ _ => none

theorem mem_index {ev : List Event} {i : Nat} :
    i ∈ ev.filterMap Event.index? ↔ Event.load i ∈ ev := by
  rw [List.mem_filterMap]
  constructor
  · rintro ⟨e, he, hi⟩
    cases e with
    | load j =>
        cases hi
        exact he
    | transfer out reply => cases hi
  · exact fun h => ⟨_, h, rfl⟩

end Port
