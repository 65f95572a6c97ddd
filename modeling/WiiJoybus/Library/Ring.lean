import Mathlib.Data.Nat.ModEq
import Mathlib.Tactic.Ring
import WiiJoybus.Library.Interrupt

/-!
A ring buffer that drops its oldest item when it is full.

Its operations are given access by access, for threads that a handler may cut
into. Run without interruption they are those of a bounded queue.
-/

namespace RingBuffer
open Interrupt

structure Ring (α : Type) (size : Nat) where
  arr : Nat → α
  front : Nat
  rear : Int
  count : Nat
  /-- An item has been dropped. -/
  overflow : Bool

namespace Ring

variable {α : Type} {size : Nat}

/-- The oldest item, or a default when there is none. -/
def pop [Inhabited α] : Code (Ring α size) α := do
  if (← .look count) = 0 then
    return default
  let at_ ← .look front
  let x ← .look fun r => r.arr at_
  let front ← .look front
  .modify fun r => { r with front := (front + 1) % size }
  let count ← .look count
  .modify fun r => { r with count := count - 1 }
  return x

def push [Inhabited α] (x : α) : Code (Ring α size) Unit := do
  if (← .look count) = size then
    .modify fun r => { r with overflow := true }
    let _ ← pop
  let rear ← .look rear
  .modify fun r => { r with rear := (rear + 1) % size }
  let at_ ← .look Ring.rear
  .modify fun r => { r with arr := Function.update r.arr at_.toNat x }
  let count ← .look Ring.count
  .modify fun r => { r with count := count + 1 }

def clear : Code (Ring α size) Unit := do
  .modify fun r => { r with front := 0 }
  .modify fun r => { r with count := 0 }
  .modify fun r => { r with rear := -1 }

/-- The ring holds the given items, the oldest one first. -/
structure Holds (r : Ring α size) (xs : List α) : Prop where
  front_lt : r.front < size
  length_le : xs.length ≤ size
  count_eq : r.count = xs.length
  rear_eq : (r.rear + 1) % size = ((r.front + xs.length : Nat) : Int) % size
  item : ∀ (i : Nat) (hi : i < xs.length), r.arr ((r.front + i) % size) = xs[i]

section Holds

variable [Inhabited α] {r : Ring α size} {x : α} {xs : List α}

theorem run_pop (r : Ring α size) : pop.run r = if r.count = 0 then (default, r) else
    (r.arr r.front, { r with front := (r.front + 1) % size, count := r.count - 1 }) := by
  by_cases hzero : r.count = 0 <;> simp [pop, hzero]

def extend (r : Ring α size) (x : α) : Ring α size :=
  { r with
    rear := (r.rear + 1) % size
    arr := Function.update r.arr ((r.rear + 1) % size).toNat x
    count := r.count + 1 }

theorem run_push (r : Ring α size) (x : α) : (push x).run r =
    ((), if r.count = size then (pop.run { r with overflow := true }).2.extend x
      else r.extend x) := by
  by_cases hfull : r.count = size <;> simp [push, extend, hfull]

omit [Inhabited α] in
theorem Holds.count_eq_zero (h : r.Holds xs) : r.count = 0 ↔ xs = [] := by
  rw [h.count_eq, List.length_eq_zero_iff]

theorem Holds.pop_nil (h : r.Holds []) : pop.run r = (default, r) := by
  rw [run_pop, if_pos (h.count_eq_zero.mpr rfl)]

theorem Holds.pop_cons (h : r.Holds (x :: xs)) : (pop.run r).1 = x ∧
    (pop.run r).2.Holds xs ∧ (pop.run r).2.overflow = r.overflow := by
  have hsize := Nat.lt_of_le_of_lt (Nat.zero_le _) h.front_lt
  have hcount : r.count = xs.length + 1 := h.count_eq
  have hle : xs.length + 1 ≤ size := h.length_le
  rw [run_pop, if_neg (by omega)]
  refine ⟨?_, ⟨Nat.mod_lt _ hsize, by omega, ?_, ?_, fun i hi => ?_⟩, rfl⟩
  · have hitem := h.item 0 (Nat.succ_pos _)
    rwa [Nat.add_zero, Nat.mod_eq_of_lt h.front_lt] at hitem
  · simp only [hcount, Nat.add_sub_cancel]
  · refine h.rear_eq.trans ?_
    rw [List.length_cons]
    push_cast
    rw [Int.emod_add_emod]
    ring_nf
  · have hitem := h.item (i + 1) (Nat.succ_lt_succ hi)
    rw [List.getElem_cons_succ] at hitem
    rw [← hitem, Nat.mod_add_mod, Nat.add_assoc, Nat.add_comm 1 i]

omit [Inhabited α] in
theorem Holds.extend (h : r.Holds xs) (hroom : xs.length < size) (x : α) :
    (r.extend x).Holds (xs ++ [x]) := by
  have hrear : ((r.rear + 1) % size).toNat = (r.front + xs.length) % size := by
    rw [h.rear_eq]
    omega
  refine ⟨h.front_lt, by simpa using Nat.succ_le_of_lt hroom,
    by simp [Ring.extend, h.count_eq], ?_, fun i hi => ?_⟩
  · simp only [Ring.extend, h.rear_eq, List.length_append, List.length_singleton]
    push_cast
    rw [Int.emod_add_emod, add_assoc]
  · rw [List.length_append, List.length_singleton] at hi
    simp only [Ring.extend, hrear, Function.update_apply]
    by_cases hlast : i = xs.length
    · subst hlast
      rw [if_pos rfl, List.getElem_concat_length rfl]
    · have hlt : i < xs.length := by omega
      rw [if_neg, List.getElem_append_left hlt, h.item i hlt]
      intro heq
      have hmod : i % size = xs.length % size := Nat.ModEq.add_left_cancel' r.front heq
      rw [Nat.mod_eq_of_lt (by omega), Nat.mod_eq_of_lt hroom] at hmod
      exact hlast hmod

theorem Holds.push (h : r.Holds xs) (hroom : xs.length < size) (x : α) :
    ((Ring.push x).run r).2.Holds (xs ++ [x]) ∧ ((Ring.push x).run r).2.overflow = r.overflow := by
  have hcount := h.count_eq
  rw [run_push, if_neg (by omega)]
  exact ⟨h.extend hroom x, rfl⟩

/-- The oldest item makes room for the new one. -/
theorem Holds.push_full {y : α} (h : r.Holds (y :: xs)) (hfull : xs.length + 1 = size) (x : α) :
    ((Ring.push x).run r).2.Holds (xs ++ [x]) ∧ ((Ring.push x).run r).2.overflow = true := by
  have hcount : r.count = xs.length + 1 := h.count_eq
  have hmarked : Holds { r with overflow := true } (y :: xs) :=
    ⟨h.front_lt, h.length_le, h.count_eq, h.rear_eq, h.item⟩
  obtain ⟨_, hpopped, hoverflow⟩ := hmarked.pop_cons
  rw [run_push, if_pos (by omega)]
  exact ⟨hpopped.extend (by omega) x, hoverflow⟩

omit [Inhabited α] in
theorem holds_clear (hsize : 0 < size) (r : Ring α size) : (clear.run r).2.Holds [] :=
  ⟨hsize, Nat.zero_le _, rfl, by simp [clear], fun _ hi => absurd hi (Nat.not_lt_zero _)⟩

end Holds

end Ring
end RingBuffer
