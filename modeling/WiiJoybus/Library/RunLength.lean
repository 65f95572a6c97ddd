import Mathlib.Data.List.Basic

/-!
Run-length codes.

A symbol either stands for itself or announces a run of the symbol that follows it. A
reader takes symbols until it has as many as it wants; the last run may give it more.
-/

/-- How long a run a symbol announces, if it does not stand for itself. -/
structure RunCode (α : Type) where
  run : α → Option Nat

namespace RunCode

variable {α : Type} (code : RunCode α)

/-- Read until there are `n` more symbols. What is read past the end is nothing. -/
def read : Nat → List α → Option (List α × List α)
  | 0, data => some ([], data)
  | _ + 1, [] => none
  | n + 1, a :: data =>
      match code.run a with
      | none => (read n data).map fun r => (a :: r.1, r.2)
      | some k =>
          match data with
          | [] => none
          | v :: data => (read (n + 1 - k) data).map fun r => (List.replicate k v ++ r.1, r.2)

/-- A symbol or a run that is not empty, as an encoder writes it. -/
inductive Token where
  | symbol (a : α) (h : code.run a = none)
  | run (a v : α) (k : Nat) (h : code.run a = some (k + 1))

variable {code}

def Token.written : code.Token → List α
  | .symbol a _ => [a]
  | .run a v _ _ => [a, v]

def Token.meant : code.Token → List α
  | .symbol a _ => [a]
  | .run _ v k _ => List.replicate (k + 1) v

def written (ts : List code.Token) : List α := ts.flatMap Token.written

def meant (ts : List code.Token) : List α := ts.flatMap Token.meant

/-- A reader gets what was written, and goes on behind it. -/
theorem read_append (ts : List code.Token) (n : Nat) (data : List α) :
    code.read ((meant ts).length + n) (written ts ++ data) =
      (code.read n data).map fun r => (meant ts ++ r.1, r.2) := by
  induction ts with
  | nil => simp [meant, written]
  | cons t ts ih =>
      cases t with
      | symbol a h =>
          have hlen : (meant (.symbol a h :: ts)).length + n = (meant ts).length + n + 1 :=
            Nat.add_right_comm _ 1 n
          change code.read _ (a :: (written ts ++ data)) = _
          simp only [hlen, read, h, ih, Option.map_map]
          rfl
      | run a v k h =>
          have hlen : (meant (.run a v k h :: ts)).length + n = (meant ts).length + n + k + 1 := by
            change (List.replicate (k + 1) v ++ meant ts).length + n = _
            rw [List.length_append, List.length_replicate]
            omega
          have hleft : (meant ts).length + n + k + 1 - (k + 1) = (meant ts).length + n := by omega
          change code.read _ (a :: v :: (written ts ++ data)) = _
          simp only [hlen, read, h, hleft, ih, Option.map_map]
          refine congrArg (Option.map · _) (funext fun r => ?_)
          simp only [Function.comp_apply, ← List.append_assoc]
          rfl

theorem read_written (ts : List code.Token) (rest : List α) :
    code.read (meant ts).length (written ts ++ rest) = some (meant ts, rest) := by
  have h := read_append ts 0 rest
  rwa [Nat.add_zero, read, Option.map_some, List.append_nil] at h

/-- A reader that wants `n` symbols gets them, and fewer than a longest run above. -/
theorem read_length {m n : Nat} {data out rest : List α} (hm : ∀ a k, code.run a = some k → k ≤ m)
    (hpos : 0 < m) (h : code.read n data = some (out, rest)) :
    n ≤ out.length ∧ (0 < n → out.length < n + m) ∧ (n = 0 → out = []) := by
  fun_induction code.read n data generalizing out rest with
  | case1 data =>
      cases h
      exact ⟨Nat.le_refl 0, fun hn => absurd hn (Nat.lt_irrefl 0), fun _ => rfl⟩
  | case2 n => cases h
  | case3 n a data hrun ih =>
      obtain ⟨⟨out', rest'⟩, hr, heq⟩ := Option.map_eq_some_iff.mp h
      simp only [Prod.mk.injEq] at heq
      obtain ⟨rfl, rfl⟩ := heq
      obtain ⟨hle, hlt, hnil⟩ := ih hr
      refine ⟨Nat.succ_le_succ hle, fun _ => ?_, fun hz => by cases hz⟩
      rw [List.length_cons]
      by_cases hn : n = 0
      · rw [hnil hn, List.length_nil]
        omega
      · have := hlt (Nat.pos_of_ne_zero hn)
        omega
  | case4 n a k hrun => cases h
  | case5 n a k hrun v data ih =>
      obtain ⟨⟨out', rest'⟩, hr, heq⟩ := Option.map_eq_some_iff.mp h
      simp only [Prod.mk.injEq] at heq
      obtain ⟨rfl, rfl⟩ := heq
      obtain ⟨hle, hlt, hnil⟩ := ih hr
      have hk := hm a k hrun
      refine ⟨?_, fun _ => ?_, fun hz => by cases hz⟩
      · rw [List.length_append, List.length_replicate]
        omega
      · rw [List.length_append, List.length_replicate]
        by_cases hn : n + 1 - k = 0
        · rw [hnil hn, List.length_nil]
          omega
        · have := hlt (Nat.pos_of_ne_zero hn)
          omega

end RunCode
