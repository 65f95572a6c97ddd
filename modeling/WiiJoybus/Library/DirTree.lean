import Mathlib.Logic.Function.Basic
import Mathlib.Data.List.Basic

/-!
A tree of directories, as its users see it.

A directory is a list of bindings of names to nodes. A name can be bound more than
once, and a lookup finds its first binding.
-/

/-- The kinds of the nodes there are, and what the directories among them bind. -/
structure DirTree (κ ν ι : Type) where
  kind : ι → Option κ
  bindings : ι → List (ν × ι)

namespace DirTree

variable {κ ν ι : Type} [BEq ν] [DecidableEq ι]

def lookup (t : DirTree κ ν ι) (d : ι) (n : ν) : Option ι := (t.bindings d).lookup n

def Unbound (t : DirTree κ ν ι) (i : ι) : Prop := ∀ d, ∀ b ∈ t.bindings d, b.2 ≠ i

def bind (t : DirTree κ ν ι) (d : ι) (n : ν) (i : ι) (k : κ) : DirTree κ ν ι where
  kind := Function.update t.kind i (some k)
  bindings := Function.update t.bindings d (t.bindings d ++ [(n, i)])

def rebind (t : DirTree κ ν ι) (d : ι) (l : List (ν × ι)) : DirTree κ ν ι :=
  { t with bindings := Function.update t.bindings d l }

def forget (t : DirTree κ ν ι) (i : ι) : DirTree κ ν ι where
  kind := Function.update t.kind i none
  bindings := Function.update t.bindings i []

section Lookup

variable {t : DirTree κ ν ι} {d d' i j : ι} {n m : ν} {k : κ} {l : List (ν × ι)}

theorem lookup_bind_of_some (h : t.lookup d m = some j) :
    (t.bind d' n i k).lookup d m = some j := by
  simp only [lookup, bind] at h ⊢
  by_cases hd : d = d'
  · subst hd
    rw [Function.update_self, List.lookup_append, h, Option.some_or]
  · rwa [Function.update_of_ne hd]

theorem lookup_bind_self [ReflBEq ν] (h : t.lookup d n = none) :
    (t.bind d n i k).lookup d n = some i := by
  simp only [lookup, bind] at h ⊢
  rw [Function.update_self, List.lookup_append, h, Option.none_or, List.lookup_cons_self]

theorem lookup_rebind_self : (t.rebind d l).lookup d n = l.lookup n := by
  simp only [lookup, rebind, Function.update_self]

theorem lookup_rebind_of_ne (h : d ≠ d') : (t.rebind d' l).lookup d n = t.lookup d n := by
  simp only [lookup, rebind, Function.update_of_ne h]

theorem lookup_forget_of_ne (h : d ≠ i) : (t.forget i).lookup d n = t.lookup d n := by
  simp only [lookup, forget, Function.update_of_ne h]

end Lookup

end DirTree
