import Mathlib

/-!
Reading a list in pieces while it changes.

The reader keeps its place as a number, and between two pieces the list may get shorter
or longer. `Fair` is what a reader can rely on: nothing that counts is delivered twice or
still to come once it has been delivered, and what lasts is not behind the place
undelivered.
-/

namespace Cursor

variable {α : Type}

/-- The items that count occur once. -/
def Distinct (real : α → Prop) (items : List α) : Prop :=
  items.Pairwise fun x y => real x → x ≠ y

structure Fair (real lasting : α → Prop) (items : List α) (pos : Nat) (delivered : List α) :
    Prop where
  once : Distinct real delivered
  ahead : ∀ x ∈ items.drop pos, real x → x ∉ delivered
  behind : ∀ x ∈ items.take pos, real x → lasting x → x ∈ delivered

/-- What is cut out between `j` and `k` moves nothing to before `pos`. -/
def Spares (length pos j k : Nat) : Prop :=
  k = j + 1 ∨ pos ≤ j + 1 ∨ length ≤ max pos k

/-- What may become of the list between two pieces. -/
inductive Moves (new : α → Prop) (pos : Nat) (items : List α) : List α → Prop where
  | shorten {u} (hu : u <+: items) : Moves new pos items u
  | append {u x} (hu : u <+: items) (hx : new x) : Moves new pos items (u ++ [x])
  | cut {j k} (hs : Spares items.length pos j k) (hj : j < items.length) (hjk : j < k) :
      Moves new pos items (items.take (j + 1) ++ items.drop k)

section Lists

variable {real : α → Prop} {l : List α} {x : α} {j k pos : Nat}

theorem Distinct.count_le_one [DecidableEq α] (h : Distinct real l) (hx : real x) :
    l.count x ≤ 1 := by
  induction h with
  | nil => simp
  | @cons a l ha _ ih =>
      by_cases hax : a = x
      · subst hax
        have hnot : a ∉ l := fun hmem => ha a hmem hx rfl
        simp [List.count_eq_zero_of_not_mem hnot]
      · rw [List.count_cons_of_ne hax]
        exact ih

theorem mem_drop_cut (hjk : j < k) (h : x ∈ (l.take (j + 1) ++ l.drop k).drop pos) :
    x ∈ l.drop pos := by
  rw [List.drop_append, List.mem_append] at h
  cases h with
  | inl h =>
      rw [List.drop_take] at h
      exact List.mem_of_mem_take h
  | inr h =>
      rw [List.drop_drop] at h
      have hlen := List.length_take_le (j + 1) l
      have hle : pos ≤ k + (pos - (l.take (j + 1)).length) := by omega
      rw [← Nat.add_sub_cancel' hle, ← List.drop_drop] at h
      exact List.mem_of_mem_drop h

theorem mem_take_cut (hs : Spares l.length pos j k) (hj : j < l.length) (hjk : j < k)
    (h : x ∈ (l.take (j + 1) ++ l.drop k).take pos) : x ∈ l.take pos := by
  have hlen : (l.take (j + 1)).length = j + 1 := List.length_take_of_le hj
  rcases hs with rfl | hpos | hend
  · rwa [List.take_append_drop] at h
  · rw [List.take_append_of_le_length (by rwa [hlen]), List.take_take] at h
    rwa [Nat.min_eq_left hpos] at h
  · rcases Nat.lt_or_ge k l.length with hk | hk
    · have hmem := List.mem_of_mem_take h
      rw [List.take_of_length_le (by omega)]
      cases List.mem_append.mp hmem with
      | inl hmem => exact List.mem_of_mem_take hmem
      | inr hmem => exact List.mem_of_mem_drop hmem
    · rw [List.drop_eq_nil_of_le hk, List.append_nil, List.take_take, Nat.min_comm,
        ← List.take_take] at h
      exact List.mem_of_mem_take h

end Lists

namespace Fair

variable {real lasting lasting' : α → Prop} {items u delivered : List α} {pos j k : Nat} {x : α}

theorem start (real lasting : α → Prop) (items : List α) : Fair real lasting items 0 [] where
  once := .nil
  ahead _ _ _ := List.not_mem_nil
  behind _ hx := by simp at hx

theorem deliver (h : Fair real lasting items pos delivered) (hd : Distinct real items) (n : Nat) :
    Fair real lasting items (pos + n) (delivered ++ (items.drop pos).take n) := by
  have hrest : Distinct real ((items.drop pos).take n ++ items.drop (pos + n)) := by
    rw [← List.drop_drop, List.take_append_drop]
    exact hd.sublist (List.drop_sublist pos items)
  obtain ⟨hpiece, _, hapart⟩ := List.pairwise_append.mp hrest
  constructor
  case once =>
    refine List.pairwise_append.mpr ⟨h.once, hpiece, ?_⟩
    intro x hx y hy hreal heq
    subst heq
    exact h.ahead x (List.mem_of_mem_take hy) hreal hx
  case ahead =>
    intro x hx hreal hmem
    cases List.mem_append.mp hmem with
    | inl hold =>
        rw [← List.drop_drop] at hx
        exact h.ahead x (List.mem_of_mem_drop hx) hreal hold
    | inr hnew => exact hapart x hnew x hx hreal rfl
  case behind =>
    intro x hx hreal hlast
    rw [List.take_add, List.mem_append] at hx
    exact List.mem_append.mpr (hx.imp_left fun hx => h.behind x hx hreal hlast)

/-- Records that do not count may be delivered with the others. -/
theorem skip (h : Fair real lasting items pos delivered) (hu : ∀ x ∈ u, ¬ real x) :
    Fair real lasting items pos (delivered ++ u) where
  once := by
    refine List.pairwise_append.mpr ⟨h.once, ?_, ?_⟩
    · exact List.pairwise_of_forall_mem_list fun x hx _ _ hreal => absurd hreal (hu x hx)
    · intro x _ y hy hreal heq
      exact hu y hy (heq ▸ hreal)
  ahead x hx hreal hmem := by
    cases List.mem_append.mp hmem with
    | inl hold => exact h.ahead x hx hreal hold
    | inr hnew => exact hu x hnew hreal
  behind x hx hreal hlast := List.mem_append_left u (h.behind x hx hreal hlast)

theorem mono (h : Fair real lasting items pos delivered) (hl : ∀ x, lasting' x → lasting x) :
    Fair real lasting' items pos delivered :=
  ⟨h.once, h.ahead, fun x hx hreal hlast => h.behind x hx hreal (hl x hlast)⟩

theorem shorten (h : Fair real lasting items pos delivered) (hu : u <+: items) :
    Fair real lasting u pos delivered where
  once := h.once
  ahead x hx := h.ahead x ((hu.drop pos).subset hx)
  behind x hx := h.behind x ((hu.take pos).subset hx)

theorem snoc (h : Fair real lasting items pos delivered) (hnew : x ∉ delivered)
    (hlast : ¬ lasting x) : Fair real lasting (items ++ [x]) pos delivered where
  once := h.once
  ahead y hy hreal := by
    rw [List.drop_append, List.mem_append] at hy
    cases hy with
    | inl hy => exact h.ahead y hy hreal
    | inr hy =>
        rw [List.mem_singleton.mp (List.mem_of_mem_drop hy)]
        exact hnew
  behind y hy hreal hlasting := by
    rw [List.take_append, List.mem_append] at hy
    cases hy with
    | inl hy => exact h.behind y hy hreal hlasting
    | inr hy =>
        rw [List.mem_singleton.mp (List.mem_of_mem_take hy)] at hlasting
        exact absurd hlasting hlast

theorem cut (h : Fair real lasting items pos delivered) (hs : Spares items.length pos j k)
    (hj : j < items.length) (hjk : j < k) :
    Fair real lasting (items.take (j + 1) ++ items.drop k) pos delivered where
  once := h.once
  ahead x hx := h.ahead x (mem_drop_cut hjk hx)
  behind x hx := h.behind x (mem_take_cut hs hj hjk hx)

theorem moves {new : α → Prop} {items' : List α} (h : Fair real lasting items pos delivered)
    (hm : Moves new pos items items') (hnew : ∀ x, new x → x ∉ delivered ∧ ¬ lasting x) :
    Fair real lasting items' pos delivered := by
  cases hm with
  | shorten hu => exact h.shorten hu
  | append hu hx => exact (h.shorten hu).snoc (hnew _ hx).1 (hnew _ hx).2
  | cut hs hj hjk => exact h.cut hs hj hjk

/-- At the end, everything that has been there throughout is delivered. -/
theorem complete (h : Fair real lasting items pos delivered) (hend : items.length ≤ pos)
    (hx : x ∈ items) (hreal : real x) (hlast : lasting x) : x ∈ delivered :=
  h.behind x (by rwa [List.take_of_length_le hend]) hreal hlast

end Fair

end Cursor
