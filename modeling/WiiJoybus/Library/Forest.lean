import WiiJoybus.Library.LinkedTable

/-!
Several lists threaded through one table.

Each root has the start of a list of its own, and no cell is on two lists. The
lemmas say what becomes of all the lists when one link is written, which is how
a program that owns the table appends and unlinks.
-/

namespace LinkedTable

variable {α ι : Type}

/-- The lists of the roots, no two of which share a cell. -/
structure Forest (next : α → Option α) (head : ι → Option α) (root : ι → Prop)
    (cells : ι → List α) : Prop where
  chain : ∀ i, root i → Chain next (head i) (cells i)
  disjoint : ∀ i j a, root i → root j → a ∈ cells i → a ∈ cells j → i = j

namespace Forest

variable {next next' : α → Option α} {head head' : ι → Option α} {root root' : ι → Prop}
variable {cells : ι → List α} {l r : List α} {i : ι} {a e : α}

theorem cells_eq (h : Forest next head root cells) (hi : root i) (hl : Chain next (head i) l) :
    cells i = l :=
  (h.chain i hi).unique hl

theorem congr (h : Forest next head root cells) (hhead : ∀ i, root i → head' i = head i)
    (hnext : ∀ i, root i → ∀ a ∈ cells i, next' a = next a) : Forest next' head' root cells where
  chain i hi := by
    rw [hhead i hi]
    exact (h.chain i hi).congr (hnext i hi)
  disjoint := h.disjoint

theorem restrict (h : Forest next head root cells) (hroot : ∀ i, root' i → root i) :
    Forest next head root' cells where
  chain i hi := h.chain i (hroot i hi)
  disjoint i j a hi hj := h.disjoint i j a (hroot i hi) (hroot j hj)

variable [DecidableEq ι]

theorem insert (h : Forest next head root cells) (hi : head i = none)
    (hroot : ∀ j, root' j → j = i ∨ root j) :
    Forest next head root' (Function.update cells i []) := by
  have hcells : ∀ j, root' j → j ≠ i → root j ∧ Function.update cells i [] j = cells j := by
    intro j hj hji
    exact ⟨(hroot j hj).resolve_left hji, Function.update_of_ne hji _ _⟩
  constructor
  · intro j hj
    by_cases hji : j = i
    · subst hji
      rw [Function.update_self, hi]
      exact .nil
    · obtain ⟨hr, hc⟩ := hcells j hj hji
      rw [hc]
      exact h.chain j hr
  · intro j k a hj hk haj hak
    by_cases hji : j = i
    · subst hji
      simp at haj
    · by_cases hki : k = i
      · subst hki
        simp at hak
      · obtain ⟨hrj, hcj⟩ := hcells j hj hji
        obtain ⟨hrk, hck⟩ := hcells k hk hki
        rw [hcj] at haj
        rw [hck] at hak
        exact h.disjoint j k a hrj hrk haj hak

/-- One list is replaced by another whose cells are old ones of its own, or on no
list at all. -/
theorem replace (h : Forest next head root cells) (hi : root i)
    (hchain : Chain next' (head' i) l)
    (hl : ∀ a ∈ l, a ∈ cells i ∨ ∀ j, root j → a ∉ cells j)
    (hhead : ∀ j, j ≠ i → head' j = head j)
    (hnext : ∀ j, root j → j ≠ i → ∀ a ∈ cells j, next' a = next a) :
    Forest next' head' root (Function.update cells i l) := by
  have hcross : ∀ j a, root j → j ≠ i → a ∈ l → a ∉ cells j := by
    intro j a hj hji ha haj
    rcases hl a ha with hai | hfree
    · exact hji (h.disjoint j i a hj hi haj hai)
    · exact hfree j hj haj
  constructor
  · intro j hj
    by_cases hji : j = i
    · subst hji
      rwa [Function.update_self]
    · rw [Function.update_of_ne hji, hhead j hji]
      exact (h.chain j hj).congr (hnext j hj hji)
  · intro j k a hj hk haj hak
    by_cases hji : j = i <;> by_cases hki : k = i
    · rw [hji, hki]
    · subst hji
      rw [Function.update_self] at haj
      rw [Function.update_of_ne hki] at hak
      exact absurd hak (hcross k a hk hki haj)
    · subst hki
      rw [Function.update_self] at hak
      rw [Function.update_of_ne hji] at haj
      exact absurd haj (hcross j a hj hji hak)
    · rw [Function.update_of_ne hji] at haj
      rw [Function.update_of_ne hki] at hak
      exact h.disjoint j k a hj hk haj hak

theorem start (h : Forest next head root cells) (hi : root i) (hhead : head' i = some e)
    (hother : ∀ j, j ≠ i → head' j = head j) (he : next e = none)
    (hfree : ∀ j, root j → e ∉ cells j) :
    Forest next head' root (Function.update cells i [e]) := by
  refine h.replace hi ?_ ?_ hother fun _ _ _ _ _ => rfl
  · rw [hhead]
    exact .cons (by rw [he]; exact .nil)
  · intro a ha
    rw [List.mem_singleton.mp ha]
    exact Or.inr hfree

theorem append (h : Forest next head root cells) (hi : root i) (hl : cells i = l ++ [a])
    (ha : next' a = some e) (he : next' e = none) (hother : ∀ b, b ≠ a → b ≠ e → next' b = next b)
    (hfree : ∀ j, root j → e ∉ cells j) :
    Forest next' head root (Function.update cells i (l ++ [a, e])) := by
  have hchain := h.chain i hi
  rw [hl] at hchain
  have hnodup := List.nodup_append.mp hchain.nodup
  have hai : a ∈ cells i := by simp [hl]
  refine h.replace hi ?_ ?_ (fun _ _ => rfl) ?_
  · refine hchain.snoc ha he ?_
    intro b hb
    refine hother b (hnodup.2.2 b hb a (by simp)) ?_
    rintro rfl
    exact hfree i hi (by simp [hl, hb])
  · intro b hb
    have hb : b ∈ cells i ∨ b = e := by
      simp only [List.mem_append, List.mem_cons, List.not_mem_nil, or_false] at hb
      rcases hb with hb | rfl | rfl
      · exact Or.inl (by simp [hl, hb])
      · exact Or.inl hai
      · exact Or.inr rfl
    rcases hb with hb | rfl
    · exact Or.inl hb
    · exact Or.inr hfree
  · intro j hj hji b hb
    refine hother b ?_ ?_
    · rintro rfl
      exact hji (h.disjoint j i b hj hi hb hai)
    · rintro rfl
      exact hfree j hj hb

/-- The cell after `a` is bypassed. -/
theorem unlink (h : Forest next head root cells) (hi : root i) (hl : cells i = l ++ a :: e :: r)
    (ha : next' a = next e) (hother : ∀ b, b ≠ a → next' b = next b) :
    Forest next' head root (Function.update cells i (l ++ a :: r)) := by
  have hchain := h.chain i hi
  rw [hl] at hchain
  have hnodup := List.nodup_append.mp hchain.nodup
  have hai : a ∈ cells i := by simp [hl]
  refine h.replace hi ?_ ?_ (fun _ _ => rfl) ?_
  · refine hchain.unlink ha ?_ ?_
    · intro b hb
      exact hother b (hnodup.2.2 b hb a (by simp))
    · intro b hb
      refine hother b ?_
      rintro rfl
      have := (List.nodup_cons.mp hnodup.2.1).1
      exact this (List.mem_cons_of_mem e hb)
  · intro b hb
    left
    simp only [hl, List.mem_append, List.mem_cons] at hb ⊢
    tauto
  · intro j hj hji b hb
    refine hother b ?_
    rintro rfl
    exact hji (h.disjoint j i b hj hi hb hai)

end Forest

end LinkedTable
