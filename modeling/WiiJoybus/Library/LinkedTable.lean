import Mathlib

/-!
Singly linked lists threaded through a table.

The cells are the entries of a table; each holds the optional index of the
next. `Chain` relates a start to the list of cells the links spell out, which
exists at most when the links do not run in a circle. A walk is given as much
fuel as there are cells: if that does not end it, no amount does.
-/

namespace LinkedTable

variable {α : Type}

inductive Chain (next : α → Option α) : Option α → List α → Prop where
  | nil : Chain next none []
  | cons {a l} (h : Chain next (next a) l) : Chain next (some a) (a :: l)

/-- Follow the links to the first cell that satisfies `p`; `none` when the fuel
runs out before the links do. -/
def scan (next : α → Option α) (p : α → Bool) : Nat → Option α → Option (Option α)
  | _, none => some none
  | 0, some _ => none
  | fuel + 1, some a => if p a then some (some a) else scan next p fuel (next a)

def nth (next : α → Option α) : Nat → Option α → Option α
  | 0, start => start
  | _ + 1, none => none
  | n + 1, some a => nth next n (next a)

theorem scan_true {next : α → Option α} {p : α → Bool} {fuel : Nat} {start : Option α} {a : α}
    (h : scan next p fuel start = some (some a)) : p a = true := by
  induction fuel generalizing start with
  | zero => cases start <;> cases h
  | succ fuel ih =>
      cases start with
      | none => cases h
      | some b =>
          rw [scan] at h
          split at h
          · rename_i hb
            cases h
            exact hb
          · exact ih h

theorem exists_nth_of_scan {next : α → Option α} {p : α → Bool} {fuel : Nat} {start : Option α}
    {a : α} (h : scan next p fuel start = some (some a)) : ∃ n, nth next n start = some a := by
  induction fuel generalizing start with
  | zero => cases start <;> cases h
  | succ fuel ih =>
      cases start with
      | none => cases h
      | some b =>
          rw [scan] at h
          split at h
          · cases h
            exact ⟨0, rfl⟩
          · obtain ⟨n, hn⟩ := ih h
            exact ⟨n + 1, hn⟩

theorem target_of_nth {next : α → Option α} {start : Option α} {n : Nat} {a : α}
    (h : nth next n start = some a) : start = some a ∨ ∃ b, next b = some a := by
  induction n generalizing start with
  | zero => exact Or.inl h
  | succ n ih =>
      cases start with
      | none => cases h
      | some b => exact Or.inr ((ih h).elim (fun hb => ⟨b, hb⟩) id)

theorem scan_congr {next next' : α → Option α} {p : α → Bool}
    (h : ∀ a, p a = false → next' a = next a) (fuel : Nat) (start : Option α) :
    scan next' p fuel start = scan next p fuel start := by
  induction fuel generalizing start with
  | zero => cases start <;> rfl
  | succ fuel ih =>
      cases start with
      | none => rfl
      | some a =>
          rw [scan, scan]
          cases hp : p a with
          | true => rfl
          | false => rw [h a hp, ih]

theorem scan_last_ne (next : α → Option α) (fuel : Nat) (a : α) :
    scan next (fun b => (next b).isNone) fuel (some a) ≠ some none := by
  induction fuel generalizing a with
  | zero => simp [scan]
  | succ fuel ih =>
      rw [scan]
      cases hnext : next a with
      | none => simp
      | some b =>
          simp only [Option.isNone_some, Bool.false_eq_true, if_false]
          exact ih b

namespace Chain

variable {next next' : α → Option α} {start : Option α} {l l' r : List α} {a e : α}

theorem of_some (h : Chain next (some a) l) : ∃ r, l = a :: r ∧ Chain next (next a) r := by
  cases h with
  | cons h => exact ⟨_, rfl, h⟩

theorem of_none (h : Chain next none l) : l = [] := by
  cases h
  rfl

theorem unique (h : Chain next start l) (h' : Chain next start l') : l = l' := by
  induction h generalizing l' with
  | nil => exact h'.of_none.symm
  | cons _ ih =>
      obtain ⟨r, rfl, hr⟩ := h'.of_some
      rw [ih hr]

theorem suffix (h : Chain next start (l ++ a :: r)) : Chain next (some a) (a :: r) := by
  induction l generalizing start with
  | nil =>
      cases h with
      | cons h => exact .cons h
  | cons b l ih =>
      cases h with
      | cons h => exact ih h

theorem nodup (h : Chain next start l) : l.Nodup := by
  induction h with
  | nil => exact List.nodup_nil
  | @cons a l h ih =>
      refine List.nodup_cons.mpr ⟨?_, ih⟩
      intro ha
      -- a second visit would make the list its own proper suffix
      obtain ⟨s, t, rfl⟩ := List.append_of_mem ha
      obtain ⟨u, hu, ht⟩ := h.suffix.of_some
      cases hu
      have hlen := congrArg List.length (h.unique ht)
      simp only [List.length_append, List.length_cons] at hlen
      omega

theorem length_le [Fintype α] (h : Chain next start l) : l.length ≤ Fintype.card α :=
  h.nodup.length_le_card

theorem congr (h : Chain next start l) (hsame : ∀ a ∈ l, next' a = next a) :
    Chain next' start l := by
  induction h with
  | nil => exact .nil
  | @cons a l _ ih =>
      have hl : Chain next' (next a) l :=
        ih fun b hb => hsame b (List.mem_cons_of_mem a hb)
      exact .cons (by rwa [hsame a List.mem_cons_self])

theorem snoc (h : Chain next start (l ++ [a])) (ha : next' a = some e) (he : next' e = none)
    (hsame : ∀ b ∈ l, next' b = next b) : Chain next' start (l ++ [a, e]) := by
  induction l generalizing start with
  | nil =>
      cases h with
      | cons _ => exact .cons (by rw [ha]; exact .cons (by rw [he]; exact .nil))
  | cons b l ih =>
      cases h with
      | cons h =>
          have hl := ih h fun c hc => hsame c (List.mem_cons_of_mem b hc)
          exact .cons (by rwa [hsame b List.mem_cons_self])

theorem unlink (h : Chain next start (l ++ a :: e :: r)) (ha : next' a = next e)
    (hl : ∀ b ∈ l, next' b = next b) (hr : ∀ b ∈ r, next' b = next b) :
    Chain next' start (l ++ a :: r) := by
  induction l generalizing start with
  | nil =>
      cases h with
      | cons h =>
          obtain ⟨r', hr', hchain⟩ : ∃ r', e :: r = e :: r' ∧ Chain next (next e) r' := by
            generalize next a = s at h
            cases h with
            | cons h => exact ⟨r, rfl, h⟩
          cases hr'
          exact .cons (by rw [ha]; exact hchain.congr hr)
  | cons b l ih =>
      cases h with
      | cons h =>
          have hl' := ih h fun c hc => hl c (List.mem_cons_of_mem b hc)
          exact .cons (by rwa [hl b List.mem_cons_self])

theorem next_of_append (h : Chain next start (l ++ a :: e :: r)) : next a = some e := by
  obtain ⟨s, hs, hchain⟩ := h.suffix.of_some
  cases hs
  generalize next a = x at hchain
  cases hchain
  rfl

theorem next_last (h : Chain next start (l ++ [a])) : next a = none := by
  obtain ⟨s, hs, hchain⟩ := h.suffix.of_some
  cases hs
  generalize next a = x at hchain
  cases hchain
  rfl

theorem start_eq (h : Chain next start l) : start = l.head? := by
  cases h <;> rfl

theorem eq_snoc (h : Chain next start l) (ha : a ∈ l) (hnext : next a = none) :
    ∃ r, l = r ++ [a] := by
  obtain ⟨u, v, rfl⟩ := List.append_of_mem ha
  obtain ⟨w, hw, hv⟩ := h.suffix.of_some
  cases hw
  rw [hnext] at hv
  exact ⟨u, by rw [hv.of_none]⟩

theorem exists_last (h : Chain next (some a) l) : ∃ b ∈ l, next b = none := by
  obtain ⟨r, rfl, _⟩ := h.of_some
  rcases List.eq_nil_or_concat (a :: r) with hnil | ⟨u, b, hl⟩
  · cases hnil
  · rw [List.concat_eq_append] at hl
    rw [hl] at h ⊢
    exact ⟨b, by simp, h.next_last⟩

theorem eq_neighbours (h : Chain next start l) (ha : a ∈ l) (hnext : next a = some e) :
    ∃ u v, l = u ++ a :: e :: v := by
  obtain ⟨u, v, rfl⟩ := List.append_of_mem ha
  obtain ⟨w, hw, hv⟩ := h.suffix.of_some
  cases hw
  rw [hnext] at hv
  obtain ⟨r, rfl, _⟩ := hv.of_some
  exact ⟨u, r, rfl⟩

theorem start_or_prev (h : Chain next start l) (he : e ∈ l) :
    start = some e ∨ ∃ a ∈ l, next a = some e := by
  obtain ⟨u, v, rfl⟩ := List.append_of_mem he
  rcases List.eq_nil_or_concat u with rfl | ⟨u, a, rfl⟩
  · exact Or.inl h.start_eq
  · right
    rw [List.concat_eq_append, List.append_assoc] at h ⊢
    exact ⟨a, by simp, h.next_of_append⟩

theorem next_ne_start (h : Chain next (some e) l) (ha : a ∈ l) : next a ≠ some e := by
  intro hnext
  have hnodup := h.nodup
  obtain ⟨u, v, hl⟩ := h.eq_neighbours ha hnext
  obtain ⟨r, hr, _⟩ := h.of_some
  rw [hr] at hnodup hl
  refine (List.nodup_cons.mp hnodup).1 ?_
  cases u with
  | nil =>
      cases hl
      exact List.mem_cons_self
  | cons b u =>
      cases hl
      simp

/-- Two cells of the chain with the same successor are one. -/
theorem prev_unique {b : α} (h : Chain next start l) (ha : a ∈ l) (hb : b ∈ l)
    (hna : next a = some e) (hnb : next b = some e) : a = b := by
  obtain ⟨u, v, hl⟩ := h.eq_neighbours ha hna
  obtain ⟨u', v', hl'⟩ := h.eq_neighbours hb hnb
  have hv : ∀ {w w' : List α} {c : α}, l = w ++ c :: e :: w' → Chain next (some e) (e :: w') := by
    intro w w' c hw
    rw [hw, show w ++ c :: e :: w' = (w ++ [c]) ++ e :: w' by simp] at h
    exact h.suffix
  have htail : e :: v = e :: v' := (hv hl).unique (hv hl')
  rw [hl, htail] at hl'
  exact (List.cons.inj (List.append_inj_right' hl' rfl)).1

theorem scan (h : Chain next start l) (p : α → Bool) {fuel : Nat} (hfuel : l.length ≤ fuel) :
    LinkedTable.scan next p fuel start = some (l.find? p) := by
  induction h generalizing fuel with
  | nil => cases fuel <;> rfl
  | @cons a l _ ih =>
      cases fuel with
      | zero => simp at hfuel
      | succ fuel =>
          rw [List.length_cons] at hfuel
          rw [LinkedTable.scan, List.find?_cons]
          cases p a with
          | true => rfl
          | false => exact ih (by omega)

theorem nth (h : Chain next start l) (n : Nat) : LinkedTable.nth next n start = l[n]? := by
  induction h generalizing n with
  | nil => cases n <;> rfl
  | cons _ ih =>
      cases n with
      | zero => rfl
      | succ n => rw [LinkedTable.nth, ih, List.getElem?_cons_succ]

theorem drop (h : Chain next start l) (k : Nat) : Chain next l[k]? (l.drop k) := by
  induction h generalizing k with
  | nil => simpa using Chain.nil
  | cons h ih =>
      cases k with
      | zero => exact .cons h
      | succ k => exact ih k

/-- One cell is linked to a later one, which may be none. -/
theorem relink (h : Chain next start l) {j k : Nat} (hj : l[j]? = some a) (hjk : j < k)
    (ha : next' a = l[k]?) (hsame : ∀ b ∈ l, b ≠ a → next' b = next b) :
    Chain next' start (l.take (j + 1) ++ l.drop k) := by
  have hnodup := h.nodup
  induction h generalizing j k with
  | nil => cases hj
  | @cons b l h ih =>
      obtain ⟨hb, hl⟩ := List.nodup_cons.mp hnodup
      cases k with
      | zero => omega
      | succ k =>
          cases j with
          | zero =>
              cases hj
              refine .cons (ha ▸ (h.drop k).congr fun c hc => ?_)
              have hc := List.mem_of_mem_drop hc
              exact hsame c (List.mem_cons_of_mem _ hc) fun heq => hb (heq ▸ hc)
          | succ j =>
              have hne : b ≠ a := fun heq => hb (heq ▸ List.mem_of_getElem? hj)
              refine .cons ?_
              rw [hsame b List.mem_cons_self hne]
              exact ih hj (Nat.lt_of_succ_lt_succ hjk) ha
                (fun c hc => hsame c (List.mem_cons_of_mem b hc)) hl

/-- The chain ends early when one of its cells links to nothing. -/
theorem cut (h : Chain next start (l ++ a :: r)) (ha : next' a = none)
    (hl : ∀ b ∈ l, next' b = next b) : Chain next' start (l ++ [a]) := by
  induction l generalizing start with
  | nil =>
      cases h with
      | cons _ => exact .cons (by rw [ha]; exact .nil)
  | cons b l ih =>
      cases h with
      | cons h =>
          have hrest := ih h fun c hc => hl c (List.mem_cons_of_mem b hc)
          exact .cons (by rwa [hl b List.mem_cons_self])

end Chain

/-- The walk from `start` begins with the cells of `l`, whatever comes after them. -/
def Begins (next : α → Option α) (start : Option α) (l : List α) : Prop :=
  ∀ k < l.length, nth next k start = l[k]?

section Begins

variable {next next' : α → Option α} {start : Option α} {l r : List α} {a : α}

theorem Chain.begins (h : Chain next start l) : Begins next start l := fun k _ => h.nth k

theorem Chain.begins_of_init (h : Chain next start (l ++ [a]))
    (hl : ∀ b ∈ l, next' b = next b) : Begins next' start (l ++ [a]) := by
  induction l generalizing start with
  | nil =>
      rw [h.start_eq]
      intro k hk
      obtain rfl : k = 0 := by simpa using hk
      rfl
  | cons b l ih =>
      cases h with
      | cons h =>
          have hrest := ih h fun c hc => hl c (List.mem_cons_of_mem b hc)
          intro k hk
          cases k with
          | zero => rfl
          | succ k =>
              change LinkedTable.nth next' k (next' b) = (l ++ [a])[k]?
              rw [hl b List.mem_cons_self]
              exact hrest k (by simpa using hk)

theorem Begins.scan (h : Begins next start l) {p : α → Bool} (hfind : l.find? p = some a)
    {fuel : Nat} (hfuel : l.length ≤ fuel) :
    LinkedTable.scan next p fuel start = some (some a) := by
  induction l generalizing start fuel with
  | nil => cases hfind
  | cons b l ih =>
      obtain rfl : start = some b := h 0 (by simp)
      cases fuel with
      | zero => simp at hfuel
      | succ fuel =>
          rw [List.length_cons] at hfuel
          rw [LinkedTable.scan]
          rw [List.find?_cons] at hfind
          cases hp : p b with
          | true =>
              rw [hp] at hfind
              exact congrArg some hfind
          | false =>
              rw [hp] at hfind
              refine ih (fun k hk => ?_) hfind (by omega)
              have := h (k + 1) (by simpa using hk)
              rwa [LinkedTable.nth, List.getElem?_cons_succ] at this

end Begins

section Endless

variable {next : α → Option α} {p : α → Bool} {start : Option α}

theorem nth_none (n : Nat) : nth next n none = none := by
  cases n <;> rfl

theorem nth_add (m n : Nat) : nth next (m + n) start = nth next n (nth next m start) := by
  induction m generalizing start with
  | zero => rw [Nat.zero_add, nth]
  | succ m ih =>
      cases start with
      | none => rw [nth_none, nth_none, nth_none]
      | some a => rw [Nat.succ_add, nth, nth, ih]

theorem nth_congr {next' : α → Option α}
    (h : ∀ k a, nth next k start = some a → next' a = next a) (n : Nat) :
    nth next' n start = nth next n start := by
  induction n with
  | zero => rfl
  | succ n ih =>
      rw [nth_add, nth_add, ih]
      cases ha : nth next n start with
      | none => rw [nth_none, nth_none]
      | some a => exact h n a ha

theorem scan_eq_none {n : Nat} : scan next p n start = none ↔
    ∀ k, k ≤ n → ∃ a, nth next k start = some a ∧ (k < n → p a = false) := by
  induction n generalizing start with
  | zero =>
      cases start with
      | none => simp [scan, nth]
      | some a => simp [scan, nth]
  | succ n ih =>
      cases start with
      | none =>
          simp only [scan, reduceCtorEq, false_iff]
          intro h
          obtain ⟨a, ha, _⟩ := h 0 (Nat.zero_le _)
          cases ha
      | some a =>
          rw [scan]
          constructor
          · intro h k hk
            cases hp : p a with
            | true => simp [hp] at h
            | false =>
                rw [hp] at h
                cases k with
                | zero => exact ⟨a, rfl, fun _ => hp⟩
                | succ k =>
                    obtain ⟨b, hb, hpb⟩ := ih.mp h k (by omega)
                    exact ⟨b, hb, fun _ => hpb (by omega)⟩
          · intro h
            obtain ⟨b, hb, hpb⟩ := h 0 (Nat.zero_le _)
            cases hb
            rw [hpb (by omega)]
            apply ih.mpr
            intro k hk
            obtain ⟨c, hc, hpc⟩ := h (k + 1) (by omega)
            exact ⟨c, hc, fun hlt => hpc (by omega)⟩

/-- A walk that has not ended after as many cells as there are runs for ever. -/
theorem scan_endless [Fintype α] (h : scan next p (Fintype.card α) start = none) (fuel : Nat) :
    scan next p fuel start = none := by
  have hall := scan_eq_none.mp h
  obtain ⟨a, _⟩ := hall 0 (Nat.zero_le _)
  have : Nonempty α := ⟨a⟩
  choose! cell hcell hp using hall
  -- two of the first `card + 1` cells coincide, and the walk repeats from there
  obtain ⟨i, hi, j, hj, hij, hsame⟩ :
      ∃ i ≤ Fintype.card α, ∃ j ≤ Fintype.card α, i < j ∧ cell i = cell j := by
    have hcard : Fintype.card α < Fintype.card (Fin (Fintype.card α + 1)) := by simp
    obtain ⟨i, j, hne, heq⟩ :=
      Fintype.exists_ne_map_eq_of_card_lt (fun k : Fin (Fintype.card α + 1) => cell k) hcard
    rcases Nat.lt_or_gt_of_ne (fun h => hne (Fin.ext h)) with hlt | hlt
    · exact ⟨i, by omega, j, by omega, hlt, heq⟩
    · exact ⟨j, by omega, i, by omega, hlt, heq.symm⟩
  have hloop : nth next j start = nth next i start := by
    rw [hcell i hi, hcell j hj, hsame]
  have hwalk : ∀ k, ∃ a, nth next k start = some a ∧ p a = false := by
    intro k
    induction k using Nat.strongRecOn with
    | ind k ih =>
        by_cases hk : k < j
        · exact ⟨cell k, hcell k (by omega), hp k (by omega) (by omega)⟩
        · obtain ⟨a, ha, hpa⟩ := ih (k - (j - i)) (by omega)
          refine ⟨a, ?_, hpa⟩
          rw [show k = j + (k - j) by omega, nth_add, hloop, ← nth_add, ← ha]
          congr 1
          omega
  apply scan_eq_none.mpr
  intro k _
  obtain ⟨a, ha, hpa⟩ := hwalk k
  exact ⟨a, ha, fun _ => hpa⟩

end Endless

end LinkedTable
