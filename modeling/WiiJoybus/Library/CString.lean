import WiiJoybus.Library.Bytes

/-!
C strings in character arrays.

A string is the bytes before the first NUL. An array without a NUL holds the
string of all its bytes, which is as far as the array goes.
-/

namespace CString
open ByteMemory

variable {n : Nat}

/-- The string an array holds. -/
def ofArray (s : Fin n → Byte) : List Byte := (List.ofFn s).takeWhile (· != 0)

/-- `strcmp(a, b) == 0` -/
def same {m : Nat} (a : Fin m → Byte) (b : Fin n → Byte) : Bool :=
  decide (ofArray a = ofArray b)

/-- Write a string and its NUL, as far as they fit; later bytes stay. -/
def put (text : List Byte) (s : Fin n → Byte) : Fin n → Byte := fun i =>
  if i.val < text.length then text.getD i 0
  else if i.val = text.length then 0
  else s i

/-- The text of a format string that converts no argument. -/
def plain : List Byte → Option (List Byte)
  | [] => some []
  | c :: rest =>
      if c = 37 then
        match rest with
        | d :: rest => if d = 37 then (plain rest).map (37 :: ·) else none
        | [] => none
      else (plain rest).map (c :: ·)

/-- `snprintf(s, n, format)` without arguments: a format that converts one all
the same prints whatever `expansion` finds for it. -/
def snprintf (expansion : List Byte → List Byte) (format : List Byte) (s : Fin n → Byte) :
    Fin n → Byte :=
  put (((plain format).getD (expansion format)).take (n - 1)) s

theorem same_iff {m : Nat} (a : Fin m → Byte) (b : Fin n → Byte) :
    same a b = true ↔ ofArray a = ofArray b :=
  decide_eq_true_iff

section Arrays

variable {s : Fin n → Byte} {text : List Byte}

theorem ofArray_of_getD (hzero : (0 : Byte) ∉ text)
    (h : ∀ i : Fin n, i.val ≤ text.length → s i = text.getD i 0) : ofArray s = text.take n := by
  have hbegin : (List.ofFn s).take text.length = text.take n := by
    apply List.ext_getElem
    · simp [Nat.min_comm]
    · intro i hi hi'
      have hlen : i < text.length := by
        rw [List.length_take] at hi
        omega
      simp only [List.getElem_take, List.getElem_ofFn]
      rw [h _ (Nat.le_of_lt hlen)]
      simp [hlen]
  have hnonzero : ∀ b ∈ text.take n, (b != 0) = true := by
    intro b hb
    rw [bne_iff_ne]
    rintro rfl
    exact hzero (List.mem_of_mem_take hb)
  have hrest : ((List.ofFn s).drop text.length).takeWhile (· != 0) = [] := by
    by_cases hlt : text.length < n
    · rw [List.drop_eq_getElem_cons (by simpa using hlt), List.takeWhile_cons_of_neg]
      simp [h ⟨text.length, hlt⟩ (Nat.le_refl _)]
    · rw [List.drop_eq_nil_of_le (by simpa using hlt), List.takeWhile_nil]
  rw [ofArray, ← List.take_append_drop text.length (List.ofFn s), hbegin,
    List.takeWhile_append_of_pos hnonzero, hrest, List.append_nil]

theorem length_ofArray_le {k : Nat} (hk : k < n) (h : s ⟨k, hk⟩ = 0) :
    (ofArray s).length ≤ k := by
  by_contra hle
  have hlt : k < (ofArray s).length := Nat.lt_of_not_le hle
  have hmem : (ofArray s)[k] ∈ ofArray s := List.getElem_mem hlt
  have hne := List.mem_takeWhile_imp hmem
  have hget : (ofArray s)[k] = s ⟨k, hk⟩ := by
    have hpre := (List.takeWhile_prefix (l := List.ofFn s) (· != 0)).getElem hlt
    rw [List.getElem_ofFn] at hpre
    exact hpre
  rw [hget, h] at hne
  exact absurd hne (by decide)

theorem zero_notMem_ofArray (s : Fin n → Byte) : (0 : Byte) ∉ ofArray s := by
  intro h
  exact absurd (List.mem_takeWhile_imp h) (by decide)

theorem getD_ofArray {i : Fin n} (hi : i.val ≤ (ofArray s).length) :
    (ofArray s).getD i 0 = s i := by
  rcases Nat.lt_or_eq_of_le hi with hlt | heq
  · have hpre := (List.takeWhile_prefix (l := List.ofFn s) (· != 0)).getElem hlt
    rw [List.getElem_ofFn] at hpre
    rw [List.getD_eq_getElem _ _ hlt]
    exact hpre
  · have hrest : (List.ofFn s)[i.val]? = ((List.ofFn s).dropWhile (· != 0)).head? := by
      have hsplit : List.ofFn s = ofArray s ++ (List.ofFn s).dropWhile (· != 0) :=
        List.takeWhile_append_dropWhile.symm
      conv_lhs => rw [hsplit]
      rw [List.getElem?_append_right (Nat.le_of_eq heq.symm), heq, Nat.sub_self,
        List.head?_eq_getElem?]
    have hnot := List.head?_dropWhile_not (· != 0) (List.ofFn s)
    rw [← hrest] at hnot
    simp only [List.getElem?_ofFn, i.isLt, dif_pos, bne_eq_false_iff_eq] at hnot
    rw [List.getD_eq_default _ _ (Nat.le_of_eq heq.symm)]
    exact hnot.symm

theorem put_getD (text : List Byte) (s : Fin n → Byte) (i : Fin n) (hi : i.val ≤ text.length) :
    put text s i = text.getD i 0 := by
  rw [put]
  rcases Nat.lt_or_eq_of_le hi with hlt | heq
  · rw [if_pos hlt]
  · rw [if_neg (by omega), if_pos heq, heq, List.getD_eq_default _ _ (Nat.le_refl _)]

theorem ofArray_put (hzero : (0 : Byte) ∉ text) (hlen : text.length < n) (s : Fin n → Byte) :
    ofArray (put text s) = text := by
  rw [ofArray_of_getD hzero (put_getD text s), List.take_of_length_le (Nat.le_of_lt hlen)]

theorem length_ofArray_put (hlen : text.length < n) (s : Fin n → Byte) :
    (ofArray (put text s)).length ≤ text.length :=
  length_ofArray_le hlen (by rw [put_getD _ _ _ (Nat.le_refl _)]; simp)

end Arrays

section Formats

variable {text out : List Byte}

theorem plain_cons {c : Byte} (hc : c ≠ 37) (rest : List Byte) :
    plain (c :: rest) = (plain rest).map (c :: ·) := by
  rw [plain.eq_def]
  simp only [if_neg hc]

theorem plain_percent (d : Byte) (rest : List Byte) :
    plain (37 :: d :: rest) = if d = 37 then (plain rest).map (37 :: ·) else none := by
  rw [plain.eq_def]
  simp only [if_true]

theorem plain_of_notMem (h : (37 : Byte) ∉ text) : plain text = some text := by
  induction text with
  | nil => rfl
  | cons c rest ih =>
      obtain ⟨hc, hrest⟩ := List.ne_and_not_mem_of_not_mem_cons h
      rw [plain_cons (Ne.symm hc), ih hrest]
      rfl

theorem length_plain_le (h : plain text = some out) : out.length ≤ text.length := by
  induction text using plain.induct generalizing out with
  | case1 =>
      cases h
      exact Nat.le_refl _
  | case2 rest ih =>
      rw [plain_percent, if_pos rfl] at h
      obtain ⟨out', hout, rfl⟩ := Option.map_eq_some_iff.mp h
      have := ih hout
      simp only [List.length_cons]
      omega
  | case3 d rest hd =>
      rw [plain_percent, if_neg hd] at h
      cases h
  | case4 => cases h
  | case5 c rest hc ih =>
      rw [plain_cons hc] at h
      obtain ⟨out', hout, rfl⟩ := Option.map_eq_some_iff.mp h
      have := ih hout
      simp only [List.length_cons]
      omega

/-- A percent sign is not printed, or printed for two. -/
theorem length_plain_lt (hmem : (37 : Byte) ∈ text) (h : plain text = some out) :
    out.length < text.length := by
  induction text generalizing out with
  | nil => cases hmem
  | cons c rest ih =>
      by_cases hc : c = 37
      · subst hc
        cases rest with
        | nil => cases h
        | cons d rest =>
            rw [plain_percent] at h
            split at h
            · obtain ⟨out', hout, rfl⟩ := Option.map_eq_some_iff.mp h
              have hle := length_plain_le hout
              simp only [List.length_cons]
              omega
            · cases h
      · rw [plain_cons hc] at h
        obtain ⟨out', hout, rfl⟩ := Option.map_eq_some_iff.mp h
        have hrest : (37 : Byte) ∈ rest := List.mem_of_ne_of_mem (Ne.symm hc) hmem
        have := ih hrest hout
        simp only [List.length_cons]
        omega

theorem mem_of_plain (h : plain text = some out) {c : Byte} (hc : c ∈ out) : c ∈ text := by
  induction text using plain.induct generalizing out with
  | case1 =>
      cases h
      exact hc
  | case2 rest ih =>
      rw [plain_percent, if_pos rfl] at h
      obtain ⟨out', hout, rfl⟩ := Option.map_eq_some_iff.mp h
      cases hc with
      | head => exact List.mem_cons_self
      | tail _ hc => exact List.mem_cons_of_mem _ (List.mem_cons_of_mem _ (ih hout hc))
  | case3 d rest hd =>
      rw [plain_percent, if_neg hd] at h
      cases h
  | case4 => cases h
  | case5 c rest hne ih =>
      rw [plain_cons hne] at h
      obtain ⟨out', hout, rfl⟩ := Option.map_eq_some_iff.mp h
      cases hc with
      | head => exact List.mem_cons_self
      | tail _ hc => exact List.mem_cons_of_mem _ (ih hout hc)

theorem ofArray_snprintf (expansion : List Byte → List Byte) (s : Fin n → Byte)
    (hzero : (0 : Byte) ∉ text) (hpercent : (37 : Byte) ∉ text) (hlen : text.length < n) :
    ofArray (snprintf expansion text s) = text := by
  have htake : text.take (n - 1) = text := List.take_of_length_le (by omega)
  rw [snprintf, plain_of_notMem hpercent, Option.getD_some, htake, ofArray_put hzero hlen]

/-- A format that converts no argument is printed as far as there is room. -/
theorem ofArray_snprintf_plain (expansion : List Byte → List Byte) (s : Fin n → Byte)
    (hzero : (0 : Byte) ∉ text) (h : plain text = some out) (hn : 0 < n) :
    ofArray (snprintf expansion text s) = out.take (n - 1) := by
  rw [snprintf, h, Option.getD_some, ofArray_put]
  · exact fun hz => hzero (mem_of_plain h (List.mem_of_mem_take hz))
  · rw [List.length_take]
    omega

/-- A text with a percent sign is printed shorter, when a conversion prints nothing. -/
theorem length_ofArray_snprintf_lt (s : Fin n → Byte) (hn : 0 < n)
    (hpercent : (37 : Byte) ∈ text) :
    (ofArray (snprintf (fun _ => []) text s)).length < text.length := by
  have hpos : 0 < text.length := List.length_pos_of_mem hpercent
  have hshort : ((plain text).getD []).length < text.length := by
    cases hplain : plain text with
    | none => exact hpos
    | some out => exact length_plain_lt hpercent hplain
  have hfits : (((plain text).getD []).take (n - 1)).length < n := by
    rw [List.length_take]
    omega
  have hput := length_ofArray_put hfits s
  rw [List.length_take] at hput
  rw [snprintf]
  omega

theorem length_ofArray_snprintf (expansion : List Byte → List Byte) (format : List Byte)
    (hn : 0 < n) (s : Fin n → Byte) : (ofArray (snprintf expansion format s)).length < n := by
  have hlen : (((plain format).getD (expansion format)).take (n - 1)).length < n := by
    rw [List.length_take]
    omega
  exact Nat.lt_of_le_of_lt (length_ofArray_put hlen s) hlen

end Formats

end CString
