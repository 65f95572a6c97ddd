import WiiJoybus.Library.Bytes

/-!
Files as byte sequences.

Setting the size keeps what fits and fills up with zeros; writing overlays the
written bytes and extends the file as far as they reach. This is what a byte
stream file is, whatever it is stored in.
-/

namespace ByteFile
open ByteMemory

/-- Byte `k` of a file, zero past its end. -/
def at_ (xs : List Byte) (k : Nat) : Byte := xs.getD k 0

def resize (n : Nat) (xs : List Byte) : List Byte :=
  xs.take n ++ List.replicate (n - xs.length) 0

def overlay (off : Nat) (ys xs : List Byte) : List Byte :=
  xs.take off ++ (ys.take (xs.length - off) ++ xs.drop (off + ys.length))

def write (off : Nat) (ys xs : List Byte) : List Byte :=
  overlay off ys (resize (max xs.length (off + ys.length)) xs)

variable {n off k : Nat} {xs ys zs : List Byte}

@[simp] theorem length_resize : (resize n xs).length = n := by
  simp only [resize, List.length_append, List.length_take, List.length_replicate]
  omega

@[simp] theorem length_overlay : (overlay off ys xs).length = xs.length := by
  simp only [overlay, List.length_append, List.length_take, List.length_drop]
  omega

theorem ext (hlen : xs.length = ys.length) (h : ∀ k < xs.length, at_ xs k = at_ ys k) :
    xs = ys := by
  apply List.ext_getElem hlen
  intro k hk hk'
  have hat := h k hk
  rwa [at_, at_, List.getD_eq_getElem _ _ hk, List.getD_eq_getElem _ _ hk'] at hat

theorem at_of_length_le (h : xs.length ≤ k) : at_ xs k = 0 :=
  List.getD_eq_default _ _ h

theorem at_resize : at_ (resize n xs) k = if k < n then at_ xs k else 0 := by
  split
  · rename_i hk
    by_cases hlt : k < xs.length
    · simp only [at_, resize]
      rw [List.getD_append _ _ _ _ (by simp; omega)]
      simp [List.getD_eq_getElem?_getD, hk]
    · have hzero : at_ xs k = 0 := at_of_length_le (by omega)
      rw [hzero]
      simp only [at_, resize]
      rw [List.getD_append_right _ _ _ _ (by simp; omega), List.getD_replicate]
      simp
      omega
  · exact at_of_length_le (by simp; omega)

theorem resize_length : resize xs.length xs = xs := by
  simp [resize]

theorem at_overlay (h : off + ys.length ≤ xs.length) :
    at_ (overlay off ys xs) k =
      if off ≤ k ∧ k < off + ys.length then at_ ys (k - off) else at_ xs k := by
  have hoff : (xs.take off).length = off := by
    rw [List.length_take]
    omega
  have hys : ys.take (xs.length - off) = ys := List.take_of_length_le (by omega)
  rw [overlay, hys]
  simp only [at_]
  by_cases hlo : off ≤ k
  · rw [List.getD_append_right _ _ _ _ (by omega), hoff]
    by_cases hhi : k < off + ys.length
    · rw [if_pos ⟨hlo, hhi⟩, List.getD_append _ _ _ _ (by omega)]
    · rw [if_neg (by omega), List.getD_append_right _ _ _ _ (by omega)]
      simp only [List.getD_eq_getElem?_getD, List.getElem?_drop]
      congr 2
      omega
  · rw [if_neg (by omega), List.getD_append _ _ _ _ (by omega)]
    simp [List.getD_eq_getElem?_getD, show k < off by omega]

end ByteFile
