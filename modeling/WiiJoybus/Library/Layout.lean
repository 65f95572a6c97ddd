import WiiJoybus.Library.Bytes

/-!
C structs as raw memory.

A struct is a list of field types; the offsets follow the usual alignment rule
(every field at the next multiple of its own alignment, the size rounded up to
the largest one). Padding bytes keep whatever the memory held before, so an
uninitialised struct is a value like any other.

Two machines that agree on the offsets and differ in byte order exchange every
integer field swapped and every byte array unchanged.
-/

namespace StructLayout
open ByteMemory

inductive CType where
  | u32
  | u64
  | bytes (n : Nat)
  deriving DecidableEq, Repr

namespace CType

def size : CType → Nat
  | .u32 => 4
  | .u64 => 8
  | .bytes n => n

def align : CType → Nat
  | .u32 => 4
  | .u64 => 8
  | .bytes _ => 1

abbrev Val : CType → Type
  | .u32 => BitVec 32
  | .u64 => BitVec 64
  | .bytes n => Fin n → Byte

def get (e : Endian) (m : Memory) (off : Nat) : (t : CType) → t.Val
  | .u32 => load e 32 m off
  | .u64 => load e 64 m off
  | .bytes _ => fun k => m (off + k)

def put (e : Endian) (m : Memory) (off : Nat) : (t : CType) → t.Val → Memory
  | .u32, v => store e m off v
  | .u64, v => store e m off v
  | .bytes n, v => fun i => if h : off ≤ i ∧ i < off + n then v ⟨i - off, by omega⟩ else m i

def swap : (t : CType) → t.Val → t.Val
  | .u32, v => bswap v
  | .u64, v => bswap v
  | .bytes _, v => v

theorem swap_swap (t : CType) (v : t.Val) : t.swap (t.swap v) = v := by
  cases t with
  | u32 => exact bswap_bswap (by decide) v
  | u64 => exact bswap_bswap (by decide) v
  | bytes n => rfl

theorem get_put (e : Endian) (m : Memory) (off : Nat) (t : CType) (v : t.Val) :
    t.get e (t.put e m off v) off = v := by
  cases t with
  | u32 => exact load_store e (by decide) m off v
  | u64 => exact load_store e (by decide) m off v
  | bytes n =>
      funext k
      have hk : off ≤ off + k.val ∧ off + k.val < off + n := by omega
      simp [get, put]

theorem get_put_other (e : Endian) (m : Memory) (off : Nat) (t : CType) (v : t.Val) :
    t.get e.other (t.put e m off v) off = t.swap v := by
  cases t with
  | u32 => exact load_store_other e (by decide) m off v
  | u64 => exact load_store_other e (by decide) m off v
  | bytes n =>
      funext k
      simp [get, put, swap]

theorem put_apply_of_lt (e : Endian) (m : Memory) (off : Nat) (t : CType) (v : t.Val) (i : Nat)
    (h : i < off) : t.put e m off v i = m i := by
  cases t with
  | u32 => exact store_apply_of_outside e m off v i (Or.inl h)
  | u64 => exact store_apply_of_outside e m off v i (Or.inl h)
  | bytes n =>
      have hn : ¬ (off ≤ i ∧ i < off + n) := by omega
      simp [put, hn]

theorem get_congr (e : Endian) (m m' : Memory) (off : Nat) (t : CType)
    (h : ∀ i, off ≤ i → i < off + t.size → m i = m' i) : t.get e m off = t.get e m' off := by
  cases t with
  | u32 => exact load_congr e 32 m m' off h (by decide)
  | u64 => exact load_congr e 64 m m' off h (by decide)
  | bytes n =>
      funext k
      exact h _ (by omega) (by simp only [size]; omega)

end CType

def alignUp (off a : Nat) : Nat := (off + a - 1) / a * a

theorem le_alignUp (off a : Nat) (ha : 0 < a) : off ≤ alignUp off a := by
  have h := Nat.div_add_mod (off + a - 1) a
  have hm := Nat.mod_lt (off + a - 1) ha
  rw [alignUp, Nat.mul_comm]
  omega

theorem CType.align_pos (t : CType) : 0 < t.align := by
  cases t <;> simp [CType.align]

theorem CType.le_alignUp (off : Nat) (t : CType) : off ≤ alignUp off t.align :=
  StructLayout.le_alignUp off t.align t.align_pos

def Vals : List CType → Type
  | [] => Unit
  | t :: ts => t.Val × Vals ts

def encodeFrom (e : Endian) (m : Memory) (off : Nat) : (ts : List CType) → Vals ts → Memory
  | [], _ => m
  | t :: ts, (v, vs) =>
      encodeFrom e (t.put e m (alignUp off t.align) v) (alignUp off t.align + t.size) ts vs

def decodeFrom (e : Endian) (m : Memory) (off : Nat) : (ts : List CType) → Vals ts
  | [] => ()
  | t :: ts => (t.get e m (alignUp off t.align),
      decodeFrom e m (alignUp off t.align + t.size) ts)

def swapVals : (ts : List CType) → Vals ts → Vals ts
  | [], _ => ()
  | t :: ts, (v, vs) => (t.swap v, swapVals ts vs)

theorem swapVals_swapVals (ts : List CType) (vs : Vals ts) : swapVals ts (swapVals ts vs) = vs := by
  induction ts with
  | nil => rfl
  | cons t ts ih =>
      obtain ⟨v, vs⟩ := vs
      change (t.swap (t.swap v), swapVals ts (swapVals ts vs)) = (v, vs)
      rw [CType.swap_swap, ih]

def endFrom (off : Nat) : List CType → Nat
  | [] => off
  | t :: ts => endFrom (alignUp off t.align + t.size) ts

def maxAlign : List CType → Nat
  | [] => 1
  | t :: ts => max t.align (maxAlign ts)

theorem maxAlign_pos (ts : List CType) : 0 < maxAlign ts := by
  cases ts with
  | nil => decide
  | cons t ts => exact Nat.lt_of_lt_of_le t.align_pos (Nat.le_max_left _ _)

theorem le_endFrom (off : Nat) (ts : List CType) : off ≤ endFrom off ts := by
  induction ts generalizing off with
  | nil => exact Nat.le_refl off
  | cons t ts ih =>
      have h := t.le_alignUp off
      exact Nat.le_trans (by omega) (ih (alignUp off t.align + t.size))

theorem encodeFrom_apply_of_lt (e : Endian) (m : Memory) (off : Nat) (ts : List CType)
    (vs : Vals ts) (i : Nat) (h : i < off) : encodeFrom e m off ts vs i = m i := by
  induction ts generalizing m off with
  | nil => rfl
  | cons t ts ih =>
      obtain ⟨v, vs⟩ := vs
      have ha := t.le_alignUp off
      simp only [encodeFrom]
      rw [ih _ _ _ (by omega)]
      exact CType.put_apply_of_lt e m _ t v i (by omega)

theorem decodeFrom_congr (e : Endian) (m m' : Memory) (off : Nat) (ts : List CType)
    (h : ∀ i, off ≤ i → i < endFrom off ts → m i = m' i) :
    decodeFrom e m off ts = decodeFrom e m' off ts := by
  induction ts generalizing off with
  | nil => rfl
  | cons t ts ih =>
      have ha := t.le_alignUp off
      have hend := le_endFrom (alignUp off t.align + t.size) ts
      simp only [decodeFrom]
      congr 1
      · apply CType.get_congr
        intro i hlo hhi
        exact h i (by omega) (by simp only [endFrom]; omega)
      · apply ih
        intro i hlo hhi
        exact h i (by omega) hhi

private theorem get_encodeFrom (e e' : Endian) (m : Memory) (off : Nat) (t : CType)
    (ts : List CType) (vs : Vals ts) :
    t.get e' (encodeFrom e m (off + t.size) ts vs) off = t.get e' m off := by
  apply CType.get_congr
  intro i _ hi
  exact encodeFrom_apply_of_lt e m _ ts vs i hi

theorem decodeFrom_encodeFrom (e : Endian) (m : Memory) (off : Nat) (ts : List CType)
    (vs : Vals ts) : decodeFrom e (encodeFrom e m off ts vs) off ts = vs := by
  induction ts generalizing m off with
  | nil => rfl
  | cons t ts ih =>
      obtain ⟨v, vs⟩ := vs
      simp only [decodeFrom, encodeFrom]
      rw [get_encodeFrom, CType.get_put, ih]

theorem decodeFrom_encodeFrom_other (e : Endian) (m : Memory) (off : Nat) (ts : List CType)
    (vs : Vals ts) :
    decodeFrom e.other (encodeFrom e m off ts vs) off ts = swapVals ts vs := by
  induction ts generalizing m off with
  | nil => rfl
  | cons t ts ih =>
      obtain ⟨v, vs⟩ := vs
      simp only [decodeFrom, encodeFrom, swapVals]
      rw [get_encodeFrom, CType.get_put_other, ih]

/-- A record type laid out as a C struct, fields in declaration order. -/
class CStruct (α : Type) where
  fields : List CType
  toVals : α → Vals fields
  ofVals : Vals fields → α
  ofVals_toVals : ∀ a, ofVals (toVals a) = a
  toVals_ofVals : ∀ vs, toVals (ofVals vs) = vs

variable {α : Type} [CStruct α]

def sizeof (α : Type) [CStruct α] : Nat :=
  alignUp (endFrom 0 (CStruct.fields α)) (maxAlign (CStruct.fields α))

/-- Assign every field of the struct at the start of `m`; padding is not touched. -/
def encode (e : Endian) (m : Memory) (a : α) : Memory :=
  encodeFrom e m 0 (CStruct.fields α) (CStruct.toVals a)

def decode (e : Endian) (m : Memory) : α :=
  CStruct.ofVals (decodeFrom e m 0 (CStruct.fields α))

/-- What a reader of the other byte order finds in the fields. -/
def swapped (a : α) : α :=
  CStruct.ofVals (swapVals (CStruct.fields α) (CStruct.toVals a))

theorem swapped_swapped (a : α) : swapped (swapped a) = a := by
  simp only [swapped, CStruct.toVals_ofVals, swapVals_swapVals, CStruct.ofVals_toVals]

theorem decode_encode (e : Endian) (m : Memory) (a : α) : decode e (encode e m a) = a := by
  rw [decode, encode, decodeFrom_encodeFrom, CStruct.ofVals_toVals]

theorem decode_encode_other (e : Endian) (m : Memory) (a : α) :
    (decode e.other (encode e m a) : α) = swapped a := by
  rw [decode, encode, decodeFrom_encodeFrom_other, swapped]

theorem decode_congr (e : Endian) (m m' : Memory) (h : ∀ i, i < sizeof α → m i = m' i) :
    (decode e m : α) = decode e m' := by
  have hend := le_alignUp (endFrom 0 (CStruct.fields α)) _ (maxAlign_pos (CStruct.fields α))
  rw [decode, decode]
  congr 1
  apply decodeFrom_congr
  intro i _ hi
  exact h i (by rw [sizeof]; omega)

end StructLayout
