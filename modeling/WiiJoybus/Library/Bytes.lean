import Mathlib

/-!
Byte-addressed memory and the two byte orders.

A value of `w` bits stands in `w / 8` bytes; the byte order only says which of
its bytes stands first. Loading with one order what was stored with the other
is exactly a byte swap, which is all the endianness reasoning a protocol
between two machines needs.
-/

namespace ByteMemory

abbrev Byte := BitVec 8

abbrev Memory := Nat → Byte

inductive Endian where
  | little
  | big
  deriving DecidableEq, Repr

def Endian.other : Endian → Endian
  | .little => .big
  | .big => .little

/-- The significance of the byte that stands at position `k` of a `w`-bit value. -/
def Endian.place (e : Endian) (w k : Nat) : Nat :=
  match e with
  | .little => k
  | .big => w / 8 - 1 - k

theorem Endian.place_lt (e : Endian) {w k : Nat} (hk : k < w / 8) : e.place w k < w / 8 := by
  cases e with
  | little => exact hk
  | big => simp only [Endian.place]; omega

theorem Endian.place_place (e : Endian) {w k : Nat} (hk : k < w / 8) :
    e.place w (e.place w k) = k := by
  cases e with
  | little => rfl
  | big => simp only [Endian.place]; omega

/-- Byte `k` of a value, counted from the least significant one. -/
def byteOf {w : Nat} (x : BitVec w) (k : Nat) : Byte :=
  (x >>> (8 * k)).setWidth 8

def load (e : Endian) (w : Nat) (m : Memory) (off : Nat) : BitVec w :=
  BitVec.ofFnLE fun j => (m (off + e.place w (j / 8))).getLsbD (j % 8)

def store {w : Nat} (e : Endian) (m : Memory) (off : Nat) (x : BitVec w) : Memory :=
  fun i => if off ≤ i ∧ i < off + w / 8 then byteOf x (e.place w (i - off)) else m i

def bswap {w : Nat} (x : BitVec w) : BitVec w :=
  BitVec.ofFnLE fun j => x.getLsbD (8 * (w / 8 - 1 - j / 8) + j % 8)

theorem getLsbD_byteOf {w : Nat} (x : BitVec w) (k j : Nat) (hj : j < 8) :
    (byteOf x k).getLsbD j = x.getLsbD (8 * k + j) := by
  simp [byteOf, hj]

theorem getLsbD_load (e : Endian) (w : Nat) (m : Memory) (off j : Nat) (hj : j < w) :
    (load e w m off).getLsbD j = (m (off + e.place w (j / 8))).getLsbD (j % 8) := by
  simp [load, hj]

theorem getLsbD_bswap {w : Nat} (x : BitVec w) (j : Nat) (hj : j < w) :
    (bswap x).getLsbD j = x.getLsbD (8 * (w / 8 - 1 - j / 8) + j % 8) := by
  simp [bswap, hj]

theorem bswap_bswap {w : Nat} (hw : 8 ∣ w) (x : BitVec w) : bswap (bswap x) = x := by
  apply BitVec.eq_of_getLsbD_eq
  intro j hj
  have hin : 8 * (w / 8 - 1 - j / 8) + j % 8 < w := by omega
  rw [getLsbD_bswap _ _ hj, getLsbD_bswap _ _ hin]
  congr 1
  omega

theorem bswap_eq_zero_iff {w : Nat} (hw : 8 ∣ w) (x : BitVec w) : bswap x = 0 ↔ x = 0 := by
  have hz : bswap (0 : BitVec w) = 0 := by
    apply BitVec.eq_of_getLsbD_eq
    intro j hj
    simp [getLsbD_bswap _ _ hj]
  constructor
  · intro h
    rw [← bswap_bswap hw x, h, hz]
  · rintro rfl
    exact hz

theorem load_congr (e : Endian) (w : Nat) (m m' : Memory) (off : Nat)
    (h : ∀ i, off ≤ i → i < off + w / 8 → m i = m' i) (hw : 8 ∣ w) :
    load e w m off = load e w m' off := by
  apply BitVec.eq_of_getLsbD_eq
  intro j hj
  have hp : e.place w (j / 8) < w / 8 := e.place_lt (by omega)
  rw [getLsbD_load _ _ _ _ _ hj, getLsbD_load _ _ _ _ _ hj, h _ (by omega) (by omega)]

theorem store_apply_of_outside {w : Nat} (e : Endian) (m : Memory) (off : Nat) (x : BitVec w)
    (i : Nat) (h : i < off ∨ off + w / 8 ≤ i) : store e m off x i = m i := by
  have hn : ¬ (off ≤ i ∧ i < off + w / 8) := by omega
  simp [store, hn]

private theorem load_store_bit {w : Nat} (e e' : Endian) (hw : 8 ∣ w) (m : Memory) (off : Nat)
    (x : BitVec w) (j : Nat) (hj : j < w) :
    (load e' w (store e m off x) off).getLsbD j =
      x.getLsbD (8 * e.place w (e'.place w (j / 8)) + j % 8) := by
  have hp : e'.place w (j / 8) < w / 8 := e'.place_lt (by omega)
  have hin : off ≤ off + e'.place w (j / 8) ∧ off + e'.place w (j / 8) < off + w / 8 := by omega
  have hm : j % 8 < 8 := Nat.mod_lt _ (by omega)
  rw [getLsbD_load _ _ _ _ _ hj]
  simp only [store, hin, and_self, ite_true]
  rw [getLsbD_byteOf _ _ _ hm, Nat.add_sub_cancel_left]

theorem load_store {w : Nat} (e : Endian) (hw : 8 ∣ w) (m : Memory) (off : Nat) (x : BitVec w) :
    load e w (store e m off x) off = x := by
  apply BitVec.eq_of_getLsbD_eq
  intro j hj
  rw [load_store_bit e e hw m off x j hj, e.place_place (by omega)]
  congr 1
  omega

/-- A reader of the other byte order sees the bytes reversed. -/
theorem load_store_other {w : Nat} (e : Endian) (hw : 8 ∣ w) (m : Memory) (off : Nat)
    (x : BitVec w) : load e.other w (store e m off x) off = bswap x := by
  apply BitVec.eq_of_getLsbD_eq
  intro j hj
  rw [load_store_bit e e.other hw m off x j hj, getLsbD_bswap _ _ hj]
  congr 1
  cases e <;> simp only [Endian.place, Endian.other]

theorem byteOf_load (e : Endian) {w : Nat} (hw : 8 ∣ w) (m : Memory) (off k : Nat)
    (hk : k < w / 8) : byteOf (load e w m off) (e.place w k) = m (off + k) := by
  apply BitVec.eq_of_getLsbD_eq
  intro j hj
  have hp : e.place w k < w / 8 := e.place_lt hk
  rw [getLsbD_byteOf _ _ _ hj, getLsbD_load _ _ _ _ _ (by omega)]
  have hd : (8 * e.place w k + j) / 8 = e.place w k := by omega
  have hm : (8 * e.place w k + j) % 8 = j := by omega
  rw [hd, hm, e.place_place hk]

theorem shiftLeft_sub_one (w k : Nat) :
    ((1 : BitVec w) <<< k) - 1 = BitVec.ofNat w (2 ^ k - 1) := by
  have hone : (1 : BitVec w) <<< k = BitVec.ofNat w (2 ^ k - 1) + 1 := by
    change _ = BitVec.ofNat w (2 ^ k - 1) + BitVec.ofNat w 1
    rw [← BitVec.ofNat_add, Nat.sub_add_cancel Nat.one_le_two_pow]
    apply BitVec.eq_of_toNat_eq
    change ((1 % 2 ^ w) <<< k) % 2 ^ w = 2 ^ k % 2 ^ w
    rw [Nat.shiftLeft_eq, Nat.mod_mul_mod, Nat.one_mul]
  rw [hone, BitVec.add_sub_cancel]

/-- Clearing the lowest bits rounds down. -/
theorem clearBelow_toNat {w : Nat} (x : BitVec w) (k : Nat) :
    (x &&& ~~~(BitVec.ofNat w (2 ^ k - 1))).toNat = x.toNat / 2 ^ k * 2 ^ k := by
  have hshift : x &&& ~~~(BitVec.ofNat w (2 ^ k - 1)) = (x >>> k) <<< k := by
    apply BitVec.eq_of_getLsbD_eq
    intro j hj
    rw [BitVec.getLsbD_and, BitVec.getLsbD_not, BitVec.getLsbD_ofNat, Nat.testBit_two_pow_sub_one,
      BitVec.getLsbD_shiftLeft, BitVec.getLsbD_ushiftRight]
    by_cases hlow : j < k
    · simp [hlow]
    · simp [hlow, hj, show k + (j - k) = j by omega]
  have hle := Nat.div_mul_le_self x.toNat (2 ^ k)
  rw [hshift, BitVec.toNat_shiftLeft, BitVec.toNat_ushiftRight, Nat.shiftRight_eq_div_pow,
    Nat.shiftLeft_eq, Nat.mod_eq_of_lt (Nat.lt_of_le_of_lt hle x.isLt)]

end ByteMemory
