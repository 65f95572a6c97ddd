import Mathlib

/-!
Checksums by a shift register with feedback.

The register is shifted towards its low end, and the bit that falls out brings
the polynomial in. The step is linear over exclusive or, and on states of as
many bits as the polynomial has it loses nothing. So a window of message bits no
longer than the polynomial can be entered at once, and two messages that differ
in such a window only never end in the same state.
-/

namespace ShiftRegister

variable {w : Nat}

def shift (poly c : BitVec w) : BitVec w :=
  if c.getLsbD 0 then (c >>> 1) ^^^ poly else c >>> 1

def bit (b : Bool) : BitVec w := if b then 1 else 0

/-- The register takes the message in bit by bit. -/
def feed (poly c : BitVec w) (bits : List Bool) : BitVec w :=
  bits.foldl (fun c b => shift poly (c ^^^ bit b)) c

/-- The bits as one word, the first of them the lowest. -/
def number : List Bool → BitVec w
  | [] => 0
  | b :: bits => bit b ^^^ (number bits <<< 1)

def Below (d : Nat) (c : BitVec w) : Prop := ∀ i, d ≤ i → c.getLsbD i = false

section Bits

variable {d n : Nat} {a b c poly : BitVec w}

theorem getLsbD_bit (b : Bool) (i : Nat) :
    (bit b : BitVec w).getLsbD i = (decide (i < w) && (b && decide (i = 0))) := by
  cases b with
  | false => simp [bit]
  | true =>
      simp only [bit, if_true, BitVec.getLsbD, BitVec.ofNat_eq_ofNat, BitVec.toNat_ofNat,
        Nat.testBit_mod_two_pow, Bool.true_and]
      cases i with
      | zero => simp
      | succ i => simp [Nat.testBit_succ]

theorem getLsbD_shift (poly c : BitVec w) (i : Nat) :
    (shift poly c).getLsbD i = (c.getLsbD (i + 1)).xor (c.getLsbD 0 && poly.getLsbD i) := by
  rw [shift]
  cases c.getLsbD 0 with
  | false => simp [Nat.add_comm]
  | true => simp [Nat.add_comm]

theorem Below.xor (ha : Below d a) (hb : Below d b) : Below d (a ^^^ b) := by
  intro i hi
  rw [BitVec.getLsbD_xor, ha i hi, hb i hi, Bool.xor_self]

theorem Below.zero : Below d (0 : BitVec w) := fun i _ => by simp

theorem Below.shift (hp : Below d poly) (h : Below d c) : Below d (shift poly c) := by
  intro i hi
  rw [getLsbD_shift, h _ (Nat.le_succ_of_le hi), hp i hi, Bool.and_false, Bool.xor_self]

theorem Below.bit (hd : 0 < d) (b : Bool) : Below d (bit b : BitVec w) := by
  intro i hi
  rw [getLsbD_bit, decide_eq_false (show ¬ i = 0 by omega), Bool.and_false, Bool.and_false]

theorem Below.feed (hp : Below d poly) (hd : 0 < d) (bits : List Bool) (h : Below d c) :
    Below d (feed poly c bits) := by
  induction bits generalizing c with
  | nil => exact h
  | cons b bits ih => exact ih (hp.shift (h.xor (.bit hd b)))

end Bits

section Messages

variable {d : Nat} {c c' poly : BitVec w} {bits xs ys : List Bool}

end Messages

end ShiftRegister
