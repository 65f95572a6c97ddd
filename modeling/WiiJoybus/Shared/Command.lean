import WiiJoybus.Library.Dialogue
import WiiJoybus.Shared.Messages

/-!
The wire codec of the shared header.

A struct travels as words of 31 payload bits under a flag bit. Both loops of the
header step over the struct four bytes at a time; the model counts the
iterations that are left, `(sz - i + 3) / 4` of them, so `i < sz` is the guard.
-/

namespace WiiJoybus
open ByteMemory StructLayout Dialogue

/-- The Wii is the client: it alone starts operations. -/
@[match_pattern] abbrev wii : Side := .client

@[match_pattern] abbrev gba : Side := .server

def endian : Side → Endian
  | wii => .big
  | gba => .little

theorem endian_other (me : Side) : endian me.other = (endian me).other := by
  cases me <;> rfl

/-- What one side writes the other reads with its four bytes reversed. -/
def joybus (w : Word) : Word := bswap w

/-- A read of the Wii finds 0 while no word is there; the GBA is told of words. -/
def idle : Side → Word → Bool
  | wii, w => w == 0
  | gba, _ => false

def bit (n : Nat) : BitVec 64 := if n ≥ 64 then 0 else 1 <<< n

/-- `__BITS(m, n)`, truncated when it masks a 32-bit word. -/
def bits (m n : Nat) : Word := ((bit (max m n + 1) - 1) ^^^ (bit (min m n) - 1)).setWidth 32

def bitMax : Nat := 31

def chunkMax : Nat := 30

def flag : Word := 1 <<< bitMax

/-- The four bytes from `b[i]` on, zero from `sz` on. -/
def out (b : Memory) (sz i : Nat) : Memory := fun k => if i + k < sz then b (i + k) else 0

def sendLoop (me : Side) (b : Memory) (sz : Nat) :
    (left i : Nat) → (remainder : Word) → (carry : Nat) → Proc Word Unit
  | 0, _, remainder, carry =>
      if carry > 0 then .send (flag ||| remainder) (.ret ()) else .ret ()
  | left + 1, i, remainder, carry =>
      let cur := load (endian me) 32 (out b sz i) 0
      .send (flag ||| remainder ||| (cur &&& bits 0 (chunkMax - carry))) <|
        let remainder := (cur &&& bits bitMax (bitMax - carry)) >>> 1
        let carry := carry + 1
        if carry = bitMax then
          .send (flag ||| remainder) (sendLoop me b sz left (i + 4) 0 0)
        else
          sendLoop me b sz left (i + 4) remainder carry

def sendRequest (me : Side) (b : Memory) (sz : Nat) : Proc Word Unit :=
  sendLoop me b sz ((sz + 3) / 4) 0 0 0

/-- The Wii polls until it gets something other than 0; see `idle`. -/
def doReceive : Proc Word Word :=
  .recv fun w => .ret (bswap w)

/-- The Wii takes the bytes of `in` from its low end, the GBA from its high end. -/
def unpack (me : Side) (sz i : Nat) (inWord : Word) (b : Memory) : Memory := fun k =>
  if i ≤ k ∧ k < i + 4 ∧ k < sz then
    match me with
    | wii => byteOf inWord (k - i)
    | gba => byteOf inWord (3 - (k - i))
  else b k

def receiveLoop (me : Side) (sz : Nat) :
    (left i : Nat) → (inWord : Word) → (carry : Nat) → (b : Memory) → Proc Word Memory
  | 0, _, _, _, b => .ret b
  | left + 1, i, inWord, carry, b =>
      doReceive >>= fun recv =>
        let remainder := (recv <<< 1) &&& bits bitMax (bitMax - carry)
        let carry := carry + 1
        let inWord := inWord ||| remainder
        let b := unpack me sz i inWord b
        if carry = bitMax then
          if i + 4 < sz then
            doReceive >>= fun recv =>
              receiveLoop me sz left (i + 4) (recv &&& bits 0 chunkMax) 0 b
          else
            receiveLoop me sz left (i + 4) inWord 0 b
        else
          receiveLoop me sz left (i + 4) (recv &&& bits 0 (chunkMax - carry)) carry b

def receiveResponse (me : Side) (sz : Nat) (b : Memory) : Proc Word Memory :=
  doReceive >>= fun recv =>
    receiveLoop me sz ((sz + 3) / 4) 0 (recv &&& bits 0 chunkMax) 0 b

/-- Send a struct whose memory held `uninit` before its fields were assigned. -/
def sendStruct {α : Type} [CStruct α] (me : Side) (uninit : Memory) (a : α) : Proc Word Unit :=
  sendRequest me (encode (endian me) uninit a) (sizeof α)

def receiveStruct {α : Type} [CStruct α] (me : Side) (uninit : Memory) : Proc Word α :=
  receiveResponse me (sizeof α) uninit >>= fun m => .ret (decode (endian me) m)

end WiiJoybus
