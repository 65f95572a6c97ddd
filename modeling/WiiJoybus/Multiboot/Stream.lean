import WiiJoybus.Multiboot.Runs

/-!
The stream of `multiboot`, read by a receiver.

The receiver keeps the key and the position of the next word by itself. All it
takes from the wire are four bytes at a time, the lowest first.
-/

namespace WiiJoybus
open ByteMemory Port

/-- Four bytes of the wire as a word, the lowest byte first. -/
def wireWord (bytes : List Byte) : Word := ByteMemory.load .little 32 (fun k => bytes.getD k 0) 0

/-- What a receiver makes of the words on the wire, from a key and a position on. -/
def receive : Word → Nat → List (List Byte) → List Word
  | _, _, [] => []
  | key, i, bytes :: rest =>
      let key := key * 0x6177614B + 1
      (wireWord bytes ^^^ key ^^^ -(0x02000000 + BitVec.ofNat 32 i) ^^^ 0x20796220) ::
        receive key (i + 4) rest

section Words

theorem wireWord_hostBytes (val : Word) : wireWord (hostBytes (bswap val)) = val := by
  have hsame : ByteMemory.load .little 32 (fun k => (hostBytes (bswap val)).getD k 0) 0 =
      ByteMemory.load .little 32 (store .big (fun _ => 0) 0 (bswap val)) 0 :=
    load_congr _ _ _ _ _ (fun k _ hk => by
      have hin : k < 4 := hk
      simp [hostBytes, hin]) (by decide)
  rw [wireWord, hsame]
  exact (load_store_other .big (by decide) _ _ _).trans (bswap_bswap (by decide) val)

theorem roundUp8_toNat (size : Word) :
    (roundUp8 size).toNat = (size.toNat + 7) % 2 ^ 32 / 8 * 8 := by
  rw [roundUp8, show (7 : Word) = BitVec.ofNat 32 (2 ^ 3 - 1) from rfl, clearBelow_toNat,
    BitVec.toNat_add]
  rfl

theorem roundUp8_of_dvd {size : Word} (h : 8 ∣ size.toNat) : roundUp8 size = size := by
  apply BitVec.eq_of_toNat_eq
  have := size.isLt
  rw [roundUp8_toNat]
  omega

end Words

section Body

variable {rom : Memory}

def positions (i n : Nat) : List Nat := (List.range n).map fun k => i + 4 * k

theorem positions_succ (i n : Nat) : positions i (n + 1) = i :: positions (i + 4) n := by
  rw [positions, List.range_succ_eq_map, List.map_cons, List.map_map, positions]
  refine congrArg (i :: ·) (List.map_congr_left fun k _ => ?_)
  simp only [Function.comp]
  omega

end Body

end WiiJoybus
