import WiiJoybus.Library.Port
import WiiJoybus.Shared.Messages

/-!
Starting a GBA from the Wii.

The image goes over the serial port word by word: a header as it stands in the
file, then words that are scrambled with a key stream, and last the checksum.
`long` and `int` have 32 bits, and the machine that sends has its most
significant byte first.
-/

namespace WiiJoybus
open ByteMemory Port

section Serial

/-- `((uint32_t *)p)[0] = val` -/
def hostBytes (val : Word) : List Byte := (List.range 4).map (store .big (fun _ => 0) 0 val)

/-- GBA_WRITE -/
def gbaWriteCmd : Byte := 0x15

/-- GBA_READ -/
def gbaReadCmd : Byte := 0x14

/-- An `ioctl` that fails ends the program. -/
def siSend {α : Type} (out : List Byte) (k : Memory → Prog α) : Prog α :=
  .transfer out fun reply =>
    match reply with
    | some input => k input
    | none => .exit

def gbaWrite (val : Word) : Prog Word :=
  siSend (gbaWriteCmd :: hostBytes val) fun input => .ret ((input 0).setWidth 32)

def gbaRead : Prog Word := siSend [gbaReadCmd] fun input => .ret (ByteMemory.load .big 32 input 0)

/-- `cmd_identify` and `cmd_reset` send the first byte of a word. -/
def command8 (cmd : Word) : Prog Word :=
  siSend ((hostBytes cmd).take 1) fun input => .ret (ByteMemory.load .big 32 input 0)

def cmdIdentify : Prog Word := command8 0x00000000

def cmdReset : Prog Word := command8 0xFF000000

end Serial

/-- `struct rom`, without the path; the size is a `long`. -/
structure Rom where
  buf : Memory
  size : Int

/-- The bits of the size, which `multiboot` goes on with. -/
def Rom.word (r : Rom) : Word := BitVec.ofInt 32 r.size

/-- `ftell` at the end of a file; a length that is no `long` makes it fail. -/
def ftellEnd (file : List Byte) : Word :=
  if file.length < 2 ^ 31 then BitVec.ofNat 32 file.length else -1

/-- `(size+7) & ~7`, also for a `long`; a sum that is no `long` wraps. -/
def roundUp8 (size : Word) : Word := (size + 7) &&& ~~~(7 : Word)

/-- `read_rom`: the file is `none` when it cannot be opened, `calloc` tells for which sizes there
is memory, and `beyond` is what lies outside of the buffer. `calloc` takes an unsigned size. -/
def readRom (file : Option (List Byte)) (calloc : Word → Bool) (beyond : Memory) : Option Rom :=
  match file with
  | none => none
  | some bytes =>
      let size := roundUp8 (ftellEnd bytes)
      if calloc size then
        some ⟨fun i => if i < size.toNat then bytes.getD i 0 else beyond i, size.toInt⟩
      else none

/-- The bytes of `res3`, each with its letter, the lowest byte first. -/
def lettered (c₀ c₁ c₂ c₃ res3 : Word) : Word :=
  ((res3 &&& 0xFF) ^^^ c₀) <<< 24 ||| ((res3.sshiftRight 8 &&& 0xFF) ^^^ c₁) <<< 16 |||
    ((res3.sshiftRight 16 &&& 0xFF) ^^^ c₂) <<< 8 ||| ((res3.sshiftRight 24 &&& 0xFF) ^^^ c₃)

/-- `res2` in `calckey`, from the size in units of eight bytes. -/
def calckeyRes2 (size : Word) : Word :=
  (size &&& 0x3F80) <<< 1 ||| (size &&& 0x4000) <<< 2 ||| (size &&& 0x7F) ||| 0x380000

def calckeyRes3 (res2 : Word) : Word :=
  (res2.sshiftRight 8 + res2.sshiftRight 0x10 + res2) <<< 24 ||| res2 ||| 0x80808080

def calckey (size : Word) : Word :=
  let res3 := calckeyRes3 (calckeyRes2 ((size - 0x200) >>> 3))
  if res3 &&& 0x200 = 0 then lettered 0x4B 0x61 0x77 0x61 res3
  else lettered 0x73 0x65 0x64 0x6F res3

/-- The loop of `docrc`, with the number of iterations that are left. -/
def docrcLoop : Nat → Word → Word → Word
  | 0, crc, _ => crc
  | n + 1, crc, val =>
      docrcLoop n (if (crc ^^^ val) &&& 1 ≠ 0 then (crc >>> 1) ^^^ 0xa1c1 else crc >>> 1)
        (val >>> 1)

def docrc (crc val : Word) : Word := docrcLoop 0x20 crc val

/-- MB_MAX_RETRY -/
def mbMaxRetry : Nat := 10000

/-- Reset and identify until the GBA is ready, at most `left` times more. -/
def awaitReady : Nat → Prog Bool
  | 0 => attempt (.ret false)
  | left + 1 => attempt (awaitReady left)
where
  attempt (again : Prog Bool) : Prog Bool :=
    cmdReset >>= fun _ => cmdIdentify >>= fun res =>
      if res &&& 0x00001000 ≠ 0 then .ret true else again

section Send

def joined (b₃ b₂ b₁ b₀ : Byte) : Word :=
  b₃.setWidth 32 <<< 24 ||| b₂.setWidth 32 <<< 16 ||| b₁.setWidth 32 <<< 8 ||| b₀.setWidth 32

/-- `*(uint32_t*)(rom+i)` -/
def loadHost (i : Nat) : Prog Word :=
  .load i fun b₀ => .load (i + 1) fun b₁ => .load (i + 2) fun b₂ => .load (i + 3) fun b₃ =>
    .ret (joined b₀ b₁ b₂ b₃)

/-- `(rom[i+3]<<24)|(rom[i+2]<<16)|(rom[i+1]<<8)|(rom[i])` -/
def loadEnc (i : Nat) : Prog Word :=
  .load (i + 3) fun b₃ => .load (i + 2) fun b₂ => .load (i + 1) fun b₁ => .load i fun b₀ =>
    .ret (joined b₃ b₂ b₁ b₀)

def nextKey (sessionkey : Word) : Word := sessionkey * 0x6177614B + 1

/-- A word at position `i`, scrambled. -/
def scramble (enc sessionkey : Word) (i : Nat) : Word :=
  enc ^^^ sessionkey ^^^ (~~~(BitVec.ofNat 32 i + (0x20 : Word) <<< 20) + 1) ^^^ 0x20796220

def headerOffsets : List Nat := (List.range (0xC0 / 4)).map fun k => 4 * k

/-- How often the loop over the rest is run. -/
def bodyCount (sendsize : Word) : Nat := (sendsize.toNat - 0xC0 + 3) / 4

/-- The values of `i` in that loop, which stay below `sendsize`. -/
def bodyOffsets (sendsize : Word) : List Nat :=
  (List.range (bodyCount sendsize)).map fun k => 0xC0 + 4 * k

def sendHeaderWord (i : Nat) (_ : Unit) : Prog Unit :=
  loadHost i >>= fun val => gbaWrite val >>= fun _ => .ret ()

def sendHeader : Prog Unit := .loop sendHeaderWord headerOffsets ()

structure Body where
  fcrc : Word
  sessionkey : Word

def sendWord (i : Nat) (st : Body) : Prog Body :=
  loadEnc i >>= fun enc =>
    gbaWrite (bswap (scramble enc (nextKey st.sessionkey) i)) >>= fun _ =>
      .ret ⟨docrc st.fcrc enc, nextKey st.sessionkey⟩

def sendBody (sendsize : Word) (sessionkey : Word) : Prog Body :=
  .loop sendWord (bodyOffsets sendsize) ⟨0x15A0, sessionkey⟩

/-- The word after the last one; `i` is where the loop has left it. -/
def trailer (sendsize : Word) (st : Body) : Word :=
  scramble (st.fcrc ||| sendsize <<< 16) (nextKey st.sessionkey) (0xC0 + 4 * bodyCount sendsize)

/-- The key of a session, from the word the GBA sends. -/
def sessionKey (sessionkeyraw : Word) : Word := bswap (sessionkeyraw ^^^ 0x7365646F)

def sendRom (size : Word) : Prog Unit :=
  let sendsize := roundUp8 size
  gbaRead >>= fun sessionkeyraw =>
    gbaWrite (calckey sendsize) >>= fun _ =>
      sendHeader >>= fun _ =>
        sendBody sendsize (sessionKey sessionkeyraw) >>= fun st =>
          gbaWrite (bswap (trailer sendsize st)) >>= fun _ => gbaRead >>= fun _ => .ret ()

/-- `multiboot`, run with the buffer of the image; 1 is returned when the GBA is never ready. -/
def multiboot (size : Word) : Prog Word :=
  awaitReady (mbMaxRetry + 1) >>= fun ready =>
    if ready then sendRom size >>= fun _ => .ret 0 else .ret 1

end Send

end WiiJoybus
