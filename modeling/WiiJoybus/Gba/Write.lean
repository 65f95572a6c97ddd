import WiiJoybus.Gba.Handlers

/-!
The write handler of the GBA.

A write is two conversations: the request, which may resize the file, and then
one chunk after the other until the handler's own count of remaining bytes is
zero. The inner loop spreads a chunk over the blocks; it counts the chunk down
separately from the request, and ends only when the chunk's count hits zero.
-/

namespace WiiJoybus
open ByteMemory StructLayout

/-- The locals of the handler between two chunks. `bresp` is never assigned. -/
structure Writing where
  ent : EntryPtr
  offset : Word64
  resid : Word64
  bresp : WriteBufResp

/-- The locals of the inner loop; `src` counts from the start of `breq.buf`. -/
structure Copying where
  store : Store
  offset : Word64
  resid : Word64
  x : Word
  src : Nat

namespace Store

/-- `memcpy(block->data + off, src, n)`; through a null pointer the bytes miss
the store. -/
def writeBytes (s : Store) (block : Option BlockPtr) (off n : Nat) (src : Nat → Byte) : Store :=
  match block with
  | none => s
  | some b =>
      s.setBlock b { s.blocks b with
        data := fun k =>
          if off ≤ k.val ∧ k.val < off + n then src (k.val - off) else (s.blocks b).data k }

end Store

namespace Copying

def copylen (c : Copying) : Word :=
  (Store.min64 c.resid (blockleft c.offset (pbaBlocksize 64))).setWidth 32

def block (c : Copying) (ent : EntryPtr) : Option BlockPtr :=
  c.store.blockFetch (c.store.entries ent).vaFileid
    ((blocknum c.offset pbaBlockshift).setWidth 32)

/-- The bytes at `src`: those of the chunk, and past it whatever is there. -/
def source (j : Junk) (breq : WriteBufReq) (k : Nat) : Byte :=
  if h : k < blockSize then breq.buf ⟨k, h⟩ else j.beyond k

/-- One iteration of the inner loop. -/
def step (j : Junk) (breq : WriteBufReq) (ent : EntryPtr) (c : Copying) : Copying where
  store := c.store.writeBytes (c.block ent) (blockoff c.offset (pbaBlocksize 64)).toNat
    c.copylen.toNat fun k => source j breq (c.src + k)
  offset := c.offset + c.copylen.setWidth 64
  resid := c.resid - c.copylen.setWidth 64
  x := c.x - c.copylen
  src := c.src + c.copylen.toNat

/-- `while (x > 0)`; `none` when `fuel` iterations do not end it. -/
def loop (j : Junk) (breq : WriteBufReq) (ent : EntryPtr) : Nat → Copying → Option Copying
  | fuel, c =>
      if c.x = 0 then some c
      else match fuel with
        | 0 => none
        | fuel + 1 => loop j breq ent fuel (c.step j breq ent)

end Copying

/-- What the GBA waits for: a command, or the next chunk of a write. -/
inductive Phase where
  | dispatch
  | writing (w : Writing)

/-- `while (wreq.resid > 0)` -/
def Writing.next (w : Writing) : Phase :=
  if w.resid = 0 then .dispatch else .writing w

namespace Store

def handleWriteRequest (j : Junk) (s : Store) (wreq : WriteReq) :
    WriteResp × Store × Phase :=
  match s.findById wreq.fileid with
  | none => (⟨0, 1⟩, s, .dispatch)
  | some ent =>
      let (err, s) :=
        if wreq.offset + wreq.resid > (s.entries ent).vaSize then
          s.entrySetsize ent ((wreq.offset + wreq.resid).setWidth 32)
        else (0, s)
      (⟨1, err⟩, s,
        if err ≠ 0 then .dispatch
        else Writing.next ⟨ent, wreq.offset, wreq.resid, j.uninit⟩)

/-- One chunk. Each iteration that copies nothing repeats itself for ever, and
each other one uses up a remaining byte, so `resid` bounds the fuel. -/
def handleWriteBuf (j : Junk) (s : Store) (w : Writing) (breq : WriteBufReq) :
    Option (WriteBufResp × Store × Phase) :=
  (Copying.loop j breq w.ent (w.resid.toNat + 1) ⟨s, w.offset, w.resid, breq.buflen, 0⟩).map
    fun c => (w.bresp, c.store, Writing.next ⟨w.ent, c.offset, c.resid, w.bresp⟩)

end Store

end WiiJoybus
