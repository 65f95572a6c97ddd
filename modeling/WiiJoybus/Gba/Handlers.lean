import WiiJoybus.Library.Layout
import WiiJoybus.Gba.Store

/-!
The request handlers of the GBA, between a received request and its reply.

A reply is a struct on the stack: what a handler does not assign keeps the bytes
that were there, and these are sent. Everything the source leaves open is in
`Junk`, one for each run of a handler.
-/

namespace WiiJoybus
open ByteMemory StructLayout

structure Junk where
  /-- The stack before the reply and the received structs were placed there. -/
  stack : Memory
  /-- What lies after an array, read by an index past its end. -/
  beyond : Nat → Byte
  /-- `rand()` -/
  rand : Word64
  /-- The text a name with conversions is printed as. -/
  expansion : List Byte → List Byte

/-- A local variable that has not been assigned. -/
def Junk.uninit {α : Type} [CStruct α] (j : Junk) : α := decode .little j.stack

def enoent : Word := 2

def enotdir : Word := 20

section Sswap

def LookupReq.sswap (r : LookupReq) : LookupReq := { r with parentFileid := bswap r.parentFileid }

def GetattrReq.sswap (r : GetattrReq) : GetattrReq := { r with fileid := bswap r.fileid }

def CreateReq.sswap (r : CreateReq) : CreateReq := { r with parentFileid := bswap r.parentFileid }

def ReadReq.sswap (r : ReadReq) : ReadReq :=
  { fileid := bswap r.fileid, copylen := bswap r.copylen, offset := bswap r.offset }

def SetattrReq.sswap (r : SetattrReq) : SetattrReq :=
  { vaFileid := bswap r.vaFileid, vaSize := bswap r.vaSize }

def WriteReq.sswap (r : WriteReq) : WriteReq :=
  { fileid := bswap r.fileid, ioAppend := bswap r.ioAppend, offset := bswap r.offset,
    resid := bswap r.resid }

def WriteBufReq.sswap (r : WriteBufReq) : WriteBufReq := { r with buflen := bswap r.buflen }

def ReaddirReq.sswap (r : ReaddirReq) : ReaddirReq :=
  { parentFileid := bswap r.parentFileid, n := bswap r.n }

def ReclaimReq.sswap (r : ReclaimReq) : ReclaimReq := { vaFileid := bswap r.vaFileid }

def RmReq.sswap (r : RmReq) : RmReq := { r with parentFileid := bswap r.parentFileid }

end Sswap

namespace Store

def hasName (s : Store) (name : Name) (ent : EntryPtr) : Bool :=
  CString.same (s.entries ent).name name

/-- The search loop of LOOKUP. -/
def lookupMatch (s : Store) (req : LookupReq) : Option (Option EntryPtr) :=
  match s.findById req.parentFileid with
  | none => some none
  | some parent => s.scan (s.hasName req.name) (s.entries parent).child

def handleLookupRequest (j : Junk) (s : Store) (req : LookupReq) : Option LookupResp :=
  let resp : LookupResp := j.uninit
  match s.lookupMatch req with
  | none => none
  | some none => some { resp with exists_ := 0 }
  | some (some m) =>
      let ent := s.entries m
      some
        { exists_ := 1
          vaFileid := ent.vaFileid
          vaType := ent.vaType
          vaSize := ent.vaSize
          vaRdev := ent.vaRdev }

/-- The attributes of GETATTR, CREATE and MKDIR; `va_blocksize` is not assigned. -/
def attributes (resp : GetattrResp) (ent : Entry) : GetattrResp :=
  { resp with
    exists_ := 1
    vaType := ent.vaType
    vaMode := ent.vaMode
    vaNlink := ent.vaNlink
    vaUid := ent.vaUid
    vaGid := ent.vaGid
    vaGen := ent.vaGen
    vaFsid := ent.vaFsid
    vaFileid := ent.vaFileid
    vaSize := ent.vaSize
    vaFlags := ent.vaFlags
    vaRdev := ent.vaRdev
    vaBytes := ent.vaBytes
    vaFilerev := ent.vaFilerev
    vaVaflags := ent.vaVaflags
    vaSpare := ent.vaSpare }

def handleGetattrRequest (j : Junk) (s : Store) (req : GetattrReq) : GetattrResp :=
  let resp : GetattrResp := j.uninit
  match s.findById req.fileid with
  | none => { resp with exists_ := 0 }
  | some ent => attributes resp (s.entries ent)

/-- `snprintf(ent->name, sizeof(ent->name), req.name)` -/
def setName (j : Junk) (s : Store) (ent : EntryPtr) (name : Name) : Store :=
  s.setEntry ent { s.entries ent with
    name := CString.snprintf j.expansion (CString.ofArray name) (s.entries ent).name }

def handleCreateRequest (j : Junk) (vt : Vtype) (s : Store) (req : CreateReq) :
    Option (CreateResp × Store) :=
  let resp : CreateResp := { (j.uninit : CreateResp) with exists_ := 0 }
  match s.findById req.parentFileid with
  | none => some (resp, s)
  | some parent =>
      match s.entryInit vt j.rand with
      | none => none
      | some (none, s) => some (resp, s)
      | some (some ent, s) =>
          match s.entryAppend parent ent with
          | none => none
          | some s =>
              let s := setName j s ent req.name
              some (attributes resp (s.entries ent), s)

def handleStatvfsRequest (s : Store) : StatvfsResp where
  fBlocks := BitVec.ofNat 32 blockMax
  fBsize := BitVec.ofNat 32 blockSize
  fFrsize := BitVec.ofNat 32 blockSize
  fBfree := BitVec.ofNat 32 (Finset.univ.filter fun i => (s.blocks i).vaFileid = 0).card
  fBavail := BitVec.ofNat 32 (Finset.univ.filter fun i => (s.blocks i).vaFileid = 0).card
  fBresvd := 0
  fFiles := BitVec.ofNat 32 entriesMax
  fFfree := BitVec.ofNat 32 (Finset.univ.filter fun i => (s.entries i).vaFileid = 0).card
  fFavail := BitVec.ofNat 32 (Finset.univ.filter fun i => (s.entries i).vaFileid = 0).card
  fFresvd := 0

/-- `MIN` of the GBA's headers. -/
def min64 (a b : Word64) : Word64 := if a < b then a else b

/-- Byte `k` from `block->data` on. There is no memory protection: a null pointer
and an index past the array both find some byte. -/
def readByte (j : Junk) (s : Store) (block : Option BlockPtr) (k : Nat) : Byte :=
  match block with
  | none => j.beyond k
  | some b => if h : k < blockSize then (s.blocks b).data ⟨k, h⟩ else j.beyond k

def handleReadRequest (j : Junk) (s : Store) (req : ReadReq) : ReadResp :=
  let resp : ReadResp := { (j.uninit : ReadResp) with err := 0, copylen := 0 }
  match s.findById req.fileid with
  | none => { resp with err := 1 }
  | some e =>
      let ent := s.entries e
      if req.offset > ent.file.datalen.setWidth 64 then { resp with err := 2 }
      else
        let copylen :=
          (min64 (ent.file.datalen.setWidth 64 - req.offset) (pbaBlocksize 64)).setWidth 32
        let block := s.blockFetch ent.vaFileid ((blocknum req.offset pbaBlockshift).setWidth 32)
        let off := (blockoff req.offset (pbaBlocksize 64)).toNat
        { resp with
          copylen := copylen
          buf := fun k =>
            if k.val < copylen.toNat then s.readByte j block (off + k.val) else resp.buf k }

def handleSetsizeRequest (j : Junk) (s : Store) (req : SetattrReq) : SetattrResp × Store :=
  let resp : SetattrResp := { (j.uninit : SetattrResp) with err := 0 }
  match s.findById req.vaFileid with
  | none => ({ resp with err := enoent }, s)
  | some e =>
      -- the error code of `entrySetsize` is dropped
      let s := (s.entrySetsize e (req.vaSize.setWidth 32)).2
      let ent := s.entries e
      ({ resp with vaFileid := ent.vaFileid, vaSize := ent.vaSize, vaBytes := ent.vaBytes }, s)

def handleReaddirRequest (j : Junk) (s : Store) (req : ReaddirReq) : ReaddirResp :=
  let resp : ReaddirResp := { (j.uninit : ReaddirResp) with exists_ := 0 }
  let res := match s.findById req.parentFileid with
    | none => none
    | some parent => LinkedTable.nth s.next req.n.toInt.toNat (s.entries parent).child
  match res with
  | none => { resp with exists_ := 0, vaFileid := 0, vaType := 0 }
  | some r =>
      let ent := s.entries r
      { exists_ := 1
        vaFileid := ent.vaFileid
        vaType := ent.vaType
        name := CString.put (CString.ofArray ent.name) resp.name }

def handleReclaimRequest (j : Junk) (s : Store) (req : ReclaimReq) : ReclaimResp × Store :=
  let resp : ReclaimResp := { (j.uninit : ReclaimResp) with err := 0, vaFileid := 0 }
  match s.findById req.vaFileid with
  | none => ({ resp with err := enoent }, s)
  | some e =>
      let fileid := (s.entries e).vaFileid
      let s := s.entryReclaim e
      ({ resp with vaFileid := fileid, vaNlink := (s.entries e).vaNlink }, s)

/-- The child RM removes: `Sum.inl` is an error code, `none` a walk without end. -/
def rmTarget (s : Store) (req : RmReq) : Option (Word ⊕ (EntryPtr × EntryPtr)) :=
  match s.findById req.parentFileid with
  | none => some (.inl enoent)
  | some parent =>
      if (s.entries parent).child.isNone then some (.inl enoent)
      else if (s.entries parent).vaType ≠ Vtype.dir.code then some (.inl enotdir)
      else
        match s.scan (s.hasName req.name) (s.entries parent).child with
        | none => none
        | some none => some (.inl enoent)
        | some (some ent) => some (.inr (parent, ent))

def handleRmRequest (j : Junk) (s : Store) (req : RmReq) : Option (RmResp × Store) :=
  let resp : RmResp := { (j.uninit : RmResp) with err := 0, vaFileid := 0 }
  match s.rmTarget req with
  | none => none
  | some (.inl err) => some ({ resp with err := err }, s)
  | some (.inr (parent, res)) =>
      let fileid := (s.entries res).vaFileid
      match s.entryRemove parent res with
      | none => none
      | some s =>
          some ({ resp with vaFileid := fileid, vaNlink := (s.entries res).vaNlink }, s)

end Store

end WiiJoybus
