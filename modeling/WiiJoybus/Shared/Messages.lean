import WiiJoybus.Library.Layout

/-!
The commands and message structs both programs include.

Every struct is laid out by its field list, in declaration order. The names are
those of the shared header; `va_` fields keep the vnode attribute they stand for.
-/

namespace WiiJoybus
open ByteMemory StructLayout

abbrev Word := BitVec 32

abbrev Word64 := BitVec 64

def blockSize : Nat := 128

inductive Cmd where
  | statvfs
  | readdir
  | lookup
  | getattr
  | create
  | write
  | read
  | mkdir
  | rm
  | reclaim
  | setsize
  deriving DecidableEq, Repr

def Cmd.code : Cmd → Word
  | .statvfs => 0x0010
  | .readdir => 0x0011
  | .lookup => 0x0012
  | .getattr => 0x0013
  | .create => 0x0014
  | .write => 0x0015
  | .read => 0x0016
  | .mkdir => 0x0017
  | .rm => 0x0018
  | .reclaim => 0x0019
  | .setsize => 0x001A

/-- The case of the dispatcher's switch that a word selects. -/
def Cmd.ofCode (w : Word) : Option Cmd :=
  [Cmd.statvfs, .readdir, .lookup, .getattr, .create, .write, .read, .mkdir, .rm, .reclaim,
    .setsize].find? fun c => c.code == w

@[simp] theorem Cmd.ofCode_code (c : Cmd) : Cmd.ofCode c.code = some c := by
  cases c <;> decide

/-- `char name[32]` -/
abbrev Name := Fin 32 → Byte

structure StatvfsResp where
  fBsize : Word
  fFrsize : Word
  fBlocks : Word
  fBfree : Word
  fBavail : Word
  fBresvd : Word
  fFiles : Word
  fFfree : Word
  fFavail : Word
  fFresvd : Word

structure ReaddirReq where
  parentFileid : Word
  n : Word

structure ReaddirResp where
  exists_ : Word
  vaType : Word
  vaFileid : Word
  name : Name

structure LookupReq where
  parentFileid : Word
  name : Name

structure LookupResp where
  exists_ : Word
  vaFileid : Word
  vaType : Word
  vaSize : Word64
  vaRdev : Word64

structure GetattrReq where
  fileid : Word

structure GetattrResp where
  exists_ : Word
  vaType : Word
  vaMode : Word
  vaNlink : Word
  vaUid : Word
  vaGid : Word
  vaGen : Word64
  vaFsid : Word64
  vaFileid : Word
  vaSize : Word64
  vaBlocksize : Word
  vaFlags : Word64
  vaRdev : Word64
  vaBytes : Word64
  vaFilerev : Word64
  vaVaflags : Word64
  vaSpare : Word64

/-- Also the request of MKDIR. -/
structure CreateReq where
  parentFileid : Word
  name : Name

/-- Field for field the reply of GETATTR; also the reply of MKDIR. -/
abbrev CreateResp := GetattrResp

structure WriteReq where
  fileid : Word
  ioAppend : Word
  offset : Word64
  resid : Word64

structure WriteResp where
  exists_ : Word
  err : Word

structure WriteBufReq where
  buflen : Word
  buf : Fin blockSize → Byte

structure WriteBufResp where
  err : Word

structure ReadReq where
  fileid : Word
  copylen : Word
  offset : Word64

structure ReadResp where
  err : Word
  copylen : Word
  buf : Fin blockSize → Byte

structure RmReq where
  parentFileid : Word
  name : Name

structure RmResp where
  err : Word
  vaFileid : Word
  vaNlink : Word

structure ReclaimReq where
  vaFileid : Word

structure ReclaimResp where
  err : Word
  vaFileid : Word
  vaNlink : Word

structure SetattrReq where
  vaFileid : Word
  vaSize : Word64

structure SetattrResp where
  err : Word
  vaFileid : Word
  vaBytes : Word64
  vaSize : Word64

section Layouts

instance : CStruct StatvfsResp where
  fields := [.u32, .u32, .u32, .u32, .u32, .u32, .u32, .u32, .u32, .u32]
  toVals r := (r.fBsize, r.fFrsize, r.fBlocks, r.fBfree, r.fBavail, r.fBresvd, r.fFiles,
    r.fFfree, r.fFavail, r.fFresvd, ())
  ofVals := fun (a, b, c, d, e, f, g, h, i, j, ()) => ⟨a, b, c, d, e, f, g, h, i, j⟩
  ofVals_toVals _ := rfl
  toVals_ofVals _ := rfl

instance : CStruct ReaddirReq where
  fields := [.u32, .u32]
  toVals r := (r.parentFileid, r.n, ())
  ofVals := fun (a, b, ()) => ⟨a, b⟩
  ofVals_toVals _ := rfl
  toVals_ofVals _ := rfl

instance : CStruct ReaddirResp where
  fields := [.u32, .u32, .u32, .bytes 32]
  toVals r := (r.exists_, r.vaType, r.vaFileid, r.name, ())
  ofVals := fun (a, b, c, d, ()) => ⟨a, b, c, d⟩
  ofVals_toVals _ := rfl
  toVals_ofVals _ := rfl

instance : CStruct LookupReq where
  fields := [.u32, .bytes 32]
  toVals r := (r.parentFileid, r.name, ())
  ofVals := fun (a, b, ()) => ⟨a, b⟩
  ofVals_toVals _ := rfl
  toVals_ofVals _ := rfl

instance : CStruct LookupResp where
  fields := [.u32, .u32, .u32, .u64, .u64]
  toVals r := (r.exists_, r.vaFileid, r.vaType, r.vaSize, r.vaRdev, ())
  ofVals := fun (a, b, c, d, e, ()) => ⟨a, b, c, d, e⟩
  ofVals_toVals _ := rfl
  toVals_ofVals _ := rfl

instance : CStruct GetattrReq where
  fields := [.u32]
  toVals r := (r.fileid, ())
  ofVals := fun (a, ()) => ⟨a⟩
  ofVals_toVals _ := rfl
  toVals_ofVals _ := rfl

instance : CStruct GetattrResp where
  fields := [.u32, .u32, .u32, .u32, .u32, .u32, .u64, .u64, .u32, .u64, .u32, .u64, .u64,
    .u64, .u64, .u64, .u64]
  toVals r := (r.exists_, r.vaType, r.vaMode, r.vaNlink, r.vaUid, r.vaGid, r.vaGen, r.vaFsid,
    r.vaFileid, r.vaSize, r.vaBlocksize, r.vaFlags, r.vaRdev, r.vaBytes, r.vaFilerev,
    r.vaVaflags, r.vaSpare, ())
  ofVals := fun (a, b, c, d, e, f, g, h, i, j, k, l, m, n, o, p, q, ()) =>
    ⟨a, b, c, d, e, f, g, h, i, j, k, l, m, n, o, p, q⟩
  ofVals_toVals _ := rfl
  toVals_ofVals _ := rfl

instance : CStruct CreateReq where
  fields := [.u32, .bytes 32]
  toVals r := (r.parentFileid, r.name, ())
  ofVals := fun (a, b, ()) => ⟨a, b⟩
  ofVals_toVals _ := rfl
  toVals_ofVals _ := rfl

instance : CStruct WriteReq where
  fields := [.u32, .u32, .u64, .u64]
  toVals r := (r.fileid, r.ioAppend, r.offset, r.resid, ())
  ofVals := fun (a, b, c, d, ()) => ⟨a, b, c, d⟩
  ofVals_toVals _ := rfl
  toVals_ofVals _ := rfl

instance : CStruct WriteResp where
  fields := [.u32, .u32]
  toVals r := (r.exists_, r.err, ())
  ofVals := fun (a, b, ()) => ⟨a, b⟩
  ofVals_toVals _ := rfl
  toVals_ofVals _ := rfl

instance : CStruct WriteBufReq where
  fields := [.u32, .bytes blockSize]
  toVals r := (r.buflen, r.buf, ())
  ofVals := fun (a, b, ()) => ⟨a, b⟩
  ofVals_toVals _ := rfl
  toVals_ofVals _ := rfl

instance : CStruct WriteBufResp where
  fields := [.u32]
  toVals r := (r.err, ())
  ofVals := fun (a, ()) => ⟨a⟩
  ofVals_toVals _ := rfl
  toVals_ofVals _ := rfl

instance : CStruct ReadReq where
  fields := [.u32, .u32, .u64]
  toVals r := (r.fileid, r.copylen, r.offset, ())
  ofVals := fun (a, b, c, ()) => ⟨a, b, c⟩
  ofVals_toVals _ := rfl
  toVals_ofVals _ := rfl

instance : CStruct ReadResp where
  fields := [.u32, .u32, .bytes blockSize]
  toVals r := (r.err, r.copylen, r.buf, ())
  ofVals := fun (a, b, c, ()) => ⟨a, b, c⟩
  ofVals_toVals _ := rfl
  toVals_ofVals _ := rfl

instance : CStruct RmReq where
  fields := [.u32, .bytes 32]
  toVals r := (r.parentFileid, r.name, ())
  ofVals := fun (a, b, ()) => ⟨a, b⟩
  ofVals_toVals _ := rfl
  toVals_ofVals _ := rfl

instance : CStruct RmResp where
  fields := [.u32, .u32, .u32]
  toVals r := (r.err, r.vaFileid, r.vaNlink, ())
  ofVals := fun (a, b, c, ()) => ⟨a, b, c⟩
  ofVals_toVals _ := rfl
  toVals_ofVals _ := rfl

instance : CStruct ReclaimReq where
  fields := [.u32]
  toVals r := (r.vaFileid, ())
  ofVals := fun (a, ()) => ⟨a⟩
  ofVals_toVals _ := rfl
  toVals_ofVals _ := rfl

instance : CStruct ReclaimResp where
  fields := [.u32, .u32, .u32]
  toVals r := (r.err, r.vaFileid, r.vaNlink, ())
  ofVals := fun (a, b, c, ()) => ⟨a, b, c⟩
  ofVals_toVals _ := rfl
  toVals_ofVals _ := rfl

instance : CStruct SetattrReq where
  fields := [.u32, .u64]
  toVals r := (r.vaFileid, r.vaSize, ())
  ofVals := fun (a, b, ()) => ⟨a, b⟩
  ofVals_toVals _ := rfl
  toVals_ofVals _ := rfl

instance : CStruct SetattrResp where
  fields := [.u32, .u32, .u64, .u64]
  toVals r := (r.err, r.vaFileid, r.vaBytes, r.vaSize, ())
  ofVals := fun (a, b, c, d, ()) => ⟨a, b, c, d⟩
  ofVals_toVals _ := rfl
  toVals_ofVals _ := rfl

end Layouts

-- the padding before the 64-bit fields is on the wire too
example : sizeof LookupResp = 32 ∧ sizeof GetattrResp = 112 ∧ sizeof WriteBufReq = 132 := by
  decide

end WiiJoybus
