import WiiJoybus.Shared.Messages

/-!
What the Wii's operations share with libpuffs.

The library itself is outside the repository: what the operations rely on is a
parameter, and its structs hold the members the operations touch. Cookies are
file ids; `ctx->head` maps them to the library's nodes.
-/

namespace WiiJoybus
open ByteMemory

namespace Errno

def enoent : Word := 2

def enodev : Word := 19

def eisdir : Word := 21

def eopnotsupp : Word := 45

def estale : Word := 70

end Errno

section Vtypes

def vnon : Word := 0

def vreg : Word := 1

def vdir : Word := 2

def vblk : Word := 3

def vchr : Word := 4

def vsock : Word := 6

def vfifo : Word := 7

end Vtypes

/-- `struct vattr`, on a machine whose `long` has 32 bits. -/
structure Vattr where
  vaType : Word
  vaMode : Word
  vaNlink : Word
  vaUid : Word
  vaGid : Word
  vaFsid : Word64
  vaFileid : Word64
  vaSize : Word64
  vaBlocksize : Word
  vaGen : Word
  vaFlags : Word
  vaRdev : Word64
  vaBytes : Word64
  vaFilerev : Word64
  vaVaflags : Word
  vaSpare : Word

/-- `(u_quad_t)PUFFS_VNOVAL` -/
def puffsVnoval : Word64 := -1

/-- `struct puffs_newinfo` -/
structure Newinfo where
  cookie : Word
  vtype : Word
  size : Word64
  rdev : Word64

/-- `struct puffs_cn`; `pcn_name` is longer than the names of the wire. -/
structure Cn where
  pcnName : Memory
  pcnNamelen : Nat

/-- `PCNISDOTDOT` -/
def Cn.isDotDot (pcn : Cn) : Bool :=
  pcn.pcnNamelen == 2 && (pcn.pcnName 0 == 46 && pcn.pcnName 1 == 46 && pcn.pcnName 2 == 0)

/-- `memcpy(req.name, pcn->pcn_name, sizeof(req.name))` -/
def Cn.name (pcn : Cn) : Name := fun k => pcn.pcnName k

structure Dirent where
  dFileno : Word64
  dName : List Byte
  dType : Byte
  deriving DecidableEq

/-- The Wii's side of what the source leaves open. -/
structure Puffs where
  /-- The stack before the request structs were placed there. -/
  stack : Memory
  /-- What lies after an array, read by an index past its end. -/
  beyond : Nat → Byte
  /-- The record length of an entry with a name of this length. -/
  reclen : Nat → Nat
  reclen_pos : ∀ n, 0 < reclen n
  /-- `puffs_vtype2dt` -/
  vtype2dt : Word → Byte
  /-- The attributes of a node from `puffs_pn_new`. -/
  pnNew : Vattr

/-- All that the library and the source leave open, in the simplest way. -/
def Puffs.zero : Puffs where
  stack _ := 0
  beyond _ := 0
  reclen n := n + 1
  reclen_pos n := Nat.succ_pos n
  vtype2dt t := t.setWidth 8
  pnNew := ⟨0, 0, 0, 0, 0, 0, 0, 0, 0, 0, 0, 0, 0, 0, 0, 0⟩

def dtDir : Byte := 4

/-- The buffer of READDIR: the records in it and the room that is left. -/
structure DirentBuf where
  dents : List Dirent
  reslen : Nat
  deriving DecidableEq

namespace Puffs

variable (e : Puffs)

/-- `puffs_nextdent`; nothing is stored when the record does not fit. -/
def nextdent (b : DirentBuf) (d : Dirent) : Bool × DirentBuf :=
  if e.reclen d.dName.length > b.reslen then (false, b)
  else (true, ⟨b.dents ++ [d], b.reslen - e.reclen d.dName.length⟩)

/-- `puffs_gendotdent`, whose result the source ignores. -/
def gendotdent (b : DirentBuf) (id : Word64) (dotdot : Bool) : DirentBuf :=
  (e.nextdent b ⟨id, if dotdot then [46, 46] else [46], dtDir⟩).2

end Puffs

/-- An entry of `ctx->head` with its node. -/
structure Node where
  id : Word
  va : Vattr
  /-- `puffs_pn_put` has released the node; the entry stays. -/
  released : Bool

abbrev Context := List Node

namespace Context

/-- `entry_init`; the new entry is the first one. -/
def entryInit (e : Puffs) (ctx : Context) (id : Word) : Context := ⟨id, e.pnNew, false⟩ :: ctx

/-- `pba_cmap`: the node of a cookie, created when there is none. -/
def cmap (e : Puffs) (ctx : Context) (id : Word) : Vattr × Context :=
  match ctx.find? fun ent => ent.id == id with
  | some ent => (ent.va, ctx)
  | none => (e.pnNew, entryInit e ctx id)

/-- A change of the node `pba_cmap` returns for a cookie. -/
def update (f : Node → Node) (id : Word) : Context → Context
  | [] => []
  | ent :: rest => if ent.id = id then f ent :: rest else ent :: update f id rest

end Context

end WiiJoybus
