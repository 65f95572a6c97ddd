import WiiJoybus.Library.CString
import WiiJoybus.Shared.Command
import WiiJoybus.Wii.Puffs

/-!
The file system operations of the Wii.

Each of them is a process that ends with what puffs gets back. The loops of
READ, WRITE and READDIR are loop heads; everything else is one exchange: wait
until the channel is clear, send the command word and the request, receive the
reply, and swap the fields that the operation swaps.
-/

namespace WiiJoybus
open ByteMemory StructLayout Dialogue

section Sswap

def StatvfsResp.sswap (r : StatvfsResp) : StatvfsResp where
  fBsize := bswap r.fBsize
  fFrsize := bswap r.fFrsize
  fBlocks := bswap r.fBlocks
  fBfree := bswap r.fBfree
  fBavail := bswap r.fBavail
  fBresvd := bswap r.fBresvd
  fFiles := bswap r.fFiles
  fFfree := bswap r.fFfree
  fFavail := bswap r.fFavail
  fFresvd := bswap r.fFresvd

def ReaddirResp.sswap (r : ReaddirResp) : ReaddirResp :=
  { r with exists_ := bswap r.exists_, vaFileid := bswap r.vaFileid, vaType := bswap r.vaType }

/-- The 64-bit fields are left as they are. -/
def LookupResp.sswap (r : LookupResp) : LookupResp :=
  { r with exists_ := bswap r.exists_, vaFileid := bswap r.vaFileid, vaType := bswap r.vaType }

/-- Also the reply of CREATE and MKDIR. -/
def GetattrResp.sswap (r : GetattrResp) : GetattrResp where
  exists_ := bswap r.exists_
  vaType := bswap r.vaType
  vaMode := bswap r.vaMode
  vaNlink := bswap r.vaNlink
  vaUid := bswap r.vaUid
  vaGid := bswap r.vaGid
  vaGen := bswap r.vaGen
  vaFsid := bswap r.vaFsid
  vaFileid := bswap r.vaFileid
  vaSize := bswap r.vaSize
  vaBlocksize := bswap r.vaBlocksize
  vaFlags := bswap r.vaFlags
  vaRdev := bswap r.vaRdev
  vaBytes := bswap r.vaBytes
  vaFilerev := bswap r.vaFilerev
  vaVaflags := bswap r.vaVaflags
  vaSpare := bswap r.vaSpare

def WriteResp.sswap (r : WriteResp) : WriteResp := ⟨bswap r.exists_, bswap r.err⟩

def WriteBufResp.sswap (r : WriteBufResp) : WriteBufResp := ⟨bswap r.err⟩

def ReadResp.sswap (r : ReadResp) : ReadResp :=
  { r with err := bswap r.err, copylen := bswap r.copylen }

def RmResp.sswap (r : RmResp) : RmResp := ⟨bswap r.err, bswap r.vaFileid, bswap r.vaNlink⟩

def ReclaimResp.sswap (r : ReclaimResp) : ReclaimResp :=
  ⟨bswap r.err, bswap r.vaFileid, bswap r.vaNlink⟩

def SetattrResp.sswap (r : SetattrResp) : SetattrResp :=
  ⟨bswap r.err, bswap r.vaFileid, bswap r.vaBytes, bswap r.vaSize⟩

end Sswap

/-- The locals and arguments of the loop of READ; `dest` counts from `buf`. -/
structure ReadLoop where
  fileid : Word
  offset : Word64
  dest : Nat
  buf : Memory
  resid : Word

/-- The locals and arguments of the loop of WRITE; `src` counts from `buf`. -/
structure WriteLoop where
  src : Nat
  buf : Memory
  resid : Word

/-- The arguments of READDIR; `cookies` is `none` when the caller wants none. -/
structure ReaddirLoop where
  id : Word
  readoff : Word64
  dent : DirentBuf
  eofflag : Word
  cookies : Option (List Word64)

inductive WiiHead where
  | read (l : ReadLoop)
  | write (l : WriteLoop)
  | readdir (l : ReaddirLoop)

/-- What an operation leaves behind: its error code, the arguments it may have
written to and, where it can change, the context. -/
inductive Outcome where
  /-- No operation has been called yet. -/
  | mounted
  | statvfs (sbp : StatvfsResp)
  | readdir (errno : Word) (l : ReaddirLoop)
  | lookup (errno : Word) (pni : Newinfo)
  | getattr (errno : Word) (vap : Vattr)
  | create (errno : Word) (pni : Newinfo) (ctx : Context)
  | write (errno resid : Word)
  | read (errno : Word) (buf : Memory) (resid : Word)
  /-- `setback` tells that the node is to be seen as inactive. -/
  | remove (errno : Word) (setback : Bool) (ctx : Context)
  | reclaim (errno : Word) (ctx : Context)
  | setattr (errno : Word) (ctx : Context)

abbrev WiiProc := Proc Word (WiiHead ⊕ Outcome)

def finish (r : Outcome) : WiiProc := .ret (.inr r)

section Exchange

variable (e : Puffs)

/-- Send a request and receive its reply. -/
def request {α β : Type} [CStruct α] [CStruct β] (req : α) : Proc Word β :=
  sendStruct wii e.stack req >>= fun _ => receiveStruct wii e.stack

/-- `wait_clear`, the command word, the request and its reply. -/
def command {α β : Type} [CStruct α] [CStruct β] (cmd : Cmd) (req : α) : Proc Word β :=
  .clear (.send cmd.code (request e req))

end Exchange

section Read

variable (e : Puffs)

/-- `MIN(*resid, BLOCKSIZE)` -/
def chunkLen (resid : Word) : Word := if resid < 128 then resid else 128

def ReadLoop.req (l : ReadLoop) : ReadReq := ⟨l.fileid, chunkLen l.resid, l.offset⟩

/-- `memcpy(dest, resp.buf, resp.copylen)` and the steps after it. -/
def ReadLoop.deliver (l : ReadLoop) (resp : ReadResp) : ReadLoop where
  fileid := l.fileid
  offset := l.offset + resp.copylen.setWidth 64
  dest := l.dest + resp.copylen.toNat
  buf := fun k =>
    if l.dest ≤ k ∧ k < l.dest + resp.copylen.toNat then
      if h : k - l.dest < blockSize then resp.buf ⟨k - l.dest, h⟩ else e.beyond (k - l.dest)
    else l.buf k
  resid := l.resid - resp.copylen

def ReadLoop.reply (l : ReadLoop) (resp : ReadResp) : WiiProc :=
  if resp.err ≠ 0 then finish (.read resp.err l.buf l.resid)
  else if resp.copylen = 0 then finish (.read 0 l.buf l.resid)
  else .ret (.inl (.read (l.deliver e resp)))

def ReadLoop.body (l : ReadLoop) : WiiProc :=
  if l.resid = 0 then finish (.read 0 l.buf l.resid)
  else command e .read l.req >>= fun resp => l.reply e (ReadResp.sswap resp)

def nodeRead (opc : Word) (buf : Memory) (offset : Word64) (resid : Word) : WiiProc :=
  .ret (.inl (.read ⟨opc, offset, 0, buf, resid⟩))

end Read

section Write

variable (e : Puffs)

/-- The next chunk, padded with zeros. -/
def WriteLoop.breq (l : WriteLoop) : WriteBufReq where
  buflen := chunkLen l.resid
  buf := fun k => if k.val < (chunkLen l.resid).toNat then l.buf (l.src + k) else 0

def WriteLoop.advance (l : WriteLoop) : WriteLoop :=
  { l with src := l.src + (chunkLen l.resid).toNat, resid := l.resid - chunkLen l.resid }

def WriteLoop.reply (l : WriteLoop) (bresp : WriteBufResp) : WiiProc :=
  if bresp.err > 0 then finish (.write bresp.err l.resid) else .ret (.inl (.write l.advance))

def WriteLoop.body (l : WriteLoop) : WiiProc :=
  if l.resid = 0 then finish (.write 0 l.resid)
  else request e l.breq >>= fun bresp => l.reply (WriteBufResp.sswap bresp)

/-- The reply to the request that starts a write. -/
def writeReply (buf : Memory) (resid : Word) (wresp : WriteResp) : WiiProc :=
  if wresp.exists_ = 0 then finish (.write Errno.enoent resid)
  else if wresp.err ≠ 0 then finish (.write wresp.err resid)
  else .ret (.inl (.write ⟨0, buf, resid⟩))

/-- `append` is `(ioflag & PUFFS_IO_APPEND) > 0`. -/
def nodeWrite (opc : Word) (buf : Memory) (offset : Word64) (resid : Word) (append : Bool) :
    WiiProc :=
  command e .write (⟨opc, if append then 1 else 0, offset, resid.setWidth 64⟩ : WriteReq) >>=
    fun wresp => writeReply buf resid (WriteResp.sswap wresp)

end Write

section Readdir

variable (e : Puffs)

namespace ReaddirLoop

/-- `(*readoff)++` and `PUFFS_STORE_DCOOKIE` -/
def advance (l : ReaddirLoop) (dent : DirentBuf) : ReaddirLoop :=
  { l with
    readoff := l.readoff + 1
    dent := dent
    cookies := l.cookies.map fun stored => stored ++ [l.readoff + 1] }

/-- The entry for `dotdot`, when it is its turn. -/
def dot (l : ReaddirLoop) (dotdot : Bool) : ReaddirLoop :=
  if l.readoff = (if dotdot then 1 else 0) then l.advance (e.gendotdent l.dent 1 dotdot) else l

/-- `(int)DENT_ADJ(*readoff)` -/
def req (l : ReaddirLoop) : ReaddirReq := ⟨l.id, (l.readoff - 2).setWidth 32⟩

def dirent (resp : ReaddirResp) : Dirent :=
  ⟨resp.vaFileid.setWidth 64, CString.ofArray resp.name, e.vtype2dt resp.vaType⟩

def reply (l : ReaddirLoop) (resp : ReaddirResp) : WiiProc :=
  if resp.exists_ = 0 then finish (.readdir 0 { l with eofflag := 1 })
  else
    match e.nextdent l.dent (dirent e resp) with
    | (false, _) => finish (.readdir 0 l)
    | (true, dent) => .ret (.inl (.readdir (l.advance dent)))

def body (l : ReaddirLoop) : WiiProc :=
  command e .readdir l.req >>= fun resp => l.reply e (ReaddirResp.sswap resp)

end ReaddirLoop

/-- `wanted` tells that `cookies` is not a null pointer. -/
def nodeReaddir (opc : Word) (dent : DirentBuf) (readoff : Word64) (eofflag : Word)
    (wanted : Bool) : WiiProc :=
  let l : ReaddirLoop := ⟨opc, readoff, dent, eofflag, if wanted then some [] else none⟩
  .ret (.inl (.readdir ((l.dot e false).dot e true)))

end Readdir

section Nodes

variable (e : Puffs)

def fsStatvfs : WiiProc :=
  .clear (.send Cmd.statvfs.code (receiveStruct wii e.stack >>= fun resp =>
    finish (.statvfs (StatvfsResp.sswap resp))))

def lookupReply (pni : Newinfo) (resp : LookupResp) : Outcome :=
  if resp.exists_ = 0 then .lookup Errno.enoent pni
  else .lookup 0 ⟨resp.vaFileid, resp.vaType, resp.vaSize, resp.vaRdev⟩

def nodeLookup (opc : Word) (pni : Newinfo) (pcn : Cn) : WiiProc :=
  if pcn.isDotDot then finish (.lookup Errno.enoent pni)
  else command e .lookup (⟨opc, pcn.name⟩ : LookupReq) >>=
    fun resp => finish (lookupReply pni (LookupResp.sswap resp))

/-- What GETATTR assigns to `vap`; `va_gen` is not among it. -/
def getattrVattr (vap : Vattr) (resp : GetattrResp) : Vattr :=
  { vap with
    vaType := resp.vaType
    vaMode := resp.vaMode
    vaNlink := resp.vaNlink
    vaUid := resp.vaUid
    vaGid := resp.vaGid
    vaFsid := resp.vaFsid
    vaFileid := resp.vaFileid.setWidth 64
    vaSize := resp.vaSize
    vaBlocksize := resp.vaBlocksize
    vaFlags := resp.vaFlags.setWidth 32
    vaRdev := resp.vaRdev
    vaBytes := resp.vaBytes
    vaFilerev := resp.vaFilerev
    vaVaflags := resp.vaVaflags.setWidth 32
    vaSpare := resp.vaSpare.setWidth 32 }

def getattrReply (vap : Vattr) (resp : GetattrResp) : Outcome :=
  if resp.exists_ = 0 then .getattr Errno.estale vap else .getattr 0 (getattrVattr vap resp)

def nodeGetattr (opc : Word) (vap : Vattr) : WiiProc :=
  command e .getattr (⟨opc⟩ : GetattrReq) >>=
    fun resp => finish (getattrReply vap (GetattrResp.sswap resp))

/-- What CREATE and MKDIR assign to the attributes of the new node. -/
def createVattr (va : Vattr) (resp : CreateResp) : Vattr :=
  { va with
    vaUid := resp.vaUid
    vaGid := resp.vaGid
    vaFileid := resp.vaFileid.setWidth 64
    vaSize := resp.vaSize
    vaBlocksize := resp.vaBlocksize
    vaGen := resp.vaGen.setWidth 32
    vaFlags := resp.vaFlags.setWidth 32
    vaRdev := resp.vaRdev
    vaBytes := resp.vaBytes
    vaFilerev := resp.vaFilerev
    vaVaflags := resp.vaVaflags.setWidth 32 }

/-- CREATE also sets the link count and the type of the node. -/
def createTyped (va : Vattr) (resp : CreateResp) : Vattr :=
  { createVattr va resp with vaNlink := resp.vaNlink, vaType := resp.vaType }

/-- The end of CREATE and of MKDIR, which differ in the attributes they assign. -/
def createReply (assign : Vattr → CreateResp → Vattr) (ctx : Context) (pni : Newinfo)
    (resp : CreateResp) : Outcome :=
  if resp.exists_ = 0 then .create Errno.enodev pni ctx
  else .create 0 { pni with cookie := resp.vaFileid }
    ((ctx.entryInit e resp.vaFileid).update (fun ent => { ent with va := assign ent.va resp })
      resp.vaFileid)

def nodeCreate (ctx : Context) (opc : Word) (pni : Newinfo) (pcn : Cn) (vaType : Word) : WiiProc :=
  if vaType = vreg ∨ vaType = vsock then
    command e .create (⟨opc, pcn.name⟩ : CreateReq) >>=
      fun resp => finish (createReply e createTyped ctx pni (GetattrResp.sswap resp))
  else finish (.create Errno.enodev pni ctx)

def nodeMkdir (ctx : Context) (opc : Word) (pni : Newinfo) (pcn : Cn) : WiiProc :=
  command e .mkdir (⟨opc, pcn.name⟩ : CreateReq) >>=
    fun resp => finish (createReply e createVattr ctx pni (GetattrResp.sswap resp))

def removeReply (ctx : Context) (targ : Word) (resp : RmResp) : Outcome :=
  if resp.err ≠ 0 then .remove resp.err false ctx
  else .remove 0 (resp.vaNlink == 0)
    (ctx.update (fun ent => { ent with va := { ent.va with vaNlink := resp.vaNlink } }) targ)

/-- `pba_cmap` always finds or makes a node. -/
def nodeRemove (ctx : Context) (opc targ : Word) (pcn : Cn) : WiiProc :=
  command e .rm (⟨opc, pcn.name⟩ : RmReq) >>=
    fun resp => finish (removeReply (ctx.cmap e targ).2 targ (RmResp.sswap resp))

def reclaimReply (ctx : Context) (opc : Word) (resp : ReclaimResp) : Outcome :=
  if resp.err ≠ 0 then .reclaim resp.err ctx
  else .reclaim 0
    (ctx.update (fun ent =>
      { ent with
        va := { ent.va with vaNlink := resp.vaNlink }
        released := ent.released || resp.vaNlink == 0 }) opc)

def nodeReclaim (ctx : Context) (opc : Word) : WiiProc :=
  command e .reclaim (⟨opc⟩ : ReclaimReq) >>=
    fun resp => finish (reclaimReply (ctx.cmap e opc).2 opc (ReclaimResp.sswap resp))

/-- The node's `va_bytes` becomes the size as well. -/
def setattrReply (ctx : Context) (opc : Word) (resp : SetattrResp) : Outcome :=
  if resp.err ≠ 0 then .setattr resp.err ctx
  else .setattr 0
    (ctx.update (fun ent =>
      { ent with va := { ent.va with vaSize := resp.vaSize, vaBytes := resp.vaSize } }) opc)

/-- Only the size is set, and only of what the node knows to be a regular file. -/
def nodeSetattr (ctx : Context) (opc : Word) (vaSize : Word64) : WiiProc :=
  let (pnVa, ctx) := ctx.cmap e opc
  if vaSize ≠ puffsVnoval then
    if pnVa.vaType = vreg then
      command e .setsize (⟨opc, vaSize⟩ : SetattrReq) >>=
        fun resp => finish (setattrReply ctx opc (SetattrResp.sswap resp))
    else if pnVa.vaType = vblk ∨ pnVa.vaType = vchr ∨ pnVa.vaType = vfifo then
      finish (.setattr 0 ctx)
    else if pnVa.vaType = vdir then finish (.setattr Errno.eisdir ctx)
    else finish (.setattr Errno.eopnotsupp ctx)
  else finish (.setattr 0 ctx)

end Nodes

def WiiHead.body (e : Puffs) : WiiHead → WiiProc
  | .read l => l.body e
  | .write l => l.body e
  | .readdir l => l.body e

/-- The calls puffs makes, with their arguments. -/
inductive Operation where
  | statvfs
  | readdir (opc : Word) (dent : DirentBuf) (readoff : Word64) (eofflag : Word) (wanted : Bool)
  | lookup (opc : Word) (pni : Newinfo) (pcn : Cn)
  | getattr (opc : Word) (vap : Vattr)
  | create (opc : Word) (pni : Newinfo) (pcn : Cn) (vaType : Word)
  | mkdir (opc : Word) (pni : Newinfo) (pcn : Cn)
  | write (opc : Word) (buf : Memory) (offset : Word64) (resid : Word) (append : Bool)
  | read (opc : Word) (buf : Memory) (offset : Word64) (resid : Word)
  | remove (opc targ : Word) (pcn : Cn)
  | reclaim (opc : Word)
  | setattr (opc : Word) (vaSize : Word64)

def Operation.run (e : Puffs) (ctx : Context) : Operation → WiiProc
  | .statvfs => fsStatvfs e
  | .readdir opc dent readoff eofflag wanted => nodeReaddir e opc dent readoff eofflag wanted
  | .lookup opc pni pcn => nodeLookup e opc pni pcn
  | .getattr opc vap => nodeGetattr e opc vap
  | .create opc pni pcn vaType => nodeCreate e ctx opc pni pcn vaType
  | .mkdir opc pni pcn => nodeMkdir e ctx opc pni pcn
  | .write opc buf offset resid append => nodeWrite e opc buf offset resid append
  | .read opc buf offset resid => nodeRead opc buf offset resid
  | .remove opc targ pcn => nodeRemove e ctx opc targ pcn
  | .reclaim opc => nodeReclaim e ctx opc
  | .setattr opc vaSize => nodeSetattr e ctx opc vaSize

end WiiJoybus
