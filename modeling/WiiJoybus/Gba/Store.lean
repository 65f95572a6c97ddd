import WiiJoybus.Library.CString
import WiiJoybus.Library.LinkedTable
import WiiJoybus.Shared.Messages

/-!
The file store of the GBA.

A table of entries, with directories threaded through it by `child` and `next`,
and a table of blocks that name the file and the index they hold. Both tables
are searched from slot 0. A pointer into a table is an index; a loop that never
ends is an operation without a result.
-/

namespace WiiJoybus
open ByteMemory LinkedTable

def entriesMax : Nat := 20

def blockMax : Nat := 1024

abbrev EntryPtr := Fin entriesMax

abbrev BlockPtr := Fin blockMax

inductive Vtype where
  | non
  | reg
  | dir
  | blk
  | chr
  | lnk
  | sock
  | fifo
  | bad
  deriving DecidableEq, Repr

def Vtype.code : Vtype → Word
  | .non => 0
  | .reg => 1
  | .dir => 2
  | .blk => 3
  | .chr => 4
  | .lnk => 5
  | .sock => 6
  | .fifo => 7
  | .bad => 8

structure GbaFile where
  numblocks : Word
  datalen : Word

structure Entry where
  vaType : Word
  vaMode : Word
  vaNlink : Word
  vaUid : Word
  vaGid : Word
  vaFsid : Word64
  vaFileid : Word
  vaSize : Word64
  vaBlocksize : Word
  vaGen : Word64
  vaFlags : Word64
  vaRdev : Word64
  vaBytes : Word64
  vaFilerev : Word64
  vaVaflags : Word64
  vaSpare : Word64
  name : Name
  next : Option EntryPtr
  child : Option EntryPtr
  file : GbaFile

structure GbaBlock where
  vaFileid : Word
  idx : Word
  data : Fin blockSize → Byte

structure Store where
  entries : EntryPtr → Entry
  blocks : BlockPtr → GbaBlock
  /-- `int ID` -/
  id : Nat

section Macros

variable {w : Nat}

def pbaBlockshift : Nat := 7

def pbaBlocksize (w : Nat) : BitVec w := 1 <<< pbaBlockshift

/-- What the source calls `ROUNDUP` is a remainder. -/
def roundup (a b : BitVec w) : BitVec w := a &&& (b - 1)

def blocknum (a : BitVec w) (b : Nat) : BitVec w := (a &&& ~~~(((1 : BitVec w) <<< b) - 1)) >>> b

def blockoff (a b : BitVec w) : BitVec w := a &&& (b - 1)

def blockleft (a b : BitVec w) : BitVec w := b - blockoff a b

end Macros

def eblocknotfound : Word := 1

def enoblocksfree : Word := 2

/-- The largest `int`: incrementing it is undefined. -/
def intMax : Nat := 2 ^ 31 - 1

namespace GbaBlock

def cleared : GbaBlock := ⟨0, 0, fun _ => 0⟩

end GbaBlock

namespace Store

def setEntry (s : Store) (p : EntryPtr) (e : Entry) : Store :=
  { s with entries := Function.update s.entries p e }

def setBlock (s : Store) (b : BlockPtr) (v : GbaBlock) : Store :=
  { s with blocks := Function.update s.blocks b v }

def setNext (s : Store) (p : EntryPtr) (n : Option EntryPtr) : Store :=
  s.setEntry p { s.entries p with next := n }

def setChild (s : Store) (p : EntryPtr) (c : Option EntryPtr) : Store :=
  s.setEntry p { s.entries p with child := c }

def setNlink (s : Store) (p : EntryPtr) (n : Word) : Store :=
  s.setEntry p { s.entries p with vaNlink := n }

def next (s : Store) (p : EntryPtr) : Option EntryPtr := (s.entries p).next

-- the searches are opaque to unification: their tables are too long to unfold

/-- Walk a sibling chain to the first entry that satisfies `p`. -/
@[irreducible] def scan (s : Store) (p : EntryPtr → Bool) (start : Option EntryPtr) :
    Option (Option EntryPtr) :=
  LinkedTable.scan s.next p entriesMax start

/-- The walk's fuel is the size of the table, and that is no restriction. -/
theorem scan_endless (s : Store) (p : EntryPtr → Bool) (start : Option EntryPtr)
    (h : s.scan p start = none) (fuel : Nat) : LinkedTable.scan s.next p fuel start = none := by
  apply LinkedTable.scan_endless
  rwa [Fintype.card_fin, ← scan]

@[irreducible] def blockFetch (s : Store) (id idx : Word) : Option BlockPtr :=
  Fin.find? fun i => (s.blocks i).vaFileid == id && (s.blocks i).idx == idx

@[irreducible] def blockFree (s : Store) : Option BlockPtr :=
  Fin.find? fun i => (s.blocks i).vaFileid == 0

@[irreducible] def findById (s : Store) (id : Word) : Option EntryPtr :=
  Fin.find? fun i => (s.entries i).vaFileid == id

/-- Give back the blocks from `i` on, `left` of them. -/
def shrinkLoop (fileid : Word) : (left i : Nat) → Store → Word × Store
  | 0, _, s => (0, s)
  | left + 1, i, s =>
      match s.blockFetch fileid (BitVec.ofNat 32 i) with
      | none => (eblocknotfound, s)
      | some b => shrinkLoop fileid left (i + 1) (s.setBlock b .cleared)

/-- Take `left` blocks, for the indices from `i` on. -/
def growLoop (fileid : Word) : (left i : Nat) → Store → Word × Store
  | 0, _, s => (0, s)
  | left + 1, i, s =>
      match s.blockFree with
      | none => (enoblocksfree, s)
      | some b =>
          growLoop fileid left (i + 1) (s.setBlock b ⟨fileid, BitVec.ofNat 32 i, fun _ => 0⟩)

def needalloc (e : Entry) (newsize : Word) : Bool :=
  decide (roundup e.file.datalen (pbaBlocksize 32) < newsize)

def shrinks (e : Entry) (newsize : Word) : Bool :=
  decide (newsize.setWidth 64 < e.vaSize)

def newblocks (newsize : Word) : Word := blocknum newsize pbaBlockshift + 1

/-- The block loop of `entrySetsize`; the two branches exclude each other. -/
def resizeBlocks (s : Store) (e : Entry) (newsize : Word) : Word × Store :=
  if shrinks e newsize then
    shrinkLoop e.vaFileid (e.file.numblocks.toNat - (newblocks newsize).toNat)
      (newblocks newsize).toNat s
  else
    growLoop e.vaFileid ((newblocks newsize).toNat - e.file.numblocks.toNat)
      e.file.numblocks.toNat s

def sized (e : Entry) (newsize : Word) : Entry :=
  { e with
    vaSize := newsize.setWidth 64
    vaBytes := (blocknum newsize pbaBlockshift >>> pbaBlockshift).setWidth 64 }

/-- The error code and what is left of the store; a loop that fails midway keeps
what it has done. -/
def entrySetsize (s : Store) (ent : EntryPtr) (newsize : Word) : Word × Store :=
  let e := s.entries ent
  if needalloc e newsize || shrinks e newsize then
    let (err, s) := s.resizeBlocks e newsize
    if err ≠ 0 then (err, s)
    else (0, s.setEntry ent { sized e newsize with file := ⟨newblocks newsize, newsize⟩ })
  else
    (0, s.setEntry ent (sized e newsize))

/-- What `entryInit` writes into the slot `old`. -/
def freshEntry (old : Entry) (fileid : Nat) (type : Vtype) (rand : Word64) : Entry :=
  { old with
    vaFileid := BitVec.ofNat 32 fileid
    vaType := type.code
    next := none
    child := none
    file := ⟨0, 0⟩
    vaMode := if type = .dir then 0o777 else 0o666
    vaNlink := if type = .dir then 1 else 0
    vaUid := 0
    vaGid := 0
    vaSize := 0
    vaBlocksize := BitVec.ofNat 32 blockSize
    vaGen := rand
    vaRdev := 0
    vaBytes := 0
    vaFilerev := 1
    vaVaflags := 0 }

/-- Slot `ent` gets the next id. -/
def initAt (s : Store) (ent : EntryPtr) (type : Vtype) (rand : Word64) : Store :=
  { s.setEntry ent (freshEntry (s.entries ent) s.id type rand) with id := s.id + 1 }

/-- No result when `ID++` would overflow. -/
def entryInit (s : Store) (type : Vtype) (rand : Word64) : Option (Option EntryPtr × Store) :=
  match s.findById 0 with
  | none => some (none, s)
  | some ent =>
      if s.id = intMax then none else some (some ent, s.initAt ent type rand)

def entryAppend (s : Store) (parent ent : EntryPtr) : Option Store :=
  match (s.entries parent).child with
  | none => some (s.setChild parent (some ent))
  | some first =>
      match (s.scan (fun n => (s.next n).isNone) (some first)).join with
      | none => none
      | some n =>
          let s := s.setNext n (some ent)
          -- only a later child is counted
          some (s.setNlink ent ((s.entries ent).vaNlink + 1))

/-- `prev->next && prev->next->va_fileid == ent->va_fileid` -/
def precedes (s : Store) (ent prev : EntryPtr) : Bool :=
  match s.next prev with
  | none => false
  | some n => (s.entries n).vaFileid == (s.entries ent).vaFileid

/-- `prev->next = ent->next`, if the walk has found a predecessor. -/
def unlinkAfter (s : Store) (ent : EntryPtr) : Option EntryPtr → Store
  | none => s
  | some prev => s.setNext prev (s.next ent)

def entryRemove (s : Store) (parent ent : EntryPtr) : Option Store :=
  match s.scan (s.precedes ent) (s.entries parent).child with
  | none => none
  | some prev =>
      let s := s.unlinkAfter ent prev
      some (s.setNlink ent ((s.entries ent).vaNlink - 1))

/-- One iteration of the entry loop of `entryReclaim`, which reads the id of
`ent` anew each time. -/
def reclaimEntry (ent : EntryPtr) (s : Store) (i : EntryPtr) : Store :=
  if (s.entries i).vaFileid = (s.entries ent).vaFileid then
    s.setEntry i { s.entries i with vaFileid := 0 }
  else s

def reclaimBlocks (ent : EntryPtr) (s : Store) : Store :=
  { s with blocks := fun i =>
      if (s.blocks i).vaFileid = (s.entries ent).vaFileid then .cleared else s.blocks i }

def entryReclaim (s : Store) (ent : EntryPtr) : Store :=
  reclaimBlocks ent ((List.finRange entriesMax).foldl (reclaimEntry ent) s)

/-- Both tables start out zero, as all static storage does. -/
def blank : Store where
  entries := fun _ =>
    { vaType := 0, vaMode := 0, vaNlink := 0, vaUid := 0, vaGid := 0, vaFsid := 0,
      vaFileid := 0, vaSize := 0, vaBlocksize := 0, vaGen := 0, vaFlags := 0, vaRdev := 0,
      vaBytes := 0, vaFilerev := 0, vaVaflags := 0, vaSpare := 0, name := fun _ => 0,
      next := none, child := none, file := ⟨0, 0⟩ }
  blocks := fun _ => .cleared
  id := 1

/-- "abcdefghijklmnopqrstuvwxyz12345" -/
def testName : List Byte :=
  (List.range 26).map (fun k => BitVec.ofNat 8 (97 + k)) ++
    (List.range 5).map (fun k => BitVec.ofNat 8 (49 + k))

/-- What `main` does before its loop; the values of `rand()` are given. -/
def boot (rootGen testGen : Word64) : Option Store :=
  match blank.entryInit .dir rootGen with
  | some (some root, s) =>
      match s.entryInit .reg testGen with
      | some (some test, s) =>
          match s.entryAppend root test with
          | some s =>
              some (s.setEntry test { s.entries test with
                name := CString.snprintf (fun text => text) testName (s.entries test).name })
          | none => none
      | _ => none
  | _ => none

end Store

end WiiJoybus
