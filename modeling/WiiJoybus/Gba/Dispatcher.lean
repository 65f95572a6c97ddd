import WiiJoybus.Gba.Write

/-!
The dispatcher loop of the GBA, one received message at a time.

Between two messages the GBA is in its dispatcher or waits for the next chunk of
a write. A message it cannot take there, or a handler that never answers, is a
step without a successor. Every theorem about all requests is a theorem about
the runs of this machine.
-/

namespace WiiJoybus

inductive Request where
  | statvfs
  | readdir (req : ReaddirReq)
  | lookup (req : LookupReq)
  | getattr (req : GetattrReq)
  | create (req : CreateReq)
  | write (req : WriteReq)
  | read (req : ReadReq)
  | mkdir (req : CreateReq)
  | rm (req : RmReq)
  | reclaim (req : ReclaimReq)
  | setsize (req : SetattrReq)

inductive Message where
  | request (r : Request)
  | chunk (b : WriteBufReq)

structure Gba where
  store : Store
  phase : Phase

/-- One case of the dispatcher's switch, with its reply left out. -/
def Store.serve (j : Junk) (s : Store) : Request → Option Gba
  | .statvfs => some ⟨s, .dispatch⟩
  | .readdir _ => some ⟨s, .dispatch⟩
  | .lookup req => (s.handleLookupRequest j req).map fun _ => ⟨s, .dispatch⟩
  | .getattr _ => some ⟨s, .dispatch⟩
  | .create req => (s.handleCreateRequest j .reg req).map fun r => ⟨r.2, .dispatch⟩
  | .write req => some ⟨(s.handleWriteRequest j req).2.1, (s.handleWriteRequest j req).2.2⟩
  | .read _ => some ⟨s, .dispatch⟩
  | .mkdir req => (s.handleCreateRequest j .dir req).map fun r => ⟨r.2, .dispatch⟩
  | .rm req => (s.handleRmRequest j req).map fun r => ⟨r.2, .dispatch⟩
  | .reclaim req => some ⟨(s.handleReclaimRequest j req).2, .dispatch⟩
  | .setsize req => some ⟨(s.handleSetsizeRequest j req).2, .dispatch⟩

def Gba.receive (j : Junk) (g : Gba) : Message → Option Gba
  | .request r =>
      match g.phase with
      | .dispatch => g.store.serve j r
      | .writing _ => none
  | .chunk b =>
      match g.phase with
      | .dispatch => none
      | .writing w => (g.store.handleWriteBuf j w b).map fun r => ⟨r.2.1, r.2.2⟩

/-- The given messages take the GBA from one state to another. -/
inductive Gba.Run : Gba → List Message → Gba → Prop where
  | nil (g) : Run g [] g
  | cons {g g' g'' j m ms} (hs : g.receive j m = some g') (rest : Run g' ms g'') :
      Run g (m :: ms) g''

/-- The request of CREATE or MKDIR. -/
def Message.creates : Message → Option (Vtype × CreateReq)
  | .request (.create req) => some (.reg, req)
  | .request (.mkdir req) => some (.dir, req)
  | _ => none

namespace Store

/-- The call of `entrySetsize` a message leads to. -/
def resizes (s : Store) : Message → Option (EntryPtr × Word)
  | .request (.setsize req) => (s.findById req.vaFileid).map fun p => (p, req.vaSize.setWidth 32)
  | .request (.write req) =>
      match s.findById req.fileid with
      | none => none
      | some p =>
          if req.offset + req.resid > (s.entries p).vaSize then
            some (p, (req.offset + req.resid).setWidth 32)
          else none
  | _ => none

/-- The call of `entryReclaim` a message leads to. -/
def reclaims (s : Store) : Message → Option EntryPtr
  | .request (.reclaim req) => s.findById req.vaFileid
  | _ => none

/-- The call of `entryRemove` a message leads to, with its parent and entry. -/
def removes (s : Store) : Message → Option (EntryPtr × EntryPtr)
  | .request (.rm req) =>
      match s.rmTarget req with
      | some (.inr call) => some call
      | _ => none
  | _ => none

end Store

inductive Gba.Reachable : Gba → Prop where
  | boot {rootGen testGen s} (h : Store.boot rootGen testGen = some s) : Reachable ⟨s, .dispatch⟩
  | step {g g' j m} (h : Reachable g) (hs : g.receive j m = some g') : Reachable g'

/-- All that the source leaves open is zero. -/
def Junk.zero : Junk := ⟨fun _ => 0, fun _ => 0, 0, fun text => text⟩

/-- A concrete run from boot, its messages last first. -/
def bootRun : List Message → Option Gba
  | [] => (Store.boot 0 0).map fun s => ⟨s, .dispatch⟩
  | m :: before => (bootRun before).bind fun g => g.receive .zero m

/-- The slot of the file that is there after boot. -/
def testSlot : EntryPtr := ⟨1, by decide⟩

/-- The slot of the first file that is created after boot. -/
def newSlot : EntryPtr := ⟨2, by decide⟩

def testNameArray : Name := fun i => Store.testName.getD i 0

def byteName (c : ByteMemory.Byte) : Name := fun i => if i.val = 0 then c else 0

/-- The stores the GBA can get to, also in the middle of a write. -/
def Store.Reachable (s : Store) : Prop := ∃ phase, Gba.Reachable ⟨s, phase⟩

theorem Gba.receive_of_request {j : Junk} {g g' : Gba} {r : Request}
    (h : g.receive j (.request r) = some g') :
    Gba.receive j ⟨g.store, .dispatch⟩ (.request r) = some g' := by
  simp only [Gba.receive] at h ⊢
  split at h
  · exact h
  · cases h

theorem Gba.receive_setsize {j : Junk} {g g' : Gba} {p : EntryPtr} {req : SetattrReq}
    (h : g.receive j (.request (.setsize req)) = some g')
    (hp : g.store.findById req.vaFileid = some p) :
    g' = ⟨(g.store.entrySetsize p (req.vaSize.setWidth 32)).2, .dispatch⟩ := by
  simp only [Gba.receive] at h
  split at h
  · simp only [Store.serve, Store.handleSetsizeRequest, hp, Option.some.injEq] at h
    exact h.symm
  · cases h

theorem bootRun_cons {m : Message} {before : List Message} {g' : Gba}
    (h : bootRun (m :: before) = some g') :
    ∃ g, bootRun before = some g ∧ g.receive .zero m = some g' :=
  Option.bind_eq_some_iff.mp h

theorem bootRun_nil {g : Gba} (h : bootRun [] = some g) :
    ∃ s, Store.boot 0 0 = some s ∧ g = ⟨s, .dispatch⟩ := by
  obtain ⟨s, hs, rfl⟩ := Option.map_eq_some_iff.mp h
  exact ⟨s, hs, rfl⟩

theorem bootRun_reachable {ms : List Message} {g : Gba} (h : bootRun ms = some g) :
    g.Reachable := by
  induction ms generalizing g with
  | nil =>
      obtain ⟨s, hs, rfl⟩ := bootRun_nil h
      exact .boot hs
  | cons m before ih =>
      obtain ⟨g₀, hg₀, hm⟩ := bootRun_cons h
      exact .step (ih hg₀) hm

end WiiJoybus
