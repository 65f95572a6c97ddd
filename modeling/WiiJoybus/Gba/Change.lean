import WiiJoybus.Gba.Dispatcher

/-!
What a message can do to the store.

`Change` is the one place that looks inside the handlers: a message leaves the
store alone, creates, removes or reclaims an entry, resizes one, or overwrites
block data. The lemmas around it say what each of the tools below the handlers
does to the tables.
-/

namespace WiiJoybus

section Macros

theorem widen_toNat (a : Word) : (a.setWidth 64 : Word64).toNat = a.toNat :=
  BitVec.toNat_setWidth_of_le (by decide)

theorem widen_inj {a b : Word} (h : (a.setWidth 64 : Word64) = b.setWidth 64) : a = b := by
  have hnat := congrArg BitVec.toNat h
  rw [widen_toNat, widen_toNat] at hnat
  exact BitVec.eq_of_toNat_eq hnat

theorem roundup_toNat (a : Word) : (roundup a (pbaBlocksize 32)).toNat = a.toNat % 128 := by
  have h : (pbaBlocksize 32 - 1).toNat = 2 ^ 7 - 1 := by decide
  rw [roundup, BitVec.toNat_and, h, Nat.and_two_pow_sub_one_eq_mod]

theorem blockoff_toNat (a : Word64) : (blockoff a (pbaBlocksize 64)).toNat = a.toNat % 128 := by
  have h : (pbaBlocksize 64 - 1).toNat = 2 ^ 7 - 1 := by decide
  rw [blockoff, BitVec.toNat_and, h, Nat.and_two_pow_sub_one_eq_mod]

theorem blockleft_toNat (a : Word64) :
    (blockleft a (pbaBlocksize 64)).toNat = 128 - a.toNat % 128 := by
  have h : (pbaBlocksize 64).toNat = 128 := by decide
  have hlt := Nat.mod_lt a.toNat (show 0 < 128 by decide)
  rw [blockleft, BitVec.toNat_sub, blockoff_toNat, h]
  omega

theorem blocknum_toNat {w : Nat} (a : BitVec w) :
    (blocknum a pbaBlockshift).toNat = a.toNat / 128 := by
  rw [blocknum, ByteMemory.shiftLeft_sub_one, BitVec.toNat_ushiftRight, ByteMemory.clearBelow_toNat,
    Nat.shiftRight_eq_div_pow, Nat.mul_div_cancel _ (Nat.two_pow_pos pbaBlockshift)]
  rfl

end Macros

namespace Store

theorem newblocks_toNat (n : Word) : (newblocks n).toNat = n.toNat / 128 + 1 := by
  have hlt := n.isLt
  rw [newblocks, BitVec.toNat_add, blocknum_toNat]
  simp only [BitVec.ofNat_eq_ofNat, BitVec.toNat_ofNat]
  omega

def live (s : Store) (p : EntryPtr) : Prop := (s.entries p).vaFileid ≠ 0

instance (s : Store) (p : EntryPtr) : Decidable (s.live p) :=
  inferInstanceAs (Decidable ((s.entries p).vaFileid ≠ 0))

section Tables

variable (s : Store) (p q : EntryPtr) (e : Entry) (b : BlockPtr) (v : GbaBlock)

@[simp] theorem setEntry_blocks : (s.setEntry p e).blocks = s.blocks := rfl

@[simp] theorem setEntry_id : (s.setEntry p e).id = s.id := rfl

theorem setEntry_apply : (s.setEntry p e).entries q = if q = p then e else s.entries q :=
  Function.update_apply s.entries p e q

@[simp] theorem setEntry_self : (s.setEntry p e).entries p = e := by
  rw [setEntry_apply, if_pos rfl]

theorem setEntry_of_ne {p q : EntryPtr} (h : q ≠ p) :
    (s.setEntry p e).entries q = s.entries q := by
  rw [setEntry_apply, if_neg h]

theorem setEntry_field {β : Type} (f : Entry → β) (s : Store) (p : EntryPtr) (e : Entry)
    (h : f e = f (s.entries p)) (q : EntryPtr) :
    f ((s.setEntry p e).entries q) = f (s.entries q) := by
  rw [setEntry_apply]
  split
  · rename_i hq
    rw [h, hq]
  · rfl

@[simp] theorem setBlock_entries : (s.setBlock b v).entries = s.entries := rfl

@[simp] theorem setBlock_id : (s.setBlock b v).id = s.id := rfl

theorem setBlock_apply (b' : BlockPtr) :
    (s.setBlock b v).blocks b' = if b' = b then v else s.blocks b' :=
  Function.update_apply s.blocks b v b'

@[simp] theorem setBlock_self : (s.setBlock b v).blocks b = v := by
  rw [setBlock_apply, if_pos rfl]

theorem setBlock_of_ne {b b' : BlockPtr} (h : b' ≠ b) :
    (s.setBlock b v).blocks b' = s.blocks b' := by
  rw [setBlock_apply, if_neg h]

end Tables

section Searches

variable {s s' : Store} {id idx : Word} {p : EntryPtr} {b : BlockPtr}

/-- Block `b` stands for index `idx` of file `id`. -/
def holds (s : Store) (id idx : Word) (b : BlockPtr) : Prop :=
  (s.blocks b).vaFileid = id ∧ (s.blocks b).idx = idx

theorem findById_fileid (h : s.findById id = some p) : (s.entries p).vaFileid = id := by
  unfold findById at h
  simpa using (Fin.find?_eq_some_iff.mp h).1

theorem findById_eq_none (h : s.findById id = none) (p : EntryPtr) :
    (s.entries p).vaFileid ≠ id := by
  unfold findById at h
  simpa using Fin.find?_eq_none_iff.mp h p

theorem blockFree_fileid (h : s.blockFree = some b) : (s.blocks b).vaFileid = 0 := by
  unfold blockFree at h
  simpa using (Fin.find?_eq_some_iff.mp h).1

theorem blockFree_eq_none (h : s.blockFree = none) (b : BlockPtr) : (s.blocks b).vaFileid ≠ 0 := by
  unfold blockFree at h
  simpa using Fin.find?_eq_none_iff.mp h b

theorem blockFetch_eq_some : s.blockFetch id idx = some b ↔
    s.holds id idx b ∧ ∀ b' < b, ¬ s.holds id idx b' := by
  unfold blockFetch
  simp [holds]

theorem blockFetch_eq_none : s.blockFetch id idx = none ↔ ∀ b, ¬ s.holds id idx b := by
  unfold blockFetch
  simp [holds]

theorem blockFetch_holds (h : s.blockFetch id idx = some b) : s.holds id idx b :=
  (blockFetch_eq_some.mp h).1

theorem blockFetch_congr (h : ∀ b, s'.holds id idx b ↔ s.holds id idx b) :
    s'.blockFetch id idx = s.blockFetch id idx := by
  cases hf : s.blockFetch id idx with
  | none =>
      rw [blockFetch_eq_none] at hf ⊢
      intro b
      rw [h]
      exact hf b
  | some b =>
      rw [blockFetch_eq_some] at hf ⊢
      refine ⟨(h b).mpr hf.1, ?_⟩
      intro b' hb'
      rw [h]
      exact hf.2 b' hb'

end Searches

/-- Links and names may differ, nothing that concerns the files' data. -/
structure SameFiles (s s' : Store) : Prop where
  fileid : ∀ p, (s'.entries p).vaFileid = (s.entries p).vaFileid
  size : ∀ p, (s'.entries p).vaSize = (s.entries p).vaSize
  file : ∀ p, (s'.entries p).file = (s.entries p).file
  blocks : s'.blocks = s.blocks
  id : s'.id = s.id

/-- Sizes and blocks may differ, nothing that concerns the directory tree. -/
structure SameTree (s s' : Store) : Prop where
  fileid : ∀ p, (s'.entries p).vaFileid = (s.entries p).vaFileid
  type : ∀ p, (s'.entries p).vaType = (s.entries p).vaType
  name : ∀ p, (s'.entries p).name = (s.entries p).name
  next : ∀ p, (s'.entries p).next = (s.entries p).next
  child : ∀ p, (s'.entries p).child = (s.entries p).child
  id : s'.id = s.id

/-- Only the data in the blocks may differ. -/
structure SameShape (s s' : Store) : Prop where
  entries : s'.entries = s.entries
  id : s'.id = s.id
  fileid : ∀ b, (s'.blocks b).vaFileid = (s.blocks b).vaFileid
  idx : ∀ b, (s'.blocks b).idx = (s.blocks b).idx

section Tools

variable {s s' t : Store} {parent ent res : EntryPtr}

theorem SameFiles.refl (s : Store) : SameFiles s s :=
  ⟨fun _ => rfl, fun _ => rfl, fun _ => rfl, rfl, rfl⟩

theorem SameFiles.trans (h : SameFiles s s') (h' : SameFiles s' t) : SameFiles s t where
  fileid p := (h'.fileid p).trans (h.fileid p)
  size p := (h'.size p).trans (h.size p)
  file p := (h'.file p).trans (h.file p)
  blocks := h'.blocks.trans h.blocks
  id := h'.id.trans h.id

theorem SameShape.refl (s : Store) : SameShape s s :=
  ⟨rfl, rfl, fun _ => rfl, fun _ => rfl⟩

theorem SameShape.trans (h : SameShape s s') (h' : SameShape s' t) : SameShape s t where
  entries := h'.entries.trans h.entries
  id := h'.id.trans h.id
  fileid b := (h'.fileid b).trans (h.fileid b)
  idx b := (h'.idx b).trans (h.idx b)

theorem SameShape.tree (h : SameShape s s') : SameTree s s' := by
  constructor <;> first | exact h.id | (intro p; rw [h.entries])

theorem SameShape.holds_iff (h : SameShape s s') (id idx : Word) (b : BlockPtr) :
    s'.holds id idx b ↔ s.holds id idx b := by
  rw [holds, holds, h.fileid, h.idx]

theorem SameShape.blockFetch (h : SameShape s s') (id idx : Word) :
    s'.blockFetch id idx = s.blockFetch id idx :=
  blockFetch_congr (h.holds_iff id idx)

theorem sameFiles_setEntry (s : Store) (p : EntryPtr) (e : Entry)
    (hid : e.vaFileid = (s.entries p).vaFileid) (hsize : e.vaSize = (s.entries p).vaSize)
    (hfile : e.file = (s.entries p).file) : SameFiles s (s.setEntry p e) := by
  constructor
  case blocks | id => rfl
  all_goals
    intro q
    by_cases hq : q = p
    · subst hq
      simpa using ‹_›
    · rw [setEntry_of_ne _ _ hq]

theorem sameFiles_setNext (s : Store) (p : EntryPtr) (n : Option EntryPtr) :
    SameFiles s (s.setNext p n) :=
  sameFiles_setEntry _ _ _ rfl rfl rfl

theorem sameFiles_setChild (s : Store) (p : EntryPtr) (c : Option EntryPtr) :
    SameFiles s (s.setChild p c) :=
  sameFiles_setEntry _ _ _ rfl rfl rfl

theorem sameFiles_setNlink (s : Store) (p : EntryPtr) (n : Word) :
    SameFiles s (s.setNlink p n) :=
  sameFiles_setEntry _ _ _ rfl rfl rfl

theorem sameFiles_setName (j : Junk) (s : Store) (ent : EntryPtr) (name : Name) :
    SameFiles s (setName j s ent name) :=
  sameFiles_setEntry _ _ _ rfl rfl rfl

theorem entryInit_some {vt : Vtype} {rand : Word64}
    (h : s.entryInit vt rand = some (some ent, s')) :
    s.findById 0 = some ent ∧ s.id ≠ intMax ∧ s' = s.initAt ent vt rand := by
  simp only [entryInit] at h
  split at h
  · cases h
  · rename_i p hp
    split at h
    · cases h
    · rename_i hid
      cases h
      exact ⟨hp, hid, rfl⟩

theorem entryInit_none {vt : Vtype} {rand : Word64}
    (h : s.entryInit vt rand = some (none, s')) : s' = s := by
  simp only [entryInit] at h
  split at h
  · cases h
    rfl
  · split at h <;> cases h

theorem entryAppend_some (h : s.entryAppend parent ent = some s') :
    ((s.entries parent).child = none ∧ s' = s.setChild parent (some ent)) ∨
    ∃ first n k, (s.entries parent).child = some first ∧
      s.scan (fun n => (s.next n).isNone) (some first) = some (some n) ∧
      s' = (s.setNext n (some ent)).setNlink ent k := by
  simp only [entryAppend] at h
  split at h
  · rename_i hc
    cases h
    exact Or.inl ⟨hc, rfl⟩
  · rename_i first hc
    split at h
    · cases h
    · rename_i n hn
      cases h
      exact Or.inr ⟨first, n, _, hc, Option.join_eq_some_iff.mp hn, rfl⟩

theorem entryRemove_some (h : s.entryRemove parent res = some s') :
    ∃ prev k, s.scan (s.precedes res) (s.entries parent).child = some prev ∧
      s' = (s.unlinkAfter res prev).setNlink res k := by
  simp only [entryRemove] at h
  split at h
  · cases h
  · rename_i prev hprev
    cases h
    exact ⟨prev, _, hprev, rfl⟩

theorem sameFiles_entryAppend (h : s.entryAppend parent ent = some s') : SameFiles s s' := by
  rcases entryAppend_some h with ⟨_, rfl⟩ | ⟨_, n, k, _, _, rfl⟩
  · exact sameFiles_setChild s parent _
  · exact (sameFiles_setNext s n _).trans (sameFiles_setNlink _ ent k)

theorem sameFiles_entryRemove (h : s.entryRemove parent res = some s') : SameFiles s s' := by
  obtain ⟨prev, k, _, rfl⟩ := entryRemove_some h
  cases prev with
  | none => exact sameFiles_setNlink s res k
  | some prev => exact (sameFiles_setNext s prev _).trans (sameFiles_setNlink _ res k)

theorem sameShape_writeBytes (s : Store) (block : Option BlockPtr) (off n : Nat)
    (src : Nat → ByteMemory.Byte) : SameShape s (s.writeBytes block off n src) := by
  cases block with
  | none => exact SameShape.refl s
  | some b =>
      refine ⟨rfl, rfl, ?_, ?_⟩
      all_goals
        intro b'
        simp only [writeBytes, setBlock_apply]
        split
        · subst b'
          rfl
        · rfl

theorem sameShape_step (j : Junk) (breq : WriteBufReq) (ent : EntryPtr) (c : Copying) :
    SameShape c.store (c.step j breq ent).store := by
  exact sameShape_writeBytes c.store (c.block ent)
    (blockoff c.offset (pbaBlocksize 64)).toNat c.copylen.toNat
    fun k => Copying.source j breq (c.src + k)

theorem sameShape_copying_loop {j : Junk} {breq : WriteBufReq} {ent : EntryPtr} {fuel : Nat}
    {c c' : Copying} (h : Copying.loop j breq ent fuel c = some c') :
    SameShape c.store c'.store := by
  induction fuel generalizing c with
  | zero =>
      rw [Copying.loop] at h
      split at h
      · cases h
        exact SameShape.refl _
      · cases h
  | succ fuel ih =>
      rw [Copying.loop] at h
      split at h
      · cases h
        exact SameShape.refl _
      · exact (sameShape_step j breq ent c).trans (ih h)

end Tools

/-- Everything a message can do to the store. -/
inductive Change (s : Store) (m : Message) : Store → Prop where
  | keep (hz : s.resizes m = none) (hc : s.reclaims m = none) (hr : s.removes m = none) :
      Change s m s
  | create {vt req parent j ent s₁ s₂} (hm : m.creates = some (vt, req))
      (hp : s.findById req.parentFileid = some parent)
      (hi : s.entryInit vt j.rand = some (some ent, s₁))
      (ha : s₁.entryAppend parent ent = some s₂) : Change s m (setName j s₂ ent req.name)
  | remove {parent res s'} (hm : s.removes m = some (parent, res))
      (h : s.entryRemove parent res = some s') : Change s m s'
  | reclaim {p} (hm : s.reclaims m = some p) : Change s m (s.entryReclaim p)
  | resize {p n} (hm : s.resizes m = some (p, n)) : Change s m (s.entrySetsize p n).2
  | copy {b s'} (hm : m = .chunk b) (h : SameShape s s') : Change s m s'

section Exclusive

variable {s : Store} {m : Message}

theorem alone_of_creates {x : Vtype × CreateReq} (h : m.creates = some x) :
    s.resizes m = none ∧ s.reclaims m = none ∧ s.removes m = none := by
  cases m with
  | chunk b => cases h
  | request r => cases r <;> first | exact ⟨rfl, rfl, rfl⟩ | cases h

theorem alone_of_removes {x : EntryPtr × EntryPtr} (h : s.removes m = some x) :
    s.resizes m = none ∧ s.reclaims m = none := by
  cases m with
  | chunk b => cases h
  | request r => cases r <;> first | exact ⟨rfl, rfl⟩ | cases h

theorem alone_of_reclaims {p : EntryPtr} (h : s.reclaims m = some p) :
    s.resizes m = none ∧ s.removes m = none := by
  cases m with
  | chunk b => cases h
  | request r => cases r <;> first | exact ⟨rfl, rfl⟩ | cases h

theorem alone_of_resizes {x : EntryPtr × Word} (h : s.resizes m = some x) :
    s.reclaims m = none ∧ s.removes m = none := by
  cases m with
  | chunk b => cases h
  | request r => cases r <;> first | exact ⟨rfl, rfl⟩ | cases h

end Exclusive

section Handlers

variable {s : Store} {j : Junk} {m : Message}

/-- CREATE and MKDIR are refused, or append a new entry and name it. -/
theorem handleCreateRequest_cases {vt : Vtype} {req : CreateReq} {r : CreateResp × Store}
    (h : s.handleCreateRequest j vt req = some r) :
    (r.1.exists_ = 0 ∧ r.2 = s ∧
      (s.findById req.parentFileid = none ∨ s.findById 0 = none)) ∨
    ∃ parent ent s₂, s.findById req.parentFileid = some parent ∧ s.findById 0 = some ent ∧
      s.id ≠ intMax ∧ (s.initAt ent vt j.rand).entryAppend parent ent = some s₂ ∧
      r = (attributes { (j.uninit : CreateResp) with exists_ := 0 }
        ((setName j s₂ ent req.name).entries ent), setName j s₂ ent req.name) := by
  simp only [handleCreateRequest] at h
  split at h
  · rename_i hp
    cases h
    exact Or.inl ⟨rfl, rfl, Or.inl hp⟩
  · rename_i parent hp
    split at h
    · cases h
    · rename_i s₁ hi
      cases h
      refine Or.inl ⟨rfl, entryInit_none hi, Or.inr ?_⟩
      simp only [entryInit] at hi
      split at hi
      · assumption
      · split at hi <;> cases hi
    · rename_i ent s₁ hi
      obtain ⟨hfree, hid, rfl⟩ := entryInit_some hi
      split at h
      · cases h
      · rename_i s₂ ha
        cases h
        exact Or.inr ⟨parent, ent, s₂, hp, hfree, hid, ha, rfl⟩

theorem entryInit_of_free {vt : Vtype} {rand : Word64} {ent : EntryPtr}
    (hfree : s.findById 0 = some ent) (hid : s.id ≠ intMax) :
    s.entryInit vt rand = some (some ent, s.initAt ent vt rand) := by
  simp only [entryInit, hfree, if_neg hid]

theorem handleCreateRequest_change {vt : Vtype} {req : CreateReq} {r : CreateResp × Store}
    (hm : m.creates = some (vt, req)) (h : s.handleCreateRequest j vt req = some r) :
    s.Change m r.2 := by
  rcases handleCreateRequest_cases h with
    ⟨_, hsame, _⟩ | ⟨parent, ent, s₂, hp, hfree, hid, ha, rfl⟩
  · rw [hsame]
    cases m with
    | chunk b => cases hm
    | request q => cases q <;> first | exact .keep rfl rfl rfl | cases hm
  · exact .create hm hp (entryInit_of_free hfree hid) ha

theorem handleRmRequest_change {req : RmReq} {r : RmResp × Store}
    (h : s.handleRmRequest j req = some r) : s.Change (.request (.rm req)) r.2 := by
  simp only [handleRmRequest] at h
  split at h
  · cases h
  · rename_i err ht
    cases h
    exact .keep rfl rfl (by rw [removes, ht])
  · rename_i parent res ht
    split at h
    · cases h
    · rename_i s' hs'
      cases h
      exact .remove (by rw [removes, ht]) hs'

theorem handleReclaimRequest_change (req : ReclaimReq) :
    s.Change (.request (.reclaim req)) (s.handleReclaimRequest j req).2 := by
  simp only [handleReclaimRequest]
  split
  · rename_i he
    exact .keep rfl he rfl
  · rename_i e he
    exact .reclaim he

theorem handleSetsizeRequest_change (req : SetattrReq) :
    s.Change (.request (.setsize req)) (s.handleSetsizeRequest j req).2 := by
  simp only [handleSetsizeRequest]
  split
  · rename_i he
    exact .keep (by rw [resizes, he]; rfl) rfl rfl
  · rename_i e he
    exact .resize (by rw [resizes, he]; rfl)

theorem handleWriteRequest_change (req : WriteReq) :
    s.Change (.request (.write req)) (s.handleWriteRequest j req).2.1 := by
  simp only [handleWriteRequest]
  split
  · rename_i he
    exact .keep (by rw [resizes, he]) rfl rfl
  · rename_i e he
    by_cases h : req.offset + req.resid > (s.entries e).vaSize
    · rw [if_pos h]
      exact .resize (by simp only [resizes, he]; exact if_pos h)
    · rw [if_neg h]
      exact .keep (by simp only [resizes, he]; exact if_neg h) rfl rfl

theorem handleWriteBuf_change {w : Writing} {breq : WriteBufReq} {r : WriteBufResp × Store × Phase}
    (h : s.handleWriteBuf j w breq = some r) : s.Change (.chunk breq) r.2.1 := by
  simp only [handleWriteBuf, Option.map_eq_some_iff] at h
  obtain ⟨c, hc, rfl⟩ := h
  exact .copy rfl (sameShape_copying_loop hc)

end Handlers

end Store

theorem Gba.receive_change {j : Junk} {g g' : Gba} {m : Message}
    (h : g.receive j m = some g') : g.store.Change m g'.store := by
  cases m with
  | chunk b =>
      simp only [Gba.receive] at h
      split at h
      · cases h
      · obtain ⟨r, hr, rfl⟩ := Option.map_eq_some_iff.mp h
        exact Store.handleWriteBuf_change hr
  | request r =>
      simp only [Gba.receive] at h
      split at h
      · cases r with
        | statvfs | readdir _ | getattr _ | read _ =>
            cases h
            exact .keep rfl rfl rfl
        | lookup req =>
            obtain ⟨r, _, rfl⟩ := Option.map_eq_some_iff.mp h
            exact .keep rfl rfl rfl
        | create req | mkdir req =>
            obtain ⟨r, hr, rfl⟩ := Option.map_eq_some_iff.mp h
            exact Store.handleCreateRequest_change rfl hr
        | rm req =>
            obtain ⟨r, hr, rfl⟩ := Option.map_eq_some_iff.mp h
            exact Store.handleRmRequest_change hr
        | write req =>
            cases h
            exact Store.handleWriteRequest_change req
        | reclaim req =>
            cases h
            exact Store.handleReclaimRequest_change req
        | setsize req =>
            cases h
            exact Store.handleSetsizeRequest_change req
      · cases h

/-- An invariant of every change is an invariant of every run. -/
theorem Gba.Reachable.invariant {P : Store → Prop}
    (hboot : ∀ rootGen testGen s, Store.boot rootGen testGen = some s → P s)
    (hchange : ∀ s m s', P s → s.Change m s' → P s') {g : Gba} (h : g.Reachable) : P g.store := by
  induction h with
  | boot h => exact hboot _ _ _ h
  | step _ hs ih => exact hchange _ _ _ ih (Gba.receive_change hs)

end WiiJoybus
