import WiiJoybus.Gba.Untouched

/-!
The frame of a request.

`Passes` lists the stores a handler goes through, one for each iteration of its
loops and each of its writes, whether the handler ends or not. In all of them the
live entries the request does not name are as they were: a loop over the blocks
touches only free ones and those of the file it works on.
-/

namespace WiiJoybus

/-- The states of the copying loop, one before each iteration. -/
inductive Copying.Visits (j : Junk) (breq : WriteBufReq) (ent : EntryPtr) (c : Copying) :
    Copying → Prop where
  | start : Visits j breq ent c c
  | step {c'} (h : Visits j breq ent c c') (hx : ¬ c'.x = 0) :
      Visits j breq ent c (c'.step j breq ent)

theorem Copying.visits_of_loop {j : Junk} {breq : WriteBufReq} {ent : EntryPtr} {fuel : Nat}
    {c c' c₁ : Copying} (hv : Visits j breq ent c₁ c) (h : loop j breq ent fuel c = some c') :
    Visits j breq ent c₁ c' := by
  induction fuel generalizing c with
  | zero =>
      rw [loop] at h
      split at h
      · cases h
        exact hv
      · cases h
  | succ fuel ih =>
      rw [loop] at h
      split at h
      · cases h
        exact hv
      · rename_i hx
        exact ih (.step hv hx) h

namespace Store

/-- The block loop of `entryReclaim` after `k` iterations. -/
def reclaimBlocksTo (k : Nat) (ent : EntryPtr) (s : Store) : Store :=
  { s with blocks := fun i =>
      if i.val < k ∧ (s.blocks i).vaFileid = (s.entries ent).vaFileid then .cleared
      else s.blocks i }

/-- The stores the handler of a request goes through. -/
inductive Passes (j : Junk) (s : Store) (r : Request) : Store → Prop where
  | start : Passes j s r s
  | finish {g} (h : s.serve j r = some g) : Passes j s r g.store
  | init {vt req parent ent s₁} (hm : (Message.request r).creates = some (vt, req))
      (hp : s.findById req.parentFileid = some parent)
      (hi : s.entryInit vt j.rand = some (some ent, s₁)) : Passes j s r s₁
  | link {vt req parent ent s₁ n} (hm : (Message.request r).creates = some (vt, req))
      (hp : s.findById req.parentFileid = some parent)
      (hi : s.entryInit vt j.rand = some (some ent, s₁))
      (hn : s₁.scan (fun n => (s₁.next n).isNone) (s₁.entries parent).child = some (some n)) :
      Passes j s r (s₁.setNext n (some ent))
  | append {vt req parent ent s₁ s₂} (hm : (Message.request r).creates = some (vt, req))
      (hp : s.findById req.parentFileid = some parent)
      (hi : s.entryInit vt j.rand = some (some ent, s₁))
      (ha : s₁.entryAppend parent ent = some s₂) : Passes j s r s₂
  | release {p n k} (hm : s.resizes (.request r) = some (p, n))
      (hs : shrinks (s.entries p) n = true)
      (hk : k ≤ (s.entries p).file.numblocks.toNat - (newblocks n).toNat) :
      Passes j s r (shrinkLoop (s.entries p).vaFileid k (newblocks n).toNat s).2
  | take {p n k} (hm : s.resizes (.request r) = some (p, n))
      (hs : ¬ shrinks (s.entries p) n = true)
      (hk : k ≤ (newblocks n).toNat - (s.entries p).file.numblocks.toNat) :
      Passes j s r (growLoop (s.entries p).vaFileid k (s.entries p).file.numblocks.toNat s).2
  | reclaimEntries {p k} (hm : s.reclaims (.request r) = some p) :
      Passes j s r (((List.finRange entriesMax).take k).foldl (reclaimEntry p) s)
  | reclaimBlocks {p k} (hm : s.reclaims (.request r) = some p) :
      Passes j s r (reclaimBlocksTo k p ((List.finRange entriesMax).foldl (reclaimEntry p) s))
  | unlink {parent ent prev} (hm : s.removes (.request r) = some (parent, ent))
      (hs : s.scan (s.precedes ent) (s.entries parent).child = some prev) :
      Passes j s r (s.unlinkAfter ent prev)

end Store

inductive Gba.Passes (j : Junk) (g : Gba) : Message → Store → Prop where
  | request {r s'} (hphase : g.phase = .dispatch) (h : g.store.Passes j r s') :
      Passes j g (.request r) s'
  | chunk {b w c} (hphase : g.phase = .writing w)
      (h : Copying.Visits j b w.ent ⟨g.store, w.offset, w.resid, b.buflen, 0⟩ c) :
      Passes j g (.chunk b) c.store

namespace Store

/-- Neither the file, nor its type, nor any of its blocks differs. -/
structure Kept (s s' : Store) (p : EntryPtr) : Prop extends Untouched s s' p where
  type : (s'.entries p).vaType = (s.entries p).vaType

def Loose (id : Word) (b : GbaBlock) : Prop := b.vaFileid = id ∨ b.vaFileid = 0

/-- No entry differs, and no block that was or is someone else's. -/
structure Confined (id : Word) (s s' : Store) : Prop where
  entries : s'.entries = s.entries
  blocks : ∀ b, s'.blocks b = s.blocks b ∨ Loose id (s.blocks b) ∧ Loose id (s'.blocks b)

section Frames

variable {s s' t : Store} {p q : EntryPtr} {id : Word}

theorem Kept.refl (s : Store) (p : EntryPtr) : Kept s s p :=
  ⟨.of_sameFiles (SameFiles.refl s) p, rfl⟩

theorem Kept.trans (h : Kept s s' p) (h' : Kept s' t p) : Kept s t p :=
  ⟨h.toUntouched.trans h'.toUntouched, h'.type.trans h.type⟩

theorem kept_setEntry (s : Store) (q : EntryPtr) (e : Entry)
    (hid : e.vaFileid = (s.entries q).vaFileid) (hsize : e.vaSize = (s.entries q).vaSize)
    (hfile : e.file = (s.entries q).file) (htype : e.vaType = (s.entries q).vaType)
    (p : EntryPtr) : Kept s (s.setEntry q e) p :=
  ⟨.of_sameFiles (sameFiles_setEntry s q e hid hsize hfile) p,
    setEntry_field Entry.vaType s q e htype p⟩

theorem kept_setNext (s : Store) (q : EntryPtr) (n : Option EntryPtr) (p : EntryPtr) :
    Kept s (s.setNext q n) p :=
  kept_setEntry s q { s.entries q with next := n } rfl rfl rfl rfl p

theorem kept_setNlink (s : Store) (q : EntryPtr) (n : Word) (p : EntryPtr) :
    Kept s (s.setNlink q n) p :=
  kept_setEntry s q { s.entries q with vaNlink := n } rfl rfl rfl rfl p

theorem kept_setChild (s : Store) (q : EntryPtr) (c : Option EntryPtr) (p : EntryPtr) :
    Kept s (s.setChild q c) p :=
  kept_setEntry s q { s.entries q with child := c } rfl rfl rfl rfl p

theorem kept_setName (j : Junk) (s : Store) (q : EntryPtr) (name : Name) (p : EntryPtr) :
    Kept s (setName j s q name) p :=
  kept_setEntry s q { s.entries q with
    name := CString.snprintf j.expansion (CString.ofArray name) (s.entries q).name }
    rfl rfl rfl rfl p

theorem kept_unlinkAfter (s : Store) (ent : EntryPtr) (prev : Option EntryPtr) (p : EntryPtr) :
    Kept s (s.unlinkAfter ent prev) p := by
  cases prev with
  | none => exact .refl s p
  | some prev => exact kept_setNext s prev _ p

theorem kept_entryAppend {parent ent : EntryPtr} (h : s.entryAppend parent ent = some s')
    (p : EntryPtr) : Kept s s' p := by
  rcases entryAppend_some h with ⟨_, rfl⟩ | ⟨_, n, k, _, _, rfl⟩
  · exact kept_setChild s parent _ p
  · exact (kept_setNext s n _ p).trans (kept_setNlink _ ent k p)

theorem kept_entryRemove {parent ent : EntryPtr} (h : s.entryRemove parent ent = some s')
    (p : EntryPtr) : Kept s s' p := by
  obtain ⟨prev, k, _, rfl⟩ := entryRemove_some h
  exact (kept_unlinkAfter s ent prev p).trans (kept_setNlink _ ent k p)

theorem kept_entryInit {vt : Vtype} {rand : Word64} {ent : EntryPtr}
    (hi : s.entryInit vt rand = some (some ent, s')) (hp : s.live p) : Kept s s' p := by
  obtain ⟨hfree, _, rfl⟩ := entryInit_some hi
  have hne : p ≠ ent := by
    rintro rfl
    exact hp (findById_fileid hfree)
  have hsame : (s.initAt ent vt rand).entries p = s.entries p := by
    rw [initAt_entries, if_neg hne]
  exact ⟨untouched_of_entries hsame fun _ _ => rfl, by rw [hsame]⟩

theorem kept_retire (h : p ≠ q) : Kept s (s.retire q) p :=
  ⟨untouched_of_entries (retire_entries_of_ne h) fun _ _ => rfl, by rw [retire_entries_of_ne h]⟩

theorem Confined.refl (id : Word) (s : Store) : Confined id s s := ⟨rfl, fun _ => Or.inl rfl⟩

theorem Confined.trans (h : Confined id s s') (h' : Confined id s' t) : Confined id s t where
  entries := h'.entries.trans h.entries
  blocks b := by
    rcases h.blocks b with hb | ⟨hb, hb'⟩
    · rw [← hb]
      exact h'.blocks b
    · rcases h'.blocks b with heq | ⟨_, ht⟩
      · exact Or.inr ⟨hb, heq ▸ hb'⟩
      · exact Or.inr ⟨hb, ht⟩

theorem confined_setBlock {b : BlockPtr} {v : GbaBlock} (hb : Loose id (s.blocks b))
    (hv : Loose id v) : Confined id s (s.setBlock b v) where
  entries := rfl
  blocks b' := by
    rw [setBlock_apply]
    split
    · rename_i h
      rw [h]
      exact Or.inr ⟨hb, hv⟩
    · exact Or.inl rfl

/-- Another file keeps its blocks, whatever is done to those of `id`. -/
theorem Confined.kept (h : Confined id s s') (hp : s.live p) (hne : s.fileid p ≠ id) :
    Kept s s' p := by
  have hother : ∀ b : GbaBlock, b.vaFileid = s.fileid p → ¬ Loose id b := by
    rintro b hb (hid | hzero)
    · exact hne (hb.symm.trans hid)
    · exact hp (hb.symm.trans hzero)
  refine ⟨untouched_of_entries (by rw [h.entries]) ?_, by rw [h.entries]⟩
  intro b hb
  rcases h.blocks b with heq | ⟨hold, hnew⟩
  · exact heq
  · rcases hb with hb | hb
    · exact absurd hold (hother _ hb)
    · exact absurd hnew (hother _ hb)

theorem confined_shrinkLoop (id : Word) (left i : Nat) (s : Store) :
    Confined id s (shrinkLoop id left i s).2 := by
  induction left generalizing i s with
  | zero => exact .refl id s
  | succ left ih =>
      cases hb : s.blockFetch id (BitVec.ofNat 32 i) with
      | none =>
          rw [shrinkLoop_none hb]
          exact .refl id s
      | some b =>
          rw [shrinkLoop_some hb]
          exact (confined_setBlock (Or.inl (blockFetch_holds hb).1) (Or.inr rfl)).trans (ih _ _)

theorem confined_growLoop (id : Word) (left i : Nat) (s : Store) :
    Confined id s (growLoop id left i s).2 := by
  induction left generalizing i s with
  | zero => exact .refl id s
  | succ left ih =>
      cases hb : s.blockFree with
      | none =>
          rw [growLoop_none hb]
          exact .refl id s
      | some b =>
          rw [growLoop_some hb]
          exact Confined.trans (confined_setBlock (Or.inr (blockFree_fileid hb)) (Or.inl rfl))
            (ih _ _)

theorem confined_reclaimBlocksTo (k : Nat) (hp : ¬ s.live p) :
    Confined 0 s (reclaimBlocksTo k p s) where
  entries := rfl
  blocks b := by
    have hid : (s.entries p).vaFileid = 0 := not_not.mp hp
    simp only [reclaimBlocksTo, hid]
    split
    · rename_i h
      exact Or.inr ⟨Or.inl h.2, Or.inl rfl⟩
    · exact Or.inl rfl

theorem reclaimBlocksTo_all (p : EntryPtr) (s : Store) :
    reclaimBlocksTo blockMax p s = reclaimBlocks p s := by
  simp only [reclaimBlocksTo, reclaimBlocks, Fin.is_lt, true_and]

end Frames

section Requests

variable {s s' : Store} {p q : EntryPtr} {m : Message} {j : Junk} {r : Request}

theorem Change.type (hw : s.WellFormed) (h : s.Change m s') (hp : s.live p) :
    (s'.entries p).vaType = (s.entries p).vaType := by
  cases h with
  | keep => rfl
  | create _ _ hi ha =>
      exact (((kept_entryInit hi hp).trans (kept_entryAppend ha p)).trans
        (kept_setName _ _ _ _ p)).type
  | remove _ hr => exact (kept_entryRemove hr p).type
  | @reclaim q _ =>
      rw [(entryReclaim_sameOwned hw q).entries]
      exact setEntry_field Entry.vaType s q { s.entries q with vaFileid := 0 } rfl p
  | @resize q n _ => exact (sameTree_entrySetsize s q n).type p
  | copy _ hs => rw [hs.entries]

theorem foldl_reclaimEntry_before (hu : ∀ i, i ≠ q → s.fileid i ≠ s.fileid q) (l : List EntryPtr)
    (hq : q ∉ l) : l.foldl (reclaimEntry q) s = s := by
  induction l with
  | nil => rfl
  | cons i l ih =>
      have hi : i ≠ q := fun h => hq (h ▸ List.mem_cons_self)
      rw [List.foldl_cons, show reclaimEntry q s i = s from if_neg (hu i hi)]
      exact ih fun h => hq (List.mem_cons_of_mem i h)

theorem kept_reclaimEntries (hw : s.WellFormed) (hpq : p ≠ q) (l : List EntryPtr) :
    Kept s (l.foldl (reclaimEntry q) s) p := by
  by_cases hq : s.live q
  · have hu : ∀ i, i ≠ q → s.fileid i ≠ s.fileid q := fun i hi heq => hi (hw.unique q i hq heq)
    by_cases hl : q ∈ l
    · rw [foldl_reclaimEntry hu l hl]
      exact kept_retire hpq
    · rw [foldl_reclaimEntry_before hu l hl]
      exact .refl s p
  · rw [foldl_reclaimEntry_free hq]
    exact .refl s p

theorem not_live_reclaimEntries (hw : s.WellFormed) (q : EntryPtr) :
    ¬ ((List.finRange entriesMax).foldl (reclaimEntry q) s).live q := by
  have hid := entryReclaim_fileid hw q q
  have hkeep : ∀ t : Store, (reclaimBlocks q t).fileid q = t.fileid q := fun _ => rfl
  rw [if_pos rfl, entryReclaim, hkeep] at hid
  exact not_not.mpr hid

theorem resizes_target {n : Word} (h : s.resizes (.request r) = some (q, n)) :
    Gba.target ⟨s, .dispatch⟩ (.request r) = some q := by
  cases r with
  | setsize req =>
      obtain ⟨p, hp, heq⟩ := Option.map_eq_some_iff.mp h
      cases heq
      exact hp
  | write req =>
      simp only [resizes] at h
      split at h
      · cases h
      · rename_i p hp
        split at h
        · cases h
          exact hp
        · cases h
  | _ => cases h

theorem reclaims_target (h : s.reclaims (.request r) = some q) :
    Gba.target ⟨s, .dispatch⟩ (.request r) = some q := by
  cases r with
  | reclaim req => exact h
  | _ => cases h

theorem Passes.kept (hw : s.WellFormed) (h : s.Passes j r s') (hp : s.live p)
    (ht : Gba.target ⟨s, .dispatch⟩ (.request r) ≠ some p) : Kept s s' p := by
  have hother : ∀ q, Gba.target ⟨s, .dispatch⟩ (.request r) = some q → p ≠ q := by
    rintro q hq rfl
    exact ht hq
  cases h with
  | start => exact .refl s p
  | finish h =>
      have hreceive : Gba.receive j ⟨s, .dispatch⟩ (.request r) = some _ := h
      exact ⟨Gba.untouched (g := ⟨s, .dispatch⟩) hw hp hreceive ht,
        (Gba.receive_change hreceive).type hw hp⟩
  | init _ _ hi => exact kept_entryInit hi hp
  | link _ _ hi _ => exact (kept_entryInit hi hp).trans (kept_setNext _ _ _ p)
  | append _ _ hi ha => exact (kept_entryInit hi hp).trans (kept_entryAppend ha p)
  | @release q n k hm _ _ =>
      refine (confined_shrinkLoop _ _ _ s).kept hp fun heq => ?_
      exact hother q (resizes_target hm) (hw.unique p q hp heq.symm).symm
  | @take q n k hm _ _ =>
      refine (confined_growLoop _ _ _ s).kept hp fun heq => ?_
      exact hother q (resizes_target hm) (hw.unique p q hp heq.symm).symm
  | @reclaimEntries q k hm => exact kept_reclaimEntries hw (hother q (reclaims_target hm)) _
  | @reclaimBlocks q k hm =>
      have hkept := kept_reclaimEntries hw (hother q (reclaims_target hm))
        (List.finRange entriesMax)
      have hid := hkept.fileid
      refine hkept.trans ((confined_reclaimBlocksTo k (not_live_reclaimEntries hw q)).kept ?_ ?_)
      · change Store.fileid _ p ≠ 0
        rw [hid]
        exact hp
      · rw [hid]
        exact hp
  | unlink _ _ => exact kept_unlinkAfter s _ _ p

end Requests

end Store

end WiiJoybus
