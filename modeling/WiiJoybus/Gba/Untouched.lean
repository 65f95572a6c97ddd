import WiiJoybus.Gba.Copy

/-!
What a message leaves alone.

A message acts on the data of at most one file. Every other live file keeps its
entry and its blocks, even when the message fails halfway.
-/

namespace WiiJoybus

/-- The entry a message acts on, if it acts on a file's data at all. -/
def Gba.target (g : Gba) : Message → Option EntryPtr
  | .request (.setsize req) => g.store.findById req.vaFileid
  | .request (.write req) => g.store.findById req.fileid
  | .request (.reclaim req) => g.store.findById req.vaFileid
  | .request _ => none
  | .chunk _ =>
      match g.phase with
      | .dispatch => none
      | .writing w => some w.ent

section Others

variable {g g' : Gba} {j : Junk} {m : Message} {p q : EntryPtr}

/-- What precedes the data of a write. -/
def Store.prepare (s : Store) (p : EntryPtr) (req : WriteReq) : Word × Store :=
  if req.offset + req.resid > (s.entries p).vaSize then
    s.entrySetsize p ((req.offset + req.resid).setWidth 32)
  else (0, s)

theorem Store.handleWriteRequest_some {s : Store} {req : WriteReq}
    (h : s.findById req.fileid = some p) :
    s.handleWriteRequest j req = (⟨1, (s.prepare p req).1⟩, (s.prepare p req).2,
      if (s.prepare p req).1 ≠ 0 then .dispatch
      else Writing.next ⟨p, req.offset, req.resid, j.uninit⟩) := by
  simp only [handleWriteRequest, h]
  rfl

theorem Writing.next_eq_writing {v w : Writing} (h : v.next = .writing w) :
    v = w ∧ 0 < w.resid.toNat := by
  rw [Writing.next] at h
  split at h
  · cases h
  · rename_i hne
    cases h
    refine ⟨rfl, Nat.pos_of_ne_zero fun hz => hne ?_⟩
    exact BitVec.eq_of_toNat_eq (by simpa using hz)

/-- After a message the GBA waits for a chunk only of the file it acted on. -/
theorem Gba.receive_phase (h : g.receive j m = some g') {w : Writing}
    (hw : g'.phase = .writing w) : g.target m = some w.ent ∧ 0 < w.resid.toNat := by
  cases m with
  | chunk b =>
      simp only [Gba.receive] at h
      split at h
      · cases h
      · rename_i v hv
        obtain ⟨r, hr, rfl⟩ := Option.map_eq_some_iff.mp h
        simp only [Store.handleWriteBuf, Option.map_eq_some_iff] at hr
        obtain ⟨c, _, rfl⟩ := hr
        obtain ⟨rfl, hpos⟩ := Writing.next_eq_writing hw
        exact ⟨by simp only [Gba.target, hv], hpos⟩
  | request r =>
      simp only [Gba.receive] at h
      split at h
      · cases r with
        | write req =>
            cases h
            cases he : g.store.findById req.fileid with
            | none => simp [Store.handleWriteRequest, he] at hw
            | some e =>
                rw [Store.handleWriteRequest_some he] at hw
                simp only at hw
                split at hw
                · cases hw
                · obtain ⟨rfl, hpos⟩ := Writing.next_eq_writing hw
                  exact ⟨he, hpos⟩
        | statvfs | readdir _ | getattr _ | read _ | reclaim _ | setsize _ =>
            cases h
            cases hw
        | lookup _ | create _ | mkdir _ | rm _ =>
            obtain ⟨_, _, rfl⟩ := Option.map_eq_some_iff.mp h
            cases hw
      · cases h

namespace Store

theorem Untouched.of_sameFiles {s s' : Store} (h : SameFiles s s') (p : EntryPtr) :
    Untouched s s' p where
  fileid := h.fileid p
  size := by rw [Store.size, Store.size, h.size]
  file := h.file p
  blocks b _ := by rw [h.blocks]

theorem Untouched.trans {s s' s'' : Store} (h : Untouched s s' p) (h' : Untouched s' s'' p) :
    Untouched s s'' p where
  fileid := h'.fileid.trans h.fileid
  size := h'.size.trans h.size
  file := h'.file.trans h.file
  blocks b hb := by
    have hid := h.fileid
    rcases hb with hb | hb
    · have h₁ := h.blocks b (Or.inl hb)
      rw [← h₁]
      exact h'.blocks b (Or.inl (by rw [h₁, hid, hb]))
    · have h₂ := h'.blocks b (Or.inr (by rw [hid, hb]))
      rw [h₂] at hb ⊢
      exact h.blocks b (Or.inr hb)

theorem untouched_of_entries {s s' : Store} (hentry : s'.entries p = s.entries p)
    (hblocks : ∀ b, (s.blocks b).vaFileid = s.fileid p ∨ (s'.blocks b).vaFileid = s.fileid p →
      s'.blocks b = s.blocks b) : Untouched s s' p where
  fileid := by rw [fileid, fileid, hentry]
  size := by rw [Store.size, Store.size, hentry]
  file := by rw [hentry]
  blocks := hblocks

theorem untouched_entryReclaim {s : Store} (hw : s.WellFormed) (hp : s.live p) (hne : p ≠ q) :
    Untouched s (s.entryReclaim q) p := by
  have hown := entryReclaim_sameOwned hw q
  have hid : s.fileid p ≠ 0 := hp
  apply untouched_of_entries
  · rw [hown.entries, retire_entries_of_ne hne]
  · rintro b (hb | hb)
    · exact hown.owned b (hb ▸ hid)
    · exact hown.owned b fun h0 => hid (by rw [← hb, hown.free b h0])

theorem untouched_entrySetsize {s : Store} (hw : s.WellFormed) (hp : s.live p) (hne : p ≠ q)
    (n : Word) : Untouched s (s.entrySetsize q n).2 p := by
  have hid : s.fileid p ≠ 0 := hp
  apply untouched_of_entries (entrySetsize_entries_of_ne s n hne)
  by_cases hq : s.live q
  · have hr := entrySetsize_resized hw hq n
    have hother : s.fileid p ≠ s.fileid q := fun heq => hne (hw.unique q p hq heq)
    rintro b (hb | hb)
    · exact hr.blocks_of_ne hw hp hne hb
    · exact hr.blocks_eq (hb ▸ hid) (hb ▸ hother)
  · intro b hb
    obtain ⟨hown, hfree⟩ := entrySetsize_zero hq n b
    refine hown fun h0 => ?_
    rcases hb with hb | hb
    · exact hid (by rw [← hb, h0])
    · exact hid (by rw [← hb, hfree h0])

end Store

open Store

/-- A message that acts on another file, or on none, leaves the file alone. -/
theorem Gba.untouched (hw : g.store.WellFormed) (hp : g.store.live p)
    (h : g.receive j m = some g') (ht : g.target m ≠ some p) : Untouched g.store g'.store p := by
  have hc := Gba.receive_change h
  generalize hs' : g'.store = s' at hc ⊢
  cases hc with
  | keep _ _ _ => exact .of_sameFiles (SameFiles.refl _) p
  | @create vt req parent j' ent s₁ s₂ hm _ hi ha =>
      obtain ⟨hfree, _, rfl⟩ := entryInit_some hi
      have hne : p ≠ ent := by
        rintro rfl
        exact hp (findById_fileid hfree)
      have hinit : Untouched g.store (g.store.initAt ent vt j'.rand) p := by
        apply untouched_of_entries
        · rw [initAt_entries, if_neg hne]
        · exact fun _ _ => rfl
      exact hinit.trans (.of_sameFiles ((sameFiles_entryAppend ha).trans
        (sameFiles_setName j' s₂ ent req.name)) p)
  | remove _ hr => exact .of_sameFiles (sameFiles_entryRemove hr) p
  | @reclaim q hm =>
      have hne : p ≠ q := by
        rintro rfl
        cases m with
        | chunk b => cases hm
        | request r => cases r <;> first | exact ht hm | cases hm
      exact untouched_entryReclaim hw hp hne
  | @resize q n hm =>
      have hne : p ≠ q := by
        rintro rfl
        cases m with
        | chunk b => cases hm
        | request r =>
            cases r with
            | setsize req =>
                obtain ⟨q, hq, heq⟩ := Option.map_eq_some_iff.mp hm
                cases heq
                exact ht hq
            | write req =>
                simp only [resizes] at hm
                split at hm
                · cases hm
                · rename_i e he
                  split at hm
                  · cases hm
                    exact ht he
                  · cases hm
            | _ => cases hm
      exact untouched_entrySetsize hw hp hne n
  | copy hm hshape =>
      subst hm
      simp only [Gba.receive] at h
      split at h
      · cases h
      · rename_i w hphase
        obtain ⟨r, hr, rfl⟩ := Option.map_eq_some_iff.mp h
        simp only [handleWriteBuf, Option.map_eq_some_iff] at hr
        obtain ⟨c, hc, rfl⟩ := hr
        subst hs'
        have hne : p ≠ w.ent := by
          rintro rfl
          exact ht (by simp only [Gba.target, hphase])
        have hother : g.store.fileid p ≠ g.store.fileid w.ent := fun heq =>
          hne (hw.unique p w.ent hp heq.symm).symm
        apply untouched_of_entries (by rw [hshape.entries])
        intro b hb
        have hown : (g.store.blocks b).vaFileid = g.store.fileid p := by
          rcases hb with hb | hb
          · exact hb
          · rwa [hshape.fileid] at hb
        exact Copying.loop_others hc (hown ▸ hother)

end Others

end WiiJoybus
