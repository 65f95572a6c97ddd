import WiiJoybus.Gba.Sizes
import WiiJoybus.Link.Calls

/-!
Whether a size that was acknowledged is the size of the file.

SETSIZE has no error for a live file, so it tells the truth when there is room for
the size; SETATTR believes it. WRITE has the error of the resize, but the resize is
given the low half of the end only.
-/

namespace WiiJoybus
open Dialogue Dialogue.Network

namespace Store

/-- SETSIZE is answered without error only when the file has the size; a size there is no
room for has an error, which SETATTR returns. -/
structure SetsizeTrue (s : Store) (p : EntryPtr) (vaSize : Word64) : Prop where
  told (j : Junk) : s.Told p vaSize.toNat
    (s.handleSetsizeRequest j ⟨s.fileid p, vaSize⟩).1.err
    (s.handleSetsizeRequest j ⟨s.fileid p, vaSize⟩).2
  returned (e : Puffs) (junk : Nat → Junk) (runs : Nat) (ctx ctx' : Context) (errno : Word)
    (h : GbaHead) (hroom : ¬ s.Room p vaSize.toNat) (hsize : vaSize ≠ puffsVnoval)
    (htype : (ctx.cmap e (s.fileid p)).1.vaType = vreg)
    (hx : (link e junk).Exchanges (nodeSetattr e ctx (s.fileid p) vaSize)
      ⟨⟨s, .dispatch⟩, runs⟩ (.setattr errno ctx') h) : errno ≠ 0

/-- The first reply of WRITE has no error only when the file ends with the bytes to come, or
where it ended before. -/
def WriteTrue (s : Store) (p : EntryPtr) (offset resid : Word64) : Prop :=
  ∀ (j : Junk) (ioAppend : Word),
    s.Told p (max (s.size p) (offset.toNat + resid.toNat))
      (s.handleWriteRequest j ⟨s.fileid p, ioAppend, offset, resid⟩).1.err
      (s.handleWriteRequest j ⟨s.fileid p, ioAppend, offset, resid⟩).2.1

/-- The end of a write is a 32-bit number, or the number its low half makes is refused. -/
def EndRefused (s : Store) (p : EntryPtr) (offset resid : Word64) : Prop :=
  offset.toNat + resid.toNat < 2 ^ 32 ∨
    s.size p < (offset.toNat + resid.toNat) % 2 ^ 64 ∧
      ¬ s.Room p ((offset.toNat + resid.toNat) % 2 ^ 32)

section Truth

variable {s : Store} {p : EntryPtr}

theorem setsizeTrue_iff (hw : s.WellFormed) (hp : s.live p) (vaSize : Word64) :
    s.SetsizeTrue p vaSize ↔ s.Room p vaSize.toNat := by
  constructor
  · intro h
    exact (setsize_told_iff hw hp .zero ⟨s.fileid p, vaSize⟩ rfl).mp (h.told .zero)
  · intro hroom
    constructor
    · intro j
      exact (setsize_told_iff hw hp j ⟨s.fileid p, vaSize⟩ rfl).mpr hroom
    · intro _ _ _ _ _ _ _ hno
      exact absurd hroom hno

theorem writeTrue_iff (hw : s.WellFormed) (hp : s.live p) (offset resid : Word64) :
    s.WriteTrue p offset resid ↔ s.EndRefused p offset resid := by
  constructor
  · intro h
    exact (write_told_iff hw hp .zero ⟨s.fileid p, 0, offset, resid⟩ rfl).mp (h .zero 0)
  · intro hend j ioAppend
    exact (write_told_iff hw hp j ⟨s.fileid p, ioAppend, offset, resid⟩ rfl).mpr hend

end Truth

end Store

/-- SETATTR succeeds whatever the size: its reply never has an error. -/
theorem setattr_succeeds {s : Store} {p : EntryPtr} (hw : s.WellFormed) (hp : s.live p)
    (e : Puffs) (junk : Nat → Junk) (runs : Nat) {ctx : Context} {vaSize : Word64}
    (hsize : vaSize ≠ puffsVnoval) (htype : (ctx.cmap e (s.fileid p)).1.vaType = vreg) :
    ∃ ctx' h, (link e junk).Exchanges (nodeSetattr e ctx (s.fileid p) vaSize)
      ⟨⟨s, .dispatch⟩, runs⟩ (.setattr 0 ctx') h := by
  have herr : (s.handleSetsizeRequest (junk runs) ⟨s.fileid p, vaSize⟩).1.err = 0 := by
    simp only [Store.handleSetsizeRequest, hw.findById hp]
  obtain ⟨n, hx⟩ := (calls_setattr e junk s runs ctx (s.fileid p) hsize htype).exchanges
  rw [setattrReply, herr, if_neg (by decide)] at hx
  exact ⟨_, _, hx⟩

/-- Both replies tell the truth exactly under these conditions. -/
theorem sizes_true_iff {s : Store} (h : s.Reachable) {p : EntryPtr} (hp : s.live p)
    (vaSize offset resid : Word64) :
    (s.SetsizeTrue p vaSize ↔ s.Room p vaSize.toNat) ∧
      (s.WriteTrue p offset resid ↔ s.EndRefused p offset resid) :=
  ⟨Store.setsizeTrue_iff h.wellFormed hp vaSize, Store.writeTrue_iff h.wellFormed hp offset resid⟩

/-- The test file resized to 200 bytes, then to nothing, or with 100 bytes at its end. -/
theorem sizes_true_iff_test :
    ∃ g : Gba, bootRun [.request (.setsize ⟨2, 200⟩)] = some g ∧
      g.store.SetsizeTrue testSlot 0 ∧ g.store.WriteTrue testSlot 200 100 := by
  obtain ⟨g, hg, hfacts⟩ := Option.map_eq_some_iff.mp
    (show (bootRun [.request (.setsize ⟨2, 200⟩)]).map
      (fun g => decide (g.store.live testSlot)) = some true by decide +kernel)
  obtain ⟨hsize, hwrite⟩ :=
    sizes_true_iff ⟨g.phase, bootRun_reachable hg⟩ (of_decide_eq_true hfacts) 0 200 100
  exact ⟨g, hg, hsize.mpr (Or.inl rfl), hwrite.mpr (Or.inl (by decide))⟩

def testContext : Context := [⟨2, { Puffs.zero.pnNew with vaType := vreg }, false⟩]

/-- Four gigabytes are acknowledged for a file of 200 bytes, and SETATTR succeeds; a byte
written behind them cuts the file down to one. -/
theorem sizes_true_counterexample :
    ∃ g : Gba, bootRun [.request (.setsize ⟨2, 200⟩)] = some g ∧ g.Reachable ∧
      g.store.live testSlot ∧ (g.store.entries testSlot).vaType = Vtype.reg.code ∧
      ¬ g.store.SetsizeTrue testSlot (2 ^ 32) ∧ ¬ g.store.WriteTrue testSlot (2 ^ 32) 1 ∧
      (∃ ctx h, (link .zero fun _ => .zero).Exchanges (nodeSetattr .zero testContext 2 (2 ^ 32))
        ⟨⟨g.store, .dispatch⟩, 1⟩ (.setattr 0 ctx) h) ∧
      (g.store.handleWriteRequest .zero ⟨2, 0, 2 ^ 32, 1⟩).1.err = 0 ∧
      (g.store.handleWriteRequest .zero ⟨2, 0, 2 ^ 32, 1⟩).2.1.size testSlot = 1 := by
  obtain ⟨g, hg, hfacts⟩ := Option.map_eq_some_iff.mp
    (show (bootRun [.request (.setsize ⟨2, 200⟩)]).map (fun g =>
      decide (g.store.live testSlot ∧ (g.store.entries testSlot).vaType = Vtype.reg.code ∧
        g.store.fileid testSlot = 2 ∧ g.store.numblocks testSlot = 2 ∧
        g.store.size testSlot = 200 ∧
        (g.store.handleWriteRequest .zero ⟨2, 0, 2 ^ 32, 1⟩).1.err = 0 ∧
        (g.store.handleWriteRequest .zero ⟨2, 0, 2 ^ 32, 1⟩).2.1.size testSlot = 1)) =
      some true by decide +kernel)
  obtain ⟨hlive, htype, hid, hnum, hsize, herr, hcut⟩ := of_decide_eq_true hfacts
  have hr := bootRun_reachable hg
  have hw := Store.Reachable.wellFormed ⟨g.phase, hr⟩
  have hnode : (testContext.cmap .zero (g.store.fileid testSlot)).1.vaType = vreg := by
    rw [hid]
    rfl
  have hset := setattr_succeeds hw hlive .zero (fun _ => .zero) 1
    (show (2 ^ 32 : Word64) ≠ puffsVnoval by decide) hnode
  rw [hid] at hset
  refine ⟨g, hg, hr, hlive, htype, ?_, ?_, hset, herr, hcut⟩
  · rw [Store.setsizeTrue_iff hw hlive]
    intro hroom
    exact absurd (hroom.lt hw hlive) (by decide)
  · rw [Store.writeTrue_iff hw hlive, Store.EndRefused]
    rintro (hend | ⟨_, hroom⟩)
    · exact absurd hend (by decide)
    · refine hroom (Or.inr ?_)
      rw [hnum]
      exact Nat.le_trans (by decide) (Nat.le_add_right 2 g.store.freeCount)

end WiiJoybus
