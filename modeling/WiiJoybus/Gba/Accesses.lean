import WiiJoybus.Gba.Confined
import WiiJoybus.Gba.Sizes

/-!
The blocks that reads and writes look up.

Neither handler asks whether the lookup of a block has found one. It always does
where the position is within the file's extent; the corner cases are a file that
never had a size, and a sum that does not fit the narrow size parameter.
-/

namespace WiiJoybus
namespace Store

/-- The lookup of a READ returns a block of the file. -/
def ReadFinds (s : Store) (p : EntryPtr) (req : ReadReq) : Prop :=
  ∃ b, s.blockFetch (s.entries p).vaFileid ((blocknum req.offset pbaBlockshift).setWidth 32) =
    some b ∧ (s.blocks b).vaFileid = s.fileid p

/-- The states of the copying loops of a WRITE, for any chunks that follow the request. -/
inductive Copies (p : EntryPtr) (s : Store) (offset resid : Word64) : Copying → Prop where
  | chunk {j breq c} (hr : resid ≠ 0)
      (h : Copying.Visits j breq p ⟨s, offset, resid, breq.buflen, 0⟩ c) :
      Copies p s offset resid c
  | next {c j breq c'} (h : Copies p s offset resid c) (hx : c.x = 0) (hr : c.resid ≠ 0)
      (h' : Copying.Visits j breq p ⟨c.store, c.offset, c.resid, breq.buflen, 0⟩ c') :
      Copies p s offset resid c'

/-- Each iteration after an accepted WRITE returns a block of the file. -/
def WriteFinds (s : Store) (p : EntryPtr) (req : WriteReq) : Prop :=
  ∀ c, Copies p (s.prepare p req).2 req.offset req.resid c → c.x ≠ 0 →
    ∃ b, c.block p = some b ∧ (c.store.blocks b).vaFileid = c.store.fileid p

/-- From the first block, as its number is passed on, to the block the write ends in, all
are within the extent of the size that is stored, and there is such an extent. -/
def Inside (s : Store) (p : EntryPtr) (req : WriteReq) : Prop :=
  req.resid = 0 ∨
    (req.offset.toNat / 128 % 2 ^ 32 +
        ((req.offset.toNat + req.resid.toNat) / 128 - req.offset.toNat / 128) ≤
      s.endSize p req / 128 ∧
    ¬ (s.numblocks p = 0 ∧ s.endSize p req = 0))

/-- `t` bytes of a request have been copied, and nothing but data has changed. -/
structure At (s : Store) (offset resid : Word64) (t : Nat) (c : Copying) : Prop where
  shape : SameShape s c.store
  offset : c.offset = offset + BitVec.ofNat 64 t
  resid : c.resid.toNat + t = resid.toNat

section Lookups

variable {s s' : Store} {p : EntryPtr} {offset resid : Word64} {j : Junk} {breq : WriteBufReq}
  {c c' : Copying} {t : Nat}

/-- The lookup finds the blocks of the extent, and no others. -/
theorem fetch_iff_lt (hw : s.WellFormed) (hmap : s.BlockMap) (hp : s.live p) (idx : Word) :
    (∃ b, s.blockFetch (s.fileid p) idx = some b ∧ (s.blocks b).vaFileid = s.fileid p) ↔
      idx.toNat < s.numblocks p := by
  constructor
  · rintro ⟨b, hb, hid⟩
    rw [← (blockFetch_holds hb).2]
    exact hmap.tight p hp b hid
  · intro hlt
    have hne := (hw.files p hp).blockFetch_ne_none hlt
    rw [BitVec.ofNat_toNat, BitVec.setWidth_eq] at hne
    obtain ⟨b, hb⟩ := Option.ne_none_iff_exists'.mp hne
    exact ⟨b, hb, (blockFetch_holds hb).1⟩

theorem index_toNat (a : Word64) :
    ((blocknum a pbaBlockshift).setWidth 32 : Word).toNat = a.toNat / 128 % 2 ^ 32 := by
  rw [BitVec.toNat_setWidth, blocknum_toNat]

/-- The block number of a position, wherever the 64-bit position wraps. -/
theorem index_add (a : Word64) (t : Nat) :
    ((blocknum (a + BitVec.ofNat 64 t) pbaBlockshift).setWidth 32 : Word).toNat =
      (a.toNat + t) / 128 % 2 ^ 32 := by
  rw [index_toNat, BitVec.toNat_add, BitVec.toNat_ofNat]
  omega

theorem At.start (s : Store) (offset resid : Word64) (x : Word) (src : Nat) :
    At s offset resid 0 ⟨s, offset, resid, x, src⟩ :=
  ⟨.refl s, by simp, rfl⟩

theorem At.step (h : At s offset resid t c) :
    At s offset resid (t + c.copylen.toNat) (c.step j breq p) := by
  have hlen := c.copylen_toNat
  have hresid := h.resid
  have hwide := widen_toNat c.copylen
  have hcopied : c.copylen.setWidth 64 = BitVec.ofNat 64 c.copylen.toNat := by
    apply BitVec.eq_of_toNat_eq
    rw [hwide, BitVec.toNat_ofNat, Nat.mod_eq_of_lt (by omega)]
  refine ⟨h.shape.trans (sameShape_step j breq p c), ?_, ?_⟩
  · change c.offset + c.copylen.setWidth 64 = _
    rw [h.offset, hcopied, BitVec.ofNat_add, BitVec.add_assoc]
  · change (c.resid - c.copylen.setWidth 64).toNat + _ = _
    rw [BitVec.toNat_sub_of_le (by rw [BitVec.le_def, hwide]; omega), hwide]
    omega

theorem At.visits (h : At s offset resid t c) (hv : Copying.Visits j breq p c c') :
    ∃ t', At s offset resid t' c' := by
  induction hv with
  | start => exact ⟨t, h⟩
  | step _ _ ih =>
      obtain ⟨t', ht'⟩ := ih
      exact ⟨_, ht'.step⟩

theorem Copies.at (h : Copies p s offset resid c) : ∃ t, At s offset resid t c := by
  induction h with
  | chunk _ h => exact (At.start s offset resid _ _).visits h
  | @next c _ breq _ _ _ _ h' ih =>
      obtain ⟨t, ht⟩ := ih
      have hat : At s offset resid t ⟨c.store, c.offset, c.resid, breq.buflen, 0⟩ :=
        ⟨ht.shape, ht.offset, ht.resid⟩
      exact hat.visits h'

theorem Copies.resid_ne_zero (h : Copies p s offset resid c) : resid ≠ 0 := by
  induction h with
  | chunk hr _ => exact hr
  | next _ _ _ _ ih => exact ih

/-- Before `t` bytes of the request are copied the lookup is for block `(offset + t) / 128`. -/
theorem At.finds_iff (h : At s offset resid t c) (hw : s.WellFormed) (hmap : s.BlockMap)
    (hp : s.live p) :
    (∃ b, c.block p = some b ∧ (c.store.blocks b).vaFileid = c.store.fileid p) ↔
      (offset.toNat + t) / 128 % 2 ^ 32 < s.numblocks p := by
  have hentries : c.store.entries p = s.entries p := by rw [h.shape.entries]
  have hnum : c.store.numblocks p = s.numblocks p := by rw [numblocks, numblocks, hentries]
  have hlive : c.store.live p := by rw [live, hentries]; exact hp
  rw [← hnum, ← index_add, ← h.offset]
  exact fetch_iff_lt (hw.sameShape h.shape) (hmap.sameShape h.shape) hlive _

def longChunk : WriteBufReq := ⟨BitVec.allOnes 32, fun _ => 0⟩

theorem visits_block (s : Store) (p : EntryPtr) (offset resid : Word64) {k : Nat}
    (hk : offset.toNat / 128 + k ≤ (offset.toNat + resid.toNat) / 128) (hsmall : k ≤ 1024) :
    ∃ c t, Copying.Visits .zero longChunk p ⟨s, offset, resid, longChunk.buflen, 0⟩ c ∧
      At s offset resid t c ∧ c.x.toNat + t = 2 ^ 32 - 1 ∧
      t = (if k = 0 then 0 else 128 * k - offset.toNat % 128) := by
  induction k with
  | zero => exact ⟨_, 0, .start, .start s offset resid _ _, rfl, rfl⟩
  | succ k ih =>
      obtain ⟨c, t, hv, hat, hx, ht⟩ := ih (by omega) (by omega)
      have hresid := hat.resid
      have hlen := c.copylen_toNat
      have hoff := congrArg BitVec.toNat hat.offset
      rw [BitVec.toNat_add, BitVec.toNat_ofNat] at hoff
      have ht' : t ≤ 128 * 1024 := by
        split at ht <;> omega
      -- the copy goes to the end of the block
      have hblock : c.copylen.toNat = 128 - c.offset.toNat % 128 := by
        split at ht <;> omega
      have hnot : ¬ c.x = 0 := by
        rw [Copying.x_eq_zero]
        omega
      refine ⟨_, _, .step hv hnot, hat.step, ?_, ?_⟩
      · change (c.x - c.copylen).toNat + _ = _
        rw [BitVec.toNat_sub_of_le (by rw [BitVec.le_def]; omega)]
        omega
      · rw [if_neg (Nat.succ_ne_zero k)]
        split at ht <;> omega

end Lookups

section Requests

variable {s : Store} {p : EntryPtr} {given : Word → Prop}

theorem readFinds_iff (hw : s.WellFormed) (hmap : s.BlockMap) (hp : s.live p) (j : Junk)
    (req : ReadReq) (hid : req.fileid = s.fileid p) (hok : (s.handleReadRequest j req).err = 0) :
    s.ReadFinds p req ↔ s.numblocks p ≠ 0 := by
  have hf := hw.files p hp
  have hlen : req.offset.toNat ≤ s.datalen p := by
    simp only [handleReadRequest, hid, hw.findById hp] at hok
    split at hok
    · exact absurd (show (2 : Word) = 0 from hok) (by decide)
    · rename_i hle
      have hlt := s.datalen_lt p
      rw [gt_iff_lt, BitVec.lt_def, BitVec.toNat_setWidth] at hle
      rw [datalen] at hlt ⊢
      omega
  have hdata := s.datalen_lt p
  refine (fetch_iff_lt hw hmap hp _).trans ?_
  rw [index_toNat]
  rcases hf.extent with ⟨hnum, _⟩ | hext <;> omega

theorem prepare_spec (h : s.SizedInv given) (hp : s.live p) (req : WriteReq)
    (hok : (s.prepare p req).1 = 0) :
    (s.prepare p req).2.WellFormed ∧ (s.prepare p req).2.BlockMap ∧ (s.prepare p req).2.live p ∧
      (s.prepare p req).2.numblocks p =
        if s.numblocks p = 0 ∧ s.endSize p req = 0 then 0 else s.endSize p req / 128 + 1 := by
  have hw := h.wellFormed
  have hsize := prepare_size hw hp req hok
  have hend : ∀ t : Store, t.FileOk p → t.size p = s.endSize p req →
      (t.numblocks p ≠ 0 ↔ s.numblocks p ≠ 0 ∨ s.endSize p req ≠ 0) →
      t.numblocks p =
        if s.numblocks p = 0 ∧ s.endSize p req = 0 then 0 else s.endSize p req / 128 + 1 := by
    intro t hf ht hiff
    have hdata := hf.size_eq
    split
    · rename_i hnone
      exact not_not.mp fun hne => (hiff.mp hne).elim (· hnone.1) (· hnone.2)
    · rename_i hsome
      have hne : t.numblocks p ≠ 0 := hiff.mpr (by omega)
      rcases hf.extent with ⟨hzero, _⟩ | hext <;> omega
  by_cases hgrow : s.size p < (req.offset.toNat + req.resid.toNat) % 2 ^ 64
  · rw [prepare_of_lt req hgrow] at hok hsize ⊢
    have hr := entrySetsize_resized hw hp ((req.offset + req.resid).setWidth 32)
    have hlive := live_entrySetsize (q := p) hp ((req.offset + req.resid).setWidth 32)
    have hw' := hw.entrySetsize p ((req.offset + req.resid).setWidth 32)
    refine ⟨hw', h.map.resized hw hp hr hok, hlive, hend _ (hw'.files p hlive) hsize ?_⟩
    rw [numblocks_resized (hw.files p hp) hr hok, endSize, if_pos hgrow, ← sum_setWidth_toNat,
      ne_eq, ne_eq, ← BitVec.toNat_inj]
    rfl
  · rw [prepare_of_le req (Nat.le_of_not_lt hgrow)] at hsize ⊢
    have hf := hw.files p hp
    have hdata := hf.size_eq
    have hsame : s.endSize p req = s.size p := if_neg hgrow
    refine ⟨hw, h.map, hp, hend s hf hsize ?_⟩
    rcases hf.extent with ⟨_, _⟩ | hext <;> omega

theorem writeFinds_iff (h : s.SizedInv given) (hp : s.live p) (req : WriteReq)
    (hok : (s.prepare p req).1 = 0) : s.WriteFinds p req ↔ s.Inside p req := by
  obtain ⟨hw, hmap, hlive, hnum⟩ := prepare_spec h hp req hok
  have hbound := numblocks_add_freeCount_le hw hlive
  have hmax : blockMax = 1024 := rfl
  constructor
  · intro hfinds
    by_cases hzero : req.resid = 0
    · exact Or.inl hzero
    have hvisited : ∀ k, req.offset.toNat / 128 + k ≤
        (req.offset.toNat + req.resid.toNat) / 128 → k ≤ 1024 →
        (req.offset.toNat / 128 + k) % 2 ^ 32 < (s.prepare p req).2.numblocks p := by
      intro k hk hsmall
      obtain ⟨c, t, hv, hat, hx, ht⟩ :=
        visits_block (s.prepare p req).2 p req.offset req.resid hk hsmall
      have hlt := (hat.finds_iff hw hmap hlive).mp (hfinds c (.chunk hzero hv) (by
        rw [ne_eq, Copying.x_eq_zero]
        split at ht <;> omega))
      split at ht <;> omega
    have hfirst := hvisited 0 (by omega) (by omega)
    refine Or.inr ?_
    split at hnum
    · omega
    · refine ⟨?_, by assumption⟩
      by_contra hover
      -- the first block beyond the extent
      have := hvisited (s.endSize p req / 128 + 1 - req.offset.toNat / 128 % 2 ^ 32)
        (by omega) (by omega)
      omega
  · rintro hinside c hc hx
    rcases hinside with hzero | ⟨hle, hsome⟩
    · exact absurd hzero hc.resid_ne_zero
    · obtain ⟨t, hat⟩ := hc.at
      have hresid := hat.resid
      rw [hat.finds_iff hw hmap hlive, hnum, if_neg hsome]
      omega

end Requests

end Store

/-- In a run without failed resizes, an accepted READ finds a block exactly when the file has
one, and an accepted WRITE finds all of its blocks exactly when they are inside the extent. -/
theorem accesses_iff {g : Gba} {given : Word → Prop} (h : g.Sized given) {p : EntryPtr}
    (hp : g.store.live p) (j : Junk) :
    (∀ req : ReadReq, req.fileid = g.store.fileid p →
      (g.store.handleReadRequest j req).err = 0 →
        (g.store.ReadFinds p req ↔ g.store.numblocks p ≠ 0)) ∧
    ∀ req : WriteReq, req.fileid = g.store.fileid p →
      (g.store.handleWriteRequest j req).1.err = 0 →
        (g.store.WriteFinds p req ↔ g.store.Inside p req) := by
  have hinv := h.inv
  have hw := hinv.wellFormed
  refine ⟨fun req => Store.readFinds_iff hw hinv.map hp j req, fun req hid hok => ?_⟩
  have hfind : g.store.findById req.fileid = some p := hid ▸ hw.findById hp
  rw [Store.handleWriteRequest_some hfind] at hok
  exact Store.writeFinds_iff hinv hp req hok

/-- The test file resized to 300 bytes, its last block read and 200 bytes written from the
middle of a block. -/
theorem accesses_iff_grown :
    ∃ g : Gba, bootRun [.request (.setsize ⟨2, 300⟩)] = some g ∧
      g.store.ReadFinds testSlot ⟨2, 128, 256⟩ ∧ g.store.WriteFinds testSlot ⟨2, 0, 250, 200⟩ := by
  obtain ⟨g, hg, hfacts⟩ := Option.map_eq_some_iff.mp
    (show (bootRun [.request (.setsize ⟨2, 300⟩)]).map (fun g =>
      decide (g.store.live testSlot ∧ g.store.fileid testSlot = 2 ∧
        (g.store.handleReadRequest .zero ⟨2, 128, 256⟩).err = 0 ∧
        (g.store.handleWriteRequest .zero ⟨2, 0, 250, 200⟩).1.err = 0 ∧
        g.store.numblocks testSlot = 3 ∧ g.store.size testSlot = 300)) = some true by
          decide +kernel)
  obtain ⟨hlive, hid, hread, hwrite, hnum, hsize⟩ := of_decide_eq_true hfacts
  obtain ⟨g₀, hg₀, hm⟩ := bootRun_cons hg
  obtain ⟨s, hs, rfl⟩ := bootRun_nil hg₀
  have hok : (Store.boot 0 0).map (fun s => (s.resizes (.request (.setsize ⟨2, 300⟩))).map
      fun c => (s.entrySetsize c.1 c.2).1) = some (some 0) := by decide +kernel
  rw [hs, Option.map_some, Option.some.injEq] at hok
  have hrun := Gba.Sized.step (.boot hs) hm (by
    intro p n hpn
    rw [hpn, Option.map_some, Option.some.injEq] at hok
    exact hok)
  obtain ⟨hreads, hwrites⟩ := accesses_iff hrun hlive .zero
  refine ⟨g, hg, (hreads ⟨2, 128, 256⟩ hid.symm hread).mpr (by omega),
    (hwrites ⟨2, 0, 250, 200⟩ hid.symm hwrite).mpr (Or.inr ?_)⟩
  rw [Store.endSize, hsize, hnum]
  decide

/-- A file that never had a size is read through a null pointer. -/
theorem accesses_counterexample :
    ∃ g : Gba, bootRun [] = some g ∧ g.Sized (fun _ => False) ∧ g.store.live testSlot ∧
      g.store.fileid testSlot = 2 ∧ (g.store.handleReadRequest .zero ⟨2, 128, 0⟩).err = 0 ∧
      ¬ g.store.ReadFinds testSlot ⟨2, 128, 0⟩ := by
  obtain ⟨g, hg, hfacts⟩ := Option.map_eq_some_iff.mp
    (show (bootRun []).map (fun g => decide (g.store.live testSlot ∧
      g.store.fileid testSlot = 2 ∧ (g.store.handleReadRequest .zero ⟨2, 128, 0⟩).err = 0 ∧
      g.store.numblocks testSlot = 0)) = some true by decide +kernel)
  obtain ⟨hlive, hid, hread, hnum⟩ := of_decide_eq_true hfacts
  obtain ⟨s, hs, rfl⟩ := bootRun_nil hg
  have hrun : Gba.Sized ⟨s, .dispatch⟩ fun _ => False := .boot hs
  have hinv := hrun.inv
  have hiff := Store.readFinds_iff hinv.wellFormed hinv.map hlive .zero ⟨2, 128, 0⟩ hid.symm hread
  exact ⟨_, hg, hrun, hlive, hid, hread, fun h => hiff.mp h hnum⟩

end WiiJoybus
