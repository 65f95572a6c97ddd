import WiiJoybus.Library.ByteFile
import WiiJoybus.Gba.BlockMap

/-!
The bytes of a file.

Byte `k` of a file stands in the block of index `k / 128`. A resize keeps the
blocks of the common extent and adds zeroed ones; a write changes the bytes it
covers; and an operation on another file does not touch any of this.
-/

namespace WiiJoybus
open ByteMemory

namespace Store

def size (s : Store) (p : EntryPtr) : Nat := (s.entries p).vaSize.toNat

/-- `BLOCKFETCH(id, k / 128)->data[k % 128]` -/
def fileByte (s : Store) (p : EntryPtr) (k : Nat) : Byte :=
  match s.blockFetch (s.fileid p) (BitVec.ofNat 32 (k / blockSize)) with
  | some b => (s.blocks b).data ⟨k % blockSize, Nat.mod_lt _ (by decide)⟩
  | none => 0

def contents (s : Store) (p : EntryPtr) : List Byte := (List.range (s.size p)).map (s.fileByte p)

/-- Neither the file nor any of its blocks differs. -/
structure Untouched (s s' : Store) (p : EntryPtr) : Prop where
  fileid : s'.fileid p = s.fileid p
  size : s'.size p = s.size p
  file : (s'.entries p).file = (s.entries p).file
  blocks : ∀ b, (s.blocks b).vaFileid = s.fileid p ∨ (s'.blocks b).vaFileid = s.fileid p →
    s'.blocks b = s.blocks b

section Contents

variable {s s' : Store} {p q : EntryPtr} {n : Word} {k : Nat}

@[simp] theorem length_contents (s : Store) (p : EntryPtr) :
    (s.contents p).length = s.size p := by
  simp [contents]

theorem at_contents (h : k < s.size p) : ByteFile.at_ (s.contents p) k = s.fileByte p k := by
  simp [ByteFile.at_, contents, List.getD_eq_getElem?_getD, h]

theorem FileOk.size_eq (h : s.FileOk p) : s.size p = s.datalen p := h.size

theorem FileOk.size_lt (h : s.FileOk p) : s.size p < 2 ^ 32 := by
  rw [h.size_eq]
  exact s.datalen_lt p

theorem FileOk.block_lt (h : s.FileOk p) (hk : k < s.size p) : k / 128 < s.numblocks p := by
  have hsize := h.size_eq
  rcases h.extent with ⟨_, _⟩ | hext <;> omega

theorem fileByte_of_fetch {b : BlockPtr}
    (h : s.blockFetch (s.fileid p) (BitVec.ofNat 32 (k / 128)) = some b) :
    s.fileByte p k = (s.blocks b).data ⟨k % blockSize, Nat.mod_lt _ (by decide)⟩ := by
  simp only [fileByte, show k / blockSize = k / 128 from rfl, h]

theorem fileByte_congr (hid : s'.fileid p = s.fileid p)
    (hblocks : ∀ b, s.holds (s.fileid p) (BitVec.ofNat 32 (k / 128)) b ∨
      s'.holds (s.fileid p) (BitVec.ofNat 32 (k / 128)) b → s'.blocks b = s.blocks b) :
    s'.fileByte p k = s.fileByte p k := by
  have hfetch : s'.blockFetch (s.fileid p) (BitVec.ofNat 32 (k / 128)) =
      s.blockFetch (s.fileid p) (BitVec.ofNat 32 (k / 128)) := by
    apply blockFetch_congr
    intro b
    constructor
    · intro hb
      rwa [holds, ← hblocks b (Or.inr hb)]
    · intro hb
      rwa [holds, hblocks b (Or.inl hb)]
  cases hb : s.blockFetch (s.fileid p) (BitVec.ofNat 32 (k / 128)) with
  | none => simp only [fileByte, hid, show k / blockSize = k / 128 from rfl, hfetch, hb]
  | some b =>
      rw [hb] at hfetch
      rw [fileByte_of_fetch hb, fileByte_of_fetch (by rwa [hid]),
        hblocks b (Or.inl (blockFetch_holds hb))]

theorem Untouched.fileByte (h : Untouched s s' p) (k : Nat) : s'.fileByte p k = s.fileByte p k :=
  fileByte_congr h.fileid fun b hb => h.blocks b (hb.imp And.left And.left)

theorem Untouched.contents (h : Untouched s s' p) : s'.contents p = s.contents p := by
  have hbytes : s'.fileByte p = s.fileByte p := funext h.fileByte
  rw [Store.contents, Store.contents, h.size, hbytes]

theorem Untouched.fileMap (h : Untouched s s' p) (hmap : s.FileMap p) : s'.FileMap p := by
  have hnum : s'.numblocks p = s.numblocks p := by rw [numblocks, numblocks, h.file]
  constructor
  · intro b b' hb hb' hidx
    rw [h.fileid] at hb hb'
    have h₁ := h.blocks b (Or.inr hb)
    have h₂ := h.blocks b' (Or.inr hb')
    rw [h₁] at hb hidx
    rw [h₂] at hb' hidx
    exact hmap.unique b b' hb hb' hidx
  · intro b hb
    rw [h.fileid] at hb
    have hsame := h.blocks b (Or.inr hb)
    rw [hsame] at hb ⊢
    rw [hnum]
    exact hmap.tight b hb

theorem FileMap.sameShape (h : s.FileMap p) (hs : SameShape s s') : s'.FileMap p := by
  have hid : s'.fileid p = s.fileid p := by rw [fileid, fileid, hs.entries]
  constructor
  · intro b b' hb hb' hidx
    rw [hs.fileid, hid] at hb hb'
    rw [hs.idx, hs.idx] at hidx
    exact h.unique b b' hb hb' hidx
  · intro b hb
    rw [hs.fileid, hid] at hb
    rw [hs.idx, numblocks, hs.entries]
    exact h.tight b hb

theorem fileMap_of_fresh (h : ∀ b, (s.blocks b).vaFileid ≠ s.fileid p) : s.FileMap p where
  unique b _ hb := absurd hb (h b)
  tight b hb := absurd hb (h b)

end Contents

section Resized

variable {s : Store} {p : EntryPtr} {n : Word} {r : Word × Store} {k : Nat}

theorem Resized.size (hr : Resized s p n r) (hok : r.1 = 0) : r.2.size p = n.toNat := by
  cases hr with
  | shrunk _ _ | grown _ _ _ | same _ _ =>
      rw [Store.size, setEntry_self]
      exact widen_toNat n
  | failed _ _ _ _ _ => exact absurd (show enoblocksfree = 0 from hok) (by decide)

theorem Resized.fileByte (hr : Resized s p n r) (hok : r.1 = 0) (hw : s.WellFormed)
    (hp : s.live p) (hmap : s.FileMap p) (hk : k < n.toNat) :
    r.2.fileByte p k = if k / 128 < s.numblocks p then s.fileByte p k else 0 := by
  have hn := n.isLt
  have hnum := s.numblocks_lt p
  have hid : s.fileid p ≠ 0 := hp
  have hf := hw.files p hp
  have hfileid := hr.fileid_eq p
  cases hr with
  | shrunk hlt hrel =>
      have hext : k / 128 < s.numblocks p := by
        rcases hf.extent with ⟨_, _⟩ | hext <;> omega
      rw [if_pos hext]
      apply fileByte_congr hfileid
      intro b hb
      rw [setEntry_blocks]
      rcases hrel.cases b with hsame | ⟨hclear, m, hm, hfetch⟩
      · exact hsame
      · -- a released block stands for an index beyond the new extent
        have hidx := (blockFetch_holds hfetch).2
        rcases hb with hb | hb
        · have := ofNat_inj (by omega) (by omega) (hb.2.symm.trans hidx)
          omega
        · have hzero := hb.1
          rw [setEntry_blocks, hclear] at hzero
          exact absurd hzero.symm hid
  | @grown s₁ hle hpos htaken =>
      split
      · rename_i hold
        apply fileByte_congr hfileid
        intro b hb
        rw [setEntry_blocks]
        rcases htaken.cases b with hsame | ⟨hfree, m, hm, hset⟩
        · exact hsame
        · rcases hb with hb | hb
          · exact absurd (hb.1.symm.trans hfree) hid
          · have hidx := hb.2
            rw [setEntry_blocks, hset] at hidx
            have := ofNat_inj (by omega) (by omega) hidx
            omega
      · rename_i hnew
        have hcount : k / 128 < n.toNat / 128 + 1 := by omega
        obtain ⟨b, hb⟩ := htaken.holds (k := k / 128 - s.numblocks p) (by omega)
        have hfetch : ∃ b', (s₁.setEntry p (sizedTo (s.entries p) n)).blockFetch
            ((s₁.setEntry p (sizedTo (s.entries p) n)).fileid p) (BitVec.ofNat 32 (k / 128)) =
              some b' := by
          apply Option.ne_none_iff_exists'.mp
          intro hnone
          apply blockFetch_eq_none.mp hnone b
          rw [holds, setEntry_blocks, hb, hfileid]
          exact ⟨rfl, by rw [Nat.add_sub_cancel' (by omega)]⟩
        obtain ⟨b', hb'⟩ := hfetch
        have hholds := blockFetch_holds hb'
        rw [fileByte_of_fetch hb']
        rw [hfileid, holds, setEntry_blocks] at hholds
        rw [setEntry_blocks]
        rcases htaken.cases b' with hsame | ⟨_, m, hm, hset⟩
        · -- a block from before the growth is within the old extent
          rw [hsame] at hholds
          have hlt := hmap.tight b' hholds.1
          rw [hholds.2, BitVec.toNat_ofNat, Nat.mod_eq_of_lt (by omega)] at hlt
          exact absurd hlt hnew
        · rw [hset]
  | failed _ _ _ _ _ => exact absurd (show enoblocksfree = 0 from hok) (by decide)
  | same heq hempty =>
      have hext : k / 128 < s.numblocks p := by
        rcases hf.extent with ⟨_, _⟩ | hext <;> omega
      rw [if_pos hext]
      exact fileByte_congr hfileid fun b _ => rfl

/-- Resizing is resizing the byte sequence exactly when what is left in the last
block past the end of the file, and becomes part of it, is zero. -/
theorem Resized.contents_iff (hr : Resized s p n r) (hok : r.1 = 0) (hw : s.WellFormed)
    (hp : s.live p) (hmap : s.FileMap p) :
    r.2.contents p = ByteFile.resize n.toNat (s.contents p) ↔
      ∀ k, s.size p ≤ k → k < n.toNat → k / 128 < s.numblocks p → s.fileByte p k = 0 := by
  have hsize := hr.size hok
  have hf := hw.files p hp
  constructor
  · intro heq k hlo hhi hext
    have hat : ByteFile.at_ (r.2.contents p) k =
        ByteFile.at_ (ByteFile.resize n.toNat (s.contents p)) k := by rw [heq]
    rw [at_contents (by omega), hr.fileByte hok hw hp hmap hhi, if_pos hext, ByteFile.at_resize,
      if_pos hhi, ByteFile.at_of_length_le (by simpa using hlo)] at hat
    exact hat
  · intro hzero
    apply ByteFile.ext
    · simp [hsize]
    · intro k hk
      rw [length_contents, hsize] at hk
      rw [at_contents (by omega), hr.fileByte hok hw hp hmap hk, ByteFile.at_resize, if_pos hk]
      by_cases hold : k < s.size p
      · rw [if_pos (hf.block_lt hold), at_contents hold]
      · rw [ByteFile.at_of_length_le (by simpa using hold)]
        split
        · rename_i hext
          exact hzero k (by omega) hk hext
        · rfl

end Resized

end Store

end WiiJoybus
