import WiiJoybus.Gba.Reachable

/-!
The block table as a map from files and indices to blocks.

As long as every resize of a file succeeds the table is exact for it: it has the
blocks of its extent, each once, and no others. A failed resize breaks this for
the file it was made on, and only for that one.
-/

namespace WiiJoybus
namespace Store

/-- No index stands for two blocks with this id. -/
def UniqueOf (s : Store) (id : Word) : Prop :=
  ∀ b b', (s.blocks b).vaFileid = id → (s.blocks b').vaFileid = id →
    (s.blocks b').idx = (s.blocks b).idx → b' = b

def Tight (s : Store) (p : EntryPtr) : Prop :=
  ∀ b, (s.blocks b).vaFileid = s.fileid p → (s.blocks b).idx.toNat < s.numblocks p

/-- The table is exact for one file. -/
structure FileMap (s : Store) (p : EntryPtr) : Prop where
  unique : s.UniqueOf (s.fileid p)
  tight : s.Tight p

structure BlockMap (s : Store) : Prop where
  unique : ∀ id, id ≠ 0 → s.UniqueOf id
  tight : ∀ p, s.live p → s.Tight p

section Preserve

variable {s s' : Store} {p : EntryPtr} {n : Word}

theorem BlockMap.mono (h : s.BlockMap)
    (hblocks : ∀ b, (s'.blocks b).vaFileid ≠ 0 →
      (s.blocks b).vaFileid = (s'.blocks b).vaFileid ∧ (s.blocks b).idx = (s'.blocks b).idx)
    (hentries : ∀ p, s'.live p → s.fileid p = s'.fileid p ∧ s.numblocks p ≤ s'.numblocks p) :
    s'.BlockMap where
  unique id hid b b' hb hb' hidx := by
    obtain ⟨h₁, h₂⟩ := hblocks b (hb ▸ hid)
    obtain ⟨h₁', h₂'⟩ := hblocks b' (hb' ▸ hid)
    exact h.unique id hid b b' (h₁.trans hb) (h₁'.trans hb') (by rw [h₂, h₂', hidx])
  tight p hp b hb := by
    obtain ⟨hid, hle⟩ := hentries p hp
    have hown : (s'.blocks b).vaFileid ≠ 0 := hb ▸ hp
    obtain ⟨h₁, h₂⟩ := hblocks b hown
    rw [← h₂]
    refine Nat.lt_of_lt_of_le (h.tight p ?_ b (by rw [h₁, hb, hid])) hle
    change s.fileid p ≠ 0
    rwa [hid]

theorem BlockMap.sameFiles (h : s.BlockMap) (hs : SameFiles s s') : s'.BlockMap := by
  apply h.mono
  · intro b _
    rw [hs.blocks]
    exact ⟨rfl, rfl⟩
  · intro p _
    exact ⟨(hs.fileid p).symm, by rw [numblocks, numblocks, hs.file]⟩

theorem BlockMap.sameShape (h : s.BlockMap) (hs : SameShape s s') : s'.BlockMap := by
  apply h.mono
  · intro b _
    exact ⟨(hs.fileid b).symm, (hs.idx b).symm⟩
  · intro p _
    rw [fileid, fileid, numblocks, numblocks, hs.entries]
    exact ⟨rfl, Nat.le_refl _⟩

theorem BlockMap.sameOwned (h : s.BlockMap) (hs : SameOwned s s') : s'.BlockMap := by
  apply h.mono
  · intro b hb
    rw [hs.owned b fun h0 => hb (hs.free b h0)]
    exact ⟨rfl, rfl⟩
  · intro p _
    rw [fileid, fileid, numblocks, numblocks, hs.entries]
    exact ⟨rfl, Nat.le_refl _⟩

theorem BlockMap.retire (h : s.BlockMap) (p : EntryPtr) : (s.retire p).BlockMap := by
  refine h.mono (fun b _ => ⟨rfl, rfl⟩) ?_
  intro q hq
  have hqp : q ≠ p := by
    rintro rfl
    change (s.retire q).fileid q ≠ 0 at hq
    rw [retire_fileid, if_pos rfl] at hq
    exact hq rfl
  rw [fileid, fileid, numblocks, numblocks, retire_entries_of_ne hqp]
  exact ⟨rfl, Nat.le_refl _⟩

theorem BlockMap.initAt (h : s.BlockMap) (hw : s.WellFormed) (p : EntryPtr) (vt : Vtype)
    (rand : Word64) : (s.initAt p vt rand).BlockMap where
  unique := h.unique
  tight q hq b hb := by
    by_cases hqp : q = p
    · -- no block carries an id that has not been issued
      have hid : (s.initAt p vt rand).fileid q = BitVec.ofNat 32 s.id := by
        rw [fileid, initAt_entries, if_pos hqp]
        rfl
      have := hw.owners b
      change (s.blocks b).vaFileid = _ at hb
      rw [hb, hid, hw.fresh] at this
      omega
    · have hsame : (s.initAt p vt rand).entries q = s.entries q := by
        rw [initAt_entries, if_neg hqp]
      rw [live, hsame] at hq
      rw [fileid, hsame] at hb
      rw [numblocks, hsame]
      exact h.tight q hq b hb

theorem BlockMap.entrySetsize_free (h : s.BlockMap) (hp : ¬ s.live p) (n : Word) :
    (s.entrySetsize p n).2.BlockMap := by
  have htree := sameTree_entrySetsize s p n
  apply h.mono
  · intro b hb
    obtain ⟨hown, hfree⟩ := entrySetsize_zero hp n b
    rw [hown fun h0 => hb (hfree h0)]
    exact ⟨rfl, rfl⟩
  · intro q hq
    rw [live, htree.fileid] at hq
    have hqp : q ≠ p := by
      rintro rfl
      exact hp hq
    rw [fileid, fileid, numblocks, numblocks, entrySetsize_entries_of_ne s n hqp]
    exact ⟨rfl, Nat.le_refl _⟩

theorem Taken.uniqueOf {id : Word} {i m : Nat} (h : Taken id i m s s')
    (hu : s.UniqueOf id) (hbound : i + m ≤ 2 ^ 32)
    (hnew : ∀ b, (s.blocks b).vaFileid = id → (s.blocks b).idx.toNat < i) : s'.UniqueOf id := by
  have hclash : ∀ b k, k < m → (s.blocks b).vaFileid = id →
      (s.blocks b).idx ≠ BitVec.ofNat 32 (i + k) := by
    intro b k hk hb heq
    have hlt := hnew b hb
    rw [heq, BitVec.toNat_ofNat, Nat.mod_eq_of_lt (by omega)] at hlt
    omega
  obtain ⟨f, hf, _, hrest⟩ := h.slots
  intro b b' hb hb' hidx
  by_cases hr : ∃ k < m, f k = b <;> by_cases hr' : ∃ k < m, f k = b'
  · obtain ⟨k, hk, rfl⟩ := hr
    obtain ⟨k', hk', rfl⟩ := hr'
    rw [(hf k hk).2, (hf k' hk').2] at hidx
    have := ofNat_inj (by omega) (by omega) hidx
    rw [show k' = k by omega]
  · obtain ⟨k, hk, rfl⟩ := hr
    push Not at hr'
    rw [hrest b' hr'] at hb' hidx
    rw [(hf k hk).2] at hidx
    exact absurd hidx (hclash b' k hk hb')
  · obtain ⟨k', hk', rfl⟩ := hr'
    push Not at hr
    rw [hrest b hr] at hb hidx
    rw [(hf k' hk').2] at hidx
    exact absurd hidx.symm (hclash b k' hk' hb)
  · push Not at hr hr'
    rw [hrest b hr] at hb hidx
    rw [hrest b' hr'] at hb' hidx
    exact hu b b' hb hb' hidx

theorem Released.uniqueOf {id id' : Word} {i m : Nat} (h : Released id' i m s s') (hid : id ≠ 0)
    (hu : s.UniqueOf id) : s'.UniqueOf id := by
  have hsame : ∀ b, (s'.blocks b).vaFileid = id → s'.blocks b = s.blocks b := by
    intro b hb
    rcases h.cases b with hsame | ⟨hclear, _⟩
    · exact hsame
    · rw [hclear] at hb
      exact absurd hb.symm hid
  intro b b' hb hb' hidx
  have h₁ := hsame b hb
  have h₂ := hsame b' hb'
  rw [h₁] at hb hidx
  rw [h₂] at hb' hidx
  exact hu b b' hb hb' hidx

theorem UniqueOf.blockFetch {id idx : Word} (h : s.UniqueOf id) {b : BlockPtr}
    (hb : s.holds id idx b) : s.blockFetch id idx = some b := by
  rw [blockFetch_eq_some]
  refine ⟨hb, ?_⟩
  intro b' hlt hb'
  exact absurd (h b b' hb.1 hb'.1 (hb'.2.trans hb.2.symm)) (Fin.ne_of_lt hlt)

theorem Released.tight {i m : Nat} (h : Released (s.fileid p) i m s s') (hmap : s.FileMap p)
    (hp : s.live p) (hcover : s.numblocks p ≤ i + m) {b : BlockPtr}
    (hb : (s'.blocks b).vaFileid = s.fileid p) : (s'.blocks b).idx.toNat < i := by
  have hid : s.fileid p ≠ 0 := hp
  rcases h.cases b with hsame | ⟨hclear, _⟩
  · rw [hsame] at hb ⊢
    by_contra hge
    have hlt := hmap.tight b hb
    -- its index was released, and the lookup found this very block
    obtain ⟨f, hf, _⟩ := h.slots
    obtain ⟨hget, hset⟩ := hf ((s.blocks b).idx.toNat - i) (by omega)
    rw [show i + ((s.blocks b).idx.toNat - i) = (s.blocks b).idx.toNat by omega,
      BitVec.ofNat_toNat, BitVec.setWidth_eq, hmap.unique.blockFetch ⟨hb, rfl⟩] at hget
    rw [← Option.some.inj hget, hsame] at hset
    rw [hset] at hb
    exact hid hb.symm
  · rw [hclear] at hb
    exact absurd hb.symm hid

theorem numblocks_sizedTo (s s₁ : Store) (p : EntryPtr) (n : Word) :
    (s₁.setEntry p (sizedTo (s.entries p) n)).numblocks p = n.toNat / 128 + 1 := by
  rw [numblocks, setEntry_self]
  exact newblocks_toNat n

theorem fileid_sizedTo (s s₁ : Store) (p : EntryPtr) (n : Word) :
    (s₁.setEntry p (sizedTo (s.entries p) n)).fileid p = s.fileid p := by
  rw [fileid, setEntry_self]
  rfl

theorem Resized.blocks_eq {r : Word × Store} (h : Resized s p n r) {b : BlockPtr}
    (hzero : (r.2.blocks b).vaFileid ≠ 0) (hne : (r.2.blocks b).vaFileid ≠ s.fileid p) :
    r.2.blocks b = s.blocks b := by
  cases h with
  | shrunk _ h =>
      rcases h.cases b with h | ⟨h, _⟩
      · exact h
      · rw [setEntry_blocks, h] at hzero
        exact absurd rfl hzero
  | grown _ _ h =>
      rcases h.cases b with h | ⟨_, k, _, h⟩
      · exact h
      · rw [setEntry_blocks, h] at hne
        exact absurd rfl hne
  | failed _ _ _ h _ =>
      rcases h.cases b with h | ⟨_, k, _, h⟩
      · exact h
      · rw [h] at hne
        exact absurd rfl hne
  | same _ _ => rfl

theorem Resized.fileid_eq {r : Word × Store} (h : Resized s p n r) (q : EntryPtr) :
    r.2.fileid q = s.fileid q := by
  by_cases hqp : q = p
  · subst hqp
    cases h with
    | shrunk _ h => exact fileid_sizedTo _ _ _ _
    | grown _ _ h => exact fileid_sizedTo _ _ _ _
    | failed _ _ _ h _ => rw [fileid, fileid, h.entries]
    | same _ _ =>
        rw [fileid, setEntry_self]
        rfl
  · rw [fileid, fileid, h.entries_of_ne hqp]

/-- The files that are not resized keep a tight extent, even if the resize fails. -/
theorem BlockMap.resized_of_ne {r : Word × Store} (h : s.BlockMap) (hw : s.WellFormed)
    (hp : s.live p) (hr : Resized s p n r) {q : EntryPtr} (hq : r.2.live q) (hqp : q ≠ p)
    {b : BlockPtr} (hb : (r.2.blocks b).vaFileid = r.2.fileid q) :
    (r.2.blocks b).idx.toNat < r.2.numblocks q := by
  have hsame := hr.entries_of_ne hqp
  have hzero : (r.2.blocks b).vaFileid ≠ 0 := hb ▸ hq
  rw [live, hsame] at hq
  rw [fileid, hsame] at hb
  rw [numblocks, hsame]
  have hne : (r.2.blocks b).vaFileid ≠ s.fileid p := fun heq =>
    hqp (hw.unique p q hp (hb.symm.trans heq))
  have hblock := hr.blocks_eq hzero hne
  rw [hblock] at hb ⊢
  exact h.tight q hq b hb

theorem FileMap.resized {r : Word × Store} (h : s.FileMap p) (hw : s.WellFormed) (hp : s.live p)
    (hr : Resized s p n r) (hok : r.1 = 0) : r.2.FileMap p := by
  have hn := n.isLt
  have hnum := s.numblocks_lt p
  have hid : s.fileid p ≠ 0 := hp
  cases hr with
  | shrunk hlt hrel =>
      constructor
      · rw [fileid_sizedTo]
        exact hrel.uniqueOf hid h.unique
      · intro b hb
        rw [fileid_sizedTo, setEntry_blocks] at hb
        rw [numblocks_sizedTo, setEntry_blocks]
        exact hrel.tight h hp (by omega) hb
  | grown hle hpos htaken =>
      constructor
      · rw [fileid_sizedTo]
        exact htaken.uniqueOf h.unique (by omega) h.tight
      · intro b hb
        rw [fileid_sizedTo, setEntry_blocks] at hb
        rw [numblocks_sizedTo, setEntry_blocks]
        rcases htaken.cases b with hsame | ⟨_, k, hk, hset⟩
        · rw [hsame] at hb ⊢
          have hlt := h.tight b hb
          rcases (hw.files p hp).extent with ⟨_, _⟩ | hext
          · omega
          · have := Nat.div_le_div_right (c := 128) hle
            omega
        · rw [hset, BitVec.toNat_ofNat, Nat.mod_eq_of_lt (by omega)]
          omega
  | failed _ _ _ _ _ => exact absurd (show enoblocksfree = 0 from hok) (by decide)
  | same _ _ =>
      have hsame : (s.setEntry p (sized (s.entries p) n)).fileid p = s.fileid p := by
        rw [fileid, setEntry_self]
        rfl
      constructor
      · rw [hsame]
        exact h.unique
      · intro b hb
        rw [hsame] at hb
        rw [numblocks, setEntry_self]
        exact h.tight b hb

theorem BlockMap.resized {r : Word × Store} (h : s.BlockMap) (hw : s.WellFormed) (hp : s.live p)
    (hr : Resized s p n r) (hok : r.1 = 0) : r.2.BlockMap := by
  have hid : s.fileid p ≠ 0 := hp
  have hfileid : r.2.fileid p = s.fileid p := hr.fileid_eq p
  have hmap : r.2.FileMap p := FileMap.resized ⟨h.unique _ hid, h.tight p hp⟩ hw hp hr hok
  constructor
  · intro id hid
    by_cases hidp : id = s.fileid p
    · rw [hidp, ← hfileid]
      exact hmap.unique
    · intro b b' hb hb' hidx
      have h₁ := hr.blocks_eq (hb ▸ hid) (hb ▸ hidp)
      have h₂ := hr.blocks_eq (hb' ▸ hid) (hb' ▸ hidp)
      rw [h₁] at hb hidx
      rw [h₂] at hb' hidx
      exact h.unique id hid b b' hb hb' hidx
  · intro q hq
    by_cases hqp : q = p
    · rw [hqp]
      exact hmap.tight
    · intro b
      exact h.resized_of_ne hw hp hr hq hqp

theorem blank_blockMap : blank.BlockMap where
  unique _ hid _ _ hb := absurd hb.symm hid
  tight p hp := absurd (blank_fileid p) hp

end Preserve

end Store

end WiiJoybus
