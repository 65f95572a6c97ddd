import WiiJoybus.Gba.ExactRuns

/-!
When blocks leak.

There are two ways to lose a block: reclaiming an entry that has blocks, and a
growth that runs out of blocks after it has taken some. A run that avoids both
keeps every owned block within the extent of a live entry; the first step that
does not is the first state with a leak.
-/

namespace WiiJoybus
namespace Store

def freeCount (s : Store) : Nat := (Finset.univ.filter fun b => (s.blocks b).vaFileid = 0).card

/-- The free count that STATVFS reports accounts for every block, and every owned
block is within the extent of a live entry. -/
def NoLeaks (s : Store) : Prop :=
  s.handleStatvfsRequest.fBfree.toNat + ∑ p with s.live p, s.numblocks p = blockMax ∧
  ∀ b, (s.blocks b).vaFileid ≠ 0 →
    ∃ p, s.live p ∧ (s.blocks b).vaFileid = s.fileid p ∧ (s.blocks b).idx.toNat < s.numblocks p

/-- The message reclaims no entry that has blocks, and a growth it asks for fits
in the free blocks or finds none at all. -/
def Tidy (s : Store) (m : Message) : Prop :=
  (∀ p, s.reclaims m = some p → s.live p → s.numblocks p = 0) ∧
  ∀ p n, s.resizes m = some (p, n) → s.live p →
    n.toNat / 128 + 1 - s.numblocks p ≤ s.freeCount ∨ s.freeCount = 0

structure TidyInv (s : Store) : Prop where
  wellFormed : s.WellFormed
  map : s.BlockMap
  owned : ∀ b, (s.blocks b).vaFileid ≠ 0 → ∃ p, s.live p ∧ (s.blocks b).vaFileid = s.fileid p

section Count

variable {s s' : Store} {p : EntryPtr}

theorem card_blocksOf (hw : s.WellFormed) (h : s.BlockMap) (hp : s.live p) :
    (Finset.univ.filter fun b => (s.blocks b).vaFileid = s.fileid p).card = s.numblocks p := by
  have hid : s.fileid p ≠ 0 := hp
  have hnum := s.numblocks_lt p
  rw [← Finset.card_range (s.numblocks p)]
  apply Finset.card_nbij fun b => (s.blocks b).idx.toNat
  · intro b hb
    have hb := (Finset.mem_filter.mp hb).2
    simpa using h.tight p hp b hb
  · intro b hb b' hb' heq
    have hb : (s.blocks b).vaFileid = s.fileid p := by simpa using hb
    have hb' : (s.blocks b').vaFileid = s.fileid p := by simpa using hb'
    exact h.unique _ hid b' b hb' hb (BitVec.eq_of_toNat_eq heq)
  · intro i hi
    have hi : i < s.numblocks p := by simpa using hi
    obtain ⟨b, hb⟩ := (hw.files p hp).mapped i hi
    refine ⟨b, by simpa using hb.1, ?_⟩
    simp only [hb.2, BitVec.toNat_ofNat]
    exact Nat.mod_eq_of_lt (by omega)

theorem TidyInv.count (h : s.TidyInv) :
    s.freeCount + ∑ p with s.live p, s.numblocks p = blockMax := by
  have howned : (Finset.univ.filter fun b => ¬ (s.blocks b).vaFileid = 0) =
      (Finset.univ.filter fun p => s.live p).biUnion fun p =>
        Finset.univ.filter fun b => (s.blocks b).vaFileid = s.fileid p := by
    ext b
    simp only [Finset.mem_filter, Finset.mem_univ, true_and, Finset.mem_biUnion]
    constructor
    · exact h.owned b
    · rintro ⟨p, hp, hb⟩
      rw [hb]
      exact hp
  have hdisjoint : ∀ p ∈ Finset.univ.filter fun p => s.live p,
      ∀ q ∈ Finset.univ.filter fun p => s.live p, p ≠ q →
        Disjoint (Finset.univ.filter fun b => (s.blocks b).vaFileid = s.fileid p)
          (Finset.univ.filter fun b => (s.blocks b).vaFileid = s.fileid q) := by
    intro p hp q _ hpq
    rw [Finset.disjoint_filter]
    intro b _ hb hb'
    exact hpq (h.wellFormed.unique p q (by simpa using hp) (hb'.symm.trans hb)).symm
  have hsum : (Finset.univ.filter fun b => ¬ (s.blocks b).vaFileid = 0).card =
      ∑ p with s.live p, s.numblocks p := by
    rw [howned, Finset.card_biUnion hdisjoint]
    apply Finset.sum_congr rfl
    intro p hp
    exact card_blocksOf h.wellFormed h.map (by simpa using hp)
  rw [freeCount, ← hsum, Finset.card_filter_add_card_filter_not, Finset.card_univ,
    Fintype.card_fin]

theorem freeCount_le (s : Store) : s.freeCount ≤ blockMax := by
  have h := Finset.card_filter_le (Finset.univ : Finset BlockPtr)
    fun b => (s.blocks b).vaFileid = 0
  rwa [Finset.card_univ, Fintype.card_fin] at h

theorem fBfree_toNat (s : Store) : s.handleStatvfsRequest.fBfree.toNat = s.freeCount := by
  have h : s.freeCount ≤ 1024 := s.freeCount_le
  change (BitVec.ofNat 32 s.freeCount : Word).toNat = s.freeCount
  rw [BitVec.toNat_ofNat, Nat.mod_eq_of_lt (by omega)]

theorem TidyInv.noLeaks (h : s.TidyInv) : s.NoLeaks := by
  refine ⟨by rw [fBfree_toNat]; exact h.count, ?_⟩
  intro b hb
  obtain ⟨p, hp, hbp⟩ := h.owned b hb
  exact ⟨p, hp, hbp, h.map.tight p hp b hbp⟩

theorem Taken.le_freeCount {id : Word} {i m : Nat} (h : Taken id i m s s') :
    m ≤ s.freeCount := by
  obtain ⟨f, hf, hinj, _⟩ := h.slots
  rw [← Finset.card_range m, freeCount]
  apply Finset.card_le_card_of_injOn f
  · intro k hk
    simpa using (hf k (by simpa using hk)).1
  · intro k hk k' hk' heq
    exact hinj k (by simpa using hk) k' (by simpa using hk') heq

theorem Taken.freeCount_le {id : Word} {i m : Nat} (h : Taken id i m s s')
    (hfull : ∀ b, (s'.blocks b).vaFileid ≠ 0) : s.freeCount ≤ m := by
  obtain ⟨f, _, _, hrest⟩ := h.slots
  have hsub : (Finset.univ.filter fun b => (s.blocks b).vaFileid = 0) ⊆
      (Finset.range m).image f := by
    intro b hb
    have hb : (s.blocks b).vaFileid = 0 := by simpa using hb
    by_contra hnot
    apply hfull b
    rw [hrest b, hb]
    intro k hk heq
    exact hnot (Finset.mem_image.mpr ⟨k, Finset.mem_range.mpr hk, heq⟩)
  exact (Finset.card_le_card hsub).trans (Finset.card_image_le.trans (Finset.card_range m).le)

end Count

section Step

variable {s s' : Store} {p : EntryPtr} {n : Word} {m : Message}

theorem TidyInv.mono (h : s.TidyInv) (hw : s'.WellFormed) (hmap : s'.BlockMap)
    (hblocks : ∀ b, (s'.blocks b).vaFileid ≠ 0 → (s.blocks b).vaFileid = (s'.blocks b).vaFileid)
    (hentries : ∀ p, s.live p → s'.fileid p = s.fileid p) : s'.TidyInv where
  wellFormed := hw
  map := hmap
  owned b hb := by
    have hsame := hblocks b hb
    obtain ⟨p, hp, hbp⟩ := h.owned b (hsame ▸ hb)
    refine ⟨p, ?_, by rw [← hsame, hbp, hentries p hp]⟩
    change s'.fileid p ≠ 0
    rwa [hentries p hp]

theorem TidyInv.sameFiles (h : s.TidyInv) (hs : SameFiles s s') : s'.TidyInv :=
  h.mono (h.wellFormed.sameFiles hs) (h.map.sameFiles hs) (fun b _ => by rw [hs.blocks])
    fun p _ => hs.fileid p

theorem TidyInv.initAt (h : s.TidyInv) (hfree : s.findById 0 = some p) (hid : s.id ≠ intMax)
    (vt : Vtype) (rand : Word64) : (s.initAt p vt rand).TidyInv := by
  refine h.mono (h.wellFormed.initAt hid) (h.map.initAt h.wellFormed p vt rand)
    (fun _ _ => rfl) ?_
  intro q hq
  have hqp : q ≠ p := by
    rintro rfl
    exact hq (findById_fileid hfree)
  rw [fileid, initAt_entries, if_neg hqp, fileid]

theorem TidyInv.reclaim (h : s.TidyInv) (hp : s.live p → s.numblocks p = 0) :
    (s.entryReclaim p).TidyInv := by
  have hown := entryReclaim_sameOwned h.wellFormed p
  refine ⟨h.wellFormed.entryReclaim p, (h.map.retire p).sameOwned hown, ?_⟩
  intro b hb
  have hb' : (s.blocks b).vaFileid ≠ 0 := fun h0 => hb (hown.free b h0)
  have hblock : (s.entryReclaim p).blocks b = s.blocks b := hown.owned b hb'
  obtain ⟨q, hq, hbq⟩ := h.owned b hb'
  have hqp : q ≠ p := by
    rintro rfl
    have := h.map.tight q hq b hbq
    rw [hp hq] at this
    exact Nat.not_lt_zero _ this
  refine ⟨q, ?_, ?_⟩
  · rwa [live, hown.entries, retire_entries_of_ne hqp]
  · rw [hblock, hbq, fileid, fileid, hown.entries, retire_entries_of_ne hqp]

theorem not_noLeaks_reclaim (hw : s.WellFormed) (hp : s.live p) (hnum : s.numblocks p ≠ 0) :
    ¬ (s.entryReclaim p).NoLeaks := by
  have hown := entryReclaim_sameOwned hw p
  obtain ⟨b, hb⟩ := (hw.files p hp).mapped 0 (by omega)
  have hid : (s.blocks b).vaFileid ≠ 0 := by
    rw [hb.1]
    exact hp
  have hblock : (s.entryReclaim p).blocks b = s.blocks b := hown.owned b hid
  rintro ⟨_, hall⟩
  obtain ⟨q, hq, hbq, _⟩ := hall b (by rwa [hblock])
  rw [live, hown.entries] at hq
  rw [hblock, hb.1, fileid, fileid, hown.entries] at hbq
  by_cases hqp : q = p
  · subst hqp
    change (s.retire q).fileid q ≠ 0 at hq
    rw [retire_fileid, if_pos rfl] at hq
    exact hq rfl
  · rw [retire_entries_of_ne hqp] at hbq
    exact hqp (hw.unique p q hp hbq.symm)

theorem TidyInv.resized (h : s.TidyInv) (hp : s.live p) (hok : (s.entrySetsize p n).1 = 0) :
    (s.entrySetsize p n).2.TidyInv := by
  have hw := h.wellFormed
  have hr := entrySetsize_resized hw hp n
  have htree := sameTree_entrySetsize s p n
  refine ⟨hw.entrySetsize p n, h.map.resized hw hp hr hok, ?_⟩
  intro b hb
  by_cases hbp : ((s.entrySetsize p n).2.blocks b).vaFileid = s.fileid p
  · refine ⟨p, ?_, ?_⟩
    · rwa [live, htree.fileid]
    · rw [hbp]
      exact (htree.fileid p).symm
  · have hsame := hr.blocks_eq hb hbp
    rw [hsame] at hb ⊢
    obtain ⟨q, hq, hbq⟩ := h.owned b hb
    refine ⟨q, ?_, ?_⟩
    · rwa [live, htree.fileid]
    · rw [hbq]
      exact (htree.fileid q).symm

theorem not_noLeaks_failed {i : Nat} (hw : s.WellFormed) (hp : s.live p)
    (h : Taken (s.fileid p) (s.numblocks p) i s s') (hi : 0 < i) : ¬ s'.NoLeaks := by
  have hid : s.fileid p ≠ 0 := hp
  have hnum := s.numblocks_lt p
  obtain ⟨b, hb⟩ := h.holds hi
  rintro ⟨_, hall⟩
  obtain ⟨q, hq, hbq, hidx⟩ := hall b (by rwa [hb])
  rw [hb, fileid, fileid, h.entries] at hbq
  obtain rfl := hw.unique p q hp hbq.symm
  have hsame : s'.numblocks q = s.numblocks q := by rw [numblocks, numblocks, h.entries]
  rw [hb, hsame] at hidx
  simp only [Nat.add_zero, BitVec.toNat_ofNat] at hidx
  rw [Nat.mod_eq_of_lt (by omega)] at hidx
  exact absurd hidx (Nat.lt_irrefl _)

/-- Resizing a live entry leaks exactly when it runs out halfway. -/
theorem TidyInv.resize_iff (h : s.TidyInv) (hp : s.live p) :
    (s.entrySetsize p n).2.NoLeaks ∧ (s.entrySetsize p n).2.TidyInv ∧
        (n.toNat / 128 + 1 - s.numblocks p ≤ s.freeCount ∨ s.freeCount = 0) ∨
      ¬ (s.entrySetsize p n).2.NoLeaks ∧
        ¬ (n.toNat / 128 + 1 - s.numblocks p ≤ s.freeCount ∨ s.freeCount = 0) := by
  have hw := h.wellFormed
  have hf := hw.files p hp
  have hr := entrySetsize_resized hw hp n
  have hsucceeds : (s.entrySetsize p n).1 = 0 →
      (s.entrySetsize p n).2.NoLeaks ∧ (s.entrySetsize p n).2.TidyInv :=
    fun hok => ⟨(h.resized hp hok).noLeaks, h.resized hp hok⟩
  generalize s.entrySetsize p n = r at hr hsucceeds
  cases hr with
  | shrunk hlt _ =>
      obtain ⟨hn, hi⟩ := hsucceeds rfl
      refine Or.inl ⟨hn, hi, ?_⟩
      rcases hf.extent with ⟨_, _⟩ | hext <;> omega
  | grown _ _ htaken =>
      obtain ⟨hn, hi⟩ := hsucceeds rfl
      exact Or.inl ⟨hn, hi, Or.inl htaken.le_freeCount⟩
  | same heq hempty =>
      obtain ⟨hn, hi⟩ := hsucceeds rfl
      refine Or.inl ⟨hn, hi, ?_⟩
      rcases hf.extent with ⟨_, _⟩ | hext <;> omega
  | @failed i s₁ _ _ hi htaken hfull =>
      have hcount : s.freeCount = i :=
        Nat.le_antisymm (htaken.freeCount_le hfull) htaken.le_freeCount
      by_cases h0 : i = 0
      · subst h0
        obtain ⟨_, _, _, hrest⟩ := htaken.slots
        have hsame : SameOwned s s₁ := ⟨htaken.entries, htaken.id,
          fun b _ => hrest b (by simp), fun b hb => by rw [hrest b (by simp)]; exact hb⟩
        have hinv : s₁.TidyInv := h.mono (hw.sameOwned hsame) (h.map.sameOwned hsame)
          (fun b _ => by rw [hrest b (by simp)]) fun q _ => by rw [fileid, fileid, htaken.entries]
        exact Or.inl ⟨hinv.noLeaks, hinv, Or.inr hcount⟩
      · refine Or.inr ⟨not_noLeaks_failed hw hp htaken (by omega), ?_⟩
        omega

theorem tidy_of_none (hz : s.resizes m = none) (hc : s.reclaims m = none) : s.Tidy m := by
  constructor
  · intro p hp
    rw [hc] at hp
    cases hp
  · intro p n hpn
    rw [hz] at hpn
    cases hpn

/-- One step from a store without leaks: it leaks exactly when the message is
not tidy. -/
theorem TidyInv.change (h : s.TidyInv) (hc : s.Change m s') :
    (s'.NoLeaks ↔ s.Tidy m) ∧ (s.Tidy m → s'.TidyInv) := by
  have hw := h.wellFormed
  have hinv : ∀ t : Store, t.TidyInv → s.Tidy m →
      (t.NoLeaks ↔ s.Tidy m) ∧ (s.Tidy m → t.TidyInv) :=
    fun t ht htidy => ⟨⟨fun _ => htidy, fun _ => ht.noLeaks⟩, fun _ => ht⟩
  cases hc with
  | keep hz hc _ => exact hinv _ h (tidy_of_none hz hc)
  | create hm hp hi ha =>
      obtain ⟨hfree, hid, rfl⟩ := entryInit_some hi
      refine hinv _ ?_ (tidy_of_none (alone_of_creates hm).1 (alone_of_creates hm).2.1)
      exact ((h.initAt hfree hid _ _).sameFiles (sameFiles_entryAppend ha)).sameFiles
        (sameFiles_setName _ _ _ _)
  | remove hm hr =>
      exact hinv _ (h.sameFiles (sameFiles_entryRemove hr))
        (tidy_of_none (alone_of_removes hm).1 (alone_of_removes hm).2)
  | copy hm hs =>
      subst hm
      refine hinv _ ?_ (tidy_of_none rfl rfl)
      refine h.mono (hw.sameShape hs) (h.map.sameShape hs) (fun b _ => (hs.fileid b).symm) ?_
      intro p _
      rw [fileid, hs.entries, fileid]
  | @reclaim p hm =>
      have htidy : s.Tidy m ↔ (s.live p → s.numblocks p = 0) := by
        constructor
        · exact fun ht => ht.1 p hm
        · intro hp
          refine ⟨?_, fun q n hq => ?_⟩
          · intro q hq
            obtain rfl := Option.some.inj (hm.symm.trans hq)
            exact hp
          · rw [(alone_of_reclaims hm).1] at hq
            cases hq
      by_cases hp : s.live p → s.numblocks p = 0
      · exact hinv _ (h.reclaim hp) (htidy.mpr hp)
      · have hnot := hp
        rw [Classical.not_imp] at hp
        refine ⟨⟨fun hn => absurd hn (not_noLeaks_reclaim hw hp.1 hp.2), ?_⟩, ?_⟩
        · exact fun ht => absurd (htidy.mp ht) hnot
        · exact fun ht => absurd (htidy.mp ht) hnot
  | @resize p n hm =>
      have htidy : s.Tidy m ↔ (s.live p →
          n.toNat / 128 + 1 - s.numblocks p ≤ s.freeCount ∨ s.freeCount = 0) := by
        constructor
        · exact fun ht => ht.2 p n hm
        · intro hp
          refine ⟨fun q hq => ?_, ?_⟩
          · rw [(alone_of_resizes hm).1] at hq
            cases hq
          · intro q k hq
            cases Option.some.inj (hm.symm.trans hq)
            exact hp
      by_cases hp : s.live p
      · rcases h.resize_iff hp (n := n) with ⟨_, hi, hroom⟩ | ⟨hn, hroom⟩
        · exact hinv _ hi (htidy.mpr fun _ => hroom)
        · refine ⟨⟨fun hl => absurd hl hn, ?_⟩, ?_⟩
          · exact fun ht => absurd (htidy.mp ht hp) hroom
          · exact fun ht => absurd (htidy.mp ht hp) hroom
      · refine hinv _ ?_ (htidy.mpr fun hlive => absurd hlive hp)
        refine h.mono (hw.entrySetsize p n) (h.map.entrySetsize_free hp n) ?_
          fun q _ => (sameTree_entrySetsize s p n).fileid q
        intro b hb
        obtain ⟨hown, hfree⟩ := entrySetsize_zero hp n b
        rw [hown fun h0 => hb (hfree h0)]

theorem blank_tidyInv : blank.TidyInv where
  wellFormed := blank_wellFormed
  map := blank_blockMap
  owned _ hb := absurd rfl hb

theorem boot_tidyInv {rootGen testGen : Word64} (h : boot rootGen testGen = some s) :
    s.TidyInv := by
  obtain ⟨root, s₁, test, s₂, s₃, hroot, htest, happ, rfl⟩ := boot_some h
  obtain ⟨hfree₁, hid₁, rfl⟩ := entryInit_some hroot
  obtain ⟨hfree₂, hid₂, rfl⟩ := entryInit_some htest
  exact (((blank_tidyInv.initAt hfree₁ hid₁ _ _).initAt hfree₂ hid₂ _ _).sameFiles
    (sameFiles_entryAppend happ)).sameFiles (sameFiles_setEntry _ _ _ rfl rfl rfl)

end Step

end Store

/-- Runs from boot of tidy messages only. -/
inductive Gba.TidyRun : Gba → Prop where
  | boot {rootGen testGen s} (h : Store.boot rootGen testGen = some s) : TidyRun ⟨s, .dispatch⟩
  | step {g g' j m} (h : TidyRun g) (hs : g.receive j m = some g') (ht : g.store.Tidy m) :
      TidyRun g'

theorem Gba.TidyRun.inv {g : Gba} (h : g.TidyRun) : g.store.TidyInv := by
  induction h with
  | boot h => exact Store.boot_tidyInv h
  | step _ hs ht ih => exact (ih.change (Gba.receive_change hs)).2 ht

section Reclaimed

variable {s : Store} {p : EntryPtr}

theorem Store.freeCount_entryReclaim (hw : s.WellFormed) (p : EntryPtr) :
    (s.entryReclaim p).freeCount = s.freeCount := by
  have hown := entryReclaim_sameOwned hw p
  rw [freeCount, freeCount, Finset.filter_congr (q := fun b => (s.blocks b).vaFileid = 0)]
  intro b _
  constructor
  · intro hb
    by_contra hne
    rw [hown.owned b hne] at hb
    exact hne hb
  · exact hown.free b

private theorem rest_eq_iff {free n others total : Nat} (h : free + (n + others) = total) :
    free + others = total ↔ n = 0 := by
  omega

theorem Store.TidyInv.reclaimed (h : s.TidyInv) (hp : s.live p) :
    (s.entryReclaim p).handleStatvfsRequest.fBfree.toNat +
        ∑ q ∈ (Finset.univ.filter fun q => s.live q).erase p, s.numblocks q = blockMax ↔
      s.numblocks p = 0 := by
  have hsum : s.numblocks p + ∑ q ∈ (Finset.univ.filter fun q => s.live q).erase p,
      s.numblocks q = ∑ q with s.live q, s.numblocks q :=
    Finset.add_sum_erase _ s.numblocks (Finset.mem_filter.mpr ⟨Finset.mem_univ p, hp⟩)
  have hcount := h.count
  rw [← hsum] at hcount
  rw [fBfree_toNat, freeCount_entryReclaim h.wellFormed]
  exact rest_eq_iff hcount

end Reclaimed

/-- A run of tidy messages has no leak, and its next message causes one exactly
when it is not tidy. In particular, reclaiming an entry brings the free count to
what the other entries leave exactly when the entry never had a block. -/
theorem tidyRun_noLeaks {g : Gba} (h : g.TidyRun) :
    g.store.NoLeaks ∧
      (∀ j m g', g.receive j m = some g' → (g'.store.NoLeaks ↔ g.store.Tidy m)) ∧
      ∀ p, g.store.live p →
        ((g.store.entryReclaim p).handleStatvfsRequest.fBfree.toNat +
            ∑ q ∈ (Finset.univ.filter fun q => g.store.live q).erase p, g.store.numblocks q =
              blockMax ↔
          g.store.numblocks p = 0) :=
  ⟨h.inv.noLeaks, fun _ _ _ hs => (h.inv.change (Gba.receive_change hs)).1,
    fun _ hp => h.inv.reclaimed hp⟩

/-- Giving the test file 300 bytes is tidy; reclaiming it afterwards would not be. -/
theorem tidyRun_noLeaks_grown :
    ∃ g : Gba, bootRun [.request (.setsize ⟨2, 300⟩)] = some g ∧ g.store.NoLeaks ∧
      ∀ j g', g.receive j (.request (.reclaim ⟨2⟩)) = some g' → ¬ g'.store.NoLeaks := by
  obtain ⟨g, hg, hfacts⟩ := Option.map_eq_some_iff.mp
    (show (bootRun [.request (.setsize ⟨2, 300⟩)]).map (fun g =>
      (decide (g.store.live testSlot), g.store.numblocks testSlot,
        g.store.reclaims (.request (.reclaim ⟨2⟩)))) = some (true, 3, some testSlot) by
        decide +kernel)
  obtain ⟨g₀, hg₀, hm⟩ := bootRun_cons hg
  obtain ⟨s, hs, rfl⟩ := bootRun_nil hg₀
  obtain ⟨hlive, hrest⟩ := Prod.mk.inj hfacts
  obtain ⟨hnum, hreclaims⟩ := Prod.mk.inj hrest
  have hroom : (Store.boot 0 0).map (fun s => ((s.resizes (.request (.setsize ⟨2, 300⟩))).map
      Prod.snd, s.freeCount)) = some (some 300, 1024) := by decide +kernel
  rw [hs, Option.map_some, Option.some.injEq, Prod.mk.injEq] at hroom
  have htidy : s.Tidy (.request (.setsize ⟨2, 300⟩)) := by
    refine ⟨fun p hp => ?_, fun p n hpn _ => ?_⟩
    · cases hp
    · rw [hpn, Option.map_some, Option.some.injEq] at hroom
      obtain ⟨rfl, hfree⟩ := hroom
      left
      rw [hfree]
      change 300 / 128 + 1 - s.numblocks p ≤ 1024
      omega
  have hrun := tidyRun_noLeaks (.step (.boot hs) hm htidy)
  refine ⟨g, hg, hrun.1, ?_⟩
  intro j g' hs' hleak
  have hzero := ((hrun.2.1 j _ g' hs').mp hleak).1 testSlot hreclaims (of_decide_eq_true hlive)
  rw [hnum] at hzero
  cases hzero

/-- A file of one byte, removed and reclaimed: one block is neither free nor
part of any entry's extent. -/
theorem noLeaks_counterexample :
    ∃ g : Gba, bootRun [.request (.reclaim ⟨2⟩), .request (.rm ⟨1, testNameArray⟩),
        .request (.setsize ⟨2, 1⟩)] = some g ∧ g.Reachable ∧ ¬ g.store.NoLeaks := by
  obtain ⟨g, hg, hfacts⟩ := Option.map_eq_some_iff.mp
    (show (bootRun [.request (.reclaim ⟨2⟩), .request (.rm ⟨1, testNameArray⟩),
        .request (.setsize ⟨2, 1⟩)]).map (fun g => g.store.handleStatvfsRequest.fBfree.toNat +
          ∑ p with g.store.live p, g.store.numblocks p) = some 1023 by decide +kernel)
  refine ⟨g, hg, bootRun_reachable hg, ?_⟩
  rintro ⟨hcount, _⟩
  rw [hfacts] at hcount
  cases hcount

end WiiJoybus
