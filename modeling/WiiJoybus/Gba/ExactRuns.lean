import WiiJoybus.Gba.BlockMap

/-!
Runs in which no resize has failed.

Along such a run the block table stays an exact map, and whether a file has
blocks at all says whether it was ever given a size other than zero: a file
that has none ignores being resized to zero.
-/

namespace WiiJoybus

/-- The ids that have been given a size other than zero, once `m` is handled. -/
def Store.givenAfter (s : Store) (m : Message) (given : Word → Prop) (id : Word) : Prop :=
  given id ∨ ∃ p n, s.resizes m = some (p, n) ∧ s.fileid p = id ∧ n ≠ 0

/-- Runs from boot in which every call of `entrySetsize` has returned 0, with the
ids that were given a size other than zero. -/
inductive Gba.Sized : Gba → (Word → Prop) → Prop where
  | boot {rootGen testGen s} (h : Store.boot rootGen testGen = some s) :
      Sized ⟨s, .dispatch⟩ fun _ => False
  | step {g g' j m given} (h : Sized g given) (hs : g.receive j m = some g')
      (hok : ∀ p n, g.store.resizes m = some (p, n) → (g.store.entrySetsize p n).1 = 0) :
      Sized g' (g.store.givenAfter m given)

theorem Gba.Sized.reachable {g : Gba} {given : Word → Prop} (h : g.Sized given) :
    g.Reachable := by
  induction h with
  | boot h => exact .boot h
  | step _ hs _ ih => exact .step ih hs

namespace Store

structure SizedInv (s : Store) (given : Word → Prop) : Prop where
  wellFormed : s.WellFormed
  map : s.BlockMap
  given_iff : ∀ p, s.live p → (given (s.fileid p) ↔ s.numblocks p ≠ 0)
  issued : ∀ id, given id → id.toNat < s.id

section Step

variable {s s' : Store} {given : Word → Prop} {p : EntryPtr} {n : Word}

theorem SizedInv.sameFiles (h : s.SizedInv given) (hs : SameFiles s s') : s'.SizedInv given where
  wellFormed := h.wellFormed.sameFiles hs
  map := h.map.sameFiles hs
  given_iff p hp := by
    rw [live, hs.fileid] at hp
    rw [fileid, numblocks, hs.fileid, hs.file]
    exact h.given_iff p hp
  issued id hid := hs.id ▸ h.issued id hid

theorem SizedInv.initAt (h : s.SizedInv given) (hid : s.id ≠ intMax) (p : EntryPtr) (vt : Vtype)
    (rand : Word64) : (s.initAt p vt rand).SizedInv given where
  wellFormed := h.wellFormed.initAt hid
  map := h.map.initAt h.wellFormed p vt rand
  given_iff q hq := by
    by_cases hqp : q = p
    · have hentry : (s.initAt p vt rand).entries q = freshEntry (s.entries p) s.id vt rand := by
        rw [initAt_entries, if_pos hqp]
      have hnum : (s.initAt p vt rand).numblocks q = 0 := by
        rw [numblocks, hentry]
        rfl
      have hfresh : (s.initAt p vt rand).fileid q = BitVec.ofNat 32 s.id := by
        rw [fileid, hentry]
        rfl
      rw [hnum, hfresh]
      refine ⟨fun hg => ?_, fun h => absurd rfl h⟩
      have := h.issued _ hg
      rw [h.wellFormed.fresh] at this
      omega
    · have hsame : (s.initAt p vt rand).entries q = s.entries q := by
        rw [initAt_entries, if_neg hqp]
      rw [live, hsame] at hq
      rw [fileid, numblocks, hsame]
      exact h.given_iff q hq
  issued id hg := Nat.lt_succ_of_lt (h.issued id hg)

theorem SizedInv.entryReclaim (h : s.SizedInv given) (p : EntryPtr) :
    (s.entryReclaim p).SizedInv given := by
  have hown := entryReclaim_sameOwned h.wellFormed p
  refine ⟨h.wellFormed.entryReclaim p, (h.map.retire p).sameOwned hown, ?_, ?_⟩
  · intro q hq
    rw [live, hown.entries] at hq
    have hqp : q ≠ p := by
      rintro rfl
      change (s.retire q).fileid q ≠ 0 at hq
      rw [retire_fileid, if_pos rfl] at hq
      exact hq rfl
    rw [retire_entries_of_ne hqp] at hq
    rw [fileid, numblocks, hown.entries, retire_entries_of_ne hqp]
    exact h.given_iff q hq
  · intro id hg
    rw [hown.id]
    exact h.issued id hg

theorem numblocks_resized {r : Word × Store} (hf : s.FileOk p) (h : Resized s p n r)
    (hok : r.1 = 0) : r.2.numblocks p ≠ 0 ↔ s.numblocks p ≠ 0 ∨ n ≠ 0 := by
  have hn : n ≠ 0 ↔ n.toNat ≠ 0 := by
    rw [ne_eq, ne_eq, ← BitVec.toNat_inj]
    rfl
  cases h with
  | shrunk hlt _ =>
      rw [numblocks_sizedTo]
      rcases hf.extent with ⟨_, _⟩ | h <;> omega
  | grown hle hpos _ =>
      rw [numblocks_sizedTo, hn]
      omega
  | failed _ _ _ _ _ => exact absurd (show enoblocksfree = 0 from hok) (by decide)
  | same heq hempty =>
      have hsame : (s.setEntry p (sized (s.entries p) n)).numblocks p = s.numblocks p := by
        rw [numblocks, setEntry_self]
        rfl
      rw [hsame, hn]
      refine ⟨Or.inl, ?_⟩
      rintro (h | h)
      · exact h
      · exact fun h0 => h (hempty h0)

theorem SizedInv.resize (h : s.SizedInv given) {m : Message} (hm : s.resizes m = some (p, n))
    (hok : (s.entrySetsize p n).1 = 0) :
    (s.entrySetsize p n).2.SizedInv (s.givenAfter m given) := by
  have hw := h.wellFormed
  have htree := sameTree_entrySetsize s p n
  have hgiven : ∀ id, s.givenAfter m given id ↔ given id ∨ s.fileid p = id ∧ n ≠ 0 := by
    intro id
    simp only [givenAfter, hm, Option.some.injEq, Prod.mk.injEq]
    constructor
    · rintro (hg | ⟨q, k, ⟨rfl, rfl⟩, hrest⟩)
      · exact Or.inl hg
      · exact Or.inr hrest
    · rintro (hg | hrest)
      · exact Or.inl hg
      · exact Or.inr ⟨p, n, ⟨rfl, rfl⟩, hrest⟩
  have hothers : ∀ q, s.live q → q ≠ p →
      (s.givenAfter m given ((s.entrySetsize p n).2.fileid q) ↔
        (s.entrySetsize p n).2.numblocks q ≠ 0) := by
    intro q hq hqp
    rw [hgiven, fileid, numblocks, entrySetsize_entries_of_ne s n hqp]
    rw [show ((s.entries q).vaFileid = s.fileid q) from rfl]
    have hne : s.fileid p ≠ s.fileid q := fun heq => hqp (hw.unique q p hq heq).symm
    simp only [hne, false_and, or_false]
    exact h.given_iff q hq
  refine ⟨hw.entrySetsize p n, ?_, ?_, ?_⟩
  · by_cases hp : s.live p
    · exact h.map.resized hw hp (entrySetsize_resized hw hp n) hok
    · exact h.map.entrySetsize_free hp n
  · intro q hq
    rw [live, htree.fileid] at hq
    by_cases hqp : q = p
    · subst hqp
      have hfid : (s.entrySetsize q n).2.fileid q = s.fileid q := htree.fileid q
      rw [hgiven, hfid, h.given_iff q hq,
        numblocks_resized (hw.files q hq) (entrySetsize_resized hw hq n) hok]
      simp
    · exact hothers q hq hqp
  · intro id hg
    rw [htree.id]
    rcases (hgiven id).mp hg with hg | ⟨rfl, _⟩
    · exact h.issued id hg
    · exact hw.issued p

theorem givenAfter_of_none {m : Message} (hm : s.resizes m = none) :
    s.givenAfter m given = given := by
  funext id
  simp [givenAfter, hm]

theorem SizedInv.change {m : Message} (h : s.SizedInv given) (hc : s.Change m s')
    (hok : ∀ p n, s.resizes m = some (p, n) → (s.entrySetsize p n).1 = 0) :
    s'.SizedInv (s.givenAfter m given) := by
  cases hc with
  | keep hz _ _ => rwa [givenAfter_of_none hz]
  | create hm hp hi ha =>
      obtain ⟨_, hid, rfl⟩ := entryInit_some hi
      rw [givenAfter_of_none (alone_of_creates hm).1]
      exact ((h.initAt hid _ _ _).sameFiles (sameFiles_entryAppend ha)).sameFiles
        (sameFiles_setName _ _ _ _)
  | remove hm hr =>
      rw [givenAfter_of_none (alone_of_removes hm).1]
      exact h.sameFiles (sameFiles_entryRemove hr)
  | reclaim hm =>
      rw [givenAfter_of_none (alone_of_reclaims hm).1]
      exact h.entryReclaim _
  | resize hm => exact h.resize hm (hok _ _ hm)
  | copy hm hs =>
      subst hm
      rw [givenAfter_of_none rfl]
      refine ⟨h.wellFormed.sameShape hs, h.map.sameShape hs, ?_, ?_⟩
      · intro p hp
        rw [live, hs.entries] at hp
        rw [fileid, numblocks, hs.entries]
        exact h.given_iff p hp
      · rw [hs.id]
        exact h.issued

theorem blank_sizedInv : blank.SizedInv fun _ => False where
  wellFormed := blank_wellFormed
  map := blank_blockMap
  given_iff p hp := absurd (blank_fileid p) hp
  issued _ h := h.elim

theorem boot_sizedInv {rootGen testGen : Word64} (h : boot rootGen testGen = some s) :
    s.SizedInv fun _ => False := by
  obtain ⟨root, s₁, test, s₂, s₃, hroot, htest, happ, rfl⟩ := boot_some h
  obtain ⟨_, hid₁, rfl⟩ := entryInit_some hroot
  obtain ⟨_, hid₂, rfl⟩ := entryInit_some htest
  exact (((blank_sizedInv.initAt hid₁ _ _ _).initAt hid₂ _ _ _).sameFiles
    (sameFiles_entryAppend happ)).sameFiles (sameFiles_setEntry _ _ _ rfl rfl rfl)

end Step

end Store

theorem Gba.Sized.inv {g : Gba} {given : Word → Prop} (h : g.Sized given) :
    g.store.SizedInv given := by
  induction h with
  | boot h => exact Store.boot_sizedInv h
  | step _ hs hok ih => exact ih.change (Gba.receive_change hs) hok

namespace Store

theorem FileOk.vaSize_eq {s : Store} {p : EntryPtr} (h : s.FileOk p) :
    (s.entries p).vaSize = (s.entries p).file.datalen.setWidth 64 := by
  apply BitVec.eq_of_toNat_eq
  rw [h.size, widen_toNat, datalen]

/-- Shrinking finds every block it looks for. -/
theorem entrySetsize_ne_notfound {s : Store} (hw : s.WellFormed) {p : EntryPtr} (hp : s.live p)
    (n : Word) : (s.entrySetsize p n).1 ≠ eblocknotfound := by
  have h := entrySetsize_resized hw hp n
  generalize s.entrySetsize p n = r at h
  cases h <;> simp [eblocknotfound, enoblocksfree]

end Store

/-- The block map of a run without failed resizes. -/
theorem sized_blockMap {g : Gba} {given : Word → Prop} (h : g.Sized given) :
    (∀ b b', (g.store.blocks b).vaFileid ≠ 0 →
      (g.store.blocks b').vaFileid = (g.store.blocks b).vaFileid →
      (g.store.blocks b').idx = (g.store.blocks b).idx → b' = b) ∧
    (∀ p, g.store.live p →
      (g.store.entries p).vaSize = (g.store.entries p).file.datalen.setWidth 64 ∧
      (given (g.store.fileid p) →
        g.store.numblocks p = (g.store.entries p).vaSize.toNat / 128 + 1) ∧
      (¬ given (g.store.fileid p) →
        g.store.numblocks p = 0 ∧ (g.store.entries p).vaSize.toNat = 0)) ∧
    (∀ p, g.store.live p → ∀ i : Word,
      (∃ b, g.store.holds (g.store.fileid p) i b) ↔ i.toNat < g.store.numblocks p) ∧
    ∀ p, g.store.live p → ∀ n, (g.store.entrySetsize p n).1 ≠ eblocknotfound := by
  have hinv := h.inv
  refine ⟨fun b b' hb hid => hinv.map.unique _ hb b b' rfl hid, ?_, ?_,
    fun p hp n => Store.entrySetsize_ne_notfound hinv.wellFormed hp n⟩
  · intro p hp
    have hf := hinv.wellFormed.files p hp
    have hg := hinv.given_iff p hp
    refine ⟨hf.vaSize_eq, ?_, ?_⟩
    · intro hgiven
      rw [hf.size]
      rcases hf.extent with ⟨h0, _⟩ | hext
      · exact absurd h0 (hg.mp hgiven)
      · exact hext
    · intro hnone
      have h0 : g.store.numblocks p = 0 := not_not.mp fun hne => hnone (hg.mpr hne)
      rw [hf.size]
      rcases hf.extent with h | hext
      · exact h
      · omega
  · intro p hp i
    constructor
    · rintro ⟨b, hb⟩
      rw [← hb.2]
      exact hinv.map.tight p hp b hb.1
    · intro hi
      obtain ⟨b, hb⟩ := (hinv.wellFormed.files p hp).mapped i.toNat hi
      rw [BitVec.ofNat_toNat, BitVec.setWidth_eq] at hb
      exact ⟨b, hb⟩

/-- The test file resized to 300 bytes. -/
theorem sized_blockMap_grown :
    ∃ g : Gba, bootRun [.request (.setsize ⟨2, 300⟩)] = some g ∧
      g.store.numblocks testSlot = 3 ∧
      ∀ i : Word, (∃ b, g.store.holds (g.store.fileid testSlot) i b) ↔ i.toNat < 3 := by
  obtain ⟨g, hg, hfacts⟩ := Option.map_eq_some_iff.mp
    (show (bootRun [.request (.setsize ⟨2, 300⟩)]).map (fun g =>
      (decide (g.store.live testSlot), g.store.numblocks testSlot)) = some (true, 3) by
        decide +kernel)
  obtain ⟨g₀, hg₀, hm⟩ := bootRun_cons hg
  obtain ⟨s, hs, rfl⟩ := bootRun_nil hg₀
  obtain ⟨hlive, hnum⟩ := Prod.mk.inj hfacts
  have hok : (Store.boot 0 0).map (fun s => (s.resizes (.request (.setsize ⟨2, 300⟩))).map
      fun c => (s.entrySetsize c.1 c.2).1) = some (some 0) := by decide +kernel
  rw [hs, Option.map_some, Option.some.injEq] at hok
  have hrun := Gba.Sized.step (.boot hs) hm (by
    intro p n hpn
    rw [hpn, Option.map_some, Option.some.injEq] at hok
    exact hok)
  refine ⟨g, hg, hnum, ?_⟩
  have hmap := (sized_blockMap hrun).2.2.1 testSlot (of_decide_eq_true hlive)
  rwa [hnum] at hmap

/-- A file resized to zero before it had a size has no block, and a slot that is
free again is found under the id 0, with the size of the file that was there. -/
theorem blockMap_counterexample :
    (∃ (g g' : Gba) (given : Word → Prop) (p : EntryPtr), g.Sized given ∧
      g.store.resizes (.request (.setsize ⟨2, 0⟩)) = some (p, 0) ∧
      (g.store.entrySetsize p 0).1 = 0 ∧
      g.receive .zero (.request (.setsize ⟨2, 0⟩)) = some g' ∧ g'.store.live p ∧
      g'.store.numblocks p ≠ (g'.store.entries p).vaSize.toNat / 128 + 1) ∧
    ∃ (g : Gba) (given : Word → Prop) (p : EntryPtr), g.Sized given ∧
      g.store.resizes (.request (.setsize ⟨0, 0⟩)) = some (p, 0) ∧
      (g.store.entrySetsize p 0).1 = eblocknotfound := by
  constructor
  · obtain ⟨g', hg', hfacts⟩ := Option.map_eq_some_iff.mp
      (show (bootRun [.request (.setsize ⟨2, 0⟩)]).map (fun g =>
        (decide (g.store.live testSlot), g.store.numblocks testSlot,
          (g.store.entries testSlot).vaSize)) = some (true, 0, 0) by decide +kernel)
    obtain ⟨g₀, hg₀, hm⟩ := bootRun_cons hg'
    obtain ⟨s, hs, rfl⟩ := bootRun_nil hg₀
    obtain ⟨hlive, hrest⟩ := Prod.mk.inj hfacts
    obtain ⟨hnum, hsize⟩ := Prod.mk.inj hrest
    have hcall : (Store.boot 0 0).map (fun s => (s.resizes (.request (.setsize ⟨2, 0⟩)),
        (s.entrySetsize testSlot 0).1)) = some (some (testSlot, 0), 0) := by decide +kernel
    rw [hs, Option.map_some, Option.some.injEq, Prod.mk.injEq] at hcall
    refine ⟨_, g', _, testSlot, .boot hs, hcall.1, hcall.2, hm, of_decide_eq_true hlive, ?_⟩
    rw [hnum, hsize]
    decide
  · obtain ⟨g, hg, hfacts⟩ := Option.map_eq_some_iff.mp
      (show (bootRun [.request (.reclaim ⟨2⟩), .request (.setsize ⟨2, 300⟩)]).map (fun g =>
        (g.store.resizes (.request (.setsize ⟨0, 0⟩)),
          (g.store.entrySetsize testSlot 0).1)) = some (some (testSlot, 0), eblocknotfound) by
        decide +kernel)
    obtain ⟨g₁, hg₁, hm₁⟩ := bootRun_cons hg
    obtain ⟨g₀, hg₀, hm⟩ := bootRun_cons hg₁
    obtain ⟨s, hs, rfl⟩ := bootRun_nil hg₀
    have hok : (Store.boot 0 0).map (fun s => (s.resizes (.request (.setsize ⟨2, 300⟩))).map
        fun c => (s.entrySetsize c.1 c.2).1) = some (some 0) := by decide +kernel
    rw [hs, Option.map_some, Option.some.injEq] at hok
    have hrun := Gba.Sized.step (.boot hs) hm (by
      intro p n hpn
      rw [hpn, Option.map_some, Option.some.injEq] at hok
      exact hok)
    refine ⟨g, _, testSlot, hrun.step hm₁ ?_, (Prod.mk.inj hfacts).1, (Prod.mk.inj hfacts).2⟩
    intro p n hpn
    cases hpn

end WiiJoybus
