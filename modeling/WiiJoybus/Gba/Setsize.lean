import WiiJoybus.Gba.WellFormed

/-!
Resizing an entry.

`Resized` lists what `entrySetsize` can do to a live entry of a well formed
store: shrink, grow, fail for want of blocks, or find the size it already has.
Shrinking never fails, because every block it looks for is there.
-/

namespace WiiJoybus
namespace Store

def sizedTo (e : Entry) (n : Word) : Entry := { sized e n with file := ⟨newblocks n, n⟩ }

inductive Resized (s : Store) (p : EntryPtr) (n : Word) : Word × Store → Prop where
  | shrunk {s₁} (hlt : n.toNat < s.datalen p)
      (h : Released (s.fileid p) (n.toNat / 128 + 1) (s.numblocks p - (n.toNat / 128 + 1)) s s₁) :
      Resized s p n (0, s₁.setEntry p (sizedTo (s.entries p) n))
  | grown {s₁} (hle : s.datalen p ≤ n.toNat) (hpos : 0 < n.toNat)
      (h : Taken (s.fileid p) (s.numblocks p) (n.toNat / 128 + 1 - s.numblocks p) s s₁) :
      Resized s p n (0, s₁.setEntry p (sizedTo (s.entries p) n))
  | failed {m s₁} (hle : s.datalen p ≤ n.toNat) (hpos : 0 < n.toNat)
      (hm : m < n.toNat / 128 + 1 - s.numblocks p)
      (h : Taken (s.fileid p) (s.numblocks p) m s s₁)
      (hfull : ∀ b, (s₁.blocks b).vaFileid ≠ 0) :
      Resized s p n (enoblocksfree, s₁)
  | same (h : s.datalen p = n.toNat) (hempty : s.numblocks p = 0 → n.toNat = 0) :
      Resized s p n (0, s.setEntry p (sized (s.entries p) n))

section Live

variable {s : Store} {p : EntryPtr}

theorem shrinks_iff (hf : s.FileOk p) (n : Word) :
    shrinks (s.entries p) n = true ↔ n.toNat < s.datalen p := by
  have hn := n.isLt
  rw [shrinks, decide_eq_true_iff, BitVec.lt_def, hf.size, BitVec.toNat_setWidth,
    Nat.mod_eq_of_lt (by omega)]

theorem needalloc_iff (s : Store) (p : EntryPtr) (n : Word) :
    needalloc (s.entries p) n = true ↔ s.datalen p % 128 < n.toNat := by
  rw [needalloc, decide_eq_true_iff, BitVec.lt_def, roundup_toNat, datalen]

theorem FileOk.blockFetch_ne_none (hf : s.FileOk p) {i : Nat} (hi : i < s.numblocks p) :
    s.blockFetch (s.fileid p) (BitVec.ofNat 32 i) ≠ none := by
  obtain ⟨b, hb⟩ := hf.mapped i hi
  intro h
  exact blockFetch_eq_none.mp h b hb

theorem growLoop_entries (fileid : Word) (left i : Nat) (s : Store) :
    (growLoop fileid left i s).2.entries = s.entries ∧
      (growLoop fileid left i s).2.id = s.id := by
  by_cases hid : fileid = 0
  · subst hid
    exact ⟨(growLoop_zero left i s).entries, (growLoop_zero left i s).id⟩
  · obtain ⟨m, h, _⟩ := growLoop_taken hid left i s
    exact ⟨h.entries, h.id⟩

theorem shrinkLoop_entries (fileid : Word) (left i : Nat) (s : Store) :
    (shrinkLoop fileid left i s).2.entries = s.entries ∧
      (shrinkLoop fileid left i s).2.id = s.id := by
  induction left generalizing i s with
  | zero => exact ⟨rfl, rfl⟩
  | succ left ih =>
      cases hb : s.blockFetch fileid (BitVec.ofNat 32 i) with
      | none =>
          rw [shrinkLoop_none hb]
          exact ⟨rfl, rfl⟩
      | some b =>
          rw [shrinkLoop_some hb]
          exact ih _ _

theorem resizeBlocks_entries (s : Store) (e : Entry) (n : Word) :
    (s.resizeBlocks e n).2.entries = s.entries ∧ (s.resizeBlocks e n).2.id = s.id := by
  rw [resizeBlocks]
  split
  · exact shrinkLoop_entries _ _ _ s
  · exact growLoop_entries _ _ _ s

theorem entrySetsize_eq (s : Store) (p : EntryPtr) (n : Word) :
    s.entrySetsize p n =
      if needalloc (s.entries p) n || shrinks (s.entries p) n then
        if (s.resizeBlocks (s.entries p) n).1 ≠ 0 then
          ((s.resizeBlocks (s.entries p) n).1, (s.resizeBlocks (s.entries p) n).2)
        else (0, (s.resizeBlocks (s.entries p) n).2.setEntry p (sizedTo (s.entries p) n))
      else (0, s.setEntry p (sized (s.entries p) n)) :=
  rfl

theorem entrySetsize_resized (hw : s.WellFormed) (hp : s.live p) (n : Word) :
    Resized s p n (s.entrySetsize p n) := by
  have hf := hw.files p hp
  have hn := n.isLt
  have hnum := s.numblocks_lt p
  have hid : s.fileid p ≠ 0 := hp
  rw [entrySetsize_eq]
  by_cases hshrink : n.toNat < s.datalen p
  · have hs := (shrinks_iff hf n).mpr hshrink
    -- the loop's bounds, and every block between them is there
    have hextent : s.numblocks p = s.datalen p / 128 + 1 := by
      rcases hf.extent with ⟨_, h⟩ | h
      · omega
      · exact h
    obtain ⟨herr, hrel⟩ := shrinkLoop_released hid (s.numblocks p - (n.toNat / 128 + 1))
      (n.toNat / 128 + 1) s (by omega) (by
        intro k hk
        exact hf.blockFetch_ne_none (by omega))
    have hloop : s.resizeBlocks (s.entries p) n = shrinkLoop (s.fileid p)
        (s.numblocks p - (n.toNat / 128 + 1)) (n.toNat / 128 + 1) s := by
      rw [resizeBlocks, if_pos hs, newblocks_toNat]
      rfl
    rw [if_pos (by simp [hs]), hloop, if_neg (by simpa using herr)]
    exact .shrunk hshrink hrel
  · have hs : ¬ shrinks (s.entries p) n = true := by rwa [shrinks_iff hf]
    by_cases halloc : s.datalen p % 128 < n.toNat
    · have ha := (needalloc_iff s p n).mpr halloc
      have hloop : s.resizeBlocks (s.entries p) n = growLoop (s.fileid p)
          (n.toNat / 128 + 1 - s.numblocks p) (s.numblocks p) s := by
        rw [resizeBlocks, if_neg hs, newblocks_toNat]
        rfl
      rw [if_pos (by simp [ha]), hloop]
      obtain ⟨m, htaken, hend⟩ := growLoop_taken hid (n.toNat / 128 + 1 - s.numblocks p)
        (s.numblocks p) s
      rcases hend with ⟨herr, hm⟩ | ⟨herr, hm, hfull⟩
      · rw [if_neg (by simpa using herr)]
        exact .grown (by omega) (by omega) (hm ▸ htaken)
      · rw [if_pos (by rw [herr]; decide), herr]
        exact .failed (by omega) (by omega) hm htaken hfull
    · have ha : ¬ needalloc (s.entries p) n = true := by rwa [needalloc_iff]
      rw [if_neg (by simp [ha, hs])]
      refine .same (by omega) ?_
      intro hempty
      rcases hf.extent with ⟨_, h⟩ | h <;> omega

end Live

section Idle

variable {s : Store} {p : EntryPtr}

theorem resizeBlocks_zero (s : Store) (e : Entry) (n : Word) (h : e.vaFileid = 0) :
    SameOwned s (s.resizeBlocks e n).2 := by
  rw [resizeBlocks, h]
  split
  · exact shrinkLoop_zero _ _ s
  · exact growLoop_zero _ _ s

/-- Resizing a free slot leaves owned blocks as they are, and free ones free. -/
theorem entrySetsize_zero {s : Store} {p : EntryPtr} (hp : ¬ s.live p) (n : Word)
    (b : BlockPtr) :
    ((s.blocks b).vaFileid ≠ 0 → (s.entrySetsize p n).2.blocks b = s.blocks b) ∧
      ((s.blocks b).vaFileid = 0 → ((s.entrySetsize p n).2.blocks b).vaFileid = 0) := by
  have h := resizeBlocks_zero s (s.entries p) n (not_not.mp hp)
  rw [entrySetsize_eq]
  split
  · split
    · exact ⟨h.owned b, h.free b⟩
    · exact ⟨h.owned b, h.free b⟩
  · exact ⟨fun _ => rfl, fun hb => hb⟩

theorem sameTree_setEntry (s : Store) (p : EntryPtr) (e : Entry)
    (hid : e.vaFileid = (s.entries p).vaFileid) (htype : e.vaType = (s.entries p).vaType)
    (hname : e.name = (s.entries p).name) (hnext : e.next = (s.entries p).next)
    (hchild : e.child = (s.entries p).child) : SameTree s (s.setEntry p e) := by
  constructor
  case id => rfl
  all_goals
    intro q
    by_cases hq : q = p
    · subst hq
      simpa using ‹_›
    · rw [setEntry_of_ne _ _ hq]

theorem sameTree_entrySetsize (s : Store) (p : EntryPtr) (n : Word) :
    SameTree s (s.entrySetsize p n).2 := by
  obtain ⟨hentries, hid⟩ := resizeBlocks_entries s (s.entries p) n
  rw [entrySetsize_eq]
  split
  · split
    · constructor <;> first | exact hid | (intro q; rw [hentries])
    · have h := sameTree_setEntry s p (sizedTo (s.entries p) n) rfl rfl rfl rfl rfl
      constructor
      case id => exact hid
      all_goals
        intro q
        rw [setEntry_apply, hentries, ← setEntry_apply]
      · exact h.fileid q
      · exact h.type q
      · exact h.name q
      · exact h.next q
      · exact h.child q
  · exact sameTree_setEntry s p _ rfl rfl rfl rfl rfl

theorem live_entrySetsize {q : EntryPtr} (hp : s.live p) (n : Word) :
    (s.entrySetsize q n).2.live p := by
  rw [live, (sameTree_entrySetsize s q n).fileid]
  exact hp

theorem entrySetsize_entries_of_ne (s : Store) {p q : EntryPtr} (n : Word) (hq : q ≠ p) :
    (s.entrySetsize p n).2.entries q = s.entries q := by
  obtain ⟨hentries, _⟩ := resizeBlocks_entries s (s.entries p) n
  rw [entrySetsize_eq]
  split
  · split
    · rw [hentries]
    · rw [setEntry_of_ne _ _ hq, hentries]
  · rw [setEntry_of_ne _ _ hq]

end Idle

section Preserve

variable {s s₁ : Store} {p : EntryPtr} {n : Word}

theorem FileOk.sizedTo {e : Entry} (hentry : s.entries p = Store.sizedTo e n)
    (hmapped : ∀ i < n.toNat / 128 + 1, ∃ b, s.holds (s.fileid p) (BitVec.ofNat 32 i) b) :
    s.FileOk p := by
  have hn := n.isLt
  have hnum : s.numblocks p = n.toNat / 128 + 1 := by
    rw [numblocks, hentry]
    exact newblocks_toNat n
  have hlen : s.datalen p = n.toNat := by
    rw [datalen, hentry]
    rfl
  refine ⟨?_, Or.inr (by rw [hnum, hlen]), ?_⟩
  · rw [hlen, hentry]
    exact widen_toNat n
  · rwa [hnum]

theorem WellFormed.rebuild (hw : s.WellFormed) (hid : s₁.id = s.id)
    (hfileid : ∀ q, s₁.fileid q = s.fileid q)
    (howners : ∀ b, (s₁.blocks b).vaFileid.toNat < s.id)
    (hfiles : ∀ q, s.live q → s₁.FileOk q) : s₁.WellFormed where
  counter_pos := hid ▸ hw.counter_pos
  counter_le := hid ▸ hw.counter_le
  issued q := by rw [hfileid, hid]; exact hw.issued q
  owners b := by rw [hid]; exact howners b
  unique q r hq hr := by
    rw [hfileid, hfileid] at hr
    have hlive : s.live q := by
      change s₁.fileid q ≠ 0 at hq
      rwa [hfileid] at hq
    exact hw.unique q r hlive hr
  files q hq := by
    change s₁.fileid q ≠ 0 at hq
    rw [hfileid] at hq
    exact hfiles q hq

theorem Resized.entries_of_ne {r : Word × Store} (h : Resized s p n r) {q : EntryPtr}
    (hq : q ≠ p) : r.2.entries q = s.entries q := by
  cases h with
  | shrunk _ h => rw [setEntry_of_ne _ _ hq, h.entries]
  | grown _ _ h => rw [setEntry_of_ne _ _ hq, h.entries]
  | failed _ _ _ h _ => rw [h.entries]
  | same _ _ => rw [setEntry_of_ne _ _ hq]

theorem Resized.blocks_of_ne {r : Word × Store} (hw : s.WellFormed) (h : Resized s p n r)
    {q : EntryPtr} (hq : s.live q) (hqp : q ≠ p) {b : BlockPtr}
    (hb : (s.blocks b).vaFileid = s.fileid q) : r.2.blocks b = s.blocks b := by
  have hne : (s.blocks b).vaFileid ≠ s.fileid p := by
    intro heq
    exact hqp (hw.unique q p hq (heq.symm.trans hb)).symm
  have hown : (s.blocks b).vaFileid ≠ 0 := by rw [hb]; exact hq
  cases h with
  | shrunk _ h => exact h.other hne
  | grown _ _ h => exact h.owned hown
  | failed _ _ _ h _ => exact h.owned hown
  | same _ _ => rfl

theorem Resized.owners {r : Word × Store} (hw : s.WellFormed) (h : Resized s p n r)
    (b : BlockPtr) : (r.2.blocks b).vaFileid.toNat < s.id := by
  have hb := hw.owners b
  have hzero : (0 : Word).toNat < s.id := hw.counter_pos
  cases h with
  | shrunk _ h =>
      rcases h.cases b with h | ⟨h, _⟩
      · rwa [setEntry_blocks, h]
      · rwa [setEntry_blocks, h]
  | grown _ _ h =>
      rcases h.cases b with h | ⟨_, k, _, h⟩
      · rwa [setEntry_blocks, h]
      · rw [setEntry_blocks, h]
        exact hw.issued p
  | failed _ _ _ h _ =>
      rcases h.cases b with h | ⟨_, k, _, h⟩
      · rwa [h]
      · rw [h]
        exact hw.issued p
  | same _ _ => exact hb

theorem Resized.fileOk {r : Word × Store} (hw : s.WellFormed) (hp : s.live p)
    (h : Resized s p n r) : r.2.FileOk p := by
  have hf := hw.files p hp
  have hn := n.isLt
  cases h with
  | @shrunk s₁ hlt h =>
      apply FileOk.sizedTo (e := s.entries p) (n := n) (setEntry_self _ _ _)
      intro i hi
      have hnum : n.toNat / 128 + 1 ≤ s.numblocks p := by rcases hf.extent with ⟨_, h⟩ | h <;> omega
      have hnlt := s.numblocks_lt p
      obtain ⟨b, hb⟩ := hf.mapped i (by omega)
      refine ⟨b, ?_⟩
      rw [holds, fileid, setEntry_self, setEntry_blocks, h.kept]
      · exact hb
      · intro k hk heq
        have := ofNat_inj (by omega) (by omega) (hb.2.symm.trans heq)
        omega
  | @grown s₁ hle hpos h =>
      apply FileOk.sizedTo (e := s.entries p) (n := n) (setEntry_self _ _ _)
      intro i hi
      by_cases hold : i < s.numblocks p
      · obtain ⟨b, hb⟩ := hf.mapped i hold
        have hown : (s.blocks b).vaFileid ≠ 0 := by rw [hb.1]; exact hp
        refine ⟨b, ?_⟩
        rw [holds, fileid, setEntry_self, setEntry_blocks, h.owned hown]
        exact hb
      · obtain ⟨b, hb⟩ := h.holds (k := i - s.numblocks p) (by omega)
        rw [show s.numblocks p + (i - s.numblocks p) = i by omega] at hb
        refine ⟨b, ?_⟩
        rw [holds, fileid, setEntry_self, setEntry_blocks, hb]
        exact ⟨rfl, rfl⟩
  | @failed m s₁ hle hpos hm h hfull =>
      apply hf.congr
      · rw [fileid, h.entries, fileid]
      · rw [h.entries]
      · rw [h.entries]
      · intro b hb
        have hown : (s.blocks b).vaFileid ≠ 0 := by rw [hb]; exact hp
        rw [h.owned hown]
        exact ⟨rfl, rfl⟩
  | same h hempty =>
      apply hf.congr
      · rw [fileid, setEntry_self]
        rfl
      · rw [setEntry_self]
        apply BitVec.eq_of_toNat_eq
        change (n.setWidth 64).toNat = (s.entries p).vaSize.toNat
        rw [hf.size, h, widen_toNat]
      · rw [setEntry_self]
        rfl
      · intro b _
        exact ⟨rfl, rfl⟩

theorem WellFormed.entrySetsize_live (hw : s.WellFormed) (hp : s.live p) (n : Word) :
    (s.entrySetsize p n).2.WellFormed := by
  have h := entrySetsize_resized hw hp n
  have htree := sameTree_entrySetsize s p n
  apply hw.rebuild htree.id htree.fileid (h.owners hw)
  intro q hq
  by_cases hqp : q = p
  · subst hqp
    exact h.fileOk hw hp
  · apply (hw.files q hq).congr (htree.fileid q)
    · rw [entrySetsize_entries_of_ne s n hqp]
    · rw [entrySetsize_entries_of_ne s n hqp]
    · intro b hb
      rw [h.blocks_of_ne hw hq hqp hb]
      exact ⟨rfl, rfl⟩

theorem WellFormed.entrySetsize_free (hw : s.WellFormed) (hp : ¬ s.live p) (n : Word) :
    (s.entrySetsize p n).2.WellFormed := by
  have hid : (s.entries p).vaFileid = 0 := not_not.mp hp
  have hown := resizeBlocks_zero s (s.entries p) n hid
  have hset : ∀ (t : Store) (e : Entry), t.WellFormed → t.entries = s.entries →
      e.vaFileid = 0 → (t.setEntry p e).WellFormed := by
    intro t e ht hentries he
    have hsame : ∀ q, (t.setEntry p e).fileid q = t.fileid q := by
      intro q
      by_cases hq : q = p
      · rw [hq, fileid, setEntry_self, he, fileid, hentries, hid]
      · rw [fileid, setEntry_of_ne _ _ hq, fileid]
    refine ht.rebuild rfl hsame ht.owners ?_
    intro q hq
    have hqp : q ≠ p := by
      rintro rfl
      rw [live, hentries] at hq
      exact hp hq
    refine (ht.files q hq).congr (hsame q) ?_ ?_ fun b _ => ⟨rfl, rfl⟩
    · rw [setEntry_of_ne _ _ hqp]
    · rw [setEntry_of_ne _ _ hqp]
  rw [entrySetsize_eq]
  split
  · split
    · exact hw.sameOwned hown
    · exact hset _ _ (hw.sameOwned hown) hown.entries hid
  · exact hset _ _ hw rfl hid

theorem WellFormed.entrySetsize (hw : s.WellFormed) (p : EntryPtr) (n : Word) :
    (s.entrySetsize p n).2.WellFormed := by
  by_cases hp : s.live p
  · exact hw.entrySetsize_live hp n
  · exact hw.entrySetsize_free hp n

end Preserve

end Store

end WiiJoybus
