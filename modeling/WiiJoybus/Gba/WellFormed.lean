import WiiJoybus.Gba.Resize

/-!
The invariant of every reachable store.

Ids are never issued twice, an entry's two sizes agree, and every block an
entry counts is there. It survives failed resizes and leaked blocks, and it is
all that reading and writing a file need to know about the history of the store.
-/

namespace WiiJoybus
namespace Store

def fileid (s : Store) (p : EntryPtr) : Word := (s.entries p).vaFileid

def numblocks (s : Store) (p : EntryPtr) : Nat := (s.entries p).file.numblocks.toNat

def datalen (s : Store) (p : EntryPtr) : Nat := (s.entries p).file.datalen.toNat

structure FileOk (s : Store) (p : EntryPtr) : Prop where
  size : (s.entries p).vaSize.toNat = s.datalen p
  extent : (s.numblocks p = 0 ∧ s.datalen p = 0) ∨ s.numblocks p = s.datalen p / 128 + 1
  mapped : ∀ i < s.numblocks p, ∃ b, s.holds (s.fileid p) (BitVec.ofNat 32 i) b

structure WellFormed (s : Store) : Prop where
  counter_pos : 1 ≤ s.id
  counter_le : s.id ≤ intMax
  issued : ∀ p, (s.fileid p).toNat < s.id
  owners : ∀ b, (s.blocks b).vaFileid.toNat < s.id
  unique : ∀ p q, s.live p → s.fileid q = s.fileid p → q = p
  files : ∀ p, s.live p → s.FileOk p

section Preserve

variable {s s' : Store} {p e : EntryPtr}

theorem findById_eq_some {id : Word} : s.findById id = some p ↔
    s.fileid p = id ∧ ∀ q < p, s.fileid q ≠ id := by
  unfold findById
  simp [fileid]

theorem WellFormed.findById (hw : s.WellFormed) (hp : s.live p) :
    s.findById (s.fileid p) = some p := by
  rw [findById_eq_some]
  refine ⟨rfl, ?_⟩
  intro q hq heq
  exact absurd (hw.unique p q hp heq) (Fin.ne_of_lt hq)

theorem numblocks_lt (s : Store) (p : EntryPtr) : s.numblocks p < 2 ^ 32 :=
  (s.entries p).file.numblocks.isLt

theorem datalen_lt (s : Store) (p : EntryPtr) : s.datalen p < 2 ^ 32 :=
  (s.entries p).file.datalen.isLt

theorem FileOk.congr (h : s.FileOk p) (hid : s'.fileid p = s.fileid p)
    (hsize : (s'.entries p).vaSize = (s.entries p).vaSize)
    (hfile : (s'.entries p).file = (s.entries p).file)
    (hblocks : ∀ b, (s.blocks b).vaFileid = s.fileid p →
      (s'.blocks b).vaFileid = (s.blocks b).vaFileid ∧ (s'.blocks b).idx = (s.blocks b).idx) :
    s'.FileOk p where
  size := by rw [hsize, datalen, hfile]; exact h.size
  extent := by rw [numblocks, datalen, hfile]; exact h.extent
  mapped i hi := by
    rw [numblocks, hfile] at hi
    obtain ⟨b, hb⟩ := h.mapped i hi
    obtain ⟨hbid, hbidx⟩ := hblocks b hb.1
    exact ⟨b, by rw [holds, hbid, hbidx, hid]; exact hb⟩

theorem WellFormed.sameFiles (hw : s.WellFormed) (h : SameFiles s s') : s'.WellFormed where
  counter_pos := h.id ▸ hw.counter_pos
  counter_le := h.id ▸ hw.counter_le
  issued p := by rw [fileid, h.fileid, h.id]; exact hw.issued p
  owners b := by rw [h.blocks, h.id]; exact hw.owners b
  unique p q hp hq := by
    rw [live, h.fileid] at hp
    rw [fileid, fileid, h.fileid, h.fileid] at hq
    exact hw.unique p q hp hq
  files p hp := by
    rw [live, h.fileid] at hp
    refine (hw.files p hp).congr (h.fileid p) (h.size p) (h.file p) ?_
    intro b _
    rw [h.blocks]
    exact ⟨rfl, rfl⟩

theorem WellFormed.sameShape (hw : s.WellFormed) (h : SameShape s s') : s'.WellFormed where
  counter_pos := h.id ▸ hw.counter_pos
  counter_le := h.id ▸ hw.counter_le
  issued p := by rw [fileid, h.entries, h.id]; exact hw.issued p
  owners b := by rw [h.fileid, h.id]; exact hw.owners b
  unique p q hp hq := by
    rw [live, h.entries] at hp
    rw [fileid, fileid, h.entries] at hq
    exact hw.unique p q hp hq
  files p hp := by
    rw [live, h.entries] at hp
    refine (hw.files p hp).congr ?_ ?_ ?_ fun b _ => ⟨h.fileid b, h.idx b⟩
    all_goals simp only [fileid, h.entries]

theorem WellFormed.sameOwned (hw : s.WellFormed) (h : SameOwned s s') : s'.WellFormed where
  counter_pos := h.id ▸ hw.counter_pos
  counter_le := h.id ▸ hw.counter_le
  issued p := by rw [fileid, h.entries, h.id]; exact hw.issued p
  owners b := by
    rw [h.id]
    by_cases hb : (s.blocks b).vaFileid = 0
    · rw [h.free b hb]
      exact hw.counter_pos
    · rw [h.owned b hb]
      exact hw.owners b
  unique p q hp hq := by
    rw [live, h.entries] at hp
    rw [fileid, fileid, h.entries] at hq
    exact hw.unique p q hp hq
  files p hp := by
    rw [live, h.entries] at hp
    refine (hw.files p hp).congr ?_ ?_ ?_ ?_
    case refine_4 =>
      intro b hb
      rw [h.owned b (hb ▸ hp)]
      exact ⟨rfl, rfl⟩
    all_goals simp only [fileid, h.entries]

theorem initAt_entries (s : Store) (p : EntryPtr) (vt : Vtype) (rand : Word64) (q : EntryPtr) :
    (s.initAt p vt rand).entries q =
      if q = p then freshEntry (s.entries p) s.id vt rand else s.entries q :=
  setEntry_apply s p q _

theorem WellFormed.fresh (hw : s.WellFormed) : (BitVec.ofNat 32 s.id : Word).toNat = s.id := by
  have := hw.counter_le
  rw [BitVec.toNat_ofNat]
  simp only [intMax] at this
  omega

theorem WellFormed.initAt (hw : s.WellFormed) {vt : Vtype} {rand : Word64} (hid : s.id ≠ intMax) :
    (s.initAt p vt rand).WellFormed := by
  have hfresh := hw.fresh
  have hle := hw.counter_le
  have hself : (s.initAt p vt rand).fileid p = BitVec.ofNat 32 s.id := by
    rw [fileid, initAt_entries, if_pos rfl]
    rfl
  have hother : ∀ q, q ≠ p → (s.initAt p vt rand).entries q = s.entries q := by
    intro q hq
    rw [initAt_entries, if_neg hq]
  constructor
  case counter_pos => exact Nat.le_add_left 1 s.id
  case counter_le =>
    change s.id + 1 ≤ intMax
    omega
  case issued =>
    intro q
    change _ < s.id + 1
    by_cases hq : q = p
    · rw [hq, hself, hfresh]
      omega
    · rw [fileid, hother q hq]
      exact Nat.lt_succ_of_lt (hw.issued q)
  case owners =>
    intro b
    exact Nat.lt_succ_of_lt (hw.owners b)
  case unique =>
    intro q r hq hr
    by_cases hqp : q = p <;> by_cases hrp : r = p
    · rw [hqp, hrp]
    · rw [hqp, hself, fileid, hother r hrp] at hr
      have := hw.issued r
      rw [fileid, hr, hfresh] at this
      omega
    · rw [hrp, hself, fileid, hother q hqp] at hr
      have := hw.issued q
      rw [fileid, ← hr, hfresh] at this
      omega
    · rw [fileid, fileid, hother r hrp, hother q hqp] at hr
      rw [live, hother q hqp] at hq
      exact hw.unique q r hq hr
  case files =>
    intro q hq
    by_cases hqp : q = p
    · have hentry : (s.initAt p vt rand).entries q = freshEntry (s.entries p) s.id vt rand := by
        rw [initAt_entries, if_pos hqp]
      refine ⟨?_, Or.inl ⟨?_, ?_⟩, ?_⟩
      · rw [datalen, hentry]
        rfl
      · rw [numblocks, hentry]
        rfl
      · rw [datalen, hentry]
        rfl
      · intro i hi
        rw [numblocks, hentry] at hi
        exact absurd hi (Nat.not_lt_zero i)
    · rw [live, hother q hqp] at hq
      refine (hw.files q hq).congr ?_ ?_ ?_ fun b _ => ⟨rfl, rfl⟩
      all_goals simp only [fileid, hother q hqp]

end Preserve

end Store

end WiiJoybus
