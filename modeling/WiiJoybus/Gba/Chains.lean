import WiiJoybus.Library.Cursor
import WiiJoybus.Gba.Names
import WiiJoybus.Gba.Removal

/-!
What CREATE and RM make of a directory's chain.

A new entry takes the first free slot, and a free slot can still be on a chain: that
chain then ends there. RM links the entry before the removed one to what comes after
it. Both find their place by other means than the chain of the directory in question,
so each has a condition under which the chain stays one.
-/

namespace WiiJoybus
open LinkedTable

namespace Store

/-- The slot that is taken is not both on the chain and on the walk that is appended to. -/
def CreateKeeps (s : Store) (l : List EntryPtr) (m : Message) : Prop :=
  ∀ vt req parent ent, m.creates = some (vt, req) → s.findById req.parentFileid = some parent →
    s.findById 0 = some ent → ent ∈ l → parent ≠ ent →
    ∀ n, nth s.next n (s.child parent) ≠ some ent

/-- What is cut out of the chain moves no later entry to before `pos`. -/
def RmKeeps (s : Store) (l : List EntryPtr) (pos : Nat) (m : Message) : Prop :=
  ∀ parent res prev j, s.removes m = some (parent, res) →
    s.scan (s.precedes res) (s.child parent) = some (some prev) → l[j]? = some prev →
    ∃ k, j < k ∧ s.next res = l[k]? ∧ Cursor.Spares l.length pos j k

/-- Some link leads to the slot. -/
def Targets (s : Store) (q : EntryPtr) : Prop := ∃ p, s.next p = some q ∨ s.child p = some q

/-- The root is not an entry of any directory. -/
def RootUnlinked (s : Store) : Prop := ∀ q, s.Targets q → s.fileid q ≠ 1

section Links

variable {s s' : Store} {d p q parent ent res : EntryPtr} {l : List EntryPtr} {pos : Nat}
variable {vt : Vtype} {rand : Word64} {m : Message} {j : Junk}

theorem targets_of_nth {n : Nat} (h : nth s.next n (s.child d) = some q) : s.Targets q :=
  (target_of_nth h).elim (fun hstart => ⟨d, Or.inr hstart⟩) fun ⟨p, hp⟩ => ⟨p, Or.inl hp⟩

theorem targets_congr (hnext : ∀ p, s'.next p = s.next p) (hchild : ∀ p, s'.child p = s.child p)
    (h : s'.Targets q) : s.Targets q := by
  obtain ⟨p, hp⟩ := h
  rw [hnext, hchild] at hp
  exact ⟨p, hp⟩

theorem targets_initAt (h : (s.initAt ent vt rand).Targets q) : s.Targets q := by
  obtain ⟨p, hp⟩ := h
  rw [next, child, initAt_entries] at hp
  split at hp
  · cases hp with
    | inl hp => cases hp
    | inr hp => cases hp
  · exact ⟨p, hp⟩

theorem targets_setNext {n : Option EntryPtr} (h : (s.setNext p n).Targets q) :
    s.Targets q ∨ n = some q := by
  obtain ⟨a, ha⟩ := h
  rw [setNext_next, setNext_child] at ha
  by_cases hap : a = p
  · rw [if_pos hap] at ha
    exact ha.elim Or.inr fun hc => Or.inl ⟨a, Or.inr hc⟩
  · rw [if_neg hap] at ha
    exact Or.inl ⟨a, ha⟩

theorem targets_setNlink {k : Word} (h : (s.setNlink p k).Targets q) : s.Targets q :=
  targets_congr (sameLinks_setNlink s p k).next (sameLinks_setNlink s p k).child h

theorem targets_entryAppend (ha : s.entryAppend parent ent = some s') (h : s'.Targets q) :
    s.Targets q ∨ q = ent := by
  rcases entryAppend_some ha with ⟨_, rfl⟩ | ⟨_, n, k, _, _, rfl⟩
  · obtain ⟨a, ha⟩ := h
    rw [setChild_next, setChild_child] at ha
    by_cases hap : a = parent
    · rw [if_pos hap] at ha
      exact ha.imp (fun hn => ⟨a, Or.inl hn⟩) fun hc => (Option.some.inj hc).symm
    · rw [if_neg hap] at ha
      exact Or.inl ⟨a, ha⟩
  · exact (targets_setNext (targets_setNlink h)).imp_right fun hn => (Option.some.inj hn).symm

theorem targets_entryRemove (hr : s.entryRemove parent res = some s') (h : s'.Targets q) :
    s.Targets q := by
  obtain ⟨prev, k, _, rfl⟩ := entryRemove_some hr
  cases prev with
  | none => exact targets_setNlink h
  | some prev =>
      exact (targets_setNext (targets_setNlink h)).elim (fun hold => hold) fun hn =>
        ⟨res, Or.inl hn⟩

theorem RootUnlinked.mono (h : s.RootUnlinked) (htargets : ∀ q, s'.Targets q → s.Targets q)
    (hfileid : ∀ q, s'.fileid q = s.fileid q ∨ s'.fileid q = 0) : s'.RootUnlinked := by
  intro q hq hone
  rcases hfileid q with hsame | hzero
  · exact h q (htargets q hq) (hsame ▸ hone)
  · exact absurd (hzero ▸ hone) (by decide)

theorem RootUnlinked.sameLinks (h : s.RootUnlinked) (hs : SameLinks s s') : s'.RootUnlinked :=
  h.mono (fun _ => targets_congr hs.next hs.child) fun q => Or.inl (hs.fileid q)

theorem RootUnlinked.create (h : s.RootUnlinked) (hw : s.WellFormed) (hid : 1 < s.id)
    (ha : (s.initAt ent vt rand).entryAppend parent ent = some s') : s'.RootUnlinked := by
  intro q hq
  rw [fileid, (sameFiles_entryAppend ha).fileid]
  change (s.initAt ent vt rand).fileid q ≠ 1
  rw [initAt_fileid]
  by_cases hqe : q = ent
  · rw [if_pos hqe]
    intro hone
    have hfresh := hw.fresh
    rw [hone] at hfresh
    exact absurd hfresh (Nat.ne_of_lt hid)
  · rw [if_neg hqe]
    exact h q (targets_initAt ((targets_entryAppend ha hq).resolve_right hqe))

theorem RootUnlinked.change (h : s.RootUnlinked) (hw : s.WellFormed) (hid : 1 < s.id)
    (hc : s.Change m s') : s'.RootUnlinked := by
  cases hc with
  | keep => exact h
  | create _ _ hi ha =>
      obtain ⟨_, _, rfl⟩ := entryInit_some hi
      exact (h.create hw hid ha).sameLinks (sameLinks_setName _ _ _ _)
  | remove _ hr =>
      exact h.mono (fun q => targets_entryRemove hr) fun q =>
        Or.inl ((sameFiles_entryRemove hr).fileid q)
  | @reclaim p _ =>
      refine h.mono (fun q => targets_congr ?_ ?_) fun q => ?_
      · intro a
        rw [next, (entryReclaim_sameOwned hw p).entries]
        exact setEntry_field Entry.next s p { s.entries p with vaFileid := 0 } rfl a
      · intro a
        rw [child, (entryReclaim_sameOwned hw p).entries]
        exact setEntry_field Entry.child s p { s.entries p with vaFileid := 0 } rfl a
      · rw [entryReclaim_fileid hw]
        exact (ite_eq_or_eq _ _ _).symm
  | resize _ => exact h.sameLinks (sameTree_entrySetsize _ _ _).links
  | copy _ hs => exact h.sameLinks hs.tree.links

theorem Change.counter_le (hw : s.WellFormed) (hc : s.Change m s') : s.id ≤ s'.id := by
  cases hm : m.creates with
  | none => exact Nat.le_of_eq (hc.fileid hw hm rootSlot).2.symm
  | some x =>
      cases hc with
      | create _ _ hi ha =>
          obtain ⟨_, _, rfl⟩ := entryInit_some hi
          rw [(fileid_created ha rootSlot).2]
          exact Nat.le_succ s.id
      | keep => exact Nat.le_refl s.id
      | remove hr => exact absurd hr (by simp [(alone_of_creates hm).2.2])
      | reclaim hr => exact absurd hr (by simp [(alone_of_creates hm).2.1])
      | resize hr => exact absurd hr (by simp [(alone_of_creates hm).1])
      | copy hb =>
          subst hb
          cases hm

theorem boot_rootUnlinked {rootGen testGen : Word64} (h : boot rootGen testGen = some s) :
    s.RootUnlinked := by
  obtain ⟨root, s₁, test, s₂, s₃, hroot, htest, happ, rfl⟩ := boot_some h
  obtain ⟨_, hid, rfl⟩ := entryInit_some hroot
  obtain ⟨_, _, rfl⟩ := entryInit_some htest
  have hblank : (blank.initAt root .dir rootGen).RootUnlinked := by
    intro q hq
    obtain ⟨p, hp⟩ := targets_initAt hq
    exact absurd hp (by simp [next, child, blank])
  have hcreate := hblank.create (blank_wellFormed.initAt hid) Nat.one_lt_two happ
  exact hcreate.sameLinks (sameLinks_setEntry _ _ _ rfl rfl rfl rfl)

theorem scan_initAt_ne {first : EntryPtr} {f : EntryPtr → Bool}
    (hfirst : ((s.initAt ent vt rand).entries parent).child = some first)
    (hkeep : parent ≠ ent → ∀ n, nth s.next n (s.child parent) ≠ some ent) :
    (s.initAt ent vt rand).scan f (some first) ≠ some (some ent) := by
  intro hscan
  unfold scan at hscan
  obtain ⟨n, hn⟩ := exists_nth_of_scan hscan
  have hne : parent ≠ ent := by
    rintro rfl
    rw [initAt_entries, if_pos rfl] at hfirst
    cases hfirst
  have hwalk := hkeep hne
  rw [initAt_entries, if_neg hne] at hfirst
  change s.child parent = some first at hfirst
  rw [hfirst] at hwalk
  have hsame : ∀ k a, nth s.next k (some first) = some a →
      (s.initAt ent vt rand).next a = s.next a := by
    intro k a ha
    have hane : a ≠ ent := by
      rintro rfl
      exact hwalk k ha
    rw [next, initAt_entries, if_neg hane, next]
  rw [nth_congr hsame] at hn
  exact hwalk n hn

/-- Creating an entry cuts the chain at the slot it takes, and may append it. -/
theorem exists_chain_created {s₂ : Store} (hchain : Chain s.next (s.child d) l) (hne : d ≠ ent)
    (hkeep : ent ∈ l → parent ≠ ent → ∀ n, nth s.next n (s.child parent) ≠ some ent)
    (ha : (s.initAt ent vt rand).entryAppend parent ent = some s₂) :
    ∃ l', Chain s₂.next (s₂.child d) l' ∧ (l' = before l ent ∨ l' = before l ent ++ [ent]) := by
  obtain ⟨l', hl', hshape⟩ := exists_chain_initAt vt rand hchain hne
  have hlast : (s.initAt ent vt rand).next ent = none := by
    rw [next, initAt_entries, if_pos rfl]
    rfl
  have hshape' := hshape.imp_right And.right
  rcases entryAppend_some ha with ⟨hnone, rfl⟩ | ⟨first, n, k, hfirst, hscan, rfl⟩
  · rw [setChild_next, setChild_child]
    by_cases hd : d = parent
    · subst hd
      change (s.initAt ent vt rand).child d = none at hnone
      rw [hnone] at hl'
      have hnil : before l ent = [] := by
        have := hl'.of_none
        rcases hshape' with rfl | rfl
        · exact this
        · exact absurd this (by simp)
      rw [if_pos rfl, hnil]
      exact ⟨[ent], .cons (by rw [hlast]; exact .nil), Or.inr rfl⟩
    · rw [if_neg hd]
      exact ⟨l', hl', hshape'⟩
  · rw [setNlink_next, setNlink_child, setNext_child]
    have hend : (s.initAt ent vt rand).next n = none := by
      unfold scan at hscan
      simpa using scan_true hscan
    by_cases hn : n ∈ l'
    · obtain ⟨r, rfl⟩ := hl'.eq_snoc hn hend
      by_cases hnent : n = ent
      · -- the walk has come to the new entry, so it is linked to itself
        subst hnent
        have hmem : n ∈ l := by
          rcases hshape with h | h
          · exact absurd rfl (ne_of_mem_before (h ▸ hn))
          · exact h.1
        exact absurd hscan (scan_initAt_ne hfirst (hkeep hmem))
      · have hr : r ++ [n] = before l ent := by
          rcases hshape' with h | h
          · exact h
          · exact absurd (List.cons.inj (List.append_inj_right' h rfl)).1 hnent
        exact ⟨r ++ [n, ent], chain_setNext_snoc hl' hnent hlast, Or.inr (by simp [← hr])⟩
    · refine ⟨l', hl'.congr fun b hb => ?_, hshape'⟩
      rw [setNext_next, if_neg]
      rintro rfl
      exact hn hb

/-- RM cuts something out of the chain or leaves it as it is. -/
theorem exists_chain_removed (hchain : Chain s.next (s.child d) l)
    (hr : s.entryRemove parent res = some s')
    (hkeep : ∀ prev j, s.scan (s.precedes res) (s.child parent) = some (some prev) →
      l[j]? = some prev → ∃ k, j < k ∧ s.next res = l[k]? ∧ Cursor.Spares l.length pos j k) :
    ∃ l', Chain s'.next (s'.child d) l' ∧ (l' = l ∨ ∃ j k, j < l.length ∧ j < k ∧
      Cursor.Spares l.length pos j k ∧ l' = l.take (j + 1) ++ l.drop k) := by
  obtain ⟨prev, k, hscan, rfl⟩ := entryRemove_some hr
  rw [setNlink_next, setNlink_child]
  cases prev with
  | none => exact ⟨l, hchain, Or.inl rfl⟩
  | some prev =>
      rw [unlinkAfter, setNext_child]
      have hsame : ∀ b, b ≠ prev → (s.setNext prev (s.next res)).next b = s.next b := by
        intro b hb
        rw [setNext_next, if_neg hb]
      by_cases hmem : prev ∈ l
      · obtain ⟨j, hj⟩ := List.getElem?_of_mem hmem
        obtain ⟨k, hjk, hnext, hspares⟩ := hkeep prev j hscan hj
        have hlt : j < l.length := (List.getElem?_eq_some_iff.mp hj).1
        refine ⟨_, hchain.relink hj hjk ?_ fun b _ => hsame b,
          Or.inr ⟨j, k, hlt, hjk, hspares, rfl⟩⟩
        rw [setNext_next, if_pos rfl, hnext]
      · refine ⟨l, hchain.congr fun b hb => hsame b ?_, Or.inl rfl⟩
        rintro rfl
        exact hmem hb

end Links

end Store

theorem Gba.Reachable.rootUnlinked {g : Gba} (h : g.Reachable) : g.store.RootUnlinked := by
  induction h with
  | boot h => exact Store.boot_rootUnlinked h
  | @step g g' j m h hs ih =>
      have hreach : g.store.Reachable := ⟨g.phase, h⟩
      exact ih.change hreach.wellFormed (counter_of_reachable hreach) (Gba.receive_change hs)

end WiiJoybus
