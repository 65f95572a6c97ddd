import WiiJoybus.Gba.Reclaim

/-!
File ids.

The ledger of a run lists every id that has been issued, with the slot of its
entry, and every id that has been reclaimed. Slots come back, ids do not: the
counter is ahead of everything in the ledger.
-/

namespace WiiJoybus
namespace Store

/-- The id CREATE or MKDIR replies with, and the slot of the new entry. -/
def issues (j : Junk) (s : Store) (m : Message) : Option (Word × EntryPtr) :=
  match m.creates with
  | none => none
  | some (vt, req) =>
      match s.handleCreateRequest j vt req with
      | none => none
      | some (resp, _) =>
          if resp.exists_ = 1 then (s.findById 0).map fun ent => (resp.vaFileid, ent) else none

end Store

structure Ledger where
  issued : List (Word × EntryPtr)
  reclaimed : List Word

namespace Store

def ledgerAfter (j : Junk) (s : Store) (m : Message) (l : Ledger) : Ledger where
  issued := (s.issues j m).toList ++ l.issued
  reclaimed := (s.reclaims m).toList.map s.fileid ++ l.reclaimed

end Store

/-- Runs from boot with their ledger; `main` itself issues the first two ids. -/
inductive Gba.Booked : Gba → Ledger → Prop where
  | boot {rootGen testGen s} (h : Store.boot rootGen testGen = some s) :
      Booked ⟨s, .dispatch⟩ ⟨[(2, testSlot), (1, rootSlot)], []⟩
  | step {g g' j m l} (h : Booked g l) (hs : g.receive j m = some g') :
      Booked g' (g.store.ledgerAfter j m l)

namespace Store

/-- The ledger agrees with the entry table. -/
structure Books (s : Store) (l : Ledger) : Prop where
  wellFormed : s.WellFormed
  nodup : (l.issued.map Prod.fst).Nodup
  bounds : ∀ x ∈ l.issued, x.1 ≠ 0 ∧ x.1.toNat < s.id
  live : ∀ p, s.live p → (s.fileid p, p) ∈ l.issued
  held : ∀ x ∈ l.issued, x.1 ∉ l.reclaimed → s.fileid x.2 = x.1
  gone : ∀ x ∈ l.issued, x.1 ∈ l.reclaimed → ∀ p, s.fileid p ≠ x.1
  past : ∀ id ∈ l.reclaimed, id.toNat < s.id

section Step

variable {s s' : Store} {l : Ledger} {m : Message} {j : Junk} {p : EntryPtr}

theorem reclaims_of_creates {x : Vtype × CreateReq} (h : m.creates = some x) :
    s.reclaims m = none :=
  (alone_of_creates h).2.1

/-- Only creating gives out an id, and only reclaiming takes one back. -/
theorem Change.fileid (hw : s.WellFormed) (h : s.Change m s') (hm : m.creates = none)
    (q : EntryPtr) :
    s'.fileid q = (if s.reclaims m = some q then 0 else s.fileid q) ∧ s'.id = s.id := by
  cases h with
  | keep _ hc _ => rw [hc]; exact ⟨rfl, rfl⟩
  | create hm' => rw [hm] at hm'; cases hm'
  | remove hr h =>
      rw [(alone_of_removes hr).2]
      exact ⟨(sameFiles_entryRemove h).fileid q, (sameFiles_entryRemove h).id⟩
  | @reclaim p hp =>
      rw [entryReclaim_fileid hw, hp, (entryReclaim_sameOwned hw p).id]
      refine ⟨?_, rfl⟩
      by_cases hq : q = p
      · rw [if_pos hq, if_pos (by rw [hq])]
      · rw [if_neg hq, if_neg fun h => hq (Option.some.inj h).symm]
  | @resize p n hz =>
      rw [(alone_of_resizes hz).1]
      exact ⟨(sameTree_entrySetsize s p n).fileid q, (sameTree_entrySetsize s p n).id⟩
  | copy hb hs =>
      subst hb
      exact ⟨hs.tree.fileid q, hs.id⟩

theorem initAt_fileid (s : Store) (p : EntryPtr) (vt : Vtype) (rand : Word64) (q : EntryPtr) :
    (s.initAt p vt rand).fileid q = if q = p then BitVec.ofNat 32 s.id else s.fileid q := by
  rw [fileid, initAt_entries]
  split <;> rfl

theorem fileid_created {parent ent : EntryPtr} {vt : Vtype} {s₂ : Store} {name : Name}
    (ha : (s.initAt ent vt j.rand).entryAppend parent ent = some s₂) (q : EntryPtr) :
    (setName j s₂ ent name).fileid q =
        (if q = ent then BitVec.ofNat 32 s.id else s.fileid q) ∧
      (setName j s₂ ent name).id = s.id + 1 := by
  have hs := (sameFiles_entryAppend ha).trans (sameFiles_setName j s₂ ent name)
  exact ⟨(hs.fileid q).trans (initAt_fileid s ent vt j.rand q), hs.id⟩

theorem Books.findById (h : s.Books l) {id : Word} (hx : (id, p) ∈ l.issued) :
    (id ∉ l.reclaimed → s.findById id = some p) ∧
      (id ∈ l.reclaimed → s.findById id = none) := by
  constructor
  · intro hr
    have hid : s.fileid p = id := h.held _ hx hr
    have hlive : s.live p := by
      change s.fileid p ≠ 0
      rw [hid]
      exact (h.bounds _ hx).1
    rw [← hid]
    exact h.wellFormed.findById hlive
  · intro hr
    cases hfind : s.findById id with
    | none => rfl
    | some q => exact absurd (findById_fileid hfind) (h.gone _ hx hr q)

/-- The counter is ahead of every id in the ledger. -/
theorem Books.fresh (h : s.Books l) : BitVec.ofNat 32 s.id ∉ l.issued.map Prod.fst := by
  intro hmem
  obtain ⟨x, hx, heq⟩ := List.mem_map.mp hmem
  have hlt := (h.bounds x hx).2
  rw [heq, h.wellFormed.fresh] at hlt
  omega

theorem Books.create (h : s.Books l) {ent : EntryPtr} (hfree : s.findById 0 = some ent)
    (hw : s'.WellFormed)
    (hids : ∀ q, s'.fileid q = if q = ent then BitVec.ofNat 32 s.id else s.fileid q)
    (hcount : s'.id = s.id + 1) :
    s'.Books ⟨(BitVec.ofNat 32 s.id, ent) :: l.issued, l.reclaimed⟩ := by
  have hnat := h.wellFormed.fresh
  have hfresh := h.fresh
  have hzero : s.fileid ent = 0 := findById_fileid hfree
  constructor
  case wellFormed => exact hw
  case nodup => exact List.nodup_cons.mpr ⟨hfresh, h.nodup⟩
  case bounds =>
    intro x hx
    rw [hcount]
    rcases List.mem_cons.mp hx with rfl | hx
    · refine ⟨fun h0 => ?_, by rw [hnat]; omega⟩
      have hpos := h.wellFormed.counter_pos
      change BitVec.ofNat 32 s.id = 0 at h0
      rw [h0] at hnat
      simp at hnat
      omega
    · exact ⟨(h.bounds x hx).1, Nat.lt_succ_of_lt (h.bounds x hx).2⟩
  case live =>
    intro q hq
    change Store.fileid _ q ≠ 0 at hq
    rw [hids] at hq ⊢
    by_cases hqe : q = ent
    · rw [if_pos hqe, hqe]
      exact List.mem_cons_self
    · rw [if_neg hqe] at hq ⊢
      exact List.mem_cons_of_mem _ (h.live q hq)
  case held =>
    intro x hx hr
    rw [hids]
    rcases List.mem_cons.mp hx with rfl | hx
    · rw [if_pos rfl]
    · have hold := h.held x hx hr
      rw [if_neg, hold]
      intro heq
      rw [heq, hzero] at hold
      exact (h.bounds x hx).1 hold.symm
  case gone =>
    intro x hx hr q
    rw [hids]
    rcases List.mem_cons.mp hx with rfl | hx
    · have hlt := h.past _ hr
      rw [hnat] at hlt
      omega
    · split
      · intro heq
        exact hfresh (List.mem_map.mpr ⟨x, hx, heq.symm⟩)
      · exact h.gone x hx hr q
  case past =>
    intro id hid
    rw [hcount]
    exact Nat.lt_succ_of_lt (h.past id hid)

theorem Books.keep (h : s.Books l) (hc : s.Change m s') (hm : m.creates = none) :
    s'.Books ⟨l.issued, (s.reclaims m).toList.map s.fileid ++ l.reclaimed⟩ := by
  have hids := fun q => (hc.fileid h.wellFormed hm q).1
  have hcount := (hc.fileid h.wellFormed hm rootSlot).2
  have hmem : ∀ id, id ∈ (s.reclaims m).toList.map s.fileid ++ l.reclaimed ↔
      (∃ p, s.reclaims m = some p ∧ s.fileid p = id) ∨ id ∈ l.reclaimed := by
    intro id
    simp [Option.mem_toList]
  constructor
  case wellFormed => exact h.wellFormed.change hc
  case nodup => exact h.nodup
  case bounds => exact fun x hx => hcount ▸ h.bounds x hx
  case live =>
    intro q hq
    change Store.fileid _ q ≠ 0 at hq
    rw [hids] at hq ⊢
    by_cases hr : s.reclaims m = some q
    · exact absurd (if_pos hr) hq
    · rw [if_neg hr] at hq ⊢
      exact h.live q hq
  case held =>
    intro x hx hr
    rw [hmem, not_or] at hr
    have hold := h.held x hx hr.2
    rw [hids, if_neg, hold]
    exact fun hq => hr.1 ⟨x.2, hq, hold⟩
  case gone =>
    intro x hx hr q hq
    rw [hids] at hq
    split at hq
    · exact (h.bounds x hx).1 hq.symm
    · rename_i hne
      rcases (hmem x.1).mp hr with ⟨p, hp, heq⟩ | hr
      · have hlive : s.live p := by
          change s.fileid p ≠ 0
          rw [heq]
          exact (h.bounds x hx).1
        exact hne (by rw [hp, h.wellFormed.unique p q hlive (hq.trans heq.symm)])
      · exact h.gone x hx hr q hq
  case past =>
    intro id hid
    rw [hcount]
    rcases (hmem id).mp hid with ⟨p, _, rfl⟩ | hid
    · exact h.wellFormed.issued p
    · exact h.past id hid

theorem handleCreateRequest_fileid {vt : Vtype} {req : CreateReq} {r : CreateResp × Store}
    (hr : s.handleCreateRequest j vt req = some r) :
    (r.1.exists_ = 0 ∧ r.2 = s) ∨
    ∃ parent ent s₂, s.findById 0 = some ent ∧
      (s.initAt ent vt j.rand).entryAppend parent ent = some s₂ ∧
      r.2 = setName j s₂ ent req.name ∧ r.1.exists_ = 1 ∧
      r.1.vaFileid = BitVec.ofNat 32 s.id := by
  rcases handleCreateRequest_cases hr with
    ⟨hex, hsame, _⟩ | ⟨parent, ent, s₂, hp, hfree, hid, ha, rfl⟩
  · exact Or.inl ⟨hex, hsame⟩
  · have hself : (setName j s₂ ent req.name).fileid ent = _ := (fileid_created ha ent).1
    rw [if_pos rfl] at hself
    exact Or.inr ⟨parent, ent, s₂, hfree, ha, rfl, rfl, hself⟩

theorem Books.receive {g g' : Gba} (h : g.store.Books l) (hs : g.receive j m = some g') :
    g'.store.Books (g.store.ledgerAfter j m l) := by
  have hc := Gba.receive_change hs
  cases hm : m.creates with
  | none =>
      have hissues : g.store.issues j m = none := by simp only [issues, hm]
      rw [ledgerAfter, hissues]
      exact h.keep hc hm
  | some x =>
      obtain ⟨vt, req⟩ := x
      obtain ⟨r, hr, hstore⟩ : ∃ r, g.store.handleCreateRequest j vt req = some r ∧
          g'.store = r.2 := by
        cases m with
        | chunk b => cases hm
        | request q =>
            simp only [Gba.receive] at hs
            split at hs
            · cases q with
              | create req' | mkdir req' =>
                  cases hm
                  obtain ⟨r, hr, rfl⟩ := Option.map_eq_some_iff.mp hs
                  exact ⟨r, hr, rfl⟩
              | _ => cases hm
            · cases hs
      rw [ledgerAfter, reclaims_of_creates hm, hstore]
      rcases handleCreateRequest_fileid hr with
        ⟨hex, hsame⟩ | ⟨parent, ent, s₂, hfree, ha, hset, hex, hid⟩
      · have hissues : g.store.issues j m = none := by simp [issues, hm, hr, hex]
        rw [hissues, hsame]
        exact h
      · have hissues : g.store.issues j m = some (BitVec.ofNat 32 g.store.id, ent) := by
          simp only [issues, hm, hr, hfree, if_pos hex, hid, Option.map_some]
        rw [hissues, hset]
        rw [hstore, hset] at hc
        exact h.create hfree (h.wellFormed.change hc) (fun q => (fileid_created ha q).1)
          (fileid_created ha ent).2

theorem blank_books : blank.Books ⟨[], []⟩ where
  wellFormed := blank_wellFormed
  nodup := List.nodup_nil
  bounds _ hx := absurd hx List.not_mem_nil
  live p hp := absurd (blank_fileid p) hp
  held _ hx := absurd hx List.not_mem_nil
  gone _ hx := absurd hx List.not_mem_nil
  past _ hid := absurd hid List.not_mem_nil

theorem findById_blank : blank.findById 0 = some rootSlot := by decide +kernel

theorem findById_root (vt : Vtype) (rand : Word64) :
    (blank.initAt rootSlot vt rand).findById 0 = some testSlot := by
  rw [findById_eq_some]
  constructor
  · rw [initAt_fileid, if_neg (by decide)]
    rfl
  · intro q hq
    have hroot : q = rootSlot := by
      apply Fin.ext
      have hlt : q.val < 1 := hq
      simp only [rootSlot]
      omega
    rw [hroot, initAt_fileid, if_pos rfl]
    decide

theorem boot_books {rootGen testGen : Word64} (h : boot rootGen testGen = some s) :
    s.Books ⟨[(2, testSlot), (1, rootSlot)], []⟩ := by
  have hw := boot_wellFormed h
  obtain ⟨root, s₁, test, s₂, s₃, hroot, htest, happ, rfl⟩ := boot_some h
  obtain ⟨hfree, hid, rfl⟩ := entryInit_some hroot
  obtain ⟨hfree', _, rfl⟩ := entryInit_some htest
  obtain rfl : rootSlot = root := Option.some.inj (findById_blank.symm.trans hfree)
  obtain rfl : testSlot = test :=
    Option.some.inj ((findById_root .dir rootGen).symm.trans hfree')
  have hinit : (blank.initAt rootSlot .dir rootGen).WellFormed := blank_wellFormed.initAt hid
  have hbooks := blank_books.create hfree hinit (initAt_fileid blank rootSlot .dir rootGen) rfl
  have hs := (sameFiles_entryAppend happ).trans (sameFiles_setEntry s₃ testSlot
    { s₃.entries testSlot with
      name := CString.snprintf (fun text => text) testName (s₃.entries testSlot).name }
    rfl rfl rfl)
  exact hbooks.create hfree' hw
    (fun q => (hs.fileid q).trans (initAt_fileid _ testSlot .reg testGen q)) hs.id

end Step

end Store

theorem Gba.Booked.books {g : Gba} {l : Ledger} (h : g.Booked l) : g.store.Books l := by
  induction h with
  | boot h => exact Store.boot_books h
  | step _ hs ih => exact ih.receive hs

theorem booked_root {g : Gba} (h : g.Reachable) :
    ∃ l, g.Booked l ∧ ((1 : Word), rootSlot) ∈ l.issued := by
  induction h with
  | boot h => exact ⟨_, .boot h, List.mem_cons_of_mem _ List.mem_cons_self⟩
  | step _ hs ih =>
      obtain ⟨l, hl, hroot⟩ := ih
      exact ⟨_, .step hl hs, List.mem_append_right _ hroot⟩

theorem counter_of_reachable {s : Store} (hs : s.Reachable) : 1 < s.id := by
  obtain ⟨phase, hr⟩ := hs
  obtain ⟨l, hl, hroot⟩ := booked_root hr
  exact (hl.books.bounds _ hroot).2

/-- In every run the live entries have ids of their own, CREATE and MKDIR reply with ids
that were never issued before, and an id that was issued stands for the entry it was issued
for until this is reclaimed, and for nothing afterwards. -/
theorem booked_ids {g : Gba} {l : Ledger} (h : g.Booked l) :
    (∀ p, g.store.live p → g.store.fileid p ≠ 0 ∧ (g.store.fileid p, p) ∈ l.issued ∧
      ∀ q, g.store.fileid q = g.store.fileid p → q = p) ∧
    (∀ j vt req resp s', g.store.handleCreateRequest j vt req = some (resp, s') →
      resp.exists_ = 1 → resp.vaFileid ∉ l.issued.map Prod.fst) ∧
    (l.issued.map Prod.fst).Nodup ∧
    ∀ id p, (id, p) ∈ l.issued →
      (id ∉ l.reclaimed → g.store.findById id = some p) ∧
        (id ∈ l.reclaimed → g.store.findById id = none) := by
  have hb := h.books
  refine ⟨?_, ?_, hb.nodup, fun id p hx => hb.findById hx⟩
  · exact fun p hp => ⟨hp, hb.live p hp, fun q => hb.wellFormed.unique p q hp⟩
  · intro j vt req resp s' hr hex
    rcases Store.handleCreateRequest_fileid hr with ⟨hno, _⟩ | ⟨_, _, _, _, _, _, _, hid⟩
    · rw [hex] at hno
      cases hno
    · rw [hid]
      exact hb.fresh

/-- Once the test file is reclaimed its id stands for nothing. -/
theorem booked_ids_reclaimed :
    ∃ g : Gba, bootRun [.request (.reclaim ⟨2⟩)] = some g ∧ g.store.findById 2 = none := by
  obtain ⟨g, hg⟩ := Option.isSome_iff_exists.mp
    (show (bootRun [.request (.reclaim ⟨2⟩)]).isSome = true by decide +kernel)
  obtain ⟨g₀, hg₀, hm⟩ := bootRun_cons hg
  obtain ⟨s, hs, rfl⟩ := bootRun_nil hg₀
  have hbooked := Gba.Booked.step (.boot hs) hm
  refine ⟨g, hg, ((booked_ids hbooked).2.2.2 2 testSlot ?_).2 ?_⟩
  · simp [Store.ledgerAfter]
  · have hfind : s.findById 2 = some testSlot :=
      ((Store.boot_books hs).findById (by simp)).1 (by simp)
    have hid : s.fileid testSlot = 2 := (Store.boot_books hs).held (2, testSlot) (by simp) (by simp)
    simp only [Store.ledgerAfter, Store.reclaims, List.append_nil, List.mem_map,
      Option.mem_toList]
    exact ⟨testSlot, hfind, hid⟩

end WiiJoybus
