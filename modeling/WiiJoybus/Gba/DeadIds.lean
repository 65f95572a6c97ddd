import WiiJoybus.Gba.Untouched

/-!
Requests that name nothing.

A free slot keeps the id 0 and stays in the table that is searched, so the id 0 finds
the first free slot as long as there is one. What was left in it decides what comes
back, and only by accident is that a refusal. Every other id that no entry has is refused.
-/

namespace WiiJoybus

/-- The file or parent id a request carries. -/
def Request.names : Request → Option Word
  | .statvfs => none
  | .readdir req => some req.parentFileid
  | .lookup req => some req.parentFileid
  | .getattr req => some req.fileid
  | .create req => some req.parentFileid
  | .write req => some req.fileid
  | .read req => some req.fileid
  | .mkdir req => some req.parentFileid
  | .rm req => some req.parentFileid
  | .reclaim req => some req.vaFileid
  | .setsize req => some req.vaFileid

namespace Store

/-- The request is answered with not found, and the store stays as it is. -/
def Refused (j : Junk) (s : Store) : Request → Prop
  | .statvfs => False
  | .readdir req => (s.handleReaddirRequest j req).exists_ = 0
  | .lookup req => ∃ resp, s.handleLookupRequest j req = some resp ∧ resp.exists_ = 0
  | .getattr req => (s.handleGetattrRequest j req).exists_ = 0
  | .create req => ∃ resp, s.handleCreateRequest j .reg req = some (resp, s) ∧ resp.exists_ = 0
  | .write req =>
      ((s.handleWriteRequest j req).1.exists_ = 0 ∨ (s.handleWriteRequest j req).1.err ≠ 0) ∧
        (s.handleWriteRequest j req).2.1 = s
  | .read req => (s.handleReadRequest j req).err ≠ 0
  | .mkdir req => ∃ resp, s.handleCreateRequest j .dir req = some (resp, s) ∧ resp.exists_ = 0
  | .rm req => ∃ resp, s.handleRmRequest j req = some (resp, s) ∧ resp.err ≠ 0
  | .reclaim req => (s.handleReclaimRequest j req).1.err ≠ 0 ∧ (s.handleReclaimRequest j req).2 = s
  | .setsize req => (s.handleSetsizeRequest j req).1.err ≠ 0 ∧ (s.handleSetsizeRequest j req).2 = s

/-- A resize of a free slot that fails before it has done anything: a block it would give
back is missing, or all blocks are taken. -/
def Blocked (s : Store) (f : EntryPtr) (n : Word) : Prop :=
  (shrinks (s.entries f) n = true ∧ (newblocks n).toNat < s.numblocks f ∧
    s.blockFetch 0 (newblocks n) = none) ∨
  (shrinks (s.entries f) n = false ∧ needalloc (s.entries f) n = true ∧
    s.numblocks f < (newblocks n).toNat ∧ s.blockFree = none)

/-- What is left in the free slot `f` turns the request down. -/
def StaleRefuses (s : Store) (f : EntryPtr) : Request → Prop
  | .readdir req => LinkedTable.nth s.next req.n.toInt.toNat (s.entries f).child = none
  | .lookup req => s.scan (s.hasName req.name) (s.entries f).child = some none
  | .write req =>
      req.offset + req.resid > (s.entries f).vaSize ∧
        s.Blocked f ((req.offset + req.resid).setWidth 32)
  | .read req => req.offset > (s.entries f).file.datalen.setWidth 64
  | .rm req =>
      (s.entries f).child = none ∨ (s.entries f).vaType ≠ Vtype.dir.code ∨
        s.scan (s.hasName req.name) (s.entries f).child = some none
  | _ => False

section Refusal

variable {s : Store} {f : EntryPtr} {j : Junk} {id : Word} {r : Request}

theorem findById_dead (hdead : ∀ p, s.live p → s.fileid p ≠ id) (hid : id ≠ 0) :
    s.findById id = none := by
  cases hfind : s.findById id with
  | none => rfl
  | some p =>
      have heq := findById_fileid hfind
      exact absurd heq (hdead p fun hzero => hid (heq.symm.trans hzero))

theorem refused_of_none (hr : r.names = some id) (hfind : s.findById id = none) :
    s.Refused j r := by
  cases r with
  | statvfs => cases hr
  | readdir req | getattr req | read req =>
      obtain rfl := Option.some.inj hr
      simp [Refused, handleReaddirRequest, handleGetattrRequest, handleReadRequest, hfind]
  | lookup req =>
      obtain rfl := Option.some.inj hr
      simp [Refused, handleLookupRequest, lookupMatch, hfind]
  | create req | mkdir req =>
      obtain rfl := Option.some.inj hr
      simp [Refused, handleCreateRequest, hfind]
  | write req =>
      obtain rfl := Option.some.inj hr
      simp [Refused, handleWriteRequest, hfind]
  | rm req =>
      obtain rfl := Option.some.inj hr
      simp [Refused, handleRmRequest, rmTarget, hfind, enoent]
  | reclaim req | setsize req =>
      obtain rfl := Option.some.inj hr
      simp [Refused, handleReclaimRequest, handleSetsizeRequest, hfind, enoent]

theorem shrinkLoop_cleared (fileid : Word) (left i : Nat) {b : BlockPtr}
    (hb : s.blocks b = .cleared) : (shrinkLoop fileid left i s).2.blocks b = .cleared := by
  induction left generalizing i s with
  | zero => exact hb
  | succ left ih =>
      cases hfetch : s.blockFetch fileid (BitVec.ofNat 32 i) with
      | none => rwa [shrinkLoop_none hfetch]
      | some b' =>
          rw [shrinkLoop_some hfetch]
          apply ih
          rw [setBlock_apply]
          split
          · rfl
          · exact hb

/-- A release fails without effect only if the first block it looks for is missing. -/
theorem shrinkLoop_zero_iff (s : Store) (left : Nat) {i : Nat} (hi : 0 < i) (hlt : i < 2 ^ 32) :
    ((shrinkLoop 0 left i s).1 ≠ 0 ∧ (shrinkLoop 0 left i s).2 = s) ↔
      0 < left ∧ s.blockFetch 0 (BitVec.ofNat 32 i) = none := by
  cases left with
  | zero => simp [shrinkLoop]
  | succ left =>
      cases hfetch : s.blockFetch 0 (BitVec.ofNat 32 i) with
      | none =>
          rw [shrinkLoop_none hfetch]
          simp [eblocknotfound]
      | some b =>
          simp only [shrinkLoop_some hfetch, reduceCtorEq, and_false, iff_false, not_and]
          intro _ hsame
          -- the block has been cleared, its index was not zero
          have hclear := shrinkLoop_cleared 0 left (i + 1) (setBlock_self s b .cleared)
          rw [hsame] at hclear
          have hidx := (blockFetch_holds hfetch).2
          rw [hclear] at hidx
          have := ofNat_inj (a := 0) (by decide) hlt hidx
          omega

theorem growLoop_zero_ok {left i : Nat} (h : s.blockFree ≠ none) :
    (growLoop 0 left i s).1 = 0 := by
  induction left generalizing i s with
  | zero => rfl
  | succ left ih =>
      obtain ⟨b, hb⟩ := Option.ne_none_iff_exists'.mp h
      rw [growLoop_some hb]
      apply ih
      -- the block that was taken is free all the same
      intro hnone
      have howned := blockFree_eq_none hnone b
      rw [setBlock_self] at howned
      exact howned rfl

/-- An allocation fails without effect only if there is no free block. -/
theorem growLoop_zero_iff (s : Store) (left i : Nat) :
    ((growLoop 0 left i s).1 ≠ 0 ∧ (growLoop 0 left i s).2 = s) ↔
      0 < left ∧ s.blockFree = none := by
  cases left with
  | zero => simp [growLoop]
  | succ left =>
      cases hfree : s.blockFree with
      | none =>
          rw [growLoop_none hfree]
          simp [enoblocksfree]
      | some b =>
          rw [growLoop_zero_ok (hfree ▸ Option.some_ne_none b)]
          simp

theorem entrySetsize_unchanged_iff (s : Store) (p : EntryPtr) (n : Word) :
    ((s.entrySetsize p n).1 ≠ 0 ∧ (s.entrySetsize p n).2 = s) ↔
      (needalloc (s.entries p) n || shrinks (s.entries p) n) = true ∧
        (s.resizeBlocks (s.entries p) n).1 ≠ 0 ∧ (s.resizeBlocks (s.entries p) n).2 = s := by
  rw [entrySetsize_eq]
  by_cases hloop : (needalloc (s.entries p) n || shrinks (s.entries p) n) = true
  · rw [if_pos hloop]
    by_cases herr : (s.resizeBlocks (s.entries p) n).1 ≠ 0
    · rw [if_pos herr]
      exact ⟨fun h => ⟨hloop, h⟩, And.right⟩
    · rw [if_neg herr]
      exact ⟨fun h => absurd rfl h.1, fun h => absurd h.2.1 herr⟩
  · rw [if_neg hloop]
    exact ⟨fun h => absurd rfl h.1, fun h => absurd h.1 hloop⟩

theorem entrySetsize_free_iff (hf : ¬ s.live f) (n : Word) :
    ((s.entrySetsize f n).1 ≠ 0 ∧ (s.entrySetsize f n).2 = s) ↔ s.Blocked f n := by
  have hid : (s.entries f).vaFileid = 0 := not_not.mp hf
  rw [entrySetsize_unchanged_iff, Blocked, numblocks, resizeBlocks, hid]
  by_cases hs : shrinks (s.entries f) n = true
  · have hpos : 0 < (newblocks n).toNat := by
      rw [newblocks_toNat]
      omega
    have hshrink := shrinkLoop_zero_iff s
      ((s.entries f).file.numblocks.toNat - (newblocks n).toNat) hpos (newblocks n).isLt
    rw [BitVec.ofNat_toNat, BitVec.setWidth_eq, Nat.sub_pos_iff_lt] at hshrink
    simp only [hs, if_true, Bool.or_true, true_and, hshrink, Bool.true_eq_false, false_and,
      or_false]
  · simp only [Bool.not_eq_true] at hs
    have hgrow := growLoop_zero_iff s
      ((newblocks n).toNat - (s.entries f).file.numblocks.toNat)
      (s.entries f).file.numblocks.toNat
    rw [Nat.sub_pos_iff_lt] at hgrow
    simp only [hs, if_false, Bool.or_false, true_and, hgrow, Bool.false_eq_true, false_and,
      false_or]

theorem not_refused_create {vt : Vtype} {req : CreateReq}
    (hfind : s.findById req.parentFileid = some f) (hdead : ¬ s.live f) :
    ¬ ∃ resp, s.handleCreateRequest j vt req = some (resp, s) ∧ resp.exists_ = 0 := by
  rintro ⟨resp, hresp, hexists⟩
  rcases handleCreateRequest_cases hresp with
    ⟨_, _, hnone⟩ | ⟨_, _, _, _, _, _, _, heq⟩
  · rcases hnone with hnone | hfull
    · exact absurd (hfind.symm.trans hnone) (Option.some_ne_none f)
    · exact findById_eq_none hfull f (not_not.mp hdead)
  · obtain ⟨rfl, _⟩ := Prod.mk.inj heq
    exact absurd (show (1 : Word) = 0 from hexists) (by decide)

/-- What is in a free slot answers for the id that finds it. -/
theorem refused_iff_of_free (hr : r.names = some id) (hfind : s.findById id = some f)
    (hdead : ¬ s.live f) : s.Refused j r ↔ s.StaleRefuses f r := by
  cases r with
  | statvfs => cases hr
  | readdir req =>
      obtain rfl := Option.some.inj hr
      simp only [Refused, StaleRefuses, handleReaddirRequest, hfind]
      split <;> simp [*]
  | lookup req =>
      obtain rfl := Option.some.inj hr
      simp only [Refused, StaleRefuses, handleLookupRequest, lookupMatch, hfind]
      split <;> simp [*]
  | getattr req =>
      obtain rfl := Option.some.inj hr
      simp [Refused, StaleRefuses, handleGetattrRequest, hfind, attributes]
  | create req | mkdir req =>
      obtain rfl := Option.some.inj hr
      exact iff_false_intro (not_refused_create hfind hdead)
  | write req =>
      obtain rfl := Option.some.inj hr
      simp only [Refused, StaleRefuses, handleWriteRequest_some hfind, prepare]
      rw [← entrySetsize_free_iff hdead]
      split <;> simp [*]
  | read req =>
      obtain rfl := Option.some.inj hr
      simp only [Refused, StaleRefuses, handleReadRequest, hfind]
      split <;> simp [*]
  | rm req =>
      obtain rfl := Option.some.inj hr
      simp only [Refused, StaleRefuses, handleRmRequest, rmTarget, hfind, Option.isNone_iff_eq_none]
      by_cases hchild : (s.entries f).child = none
      · simp [hchild, enoent]
      · by_cases htype : (s.entries f).vaType = Vtype.dir.code
        · cases hscan : s.scan (s.hasName req.name) (s.entries f).child with
          | none => simp [hchild, htype]
          | some res =>
              cases res with
              | none => simp [hchild, htype, enoent]
              | some ent =>
                  refine iff_of_false ?_ (by simp [hchild, htype])
                  rintro ⟨resp, hresp, herr⟩
                  simp only [hchild, htype, if_false, ne_eq, not_true_eq_false] at hresp
                  split at hresp
                  · cases hresp
                  · obtain ⟨rfl, _⟩ := Prod.mk.inj (Option.some.inj hresp)
                    exact herr rfl
        · simp [hchild, htype, enotdir]
  | reclaim req | setsize req =>
      obtain rfl := Option.some.inj hr
      simp [Refused, StaleRefuses, handleReclaimRequest, handleSetsizeRequest, hfind]

end Refusal

end Store

/-- A request for an id that no live entry has is refused exactly when the id is not 0, or
no slot is free, or what is left in the first free slot turns it down. -/
theorem refused_iff (s : Store) (j : Junk) {r : Request} {id : Word} (hr : r.names = some id)
    (hdead : ∀ p, s.live p → s.fileid p ≠ id) :
    s.Refused j r ↔ (id = 0 → ∀ f, s.findById 0 = some f → s.StaleRefuses f r) := by
  by_cases hid : id = 0
  · subst hid
    cases hfind : s.findById 0 with
    | none => exact iff_of_true (Store.refused_of_none hr hfind) fun _ _ h => by cases h
    | some f =>
        have hfree : ¬ s.live f := not_not.mpr (Store.findById_fileid hfind)
        rw [Store.refused_iff_of_free hr hfind hfree]
        constructor
        · intro h _ f' hf'
          exact Option.some.inj hf' ▸ h
        · intro h
          exact h rfl f rfl
  · exact iff_of_true (Store.refused_of_none hr (Store.findById_dead hdead hid))
      fun h => absurd h hid

/-- An id that has not been issued after boot. -/
theorem refused_iff_unissued :
    ∃ g : Gba, bootRun [] = some g ∧ g.store.Refused .zero (.setsize ⟨7, 300⟩) := by
  obtain ⟨g, hg, hfacts⟩ := Option.map_eq_some_iff.mp
    (show (bootRun []).map (fun g => decide (∀ p, g.store.live p → g.store.fileid p ≠ 7)) =
      some true by decide +kernel)
  exact ⟨g, hg, (refused_iff g.store .zero rfl (of_decide_eq_true hfacts)).mpr
    fun h => absurd h (by decide)⟩

/-- A file is created below the directory 0, which is the slot it is put into. -/
theorem refused_counterexample :
    ∃ g : Gba, bootRun [] = some g ∧ g.Reachable ∧
      (∀ p, g.store.live p → g.store.fileid p ≠ 0) ∧
      ¬ g.store.Refused .zero (.create ⟨0, testNameArray⟩) := by
  obtain ⟨g, hg, hfacts⟩ := Option.map_eq_some_iff.mp
    (show (bootRun []).map (fun g => decide (g.store.findById 0 = some newSlot)) = some true by
      decide +kernel)
  have hfind : g.store.findById 0 = some newSlot := of_decide_eq_true hfacts
  have hfree : ¬ g.store.live newSlot := not_not.mpr (Store.findById_fileid hfind)
  refine ⟨g, hg, bootRun_reachable hg, fun _ hp => hp, ?_⟩
  rw [Store.refused_iff_of_free (r := .create ⟨0, testNameArray⟩) rfl hfind hfree]
  exact id

end WiiJoybus
