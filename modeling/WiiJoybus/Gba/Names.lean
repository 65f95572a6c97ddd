import WiiJoybus.Gba.Ids
import WiiJoybus.Gba.Removal

/-!
Names in the entry table.

Every name ends within its array, so a name that fills the array of a request is
never found. A new entry is named in the last step of its creation; the walk from
its directory comes to it, even where its slot was on the chain before.
-/

namespace WiiJoybus
open LinkedTable ByteMemory

namespace Store

def nameOf (s : Store) (p : EntryPtr) : List Byte := CString.ofArray (s.entries p).name

def Terminated (s : Store) : Prop := ∀ p, (s.nameOf p).length < 32

def before (l : List EntryPtr) (ent : EntryPtr) : List EntryPtr := l.takeWhile fun p => p ≠ ent

/-- The entry `ent` in `s'` is the result of a creation with the name `name` in `s`, in a
directory `d` with the chain `l`. A slot that was on the chain becomes its end. -/
structure Created (j : Junk) (s : Store) (d : EntryPtr) (l : List EntryPtr) (name : Name)
    (s' : Store) (ent : EntryPtr) : Prop where
  wellFormed : s'.WellFormed
  terminated : s'.Terminated
  dir : s'.live d
  dirId : s'.fileid d = s.fileid d
  live : s'.live ent
  name : ∃ old : Name, s'.nameOf ent =
    CString.ofArray (CString.snprintf j.expansion (CString.ofArray name) old)
  others : ∀ q, q ≠ ent → s'.fileid q = s.fileid q ∧ s'.nameOf q = s.nameOf q
  walk : Begins s'.next (s'.child d) (before l ent ++ [ent])
  length_le : (before l ent ++ [ent]).length ≤ entriesMax

section Terminated

variable {s s' : Store} {p q : EntryPtr} {m : Message}

theorem nameOf_setName (j : Junk) (s : Store) (p : EntryPtr) (name : Name) (q : EntryPtr) :
    (setName j s p name).nameOf q =
      if q = p then CString.ofArray
        (CString.snprintf j.expansion (CString.ofArray name) (s.entries p).name)
      else s.nameOf q := by
  rw [nameOf, setName, setEntry_apply]
  split <;> rfl

theorem Terminated.mono (h : s.Terminated) (hname : ∀ q, s'.nameOf q = s.nameOf q) :
    s'.Terminated := fun q => hname q ▸ h q

theorem Terminated.setName (h : s.Terminated) (j : Junk) (p : EntryPtr) (name : Name) :
    (setName j s p name).Terminated := by
  intro q
  rw [nameOf_setName]
  split
  · exact CString.length_ofArray_snprintf _ _ (by decide) _
  · exact h q

theorem nameOf_initAt (s : Store) (p : EntryPtr) (vt : Vtype) (rand : Word64) (q : EntryPtr) :
    (s.initAt p vt rand).nameOf q = s.nameOf q := by
  rw [nameOf, initAt_entries]
  split
  · rename_i h
    rw [h]
    rfl
  · rfl

theorem nameOf_setNext (s : Store) (p : EntryPtr) (n : Option EntryPtr) (q : EntryPtr) :
    (s.setNext p n).nameOf q = s.nameOf q :=
  congrArg CString.ofArray
    (setEntry_field Entry.name s p { s.entries p with next := n } rfl q)

theorem nameOf_setNlink (s : Store) (p : EntryPtr) (k : Word) (q : EntryPtr) :
    (s.setNlink p k).nameOf q = s.nameOf q :=
  congrArg CString.ofArray
    (setEntry_field Entry.name s p { s.entries p with vaNlink := k } rfl q)

theorem nameOf_setChild (s : Store) (p : EntryPtr) (c : Option EntryPtr) (q : EntryPtr) :
    (s.setChild p c).nameOf q = s.nameOf q :=
  congrArg CString.ofArray
    (setEntry_field Entry.name s p { s.entries p with child := c } rfl q)

theorem nameOf_entryAppend {parent ent : EntryPtr} (h : s.entryAppend parent ent = some s')
    (q : EntryPtr) : s'.nameOf q = s.nameOf q := by
  rcases entryAppend_some h with ⟨_, rfl⟩ | ⟨_, n, k, _, _, rfl⟩
  · exact nameOf_setChild s parent _ q
  · rw [nameOf_setNlink, nameOf_setNext]

theorem nameOf_entryRemove {parent ent : EntryPtr} (h : s.entryRemove parent ent = some s')
    (q : EntryPtr) : s'.nameOf q = s.nameOf q := by
  obtain ⟨prev, k, _, rfl⟩ := entryRemove_some h
  rw [nameOf_setNlink]
  cases prev with
  | none => rfl
  | some prev => exact nameOf_setNext s prev _ q

theorem Terminated.change (h : s.Terminated) (hw : s.WellFormed) (hc : s.Change m s') :
    s'.Terminated := by
  cases hc with
  | keep => exact h
  | create _ _ hi ha =>
      obtain ⟨_, _, rfl⟩ := entryInit_some hi
      exact ((h.mono (nameOf_initAt s _ _ _)).mono (nameOf_entryAppend ha)).setName _ _ _
  | remove _ hr => exact h.mono (nameOf_entryRemove hr)
  | @reclaim p _ =>
      refine h.mono fun q => ?_
      rw [nameOf, (entryReclaim_sameOwned hw p).entries]
      exact congrArg CString.ofArray
        (setEntry_field Entry.name s p { s.entries p with vaFileid := 0 } rfl q)
  | @resize p n _ =>
      refine h.mono fun q => ?_
      rw [nameOf, (sameTree_entrySetsize s p n).name]
      rfl
  | copy _ hs =>
      refine h.mono fun q => ?_
      rw [nameOf, hs.entries]
      rfl

theorem blank_terminated : blank.Terminated := by
  intro p
  have hlen : (blank.nameOf p).length ≤ 0 :=
    CString.length_ofArray_le (show 0 < 32 by decide) rfl
  omega

theorem boot_terminated {rootGen testGen : Word64} (h : boot rootGen testGen = some s) :
    s.Terminated := by
  obtain ⟨root, s₁, test, s₂, s₃, hroot, htest, happ, rfl⟩ := boot_some h
  obtain ⟨_, _, rfl⟩ := entryInit_some hroot
  obtain ⟨_, _, rfl⟩ := entryInit_some htest
  have h₃ : s₃.Terminated :=
    ((blank_terminated.mono (nameOf_initAt blank root .dir rootGen)).mono
      (nameOf_initAt _ test .reg testGen)).mono (nameOf_entryAppend happ)
  intro q
  rw [nameOf, setEntry_apply]
  split
  · exact CString.length_ofArray_snprintf (fun text => text) testName (show 0 < 32 by decide)
      (s₃.entries test).name
  · exact h₃ q

theorem Reachable.terminated (h : s.Reachable) : s.Terminated := by
  obtain ⟨phase, h⟩ := h
  have hinv : s.WellFormed ∧ s.Terminated :=
    Gba.Reachable.invariant (P := fun s => s.WellFormed ∧ s.Terminated)
      (fun _ _ _ hs => ⟨boot_wellFormed hs, boot_terminated hs⟩)
      (fun _ _ _ hi hc => ⟨hi.1.change hc, hi.2.change hi.1 hc⟩) h
  exact hinv.2

end Terminated

section Creation

variable {s s' : Store} {d ent : EntryPtr} {l : List EntryPtr} {j : Junk} {vt : Vtype}
variable {rand : Word64}

theorem before_of_append {u v : List EntryPtr} (hu : ∀ b ∈ u, b ≠ ent) :
    before (u ++ ent :: v) ent = u := by
  rw [before, List.takeWhile_append_of_pos (by simpa using hu),
    List.takeWhile_cons_of_neg (by simp), List.append_nil]

theorem before_of_notMem (hl : ∀ a ∈ l, a ≠ ent) : before l ent = l :=
  List.takeWhile_eq_self_iff.mpr (by simpa using hl)

theorem ne_of_mem_before {b : EntryPtr} (hb : b ∈ before l ent) : b ≠ ent := by
  simpa using List.mem_takeWhile_imp hb

/-- A chain stays one when a slot is filled: the slot becomes its end, if it was on it. -/
theorem exists_chain_initAt (vt : Vtype) (rand : Word64) (hchain : Chain s.next (s.child d) l)
    (hne : d ≠ ent) :
    ∃ l', Chain (s.initAt ent vt rand).next ((s.initAt ent vt rand).child d) l' ∧
      (l' = before l ent ∨ ent ∈ l ∧ l' = before l ent ++ [ent]) := by
  have hnext : ∀ a, a ≠ ent → (s.initAt ent vt rand).next a = s.next a := by
    intro a ha
    rw [next, initAt_entries, if_neg ha, next]
  have hchild : (s.initAt ent vt rand).child d = s.child d := by
    rw [child, initAt_entries, if_neg hne, child]
  have hlast : (s.initAt ent vt rand).next ent = none := by
    rw [next, initAt_entries, if_pos rfl]
    rfl
  rw [hchild]
  by_cases hmem : ent ∈ l
  · obtain ⟨u, v, rfl⟩ := List.append_of_mem hmem
    have hnodup := hchain.nodup
    rw [List.nodup_append] at hnodup
    have hu : ∀ b ∈ u, b ≠ ent := fun b hb => hnodup.2.2 b hb ent List.mem_cons_self
    rw [before_of_append hu]
    exact ⟨u ++ [ent], hchain.cut hlast fun b hb => hnext b (hu b hb), Or.inr ⟨hmem, rfl⟩⟩
  · have hl : ∀ a ∈ l, a ≠ ent := by
      rintro a ha rfl
      exact hmem ha
    exact ⟨l, hchain.congr fun a ha => hnext a (hl a ha), Or.inl (before_of_notMem hl).symm⟩

theorem setNext_init {start : Option EntryPtr} {w : List EntryPtr} {n : EntryPtr}
    (h : Chain s.next start (w ++ [n])) (k : Option EntryPtr) :
    ∀ b ∈ w, (s.setNext n k).next b = s.next b := by
  intro b hb
  rw [setNext_next, if_neg]
  rintro rfl
  have hnodup := h.nodup
  rw [List.nodup_append] at hnodup
  exact hnodup.2.2 b hb b List.mem_cons_self rfl

theorem chain_setNext_snoc {start : Option EntryPtr} {w : List EntryPtr} {n : EntryPtr}
    (h : Chain s.next start (w ++ [n])) (hne : n ≠ ent) (hnext : s.next ent = none) :
    Chain (s.setNext n (some ent)).next start (w ++ [n, ent]) := by
  refine h.snoc ?_ ?_ (setNext_init h _)
  · rw [setNext_next, if_pos rfl]
  · rw [setNext_next, if_neg (Ne.symm hne), hnext]

theorem entryAppend_walk {u : List EntryPtr} (hchain : Chain s.next (s.child d) l)
    (hl : l = u ∨ l = u ++ [ent]) (hu : ∀ b ∈ u, b ≠ ent) (hnext : s.next ent = none) :
    ∃ s', s.entryAppend d ent = some s' ∧ Begins s'.next (s'.child d) (u ++ [ent]) ∧
      (u ++ [ent]).length ≤ entriesMax := by
  cases hc : (s.entries d).child with
  | none =>
      have hstart : s.child d = none := hc
      rw [hstart] at hchain
      obtain rfl : u = [] := by
        rcases hl with rfl | rfl
        · exact hchain.of_none
        · exact absurd hchain.of_none (by simp)
      refine ⟨s.setChild d (some ent), by simp only [entryAppend, hc], ?_,
        show 1 ≤ entriesMax by decide⟩
      intro k hk
      obtain rfl : k = 0 := by simpa using hk
      rw [setChild_child, if_pos rfl]
      rfl
  | some first =>
      have hstart : s.child d = some first := hc
      rw [hstart] at hchain
      obtain ⟨n, hn, hlast⟩ := hchain.exists_last
      obtain ⟨w, rfl⟩ := hchain.eq_snoc hn hlast
      have hunique : ∀ e ∈ w ++ [n], s.next e = none → e = n := by
        intro e he hnone
        obtain ⟨w', heq⟩ := hchain.eq_snoc he hnone
        exact (List.append_inj_right' heq rfl |> List.cons.inj).1.symm
      have hscan : s.scan (fun n => (s.next n).isNone) (some first) = some (some n) := by
        rw [scan_of_chain hchain]
        refine congrArg some (find?_eq_of_unique hn (by simp [hlast]) fun e he hnone => ?_)
        exact hunique e he (by simpa using hnone)
      have happend : s.entryAppend d ent = some ((s.setNext n (some ent)).setNlink ent
          (((s.setNext n (some ent)).entries ent).vaNlink + 1)) := by
        simp only [entryAppend, hc, hscan, Option.join_some]
      refine ⟨_, happend, ?_⟩
      have hsame := setNext_init hchain (some ent)
      rw [setNlink_next, setNlink_child, setNext_child, hstart]
      by_cases heq : n = ent
      · subst heq
        obtain rfl : w = u := by
          rcases hl with rfl | hl
          · exact absurd rfl (hu n hn)
          · exact List.append_inj_left' hl rfl
        have hlen := hchain.length_le
        rw [Fintype.card_fin] at hlen
        exact ⟨hchain.begins_of_init hsame, hlen⟩
      · obtain rfl : w ++ [n] = u := by
          rcases hl with hl | hl
          · exact hl
          · exact absurd (List.cons.inj (List.append_inj_right' hl rfl)).1 heq
        have hlonger := chain_setNext_snoc hchain heq hnext
        have hlen := hlonger.length_le
        rw [Fintype.card_fin] at hlen
        rw [List.append_assoc]
        exact ⟨hlonger.begins, hlen⟩

theorem handleCreateRequest_created (hw : s.WellFormed) (ht : s.Terminated) (hd : s.live d)
    (hchain : Chain s.next (s.child d) l) {req : CreateReq}
    (hparent : req.parentFileid = s.fileid d)
    (hfree : s.findById 0 = some ent) (hid : s.id ≠ intMax) (j : Junk) (vt : Vtype) :
    ∃ s', s.handleCreateRequest j vt req = some
        (attributes { (j.uninit : CreateResp) with exists_ := 0 } (s'.entries ent), s') ∧
      Created j s d l req.name s' ent := by
  have hne : d ≠ ent := by
    rintro rfl
    exact hd (findById_fileid hfree)
  obtain ⟨l', hl', hshape⟩ := exists_chain_initAt vt j.rand hchain hne
  have hlast : (s.initAt ent vt j.rand).next ent = none := by
    rw [next, initAt_entries, if_pos rfl]
    rfl
  obtain ⟨s₂, happend, hwalk, hlen⟩ :=
    entryAppend_walk hl' (hshape.imp_right And.right) (fun _ => ne_of_mem_before) hlast
  have hids : ∀ q, (setName j s₂ ent req.name).fileid q =
      if q = ent then BitVec.ofNat 32 s.id else s.fileid q :=
    fun q => (fileid_created happend q).1
  have hlinks := sameLinks_setName j s₂ ent req.name
  refine ⟨setName j s₂ ent req.name, ?_, ?_⟩
  · simp only [handleCreateRequest, hparent, hw.findById hd, entryInit_of_free hfree hid, happend]
  · have hdid : (setName j s₂ ent req.name).fileid d = s.fileid d := by rw [hids, if_neg hne]
    constructor
    case wellFormed =>
      exact ((hw.initAt hid).sameFiles (sameFiles_entryAppend happend)).sameFiles
        (sameFiles_setName j s₂ ent req.name)
    case terminated =>
      exact ((ht.mono (nameOf_initAt s ent vt j.rand)).mono (nameOf_entryAppend happend)).setName
        j ent req.name
    case dir =>
      change Store.fileid _ d ≠ 0
      rw [hdid]
      exact hd
    case dirId => exact hdid
    case live =>
      change Store.fileid _ ent ≠ 0
      rw [hids, if_pos rfl]
      intro hz
      have hfresh := hw.fresh
      have hpos := hw.counter_pos
      rw [hz] at hfresh
      change 0 = s.id at hfresh
      omega
    case name => exact ⟨_, (nameOf_setName j s₂ ent req.name ent).trans (if_pos rfl)⟩
    case others =>
      intro q hq
      refine ⟨by rw [hids, if_neg hq], ?_⟩
      rw [nameOf_setName, if_neg hq, nameOf_entryAppend happend, nameOf_initAt]
    case walk =>
      rw [show (setName j s₂ ent req.name).next = s₂.next from funext hlinks.next, hlinks.child]
      exact hwalk
    case length_le => exact hlen

/-- There is a slot and an id for a new entry, and the walk to the end of its directory's chain
ends, there or at that slot. -/
def Accepts (s : Store) (parentFileid : Word) : Prop :=
  ∃ parent ent, s.findById parentFileid = some parent ∧ s.findById 0 = some ent ∧ s.id ≠ intMax ∧
    (parent = ent ∨
      s.scan (fun p => decide (p = ent) || (s.next p).isNone) (s.child parent) ≠ none)

theorem entryAppend_initAt (s : Store) (d ent : EntryPtr) (vt : Vtype) (rand : Word64) :
    (s.initAt ent vt rand).entryAppend d ent ≠ none ↔ d = ent ∨
      s.scan (fun p => decide (p = ent) || (s.next p).isNone) (s.child d) ≠ none := by
  have hnext : ∀ p, ((s.initAt ent vt rand).next p).isNone =
      (decide (p = ent) || (s.next p).isNone) := by
    intro p
    rw [next, initAt_entries]
    by_cases hp : p = ent
    · rw [if_pos hp, decide_eq_true hp]
      rfl
    · rw [if_neg hp, decide_eq_false hp]
      rfl
  have hsame : ∀ p, ((s.initAt ent vt rand).next p).isNone = false →
      (s.initAt ent vt rand).next p = s.next p := by
    intro p hp
    rw [hnext, Bool.or_eq_false_iff, decide_eq_false_iff_not] at hp
    rw [next, initAt_entries, if_neg hp.1, next]
  by_cases hd : d = ent
  · have hchild : ((s.initAt ent vt rand).entries d).child = none := by
      rw [initAt_entries, if_pos hd]
      rfl
    rw [entryAppend, hchild]
    exact iff_of_true (Option.some_ne_none _) (Or.inl hd)
  · have hchild : ((s.initAt ent vt rand).entries d).child = s.child d := by
      rw [initAt_entries, if_neg hd, child]
    rw [or_iff_right hd, entryAppend, hchild]
    cases s.child d with
    | none =>
        unfold scan
        simp [LinkedTable.scan]
    | some first =>
        have hscan : (s.initAt ent vt rand).scan
            (fun p => ((s.initAt ent vt rand).next p).isNone) (some first) =
              s.scan (fun p => decide (p = ent) || (s.next p).isNone) (some first) := by
          unfold scan
          rw [scan_congr hsame]
          simp only [hnext]
        have hfound := scan_last_ne (s.initAt ent vt rand).next entriesMax first
        have hfound' : (s.initAt ent vt rand).scan
            (fun p => ((s.initAt ent vt rand).next p).isNone) (some first) ≠ some none := by
          unfold scan
          exact hfound
        rw [hscan] at hfound'
        simp only [hscan]
        cases hres : s.scan (fun p => decide (p = ent) || (s.next p).isNone) (some first) with
        | none => simp
        | some m =>
            cases m with
            | none => exact absurd hres hfound'
            | some n => simp

theorem handleCreateRequest_refused {req : CreateReq} {r : CreateResp × Store}
    (h : s.handleCreateRequest j vt req = some r) (hexists : r.1.exists_ = 0) : r.2 = s := by
  rcases handleCreateRequest_cases h with ⟨_, hsame, _⟩ | ⟨_, _, _, _, _, _, _, rfl⟩
  · exact hsame
  · exact absurd (show (1 : Word) = 0 from hexists) (by decide)

theorem accepts_iff {req : CreateReq} (j : Junk) (vt : Vtype) :
    s.Accepts req.parentFileid ↔
      ∃ r, s.handleCreateRequest j vt req = some r ∧ r.1.exists_ ≠ 0 := by
  constructor
  · rintro ⟨parent, ent, hparent, hfree, hid, hwalk⟩
    obtain ⟨s₂, happend⟩ := Option.ne_none_iff_exists'.mp
      ((entryAppend_initAt s parent ent vt j.rand).mpr hwalk)
    refine ⟨(attributes { (j.uninit : CreateResp) with exists_ := 0 }
      ((setName j s₂ ent req.name).entries ent), setName j s₂ ent req.name), ?_,
      (by decide : ¬ (1 : Word) = 0)⟩
    simp only [handleCreateRequest, hparent, entryInit_of_free hfree hid, happend]
  · rintro ⟨r, hr, hexists⟩
    rcases handleCreateRequest_cases hr with
      ⟨hzero, _⟩ | ⟨parent, ent, s₂, hparent, hfree, hid, happend, _⟩
    · exact absurd hzero hexists
    · refine ⟨parent, ent, hparent, hfree, hid, ?_⟩
      rw [← entryAppend_initAt s parent ent vt j.rand, happend]
      exact Option.some_ne_none s₂

theorem handleCreateRequest_accepted {req : CreateReq} {r : CreateResp × Store}
    (h : s.handleCreateRequest j vt req = some r) (hexists : r.1.exists_ ≠ 0) :
    ∃ ent, s.findById 0 = some ent ∧ s.id ≠ intMax := by
  rcases handleCreateRequest_cases h with ⟨hzero, _⟩ | ⟨_, ent, _, _, hfree, hid, _⟩
  · exact absurd hzero hexists
  · exact ⟨ent, hfree, hid⟩

end Creation

section Lookup

variable {s s' : Store} {d ent q : EntryPtr} {l : List EntryPtr} {j : Junk} {name : List Byte}

/-- The first slot on the chain with that name is an entry, unless it comes after the slot
the next creation fills. -/
def FoundLive (s : Store) (d : EntryPtr) (name : List Byte) : Prop :=
  ∀ ent q, s.findById 0 = some ent →
    s.scan (fun p => decide (p = ent ∨ s.nameOf p = name)) (s.child d) = some (some q) →
      q = ent ∨ s.live q

theorem find?_rest {f : EntryPtr → Bool} (hent : f ent = true)
    (h : (l.dropWhile fun p => p ≠ ent).find? f = some q) : q = ent := by
  cases hrest : l.dropWhile fun p => decide (p ≠ ent) with
  | nil =>
      rw [hrest] at h
      cases h
  | cons a r =>
      have hnot := List.head?_dropWhile_not (fun p => decide (p ≠ ent)) l
      rw [hrest] at hnot
      obtain rfl : a = ent := by simpa using hnot
      rw [hrest, List.find?_cons_of_pos hent] at h
      exact (Option.some.inj h).symm

theorem foundLive_iff (hchain : Chain s.next (s.child d) l) (hfree : s.findById 0 = some ent) :
    s.FoundLive d name ↔
      ∀ q, (before l ent).find? (fun p => decide (s.nameOf p = name)) = some q → s.live q := by
  have hsame : (before l ent).find? (fun p => decide (p = ent ∨ s.nameOf p = name)) =
      (before l ent).find? (fun p => decide (s.nameOf p = name)) := by
    refine List.find?_congr fun p hp => ?_
    simp only [ne_of_mem_before hp, false_or]
  have hscan : s.scan (fun p => decide (p = ent ∨ s.nameOf p = name)) (s.child d) =
      some (((before l ent).find? fun p => decide (s.nameOf p = name)).or
        ((l.dropWhile fun p => p ≠ ent).find? fun p => decide (p = ent ∨ s.nameOf p = name))) := by
    rw [scan_of_chain hchain, ← hsame, before, ← List.find?_append, List.takeWhile_append_dropWhile]
  constructor
  · intro h q hq
    rw [hq, Option.some_or] at hscan
    refine (h ent q hfree hscan).resolve_left (ne_of_mem_before (List.mem_of_find?_eq_some hq))
  · intro h ent' q hfree' hq
    rw [hfree, Option.some.injEq] at hfree'
    rw [← hfree', hscan, Option.some.injEq] at hq
    rw [← hfree']
    rcases Option.or_eq_some_iff.mp hq with hq | ⟨_, hq⟩
    · exact Or.inr (h q hq)
    · exact Or.inl (find?_rest (by simp) hq)

theorem foundLive_of_chain (hchain : Chain s.next (s.child d) l) (hl : ∀ q ∈ l, s.live q) :
    s.FoundLive d name := by
  intro ent q _ hq
  rw [scan_of_chain hchain, Option.some.injEq] at hq
  exact Or.inr (hl q (List.mem_of_find?_eq_some hq))

theorem scan_of_begins {start : Option EntryPtr} {f : EntryPtr → Bool}
    (h : Begins s.next start l) (hlen : l.length ≤ entriesMax) (hfind : l.find? f = some q) :
    s.scan f start = some (some q) := by
  unfold scan
  exact h.scan hfind hlen

theorem hasName_eq {array : Name} (hname : CString.ofArray array = name) (p : EntryPtr) :
    s.hasName array p = decide (s.nameOf p = name) := by
  rw [hasName, CString.same, hname, nameOf]

/-- What LOOKUP finds after a creation, when the name is stored as it is. -/
theorem Created.lookupMatch {req : LookupReq} {stored : Name} (h : Created j s d l stored s' ent)
    (hname : s'.nameOf ent = name) (hreq : CString.ofArray req.name = name)
    (hparent : req.parentFileid = s.fileid d) :
    ∃ q, s'.lookupMatch req = some (some q) ∧ s'.nameOf q = name ∧
      ((before l ent).find? (fun p => decide (s.nameOf p = name))).or (some ent) = some q := by
  have hsame : (before l ent).find? (s'.hasName req.name) =
      (before l ent).find? (fun p => decide (s.nameOf p = name)) := by
    refine List.find?_congr fun p hp => ?_
    rw [hasName_eq hreq, (h.others p (ne_of_mem_before hp)).2]
  have hlast : [ent].find? (s'.hasName req.name) = some ent :=
    List.find?_cons_of_pos (by rw [hasName_eq hreq, hname, decide_eq_true rfl])
  obtain ⟨q, hq⟩ : ∃ q, ((before l ent).find? (fun p => decide (s.nameOf p = name))).or (some ent) =
      some q := by
    cases (before l ent).find? (fun p => decide (s.nameOf p = name)) with
    | none => exact ⟨ent, rfl⟩
    | some q => exact ⟨q, rfl⟩
  have hfind : (before l ent ++ [ent]).find? (s'.hasName req.name) = some q := by
    rw [List.find?_append, hsame, hlast, hq]
  have hqname : s'.nameOf q = name := by
    have hhas := List.find?_some hfind
    rw [hasName_eq hreq] at hhas
    exact of_decide_eq_true hhas
  refine ⟨q, ?_, hqname, hq⟩
  have hparent' : s'.findById req.parentFileid = some d := by
    rw [hparent, ← h.dirId]
    exact h.wellFormed.findById h.dir
  rw [Store.lookupMatch, hparent']
  exact scan_of_begins h.walk h.length_le hfind

theorem lookupMatch_name {req : LookupReq} (h : s.lookupMatch req = some (some q)) :
    s.nameOf q = CString.ofArray req.name := by
  rw [lookupMatch] at h
  split at h
  · cases h
  · unfold scan at h
    have hhas := scan_true h
    rw [hasName_eq rfl] at hhas
    exact of_decide_eq_true hhas

end Lookup

end Store

end WiiJoybus
