import WiiJoybus.Library.DirTree
import WiiJoybus.Gba.Confined
import WiiJoybus.Gba.Names

/-!
The file system as a tree of directories.

To the Wii the table of entries is a number of nodes with ids, and for each directory a
list of bindings of names to ids. As long as files are made in directories, and what is
reclaimed is not bound, every request does to the nodes and the bindings what it stands
for. Only the first binding of a directory is never removed.
-/

namespace WiiJoybus
open LinkedTable ByteMemory

/-- The nodes there are, by their ids. -/
structure FileTree extends DirTree Word (List Byte) Word where
  /-- The id of the next node. -/
  issued : Nat
  /-- How many nodes there is room for. -/
  free : Nat

namespace FileTree

/-- The first binding of the name is taken off, unless it is the first of all. -/
def unlink (n : List Byte) : List (List Byte × Word) → List (List Byte × Word)
  | [] => []
  | b :: l => if b.1 = n then b :: l else b :: l.eraseP fun b => b.1 = n

/-- What is stored of a name, which is printed as a format. -/
def stored (name : Name) : List Byte := ((CString.plain (CString.ofArray name)).getD []).take 31

def alloc (t : FileTree) (type : Word) : FileTree where
  kind := Function.update t.kind (BitVec.ofNat 32 t.issued) (some type)
  bindings := t.bindings
  issued := t.issued + 1
  free := t.free - 1

def add (t : FileTree) (d : Word) (name : List Byte) (type : Word) : FileTree where
  toDirTree := t.bind d name (BitVec.ofNat 32 t.issued) type
  issued := t.issued + 1
  free := t.free - 1

/-- The tree that there is at boot: the root directory with the test file. -/
def booted : FileTree :=
  (alloc ⟨⟨fun _ => none, fun _ => []⟩, 1, entriesMax⟩ Vtype.dir.code).add 1 Store.testName
    Vtype.reg.code

def create (t : FileTree) (vt : Vtype) (req : CreateReq) : FileTree :=
  if t.kind req.parentFileid = none ∨ t.free = 0 then t
  else t.add req.parentFileid (stored req.name) vt.code

def rm (t : FileTree) (req : RmReq) : FileTree :=
  { t with
    toDirTree := t.rebind req.parentFileid
      (unlink (CString.ofArray req.name) (t.bindings req.parentFileid)) }

def reclaim (t : FileTree) (req : ReclaimReq) : FileTree :=
  if t.kind req.vaFileid = none then t
  else { t with toDirTree := t.forget req.vaFileid, free := t.free + 1 }

/-- What a message does to the tree. -/
def after (t : FileTree) : Message → FileTree
  | .request (.create req) => t.create .reg req
  | .request (.mkdir req) => t.create .dir req
  | .request (.rm req) => t.rm req
  | .request (.reclaim req) => t.reclaim req
  | _ => t

/-- The id is a directory's, or nobody's. -/
def IsParent (t : FileTree) (id : Word) : Prop :=
  id ≠ 0 ∧ ∀ k, t.kind id = some k → k = Vtype.dir.code

/-- A file is made in a directory, with a name that converts no argument, and only what is
not bound is reclaimed. -/
def Allows (t : FileTree) : Message → Prop
  | .request (.create req) =>
      t.IsParent req.parentFileid ∧ CString.plain (CString.ofArray req.name) ≠ none
  | .request (.mkdir req) =>
      t.IsParent req.parentFileid ∧ CString.plain (CString.ofArray req.name) ≠ none
  | .request (.rm req) => t.IsParent req.parentFileid
  | .request (.reclaim req) => t.Unbound req.vaFileid
  | _ => True

end FileTree

namespace Store

/-- The entry of a node. -/
def nodeOf (s : Store) (id : Word) : Option EntryPtr := if id = 0 then none else s.findById id

def binding (s : Store) (p : EntryPtr) : List Byte × Word := (s.nameOf p, s.fileid p)

def children (s : Store) (d : EntryPtr) : List EntryPtr :=
  (List.range entriesMax).filterMap (s.walk d)

def bindingsOf (s : Store) (d : EntryPtr) : List (List Byte × Word) :=
  if (s.entries d).vaType = Vtype.dir.code then (s.children d).map s.binding else []

def freeSlots (s : Store) : Nat := (Finset.univ.filter fun p => (s.entries p).vaFileid = 0).card

/-- The tree that the table of entries stands for. -/
def tree (s : Store) : FileTree where
  kind id := (s.nodeOf id).map fun p => (s.entries p).vaType
  bindings id := ((s.nodeOf id).map s.bindingsOf).getD []
  issued := s.id
  free := s.freeSlots

/-- The tree of a store with the chains `cells`. -/
structure Described (s : Store) (cells : EntryPtr → List EntryPtr) (t : FileTree) : Prop where
  kind : ∀ p, s.live p → t.kind (s.fileid p) = some (s.entries p).vaType
  kindNone : ∀ id, (∀ p, s.live p → s.fileid p ≠ id) → t.kind id = none
  bindings : ∀ d, s.isDir d → t.bindings (s.fileid d) = (cells d).map s.binding
  bindingsNil : ∀ id, (∀ d, s.isDir d → s.fileid d ≠ id) → t.bindings id = []
  issued : t.issued = s.id
  free : t.free = s.freeSlots

section Describe

variable {s : Store} {cells : EntryPtr → List EntryPtr} {removed : Word → Prop}
variable {d p : EntryPtr} {id : Word} {l : List EntryPtr} {t t' : FileTree}

theorem nodeOf_fileid (hw : s.WellFormed) (hp : s.live p) : s.nodeOf (s.fileid p) = some p := by
  have hid : s.fileid p ≠ 0 := hp
  rw [nodeOf, if_neg hid]
  exact hw.findById hp

theorem nodeOf_some (h : s.nodeOf id = some p) : s.live p ∧ s.fileid p = id := by
  rw [nodeOf] at h
  split at h
  · cases h
  · rename_i hid
    have hfile := findById_fileid h
    exact ⟨fun hz => hid (hfile.symm.trans hz), hfile⟩

theorem nodeOf_none (h : ∀ p, s.live p → s.fileid p ≠ id) : s.nodeOf id = none := by
  cases hn : s.nodeOf id with
  | none => rfl
  | some p => exact absurd (nodeOf_some hn).2 (h p (nodeOf_some hn).1)

theorem filterMap_getElem? {α : Type} (l : List α) {n : Nat} (hn : l.length ≤ n) :
    (List.range n).filterMap (fun k => l[k]?) = l := by
  induction l generalizing n with
  | nil => simp
  | cons a l ih =>
      cases n with
      | zero => cases hn
      | succ n =>
          rw [List.range_succ_eq_map, List.filterMap_cons, List.filterMap_map]
          simpa [Function.comp_def] using ih (Nat.le_of_succ_le_succ hn)

theorem children_of_chain (h : Chain s.next (s.child d) l) : s.children d = l := by
  have hlen := h.length_le
  rw [Fintype.card_fin] at hlen
  have hwalk : s.walk d = fun k => l[k]? := funext fun k => h.nth k
  rw [children, hwalk, filterMap_getElem? l hlen]

theorem described_tree (h : s.Arranged removed cells) : s.Described cells s.tree where
  kind p hp := by simp only [tree, nodeOf_fileid h.wellFormed hp, Option.map_some]
  kindNone id hid := by simp only [tree, nodeOf_none hid, Option.map_none]
  bindings d hd := by
    simp only [tree, nodeOf_fileid h.wellFormed hd.1, Option.map_some, Option.getD_some,
      bindingsOf, if_pos hd.2, children_of_chain (h.forest.chain d hd)]
  bindingsNil id hid := by
    cases hn : s.nodeOf id with
    | none => simp only [tree, hn, Option.map_none, Option.getD_none]
    | some p =>
        obtain ⟨hlive, hfile⟩ := nodeOf_some hn
        have htype : (s.entries p).vaType ≠ Vtype.dir.code := fun h => hid p ⟨hlive, h⟩ hfile
        simp only [tree, hn, Option.map_some, Option.getD_some, bindingsOf, if_neg htype]
  issued := rfl
  free := rfl

theorem Described.unique (h : s.Described cells t) (h' : s.Described cells t') : t = t' := by
  have hkind : t.kind = t'.kind := by
    funext id
    by_cases hid : ∃ p, s.live p ∧ s.fileid p = id
    · obtain ⟨p, hp, rfl⟩ := hid
      rw [h.kind p hp, h'.kind p hp]
    · have hnone : ∀ p, s.live p → s.fileid p ≠ id := fun p hp heq => hid ⟨p, hp, heq⟩
      rw [h.kindNone id hnone, h'.kindNone id hnone]
  have hbindings : t.bindings = t'.bindings := by
    funext id
    by_cases hid : ∃ d, s.isDir d ∧ s.fileid d = id
    · obtain ⟨d, hd, rfl⟩ := hid
      rw [h.bindings d hd, h'.bindings d hd]
    · have hnone : ∀ d, s.isDir d → s.fileid d ≠ id := fun d hd heq => hid ⟨d, hd, heq⟩
      rw [h.bindingsNil id hnone, h'.bindingsNil id hnone]
  obtain ⟨⟨kind, bindings⟩, issued, free⟩ := t
  obtain ⟨⟨kind', bindings'⟩, issued', free'⟩ := t'
  obtain rfl : kind = kind' := hkind
  obtain rfl : bindings = bindings' := hbindings
  obtain rfl : issued = issued' := h.issued.trans h'.issued.symm
  obtain rfl : free = free' := h.free.trans h'.free.symm
  rfl

theorem Described.eq_tree (h : s.Described cells t) (ha : s.Arranged removed cells) :
    s.tree = t :=
  (described_tree ha).unique h

end Describe

/-- A free slot becomes a node with the next id. -/
structure Gains (s : Store) (ent : EntryPtr) (name : List Byte) (type : Word) (s' : Store) :
    Prop where
  wellFormed : s.WellFormed
  dead : s.fileid ent = 0
  fileid : ∀ q, s'.fileid q = if q = ent then BitVec.ofNat 32 s.id else s.fileid q
  name : ∀ q, s'.nameOf q = if q = ent then name else s.nameOf q
  type : ∀ q, (s'.entries q).vaType = if q = ent then type else (s.entries q).vaType
  id : s'.id = s.id + 1

structure SameNodes (s s' : Store) : Prop where
  fileid : ∀ q, s'.fileid q = s.fileid q
  name : ∀ q, s'.nameOf q = s.nameOf q
  type : ∀ q, (s'.entries q).vaType = (s.entries q).vaType
  id : s'.id = s.id

structure Loses (s : Store) (p : EntryPtr) (s' : Store) : Prop where
  wellFormed : s.WellFormed
  live : s.live p
  fileid : ∀ q, s'.fileid q = if q = p then 0 else s.fileid q
  name : ∀ q, s'.nameOf q = s.nameOf q
  type : ∀ q, (s'.entries q).vaType = (s.entries q).vaType
  id : s'.id = s.id

section Nodes

variable {s s' s₂ : Store} {cells : EntryPtr → List EntryPtr} {removed : Word → Prop}
variable {d p ent q : EntryPtr} {j : Junk} {vt : Vtype} {t : FileTree} {name : List Byte}
variable {type : Word} {l : List EntryPtr}

theorem WellFormed.fileid_ne (hw : s.WellFormed) (p : EntryPtr) :
    s.fileid p ≠ BitVec.ofNat 32 s.id := by
  intro heq
  have hlt := hw.issued p
  rw [heq, hw.fresh] at hlt
  exact Nat.lt_irrefl _ hlt

theorem WellFormed.next_ne_zero (hw : s.WellFormed) : BitVec.ofNat 32 s.id ≠ (0 : Word) := by
  intro hz
  have hfresh := hw.fresh
  have hpos := hw.counter_pos
  rw [hz] at hfresh
  change 0 = s.id at hfresh
  omega

theorem Gains.live_iff (h : s.Gains ent name type s') : s'.live q ↔ q = ent ∨ s.live q := by
  change s'.fileid q ≠ 0 ↔ q = ent ∨ s.fileid q ≠ 0
  rw [h.fileid]
  by_cases hq : q = ent
  · rw [if_pos hq]
    exact iff_of_true h.wellFormed.next_ne_zero (Or.inl hq)
  · rw [if_neg hq, or_iff_right hq]

theorem Gains.ne (h : s.Gains ent name type s') (hq : s.live q) : q ≠ ent := by
  rintro rfl
  exact hq h.dead

theorem Gains.isDir_iff (h : s.Gains ent name type s') :
    s'.isDir q ↔ q = ent ∧ type = Vtype.dir.code ∨ s.isDir q := by
  rw [isDir, h.live_iff, h.type, isDir]
  by_cases hq : q = ent
  · simp [hq, live, show (s.entries ent).vaFileid = 0 from h.dead]
  · simp [hq]

theorem Gains.binding_of_ne (h : s.Gains ent name type s') (hq : q ≠ ent) :
    s'.binding q = s.binding q := by
  rw [binding, h.name, h.fileid, if_neg hq, if_neg hq, binding]

theorem Gains.binding_self (h : s.Gains ent name type s') :
    s'.binding ent = (name, BitVec.ofNat 32 s.id) := by
  rw [binding, h.name, h.fileid, if_pos rfl, if_pos rfl]

theorem Gains.freeSlots (h : s.Gains ent name type s') : s.freeSlots = s'.freeSlots + 1 := by
  have hset : (Finset.univ.filter fun p => (s'.entries p).vaFileid = 0) =
      (Finset.univ.filter fun p => (s.entries p).vaFileid = 0).erase ent := by
    ext q
    have hq := h.live_iff (q := q)
    simp only [live] at hq
    simp only [Finset.mem_filter, Finset.mem_univ, true_and, Finset.mem_erase, ne_eq]
    rw [← not_iff_not, not_and_or, not_not]
    exact hq
  have hmem : ent ∈ Finset.univ.filter fun p => (s.entries p).vaFileid = 0 :=
    Finset.mem_filter.mpr ⟨Finset.mem_univ ent, h.dead⟩
  rw [Store.freeSlots, Store.freeSlots, hset, Finset.card_erase_add_one hmem]

theorem Gains.alloc (hg : s.Gains ent name type s') (h : s.Arranged removed cells)
    (ht : s.Described cells t) : s'.Described (Function.update cells ent []) (t.alloc type) := by
  have hold := hg.wellFormed.fileid_ne
  constructor
  case kind =>
    intro q hq
    rw [hg.fileid, hg.type]
    rcases hg.live_iff.mp hq with rfl | hlive
    · simp [FileTree.alloc, ht.issued]
    · simp [FileTree.alloc, ht.issued, hg.ne hlive, hold q, ht.kind q hlive]
  case kindNone =>
    intro id hid
    have hent := hid ent (hg.live_iff.mpr (Or.inl rfl))
    rw [hg.fileid, if_pos rfl] at hent
    simp only [FileTree.alloc, ht.issued, Function.update_of_ne (Ne.symm hent)]
    refine ht.kindNone id fun q hq => ?_
    have hne := hid q (hg.live_iff.mpr (Or.inr hq))
    rwa [hg.fileid, if_neg (hg.ne hq)] at hne
  case bindings =>
    intro q hq
    rw [hg.fileid]
    rcases hg.isDir_iff.mp hq with ⟨rfl, _⟩ | hdir
    · rw [if_pos rfl, Function.update_self]
      exact ht.bindingsNil _ fun a _ => hold a
    · rw [if_neg (hg.ne hdir.1), Function.update_of_ne (hg.ne hdir.1)]
      refine (ht.bindings q hdir).trans (List.map_congr_left fun a ha => ?_)
      exact (hg.binding_of_ne (hg.ne (h.live q hdir a ha))).symm
  case bindingsNil =>
    intro id hid
    refine ht.bindingsNil id fun q hq => ?_
    have hne := hid q (hg.isDir_iff.mpr (Or.inr hq))
    rwa [hg.fileid, if_neg (hg.ne hq.1)] at hne
  case issued => exact (congrArg (· + 1) ht.issued).trans hg.id.symm
  case free =>
    have hslots := hg.freeSlots
    simp only [FileTree.alloc, ht.free]
    omega

theorem Described.rebind (hw : s.WellFormed) (ht : s.Described cells t) (hd : s.isDir d)
    (l : List EntryPtr) : s.Described (Function.update cells d l)
      { t with toDirTree := t.rebind (s.fileid d) (l.map s.binding) } where
  kind := ht.kind
  kindNone := ht.kindNone
  bindings q hq := by
    by_cases hqd : q = d
    · subst hqd
      simp only [DirTree.rebind, Function.update_self]
    · have hids : s.fileid q ≠ s.fileid d := fun heq => hqd (hw.unique d q hd.1 heq)
      simp only [DirTree.rebind, Function.update_of_ne hids, Function.update_of_ne hqd,
        ht.bindings q hq]
  bindingsNil id hid := by
    simp only [DirTree.rebind, Function.update_of_ne (hid d hd).symm]
    exact ht.bindingsNil id hid
  issued := ht.issued
  free := ht.free

theorem Gains.described (hg : s.Gains ent name type s') (hw : s'.WellFormed)
    (h : s.Arranged removed cells) (ht : s.Described cells t) (hd : s.isDir d) :
    s'.Described (Function.update (Function.update cells ent []) d (cells d ++ [ent]))
      (t.add (s.fileid d) name type) := by
  have hnew := (hg.alloc h ht).rebind hw (hg.isDir_iff.mpr (Or.inr hd)) (cells d ++ [ent])
  have hmap : (cells d ++ [ent]).map s'.binding =
      t.bindings (s.fileid d) ++ [(name, BitVec.ofNat 32 s.id)] := by
    rw [List.map_append, List.map_cons, List.map_nil, hg.binding_self, ht.bindings d hd]
    refine congrArg (· ++ _) (List.map_congr_left fun a ha => ?_)
    exact hg.binding_of_ne (hg.ne (h.live d hd a ha))
  rw [hmap, hg.fileid, if_neg (hg.ne hd.1), ← ht.issued] at hnew
  exact hnew

theorem Loses.live_iff (h : s.Loses p s') : s'.live q ↔ q ≠ p ∧ s.live q := by
  change s'.fileid q ≠ 0 ↔ q ≠ p ∧ s.fileid q ≠ 0
  rw [h.fileid]
  by_cases hq : q = p
  · rw [if_pos hq]
    exact iff_of_false (fun hne => hne rfl) fun hne => hne.1 hq
  · rw [if_neg hq, and_iff_right hq]

theorem Loses.isDir_iff (h : s.Loses p s') : s'.isDir q ↔ q ≠ p ∧ s.isDir q := by
  rw [isDir, h.live_iff, h.type, isDir, and_assoc]

theorem Loses.binding_of_ne (h : s.Loses p s') (hq : q ≠ p) : s'.binding q = s.binding q := by
  rw [binding, h.name, h.fileid, if_neg hq, binding]

theorem Loses.fileid_ne (h : s.Loses p s') (hq : q ≠ p) : s.fileid q ≠ s.fileid p :=
  fun heq => hq (h.wellFormed.unique p q h.live heq)

theorem Loses.freeSlots (h : s.Loses p s') : s'.freeSlots = s.freeSlots + 1 := by
  have hset : (Finset.univ.filter fun q => (s.entries q).vaFileid = 0) =
      (Finset.univ.filter fun q => (s'.entries q).vaFileid = 0).erase p := by
    ext q
    have hq := h.live_iff (q := q)
    simp only [Store.live] at hq
    simp only [Finset.mem_filter, Finset.mem_univ, true_and, Finset.mem_erase, ne_eq]
    by_cases hqp : q = p
    · subst hqp
      exact iff_of_false h.live fun hne => hne.1 rfl
    · rw [and_iff_right hqp, ← not_iff_not]
      exact (hq.trans (and_iff_right hqp)).symm
  have hmem : p ∈ Finset.univ.filter fun q => (s'.entries q).vaFileid = 0 := by
    refine Finset.mem_filter.mpr ⟨Finset.mem_univ p, ?_⟩
    have hzero := h.fileid p
    rwa [if_pos rfl] at hzero
  rw [Store.freeSlots, Store.freeSlots, hset, Finset.card_erase_add_one hmem]

theorem Loses.described (hl : s.Loses p s') (ht : s.Described cells t)
    (hgone : ∀ d, d ≠ p → s.isDir d → p ∉ cells d) :
    s'.Described cells (t.reclaim ⟨s.fileid p⟩) := by
  have hreclaim : t.reclaim ⟨s.fileid p⟩ =
      { t with toDirTree := t.forget (s.fileid p), free := t.free + 1 } := by
    rw [FileTree.reclaim, if_neg (by rw [ht.kind p hl.live]; exact Option.some_ne_none _)]
  rw [hreclaim]
  constructor
  case kind =>
    intro q hq
    obtain ⟨hqp, hlive⟩ := hl.live_iff.mp hq
    rw [hl.fileid, hl.type, if_neg hqp]
    simp only [DirTree.forget, Function.update_of_ne (hl.fileid_ne hqp), ht.kind q hlive]
  case kindNone =>
    intro id hid
    by_cases hp : id = s.fileid p
    · simp only [DirTree.forget, hp, Function.update_self]
    · simp only [DirTree.forget, Function.update_of_ne hp]
      refine ht.kindNone id fun q hq heq => ?_
      have hqp : q ≠ p := by
        rintro rfl
        exact hp heq.symm
      have hne := hid q (hl.live_iff.mpr ⟨hqp, hq⟩)
      rw [hl.fileid, if_neg hqp] at hne
      exact hne heq
  case bindings =>
    intro q hq
    obtain ⟨hqp, hdir⟩ := hl.isDir_iff.mp hq
    rw [hl.fileid, if_neg hqp]
    simp only [DirTree.forget, Function.update_of_ne (hl.fileid_ne hqp), ht.bindings q hdir]
    refine List.map_congr_left fun a ha => (hl.binding_of_ne ?_).symm
    rintro rfl
    exact hgone q hqp hdir ha
  case bindingsNil =>
    intro id hid
    by_cases hp : id = s.fileid p
    · simp only [DirTree.forget, hp, Function.update_self]
    · simp only [DirTree.forget, Function.update_of_ne hp]
      refine ht.bindingsNil id fun q hq heq => ?_
      have hqp : q ≠ p := by
        rintro rfl
        exact hp heq.symm
      have hne := hid q (hl.isDir_iff.mpr ⟨hqp, hq⟩)
      rw [hl.fileid, if_neg hqp] at hne
      exact hne heq
  case issued => exact ht.issued.trans hl.id.symm
  case free => exact (congrArg (· + 1) ht.free).trans hl.freeSlots.symm

theorem SameNodes.live_iff (h : SameNodes s s') : s'.live q ↔ s.live q := by
  change s'.fileid q ≠ 0 ↔ s.fileid q ≠ 0
  rw [h.fileid]

theorem SameNodes.isDir_iff (h : SameNodes s s') : s'.isDir q ↔ s.isDir q := by
  rw [isDir, h.live_iff, h.type, isDir]

theorem SameNodes.binding (h : SameNodes s s') : s'.binding = s.binding :=
  funext fun q => by rw [Store.binding, h.name, h.fileid, Store.binding]

theorem SameNodes.freeSlots (h : SameNodes s s') : s'.freeSlots = s.freeSlots := by
  have hsame : ∀ q, (s'.entries q).vaFileid = (s.entries q).vaFileid := h.fileid
  simp only [Store.freeSlots, hsame]

theorem SameNodes.described (hs : SameNodes s s') (ht : s.Described cells t) :
    s'.Described cells t where
  kind q hq := by
    rw [hs.fileid, hs.type]
    exact ht.kind q (hs.live_iff.mp hq)
  kindNone id hid := ht.kindNone id fun q hq => hs.fileid q ▸ hid q (hs.live_iff.mpr hq)
  bindings q hq := by
    rw [hs.fileid, hs.binding]
    exact ht.bindings q (hs.isDir_iff.mp hq)
  bindingsNil id hid := ht.bindingsNil id fun q hq => hs.fileid q ▸ hid q (hs.isDir_iff.mpr hq)
  issued := ht.issued.trans hs.id.symm
  free := ht.free.trans hs.freeSlots.symm

end Nodes
section Unlink

variable {n : List Byte} {b : List Byte × Word} {u v l : List (List Byte × Word)}

theorem unlink_of_forall (h : ∀ b ∈ l, b.1 ≠ n) : FileTree.unlink n l = l := by
  cases l with
  | nil => rfl
  | cons b l =>
      rw [FileTree.unlink, if_neg (h b List.mem_cons_self), List.eraseP_of_forall_not]
      intro a ha hn
      exact h a (List.mem_cons_of_mem b ha) (of_decide_eq_true hn)

theorem unlink_first (h : b.1 = n) : FileTree.unlink n (b :: l) = b :: l := if_pos h

theorem unlink_later (hu : u ≠ []) (h : ∀ a ∈ u, a.1 ≠ n) (hb : b.1 = n) :
    FileTree.unlink n (u ++ b :: v) = u ++ v := by
  cases u with
  | nil => exact absurd rfl hu
  | cons a u =>
      have hrest : ∀ c ∈ u, ¬ decide (c.1 = n) = true := fun c hc hn =>
        h c (List.mem_cons_of_mem a hc) (of_decide_eq_true hn)
      rw [List.cons_append, FileTree.unlink, if_neg (h a List.mem_cons_self),
        List.eraseP_append_right _ hrest, List.eraseP_cons_of_pos (by simpa using hb),
        List.cons_append]

end Unlink

section Step

variable {s s' s₂ : Store} {cells : EntryPtr → List EntryPtr} {removed : Word → Prop}
variable {d p ent res : EntryPtr} {j : Junk} {vt : Vtype} {name : Name} {m : Message}

/-- The chains of the live directories are a forest. -/
def Planted (s : Store) : Prop := s.TreeInv fun _ => False

theorem Arranged.planted (h : s.Arranged removed cells) : s.Planted :=
  ⟨cells, h.wellFormed, h.forest, h.live, fun _ _ _ _ hr => hr.elim, fun _ hr => hr.elim⟩

theorem gains_create (hw : s.WellFormed) (hent : s.findById 0 = some ent)
    (ha : (s.initAt ent vt j.rand).entryAppend d ent = some s₂)
    (hname : CString.plain (CString.ofArray name) ≠ none) :
    s.Gains ent (FileTree.stored name) vt.code (setName j s₂ ent name) where
  wellFormed := hw
  dead := findById_fileid hent
  fileid q := (fileid_created ha q).1
  name q := by
    obtain ⟨out, hout⟩ := Option.ne_none_iff_exists'.mp hname
    rw [nameOf_setName, nameOf_entryAppend ha, nameOf_initAt, FileTree.stored, hout,
      CString.ofArray_snprintf_plain _ _ (CString.zero_notMem_ofArray _) hout (by decide)]
    rfl
  type q := by
    rw [(sameLinks_setName j s₂ ent name).type, (kept_entryAppend ha q).type, initAt_entries]
    split <;> rfl
  id := (fileid_created ha d).2

theorem loses_reclaim (hw : s.WellFormed) (hp : s.live p) : s.Loses p (s.entryReclaim p) where
  wellFormed := hw
  live := hp
  fileid q := entryReclaim_fileid hw p q
  name q := by
    rw [nameOf, (entryReclaim_sameOwned hw p).entries]
    exact congrArg CString.ofArray
      (setEntry_field Entry.name s p { s.entries p with vaFileid := 0 } rfl q)
  type q := by
    rw [(entryReclaim_sameOwned hw p).entries]
    exact setEntry_field Entry.vaType s p { s.entries p with vaFileid := 0 } rfl q
  id := (entryReclaim_sameOwned hw p).id

theorem sameNodes_entryRemove (hr : s.entryRemove d res = some s') : SameNodes s s' where
  fileid := (sameFiles_entryRemove hr).fileid
  name := nameOf_entryRemove hr
  type q := (kept_entryRemove hr q).type
  id := (sameFiles_entryRemove hr).id

theorem SameTree.nodes (h : SameTree s s') : SameNodes s s' where
  fileid := h.fileid
  name q := congrArg CString.ofArray (h.name q)
  type := h.type
  id := h.id

theorem Arranged.remove (h : s.Arranged removed cells) (hd : s.isDir d)
    (hres : res ∈ cells d) (hr : s.entryRemove d res = some s') :
    ∃ l, s'.Arranged removed (Function.update cells d l) ∧
      ((∃ v, cells d = res :: v ∧ l = cells d) ∨
        ∃ u prev v, cells d = u ++ prev :: res :: v ∧ l = u ++ prev :: v) := by
  have hchain := h.forest.chain d hd
  have hw := h.wellFormed.sameFiles (sameFiles_entryRemove hr)
  obtain ⟨prev, k, hscan, rfl⟩ := entryRemove_some hr
  change s.scan _ (s.child d) = some prev at hscan
  rw [scan_of_chain hchain, Option.some.injEq] at hscan
  cases prev with
  | none =>
      refine ⟨cells d, ?_, Or.inl ?_⟩
      · rw [Function.update_eq_self]
        exact h.sameLinks hw (sameLinks_setNlink _ _ _)
      · rcases hchain.start_or_prev hres with hstart | ⟨a, ha, hnext⟩
        · rw [hstart] at hchain
          obtain ⟨v, hv, _⟩ := hchain.of_some
          exact ⟨v, hv, rfl⟩
        · exact absurd (precedes_iff.mpr ⟨res, hnext, rfl⟩) (List.find?_eq_none.mp hscan a ha)
  | some prev =>
      obtain ⟨n, hnext, hn⟩ := precedes_iff.mp (List.find?_some hscan)
      obtain ⟨u, v, hl⟩ := hchain.eq_neighbours (List.mem_of_find?_eq_some hscan) hnext
      obtain rfl : n = res := h.wellFormed.unique res n (h.live d hd res hres) hn
      refine ⟨u ++ prev :: v, ?_, Or.inr ⟨u, prev, v, hl, rfl⟩⟩
      exact (h.bypass hd hl).1.sameLinks hw (sameLinks_setNlink _ n k)

theorem tree_create (h : s.Planted) {req : CreateReq} {r : CreateResp × Store}
    (hparent : s.tree.IsParent req.parentFileid)
    (hname : CString.plain (CString.ofArray req.name) ≠ none)
    (hr : s.handleCreateRequest j vt req = some r) :
    r.2.Planted ∧ r.2.tree = s.tree.create vt req := by
  obtain ⟨cells, ha⟩ := h
  have hdesc := described_tree ha
  have hnode : s.nodeOf req.parentFileid = s.findById req.parentFileid := if_neg hparent.1
  rcases handleCreateRequest_cases hr with
    ⟨_, hsame, hwhy⟩ | ⟨d, ent, s₂, hd, hent, hid, happ, rfl⟩
  · rw [hsame, FileTree.create, if_pos]
    · exact ⟨⟨cells, ha⟩, rfl⟩
    · refine hwhy.imp (fun hnone => ?_) fun hfull => ?_
      · simp only [tree, hnode, hnone, Option.map_none]
      · change s.freeSlots = 0
        rw [freeSlots, Finset.card_eq_zero, Finset.filter_eq_empty_iff]
        exact fun p _ => findById_eq_none hfull p
  · have hfile : s.fileid d = req.parentFileid := findById_fileid hd
    have hlive : s.live d := fun hz => hparent.1 (hfile.symm.trans hz)
    have htype := hparent.2 _ (hfile ▸ hdesc.kind d hlive)
    have hg := gains_create (j := j) ha.wellFormed hent happ hname
    have hnew := (ha.create ⟨hlive, htype⟩ hent hid happ).sameLinks
      ((hg.wellFormed.initAt hid).sameFiles (sameFiles_entryAppend happ) |>.sameFiles
        (sameFiles_setName j s₂ ent req.name)) (sameLinks_setName j s₂ ent req.name)
    refine ⟨⟨_, hnew⟩, ?_⟩
    rw [(hg.described hnew.wellFormed ha hdesc ⟨hlive, htype⟩).eq_tree hnew, FileTree.create,
      if_neg, hfile]
    rw [not_or, ← hfile, hdesc.kind d hlive]
    refine ⟨Option.some_ne_none _, ?_⟩
    have hslots := hg.freeSlots
    change s.freeSlots ≠ 0
    omega

theorem rm_of_forall {t : FileTree} {req : RmReq}
    (h : ∀ b ∈ t.bindings req.parentFileid, b.1 ≠ CString.ofArray req.name) : t.rm req = t := by
  rw [FileTree.rm, unlink_of_forall h, DirTree.rebind, Function.update_eq_self]

/-- What RM removes is the first entry of that name on the chain of a directory. -/
theorem handleRmRequest_cases {req : RmReq} {r : RmResp × Store}
    (hr : s.handleRmRequest j req = some r) :
    (r.2 = s ∧ (r.1.err = enoent ∧ (∀ d, s.findById req.parentFileid = some d → s.isDir d →
        s.scan (s.hasName req.name) (s.child d) = some none) ∨
      ∃ d, s.findById req.parentFileid = some d ∧ (s.entries d).vaType ≠ Vtype.dir.code)) ∨
    ∃ d res, s.findById req.parentFileid = some d ∧ (s.entries d).vaType = Vtype.dir.code ∧
      s.scan (s.hasName req.name) (s.child d) = some (some res) ∧
      s.entryRemove d res = some r.2 ∧ r.1.err = 0 := by
  simp only [handleRmRequest, rmTarget] at hr
  cases hd : s.findById req.parentFileid with
  | none =>
      simp only [hd, Option.some.injEq] at hr
      subst hr
      exact Or.inl ⟨rfl, Or.inl ⟨rfl, fun _ hnone => by cases hnone⟩⟩
  | some d =>
      simp only [hd] at hr
      have hself : ∀ d', some d = some d' → d' = d := fun d' h => (Option.some.inj h).symm
      by_cases hchild : (s.entries d).child.isNone = true
      · simp only [hchild, if_true, Option.some.injEq] at hr
        subst hr
        refine Or.inl ⟨rfl, Or.inl ⟨rfl, fun d' hd' _ => ?_⟩⟩
        rw [hself d' hd', child, Option.isNone_iff_eq_none.mp hchild]
        unfold scan
        simp [LinkedTable.scan]
      · by_cases htype : (s.entries d).vaType = Vtype.dir.code
        · simp only [hchild, htype, ne_eq, not_true_eq_false, if_false] at hr
          cases hscan : s.scan (s.hasName req.name) (s.entries d).child with
          | none => simp [hscan] at hr
          | some m =>
              cases m with
              | none =>
                  simp only [hscan, Bool.false_eq_true, if_false, Option.some.injEq] at hr
                  subst hr
                  refine Or.inl ⟨rfl, Or.inl ⟨rfl, fun d' hd' _ => ?_⟩⟩
                  rw [hself d' hd']
                  exact hscan
              | some res =>
                  simp only [hscan, Bool.false_eq_true, if_false] at hr
                  cases hrm : s.entryRemove d res with
                  | none => simp [hrm] at hr
                  | some s' =>
                      simp only [hrm, Option.some.injEq] at hr
                      subst hr
                      exact Or.inr ⟨d, res, rfl, htype, hscan, hrm, rfl⟩
        · simp only [hchild, htype, ne_eq, not_false_eq_true, if_true, Bool.false_eq_true, if_false,
            Option.some.injEq] at hr
          subst hr
          exact Or.inl ⟨rfl, Or.inr ⟨d, rfl, htype⟩⟩

theorem name_ne_before {u v : List EntryPtr} (h : (u ++ res :: v).find? (s.hasName name) = some res)
    (hnodup : (u ++ res :: v).Nodup) {e : EntryPtr} (he : e ∈ u) :
    s.nameOf e ≠ CString.ofArray name := by
  intro hname
  rw [List.find?_append] at h
  cases hu : u.find? (s.hasName name) with
  | none => exact List.find?_eq_none.mp hu e he (hasName_iff.mpr hname)
  | some a =>
      rw [hu, Option.some_or, Option.some.injEq] at h
      subst h
      exact (List.nodup_append.mp hnodup).2.2 a (List.mem_of_find?_eq_some hu) a
        List.mem_cons_self rfl

theorem tree_rm (h : s.Planted) {req : RmReq} {r : RmResp × Store}
    (hparent : req.parentFileid ≠ 0) (hr : s.handleRmRequest j req = some r) :
    r.2.Planted ∧ r.2.tree = s.tree.rm req := by
  obtain ⟨cells, ha⟩ := h
  have hdesc := described_tree ha
  rcases handleRmRequest_cases hr with ⟨hsame, hwhy⟩ | ⟨d, res, hd, htype, hscan, hr, _⟩
  · rw [hsame, rm_of_forall]
    · exact ⟨⟨cells, ha⟩, rfl⟩
    · by_cases hdir : ∃ d, s.isDir d ∧ s.fileid d = req.parentFileid
      · obtain ⟨d, hdir, hfile⟩ := hdir
        have hfind := hfile ▸ ha.wellFormed.findById hdir.1
        have hscan : s.scan (s.hasName req.name) (s.child d) = some none := by
          rcases hwhy with ⟨_, hnone⟩ | ⟨d', hd', htype⟩
          · exact hnone d hfind hdir
          · rw [hfind, Option.some.injEq] at hd'
            exact absurd (hd' ▸ hdir.2) htype
        rw [scan_of_chain (ha.forest.chain d hdir), Option.some.injEq] at hscan
        rw [← hfile, hdesc.bindings d hdir]
        intro b hb hname
        obtain ⟨e, he, rfl⟩ := List.mem_map.mp hb
        exact List.find?_eq_none.mp hscan e he (hasName_iff.mpr hname)
      · rw [hdesc.bindingsNil _ fun d hd heq => hdir ⟨d, hd, heq⟩]
        exact fun b hb => by cases hb
  · have hfile : s.fileid d = req.parentFileid := findById_fileid hd
    have hdir : s.isDir d := ⟨fun hz => hparent (hfile.symm.trans hz), htype⟩
    rw [scan_of_chain (ha.forest.chain d hdir), Option.some.injEq] at hscan
    have hres := List.mem_of_find?_eq_some hscan
    have hname : (s.binding res).1 = CString.ofArray req.name :=
      hasName_iff.mp (List.find?_some hscan)
    obtain ⟨l, hnew, hl⟩ := ha.remove hdir hres hr
    have hunlink : l.map s.binding =
        FileTree.unlink (CString.ofArray req.name) ((cells d).map s.binding) := by
      rcases hl with ⟨v, hv, rfl⟩ | ⟨u, prev, v, hv, rfl⟩
      · rw [hv, List.map_cons, unlink_first hname]
      · rw [hv] at hscan ⊢
        have hsplit : ∀ w, u ++ prev :: w = (u ++ [prev]) ++ w := fun w => by simp
        have hnodup := (ha.forest.chain d hdir).nodup
        rw [hv, hsplit] at hnodup
        rw [hsplit] at hscan
        have hne : u ++ [prev] ≠ [] := by simp
        rw [hsplit v, hsplit (res :: v)]
        generalize u ++ [prev] = w at hscan hnodup hne ⊢
        rw [List.map_append, List.map_append, List.map_cons]
        refine (unlink_later (by simpa using hne) (fun b hb => ?_) hname).symm
        obtain ⟨e, he, rfl⟩ := List.mem_map.mp hb
        exact name_ne_before hscan hnodup he
    refine ⟨⟨_, hnew⟩, ?_⟩
    have hdesc' := (sameNodes_entryRemove hr).described (hdesc.rebind ha.wellFormed hdir l)
    rw [hdesc'.eq_tree hnew, FileTree.rm, hunlink, hfile, ← hdesc.bindings d hdir, hfile]

theorem SameTree.planted (hs : SameTree s s') (hw : s'.WellFormed) (h : s.Planted) :
    s'.Planted ∧ s'.tree = s.tree := by
  obtain ⟨cells, ha⟩ := h
  have hnew := ha.sameLinks hw hs.links
  exact ⟨⟨cells, hnew⟩, (hs.nodes.described (described_tree ha)).eq_tree hnew⟩

theorem tree_reclaim (h : s.Planted) {req : ReclaimReq} (hgone : s.tree.Unbound req.vaFileid) :
    (s.handleReclaimRequest j req).2.Planted ∧
      (s.handleReclaimRequest j req).2.tree = s.tree.reclaim req := by
  obtain ⟨cells, ha⟩ := h
  have hdesc := described_tree ha
  cases hp : s.findById req.vaFileid with
  | none =>
      have hkind : s.tree.kind req.vaFileid = none :=
        hdesc.kindNone _ fun p _ => findById_eq_none hp p
      simp only [handleReclaimRequest, hp]
      rw [FileTree.reclaim, if_pos hkind]
      exact ⟨⟨cells, ha⟩, rfl⟩
  | some p =>
      have hfile : s.fileid p = req.vaFileid := findById_fileid hp
      simp only [handleReclaimRequest, hp]
      have hout : ∀ d, d ≠ p → s.isDir d → p ∉ cells d := by
        intro d _ hd hmem
        refine hgone (s.fileid d) (s.binding p) ?_ hfile
        rw [hdesc.bindings d hd]
        exact List.mem_map_of_mem hmem
      have hnew := ha.entryReclaim p hout
      refine ⟨⟨cells, hnew⟩, ?_⟩
      by_cases hlive : s.live p
      · have hlost := (loses_reclaim ha.wellFormed hlive).described hdesc hout
        rw [hlost.eq_tree hnew, hfile]
      · have hentries := (entryReclaim_sameOwned ha.wellFormed p).entries
        rw [retire_of_free hlive] at hentries
        have hsame : SameNodes s (s.entryReclaim p) :=
          { fileid := fun q => by rw [fileid, hentries, fileid]
            name := fun q => by rw [nameOf, hentries, nameOf]
            type := fun q => by rw [hentries]
            id := (entryReclaim_sameOwned ha.wellFormed p).id }
        have hzero : s.fileid p = 0 := not_not.mp hlive
        rw [(hsame.described hdesc).eq_tree hnew, FileTree.reclaim, if_pos]
        simp only [tree, nodeOf, ← hfile, hzero, if_true, Option.map_none]

/-- Nothing but CREATE, MKDIR, RM and RECLAIM changes the tree. -/
theorem Change.sameTree (h : s.Change m s') (hc : m.creates = none) (hr : s.removes m = none)
    (hl : s.reclaims m = none) : SameTree s s' := by
  cases h with
  | keep => exact ⟨fun _ => rfl, fun _ => rfl, fun _ => rfl, fun _ => rfl, fun _ => rfl, rfl⟩
  | create hm => rw [hc] at hm; cases hm
  | remove hm => rw [hr] at hm; cases hm
  | reclaim hm => rw [hl] at hm; cases hm
  | resize _ => exact sameTree_entrySetsize _ _ _
  | copy _ hs => exact hs.tree

end Step

section Boot

variable {s : Store} {rootGen testGen : Word64}

theorem blank_described :
    blank.Described (fun _ => []) ⟨⟨fun _ => none, fun _ => []⟩, 1, entriesMax⟩ where
  kind p hp := absurd (blank_fileid p) hp
  kindNone _ _ := rfl
  bindings d hd := absurd (blank_fileid d) hd.1
  bindingsNil _ _ := rfl
  issued := rfl
  free := by decide

theorem boot_tree (h : boot rootGen testGen = some s) :
    s.Planted ∧ s.tree = FileTree.booted := by
  have hw := boot_wellFormed h
  obtain ⟨root, s₁, test, s₂, s₃, hroot, htest, happ, rfl⟩ := boot_some h
  obtain ⟨hfree, hid, rfl⟩ := entryInit_some hroot
  obtain ⟨hfree', hid', rfl⟩ := entryInit_some htest
  have hdead : ¬ blank.live root := not_not.mpr (findById_fileid hfree)
  have harr := blank_arranged.initAt hdead hid .dir rootGen
  have hfile : (blank.initAt root .dir rootGen).fileid root = 1 := by
    rw [initAt_fileid, if_pos rfl]
    rfl
  have hdir : (blank.initAt root .dir rootGen).isDir root := by
    refine ⟨show (blank.initAt root .dir rootGen).fileid root ≠ 0 from ?_, ?_⟩
    · rw [hfile]
      decide
    · rw [initAt_entries, if_pos rfl]
      rfl
  have hgroot : blank.Gains root (blank.nameOf root) Vtype.dir.code
      (blank.initAt root .dir rootGen) :=
    { wellFormed := blank_wellFormed
      dead := findById_fileid hfree
      fileid := initAt_fileid blank root .dir rootGen
      name := fun q => by
        rw [nameOf_initAt]
        split
        · rename_i hq
          rw [hq]
        · rfl
      type := fun q => by
        rw [initAt_entries]
        split <;> rfl
      id := rfl }
  let j : Junk := { Junk.zero with rand := testGen }
  have hname : CString.plain (CString.ofArray testNameArray) ≠ none := by decide +kernel
  have hstored : FileTree.stored testNameArray = testName := by decide +kernel
  have htext : CString.ofArray testNameArray = testName := by decide +kernel
  have hgtest := gains_create (j := j) harr.wellFormed hfree' happ hname
  have hset : setName j s₃ test testNameArray = s₃.setEntry test { s₃.entries test with
      name := CString.snprintf (fun text => text) testName (s₃.entries test).name } := by
    rw [setName, htext]
    rfl
  rw [hset, hstored] at hgtest
  have hnew := (harr.create hdir hfree' hid' happ).sameLinks hw
    (sameLinks_setEntry _ _ _ rfl rfl rfl rfl)
  have hdesc := hgtest.described hw harr (hgroot.alloc blank_arranged blank_described) hdir
  rw [hfile] at hdesc
  exact ⟨⟨_, hnew⟩, hdesc.eq_tree hnew⟩

end Boot

end Store

section Runs

variable {g g' : Gba} {j : Junk} {m : Message} {ms : List Message}

def FileTree.AllowsAll (t : FileTree) : List Message → Prop
  | [] => True
  | m :: ms => t.Allows m ∧ (t.after m).AllowsAll ms

theorem Gba.tree_receive (h : g.store.Planted) (ha : g.store.tree.Allows m)
    (hs : g.receive j m = some g') :
    g'.store.Planted ∧ g'.store.tree = g.store.tree.after m := by
  have hw : g.store.WellFormed := h.choose_spec.wellFormed
  have hkeep : m.creates = none → g.store.removes m = none → g.store.reclaims m = none →
      g'.store.Planted ∧ g'.store.tree = g.store.tree := fun hc hr hl =>
    ((Gba.receive_change hs).sameTree hc hr hl).planted (hw.change (Gba.receive_change hs)) h
  cases m with
  | chunk b => exact hkeep rfl rfl rfl
  | request r =>
      have hs' := Gba.receive_of_request hs
      cases r with
      | statvfs | readdir _ | lookup _ | getattr _ | write _ | read _ | setsize _ =>
          exact hkeep rfl rfl rfl
      | create req | mkdir req =>
          obtain ⟨r, hr, rfl⟩ := Option.map_eq_some_iff.mp hs'
          exact Store.tree_create h ha.1 ha.2 hr
      | rm req =>
          obtain ⟨r, hr, rfl⟩ := Option.map_eq_some_iff.mp hs'
          exact Store.tree_rm h ha.1 hr
      | reclaim req =>
          cases hs'
          exact Store.tree_reclaim h ha

theorem Gba.Run.tree (h : g.Run ms g') (hp : g.store.Planted)
    (ha : g.store.tree.AllowsAll ms) :
    g'.store.Planted ∧ g'.store.tree = ms.foldl FileTree.after g.store.tree := by
  induction h with
  | nil g => exact ⟨hp, rfl⟩
  | cons hs _ ih =>
      obtain ⟨hp', htree⟩ := Gba.tree_receive hp ha.1 hs
      have hrest := ha.2
      rw [← htree] at hrest
      rw [List.foldl_cons, ← htree]
      exact ih hp' hrest

end Runs

end WiiJoybus
