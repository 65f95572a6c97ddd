import WiiJoybus.Gba.Chains
import WiiJoybus.Link.Names

/-!
Listing a directory in several calls.

A caller that resumes READDIR hands in the number of the next entry, and the number is
looked up on the chain as it is by then. A chain that has lost an entry before that
number has moved up by one, and the entry that has moved to before it is not listed.
-/

namespace WiiJoybus
open LinkedTable ByteMemory StructLayout Dialogue Dialogue.Network

/-- A caller between two calls of READDIR. -/
structure Enumeration where
  store : Store
  readoff : Word64
  eofflag : Word
  delivered : List Dirent
  /-- The stores there have been, the last one first. -/
  stores : List Store

/-- Calls of READDIR with any buffers, each resumed where the last one left off, until it has
set `eofflag`. Between them the GBA handles requests to CREATE, MKDIR and RM. -/
inductive Enumerates (e : Puffs) (junk : Nat → Junk) (opc : Word)
    (allowed : Enumeration → Message → Prop) (s₀ : Store) : Enumeration → Prop where
  | start : Enumerates e junk opc allowed s₀ ⟨s₀, 0, 0, [], [s₀]⟩
  | readdir {c : Enumeration} {runs reslen n : Nat} {wanted : Bool} {errno : Word}
      {l : ReaddirLoop} {s : Store} (h : Enumerates e junk opc allowed s₀ c)
      (hgoing : c.eofflag = 0)
      (hx : (link e junk).Exchanges (nodeReaddir e opc ⟨[], reslen⟩ c.readoff c.eofflag wanted)
        ⟨⟨c.store, .dispatch⟩, runs⟩ (.readdir errno l) ⟨⟨s, .dispatch⟩, n⟩) :
      Enumerates e junk opc allowed s₀
        ⟨s, l.readoff, l.eofflag, c.delivered ++ l.dent.dents, s :: c.stores⟩
  | change {c : Enumeration} {j : Junk} {m : Message} {g : Gba}
      (h : Enumerates e junk opc allowed s₀ c) (hgoing : c.eofflag = 0)
      (hm : m.parent.isSome = true) (hok : allowed c m)
      (hg : Gba.receive j ⟨c.store, .dispatch⟩ m = some g) :
      Enumerates e junk opc allowed s₀ { c with store := g.store, stores := g.store :: c.stores }

/-- The directory has a child with this id. -/
def Store.Links (s : Store) (d : EntryPtr) (id : Word) : Prop :=
  ∃ n q, nth s.next n (s.child d) = some q ∧ s.live q ∧ s.fileid q = id

namespace Enumeration

def pos (c : Enumeration) : Nat := c.readoff.toNat - 2

def filenos (c : Enumeration) : List Word64 := c.delivered.map Dirent.dFileno

/-- How often the child with this id has been delivered. -/
def times (c : Enumeration) (id : Word) : Nat := c.filenos.count (id.setWidth 64)

end Enumeration

/-- No child is delivered twice, and in the end every child that has been there throughout is
delivered. -/
structure EnumerationRight (d : EntryPtr) (c : Enumeration) : Prop where
  once : ∀ id, (∃ s ∈ c.stores, s.Links d id) → c.times id ≤ 1
  all : c.eofflag ≠ 0 → ∀ id, (∀ s ∈ c.stores, s.Links d id) → c.times id = 1

/-- The message keeps the directory's chain one, and what is still to be delivered at the
number that is to be asked for next or after it. -/
def Keeps (d : EntryPtr) (c : Enumeration) (m : Message) : Prop :=
  ∀ l, Chain c.store.next (c.store.child d) l → c.store.CreateKeeps l m ∧ c.store.RmKeeps l c.pos m

namespace ReaddirLoop

variable {l : ReaddirLoop}

theorem readoff_succ {i : Nat} (h : l.readoff = BitVec.ofNat 64 (2 + i)) :
    l.readoff + 1 = BitVec.ofNat 64 (2 + (i + 1)) := by
  rw [h, ← Nat.add_assoc, BitVec.ofNat_add (2 + i) 1]
  rfl

/-- A call delivers the entries from its number on, as many as it has room for. -/
theorem fill_resumes (e : Puffs) (listed : Nat → Word → Option Dirent) {items : List Dirent}
    {cap : Nat} (hlen : items.length ≤ cap)
    (hitems : ∀ k ≤ cap, ∀ n, listed n (BitVec.ofNat 32 k) = items[k]?) (fuel n i : Nat)
    (hoff : l.readoff = BitVec.ofNat 64 (2 + i)) (hi : i ≤ cap) :
    ∃ t, i + t ≤ cap ∧ (fill e listed fuel n l).readoff = BitVec.ofNat 64 (2 + (i + t)) ∧
      (fill e listed fuel n l).dent.dents = l.dent.dents ++ (items.drop i).take t ∧
      ((fill e listed fuel n l).eofflag = l.eofflag ∨ items.length ≤ i + t) := by
  induction fuel generalizing n i l with
  | zero => exact ⟨0, hi, hoff, by simp [fill], Or.inl rfl⟩
  | succ fuel ih =>
      rw [fill, req_n hoff, hitems i hi]
      cases hget : items[i]? with
      | none => exact ⟨0, hi, hoff, by simp, Or.inr (List.getElem?_eq_none_iff.mp hget)⟩
      | some d =>
          simp only
          split
          · exact ⟨0, hi, hoff, by simp, Or.inl rfl⟩
          · rename_i dent hdent
            obtain ⟨_, rfl⟩ := nextdent_true hdent
            obtain ⟨hlt, hd⟩ := List.getElem?_eq_some_iff.mp hget
            obtain ⟨t, ht, hoff', hdents, heof⟩ := ih (n + 1) (i + 1)
              (l := l.advance ⟨l.dent.dents ++ [d], l.dent.reslen - e.reclen d.dName.length⟩)
              (readoff_succ hoff) (by omega)
            rw [Nat.add_right_comm, Nat.add_assoc] at ht hoff' heof
            refine ⟨t + 1, ht, hoff', ?_, heof⟩
            rw [hdents, List.drop_eq_getElem_cons hlt, List.take_succ_cons, hd]
            exact List.append_assoc _ _ _

end ReaddirLoop

section Call

variable {s : Store} {d : EntryPtr} {l : List EntryPtr} {readoff : Word64}

theorem readdirStart_resumes (e : Puffs) (opc eofflag : Word) (reslen : Nat) (wanted : Bool)
    {i : Nat} (hoff : readoff = 0 ∧ i = 0 ∨ readoff = BitVec.ofNat 64 (2 + i))
    (hi : i ≤ entriesMax) :
    (readdirStart e opc ⟨[], reslen⟩ readoff eofflag wanted).readoff = BitVec.ofNat 64 (2 + i) ∧
      (readdirStart e opc ⟨[], reslen⟩ readoff eofflag wanted).eofflag = eofflag := by
  rcases hoff with ⟨rfl, rfl⟩ | rfl
  · exact ⟨rfl, rfl⟩
  · have hne : ∀ k < 2, BitVec.ofNat 64 (2 + i) ≠ BitVec.ofNat 64 k := by
      intro k hk heq
      have hmax : entriesMax = 20 := rfl
      have hnat := congrArg BitVec.toNat heq
      simp only [BitVec.toNat_ofNat] at hnat
      omega
    have hdot : ∀ (a : ReaddirLoop) (dotdot : Bool), a.readoff = BitVec.ofNat 64 (2 + i) →
        a.dot e dotdot = a := by
      intro a dotdot ha
      rw [ReaddirLoop.dot, if_neg]
      rw [ha]
      cases dotdot with
      | false => exact hne 0 (by decide)
      | true => exact hne 1 (by decide)
    rw [readdirStart, hdot _ false rfl, hdot _ true rfl]
    exact ⟨rfl, rfl⟩

theorem listing_resumes (e : Puffs) (eofflag : Word) (reslen : Nat) (wanted : Bool)
    (hw : s.WellFormed) (hd : s.live d) (hchain : Chain s.next (s.child d) l) {i : Nat}
    (hoff : readoff = 0 ∧ i = 0 ∨ readoff = BitVec.ofNat 64 (2 + i)) (hi : i ≤ entriesMax) :
    ∃ t dots, i + t ≤ entriesMax ∧ (∀ x ∈ dots, ∃ dotdot, x = dotDirent dotdot) ∧
      (s.listing e (s.fileid d) ⟨[], reslen⟩ readoff eofflag wanted).readoff =
        BitVec.ofNat 64 (2 + (i + t)) ∧
      (s.listing e (s.fileid d) ⟨[], reslen⟩ readoff eofflag wanted).dent.dents =
        dots ++ ((l.drop i).take t).map (s.direntOf e) ∧
      ((s.listing e (s.fileid d) ⟨[], reslen⟩ readoff eofflag wanted).eofflag = eofflag ∨
        l.length ≤ i + t) := by
  have hlen := hchain.length_le
  rw [Fintype.card_fin] at hlen
  have hnum : ∀ k ≤ entriesMax, (BitVec.ofNat 32 k).toInt.toNat = k := by decide
  have hitems : ∀ k ≤ entriesMax, ∀ _ : Nat,
      s.listed e (s.fileid d) (BitVec.ofNat 32 k) = (l.map (s.direntOf e))[k]? := by
    intro k hk _
    rw [listed_eq hw hd rfl, hnum k hk, hchain.nth, List.getElem?_map]
  obtain ⟨hstart, heof⟩ := readdirStart_resumes e (s.fileid d) eofflag reslen wanted hoff hi
  obtain ⟨t, ht, hoff', hdents, hend⟩ := ReaddirLoop.fill_resumes e
    (fun _ => s.listed e (s.fileid d)) (by rwa [List.length_map]) hitems
    ((readdirStart e (s.fileid d) ⟨[], reslen⟩ readoff eofflag wanted).dent.reslen + 1) 0 i
    hstart hi
  rw [heof, List.length_map] at hend
  rw [← List.map_drop, ← List.map_take] at hdents
  exact ⟨t, _, ht, fun x hx => mem_readdirStart hx, hoff', hdents, hend⟩

end Call

namespace Store

def fileno (s : Store) (p : EntryPtr) : Word64 := (s.fileid p).setWidth 64

/-- Neither a free slot nor one of the dots. -/
def real (x : Word64) : Prop := x ≠ 0 ∧ x ≠ 1

section Numbers

variable {s s' : Store} {d p q : EntryPtr} {l : List EntryPtr} {id : Word} {m : Message}

theorem fileno_toNat (s : Store) (p : EntryPtr) : (s.fileno p).toNat = (s.fileid p).toNat :=
  widen_toNat _

theorem fileno_congr (h : s'.fileid p = s.fileid p) : s'.fileno p = s.fileno p := by
  rw [fileno, h, fileno]

theorem live_of_real (h : real (s.fileno p)) : s.live p := by
  intro hfree
  have hid : s.fileid p = 0 := hfree
  exact h.1 (by rw [fileno, hid]; rfl)

theorem not_real_dot (dotdot : Bool) : ¬ real (dotDirent dotdot).dFileno := fun h => h.2 rfl

theorem distinct_filenos (hw : s.WellFormed) (hl : l.Nodup) :
    Cursor.Distinct real (l.map s.fileno) := by
  refine List.pairwise_map.mpr (hl.imp ?_)
  intro p q hne hreal heq
  exact hne (hw.unique p q (live_of_real hreal) (widen_inj heq).symm).symm

theorem links_of_nth {n : Nat} (hn : nth s.next n (s.child d) = some q) (hid : s.fileid q = id)
    (hne : id ≠ 0) : s.Links d id :=
  ⟨n, q, hn, fun hfree => hne (hid.symm.trans hfree), hid⟩

theorem Links.real (h : s.Links d id) (hroot : s.RootUnlinked) : Store.real (id.setWidth 64) := by
  obtain ⟨n, q, hq, hlive, rfl⟩ := h
  constructor
  · exact fun hzero => hlive (widen_inj hzero)
  · exact fun hone => hroot q (targets_of_nth hq) (widen_inj hone)

theorem Links.mem_filenos (h : s.Links d id) (hchain : Chain s.next (s.child d) l) :
    id.setWidth 64 ∈ l.map s.fileno := by
  obtain ⟨n, q, hq, _, rfl⟩ := h
  rw [hchain.nth] at hq
  exact List.mem_map_of_mem (List.mem_of_getElem? hq)

theorem alone_of_parent (h : m.parent.isSome = true) :
    s.resizes m = none ∧ s.reclaims m = none ∧ ∀ b, m ≠ .chunk b := by
  cases m with
  | chunk b => cases h
  | request r => cases r <;> first | exact ⟨rfl, rfl, nofun⟩ | cases h

/-- What the message makes of the chain, as the numbers show it. -/
theorem exists_chain_changed (hd : s.live d) (hw : s.WellFormed)
    (hchain : Chain s.next (s.child d) l) (hc : s.Change m s') (hm : m.parent.isSome = true)
    (hcreate : s.CreateKeeps l m) {pos : Nat} (hrm : s.RmKeeps l pos m) :
    s'.fileid d = s.fileid d ∧ ∃ l', Chain s'.next (s'.child d) l' ∧
      Cursor.Moves (fun x => x.toNat = s.id) pos (l.map s.fileno) (l'.map s'.fileno) := by
  obtain ⟨hz, hr, hb⟩ := alone_of_parent (s := s) hm
  cases hc with
  | keep => exact ⟨rfl, l, hchain, .shorten List.prefix_rfl⟩
  | @create vt req parent j ent _ s₂ hm' hp hi ha =>
      obtain ⟨hfree, _, rfl⟩ := entryInit_some hi
      have hne : d ≠ ent := by
        rintro rfl
        exact hd (findById_fileid hfree)
      have hids : ∀ q, (setName j s₂ ent req.name).fileid q =
          if q = ent then BitVec.ofNat 32 s.id else s.fileid q :=
        fun q => (fileid_created ha q).1
      obtain ⟨l', hl', hshape⟩ :=
        exists_chain_created hchain hne (hcreate vt req parent ent hm' hp hfree) ha
      have hlinks := sameLinks_setName j s₂ ent req.name
      rw [← funext hlinks.next, ← hlinks.child] at hl'
      have hold : (before l ent).map (setName j s₂ ent req.name).fileno =
          (before l ent).map s.fileno := by
        refine List.map_congr_left fun q hq => fileno_congr ?_
        rw [hids, if_neg (ne_of_mem_before hq)]
      have hprefix : (before l ent).map s.fileno <+: l.map s.fileno :=
        (List.takeWhile_prefix _).map s.fileno
      refine ⟨by rw [hids, if_neg hne], l', hl', ?_⟩
      rcases hshape with rfl | rfl
      · rw [hold]
        exact .shorten hprefix
      · rw [List.map_append, hold]
        refine .append hprefix ?_
        rw [fileno_toNat, hids, if_pos rfl]
        exact hw.fresh
  | @remove parent res _ hm' h =>
      have hids : s'.fileno = s.fileno :=
        funext fun q => fileno_congr ((sameFiles_entryRemove h).fileid q)
      obtain ⟨l', hl', hshape⟩ := exists_chain_removed hchain h fun prev j =>
        hrm parent res prev j hm'
      refine ⟨(sameFiles_entryRemove h).fileid d, l', hl', ?_⟩
      rw [hids]
      rcases hshape with rfl | ⟨j, k, hj, hjk, hspares, rfl⟩
      · exact .shorten List.prefix_rfl
      · rw [List.map_append, List.map_take, List.map_drop]
        rw [← List.length_map s.fileno] at hj hspares
        exact .cut hspares hj hjk
  | reclaim h => exact absurd h (by simp [hr])
  | resize h => exact absurd h (by simp [hz])
  | copy h => exact absurd h (hb _)

theorem Links.lt (h : s.Links d id) (hw : s.WellFormed) : id.toNat < s.id := by
  obtain ⟨n, q, _, _, rfl⟩ := h
  exact hw.issued q

end Numbers

end Store

namespace Enumeration

/-- The number of a child that has been there throughout. -/
def Lasting (c : Enumeration) (d : EntryPtr) (x : Word64) : Prop :=
  ∃ id, id.setWidth 64 = x ∧ ∀ s ∈ c.stores, s.Links d id

/-- What holds between two calls. -/
structure Tracked (opc : Word) (d : EntryPtr) (c : Enumeration) : Prop where
  wellFormed : c.store.WellFormed
  terminated : c.store.Terminated
  counter : 1 < c.store.id
  live : c.store.live d
  dir : c.store.fileid d = opc
  current : c.store ∈ c.stores
  unlinked : ∀ s ∈ c.stores, s.RootUnlinked
  known : ∀ x ∈ c.filenos, x.toNat < c.store.id
  place : c.readoff = 0 ∨ c.readoff = BitVec.ofNat 64 (2 + c.pos)
  bounded : c.pos ≤ entriesMax
  listing : ∃ l, Chain c.store.next (c.store.child d) l ∧
    Cursor.Fair Store.real (c.Lasting d) (l.map c.store.fileno) c.pos c.filenos ∧
    (c.eofflag ≠ 0 → l.length ≤ c.pos)

section Runs

variable {e : Puffs} {junk : Nat → Junk} {opc : Word} {d : EntryPtr} {c : Enumeration}
variable {s : Store} {l : List EntryPtr}

theorem Lasting.mono {c' : Enumeration} {x : Word64} (hs : ∀ s ∈ c.stores, s ∈ c'.stores)
    (h : c'.Lasting d x) : c.Lasting d x := by
  obtain ⟨id, hid, hall⟩ := h
  exact ⟨id, hid, fun s hmem => hall s (hs s hmem)⟩

theorem Tracked.start (hs : s.Reachable) (hd : s.live d) (hchain : Chain s.next (s.child d) l) :
    Tracked (s.fileid d) d ⟨s, 0, 0, [], [s]⟩ where
  wellFormed := hs.wellFormed
  terminated := hs.terminated
  counter := counter_of_reachable hs
  live := hd
  dir := rfl
  current := List.mem_singleton_self s
  unlinked t ht := by
    obtain ⟨phase, hr⟩ := hs
    rw [List.mem_singleton.mp ht]
    exact hr.rootUnlinked
  known _ hx := absurd hx List.not_mem_nil
  place := Or.inl rfl
  bounded := Nat.zero_le _
  listing := ⟨l, hchain, .start _ _ _, fun hne => absurd rfl hne⟩

theorem Tracked.readdir (h : Tracked opc d c) (hgoing : c.eofflag = 0) {reslen : Nat}
    {wanted : Bool} {r : ReaddirLoop}
    (hr : r = c.store.listing e opc ⟨[], reslen⟩ c.readoff c.eofflag wanted) :
    Tracked opc d ⟨c.store, r.readoff, r.eofflag, c.delivered ++ r.dent.dents,
      c.store :: c.stores⟩ := by
  obtain ⟨l, hchain, hfair, _⟩ := h.listing
  have hoff : c.readoff = 0 ∧ c.pos = 0 ∨ c.readoff = BitVec.ofNat 64 (2 + c.pos) :=
    h.place.imp_left fun hzero => ⟨hzero, by rw [pos, hzero]; rfl⟩
  obtain ⟨t, dots, ht, hdots, hoff', hdents, hend⟩ := listing_resumes e c.eofflag reslen
    wanted h.wellFormed h.live hchain hoff h.bounded
  rw [h.dir, ← hr] at hoff' hdents hend
  have hmax : entriesMax = 20 := rfl
  have hpos : r.readoff.toNat - 2 = c.pos + t := by
    rw [hoff', BitVec.toNat_ofNat]
    omega
  have hpiece : (((l.drop c.pos).take t).map (c.store.direntOf e)).map Dirent.dFileno =
      ((l.map c.store.fileno).drop c.pos).take t := by
    rw [List.map_map, ← List.map_drop, ← List.map_take]
    rfl
  have hids : (c.delivered ++ r.dent.dents).map Dirent.dFileno =
      (c.filenos ++ dots.map Dirent.dFileno) ++ ((l.map c.store.fileno).drop c.pos).take t := by
    rw [hdents, List.map_append, List.map_append, hpiece, ← List.append_assoc]
    rfl
  have hdot : ∀ x ∈ dots.map Dirent.dFileno, ∃ dotdot, x = (dotDirent dotdot).dFileno := by
    intro x hx
    obtain ⟨y, hy, rfl⟩ := List.mem_map.mp hx
    obtain ⟨dotdot, rfl⟩ := hdots y hy
    exact ⟨dotdot, rfl⟩
  constructor
  case wellFormed => exact h.wellFormed
  case terminated => exact h.terminated
  case counter => exact h.counter
  case live => exact h.live
  case dir => exact h.dir
  case current => exact List.mem_cons_self
  case unlinked =>
    intro s hs
    cases List.mem_cons.mp hs with
    | inl heq => exact heq ▸ h.unlinked _ h.current
    | inr hmem => exact h.unlinked s hmem
  case known =>
    intro x hx
    rw [filenos, hids, List.mem_append, List.mem_append] at hx
    rcases hx with (hold | hdotted) | hnew
    · exact h.known x hold
    · obtain ⟨dotdot, rfl⟩ := hdot x hdotted
      exact h.counter
    · obtain ⟨p, _, rfl⟩ := List.mem_map.mp (List.mem_of_mem_drop (List.mem_of_mem_take hnew))
      rw [Store.fileno_toNat]
      exact h.wellFormed.issued p
  case place =>
    right
    rw [pos, hpos]
    exact hoff'
  case bounded =>
    rw [pos, hpos]
    exact ht
  case listing =>
    refine ⟨l, hchain, ?_, ?_⟩
    · rw [filenos, hids, pos, hpos]
      have hskip := hfair.skip (u := dots.map Dirent.dFileno) fun x hx hreal => by
        obtain ⟨dotdot, rfl⟩ := hdot x hx
        exact Store.not_real_dot dotdot hreal
      exact (hskip.deliver (Store.distinct_filenos h.wellFormed hchain.nodup) t).mono fun x =>
        Lasting.mono fun s hs => List.mem_cons_of_mem _ hs
    · intro hne
      rw [pos, hpos]
      exact hend.resolve_left fun hsame => hne (hsame.trans hgoing)

theorem Tracked.change {m : Message} (h : Tracked opc d c) (hgoing : c.eofflag = 0)
    (hc : c.store.Change m s) (hm : m.parent.isSome = true) (hok : Keeps d c m) :
    Tracked opc d { c with store := s, stores := s :: c.stores } := by
  obtain ⟨l, hchain, hfair, _⟩ := h.listing
  obtain ⟨hcreate, hrm⟩ := hok l hchain
  obtain ⟨hdir, l', hl', hmoves⟩ :=
    Store.exists_chain_changed h.live h.wellFormed hchain hc hm hcreate hrm
  have hle := hc.counter_le h.wellFormed
  constructor
  case wellFormed => exact h.wellFormed.change hc
  case terminated => exact h.terminated.change h.wellFormed hc
  case counter => exact Nat.lt_of_lt_of_le h.counter hle
  case live =>
    change s.fileid d ≠ 0
    rw [hdir]
    exact h.live
  case dir => exact hdir.trans h.dir
  case current => exact List.mem_cons_self
  case unlinked =>
    intro t ht
    cases List.mem_cons.mp ht with
    | inl heq =>
        rw [heq]
        exact (h.unlinked _ h.current).change h.wellFormed h.counter hc
    | inr hmem => exact h.unlinked t hmem
  case known => exact fun x hx => Nat.lt_of_lt_of_le (h.known x hx) hle
  case place => exact h.place
  case bounded => exact h.bounded
  case listing =>
    refine ⟨l', hl', ?_, fun hne => absurd hgoing hne⟩
    have hnew : ∀ x : Word64, x.toNat = c.store.id → x ∉ c.filenos ∧ ¬ c.Lasting d x := by
      intro x hx
      constructor
      · exact fun hmem => Nat.ne_of_lt (h.known x hmem) hx
      · rintro ⟨id, rfl, hall⟩
        have hlt := (hall _ h.current).lt h.wellFormed
        rw [widen_toNat] at hx
        exact Nat.ne_of_lt hlt hx
    exact (hfair.moves hmoves hnew).mono fun x =>
      Lasting.mono fun t ht => List.mem_cons_of_mem _ ht

theorem Tracked.right (h : Tracked opc d c) : EnumerationRight d c := by
  obtain ⟨l, hchain, hfair, hend⟩ := h.listing
  have honce : ∀ id, (∃ s ∈ c.stores, s.Links d id) → c.times id ≤ 1 := by
    rintro id ⟨s, hs, hlinks⟩
    exact hfair.once.count_le_one (hlinks.real (h.unlinked s hs))
  constructor
  case once => exact honce
  case all =>
    intro hne id hall
    have hnow := hall _ h.current
    have hmem : id.setWidth 64 ∈ c.filenos := by
      refine hfair.complete (by simpa using hend hne) (hnow.mem_filenos hchain) ?_ ⟨id, rfl, hall⟩
      exact hnow.real (h.unlinked _ h.current)
    exact Nat.le_antisymm (honce id ⟨_, h.current, hnow⟩) (List.count_pos_iff.mpr hmem)

theorem exists_readdir {allowed : Enumeration → Message → Prop} {s₀ : Store}
    (h : Enumerates e junk opc allowed s₀ c) (hgoing : c.eofflag = 0) (ht : c.store.Terminated)
    {reslen : Nat} {readoff : Word64} (hoff : c.readoff = readoff) {r : ReaddirLoop}
    (hr : c.store.listing e opc ⟨[], reslen⟩ readoff 0 false = r) :
    ∃ c', Enumerates e junk opc allowed s₀ c' ∧ c'.store = c.store ∧
      c'.stores = c.store :: c.stores ∧ c'.readoff = r.readoff ∧ c'.eofflag = r.eofflag ∧
      c'.filenos = c.filenos ++ r.dent.dents.map Dirent.dFileno := by
  obtain ⟨n, hx⟩ :=
    (calls_readdir ht e junk 0 opc ⟨[], reslen⟩ c.readoff c.eofflag false).exchanges
  rw [hoff, hgoing, hr, ← hoff, ← hgoing] at hx
  exact ⟨_, h.readdir hgoing hx, rfl, rfl, rfl, rfl, List.map_append⟩

theorem tracked_of_enumerates (hs : s.Reachable) (hd : s.live d)
    (hchain : Chain s.next (s.child d) l)
    (h : Enumerates e junk (s.fileid d) (Keeps d) s c) : Tracked (s.fileid d) d c := by
  induction h with
  | start => exact .start hs hd hchain
  | readdir _ hgoing hx ih =>
      have hcall := (calls_readdir ih.terminated e junk _ _ _ _ _ _).of_exchanges hx
      cases hcall
      exact ih.readdir hgoing rfl
  | change _ hgoing hm hok hg ih => exact ih.change hgoing (Gba.receive_change hg) hm hok

end Runs

end Enumeration

/-- Where every message between the calls keeps what is to be delivered, every child that has been
there throughout is delivered exactly once and none twice. -/
theorem enumerationRight_of_keeps {e : Puffs} {junk : Nat → Junk} {s : Store} {d : EntryPtr}
    {l : List EntryPtr} {c : Enumeration} (hs : s.Reachable) (hd : s.live d)
    (hchain : Chain s.next (s.child d) l)
    (h : Enumerates e junk (s.fileid d) (Keeps d) s c) : EnumerationRight d c :=
  (Enumeration.tracked_of_enumerates hs hd hchain h).right

/-- The file `a` is created between two calls, the first of which has room for the dots only. -/
theorem enumerationRight_of_keeps_root : ∃ (g : Gba) (c : Enumeration), bootRun [] = some g ∧
    Enumerates .zero (fun _ => .zero) (g.store.fileid rootSlot) (Keeps rootSlot) g.store c ∧
    c.filenos = [1, 1, 2, 3] ∧ c.eofflag ≠ 0 ∧ EnumerationRight rootSlot c := by
  obtain ⟨g', hg', hfacts⟩ := Option.map_eq_some_iff.mp
    (show (bootRun [.request (.create ⟨1, byteName 97⟩)]).map (fun g => decide (
      (g.store.listing .zero 1 ⟨[], 100⟩ 2 0 false).dent.dents.map Dirent.dFileno = [2, 3] ∧
      (g.store.listing .zero 1 ⟨[], 100⟩ 2 0 false).eofflag = 1)) = some true by decide +kernel)
  obtain ⟨hsecond, hend⟩ := of_decide_eq_true hfacts
  obtain ⟨g, hg, hcreate⟩ := bootRun_cons hg'
  obtain ⟨g₀, hg₀, hr, hroot, hchain, _, hfree, _⟩ := boot_root
  obtain rfl : g₀ = g := Option.some.inj (hg₀.symm.trans hg)
  have hfacts := show (bootRun []).map (fun g => decide (
      (g.store.listing .zero 1 ⟨[], 5⟩ 0 0 false).dent.dents.map Dirent.dFileno = [1, 1] ∧
      (g.store.listing .zero 1 ⟨[], 5⟩ 0 0 false).readoff = 2 ∧
      (g.store.listing .zero 1 ⟨[], 5⟩ 0 0 false).eofflag = 0 ∧
      g.store.fileid rootSlot = 1)) = some true by decide +kernel
  rw [hg, Option.map_some, Option.some.injEq] at hfacts
  obtain ⟨hfirst, hoff, hgoing, hid⟩ := of_decide_eq_true hfacts
  have hs : g₀.store.Reachable := ⟨g₀.phase, hr⟩
  have hs' : g'.store.Reachable := ⟨g'.phase, bootRun_reachable hg'⟩
  have hkeeps : ∀ c : Enumeration, c.store = g₀.store →
      Keeps rootSlot c (.request (.create ⟨1, byteName 97⟩)) := by
    intro c hc l hl
    rw [hc] at hl ⊢
    refine ⟨fun vt req parent ent _ _ hent hmem => ?_, fun _ _ _ _ hm => by cases hm⟩
    rw [hl.unique hchain, List.mem_singleton] at hmem
    rw [hfree, hmem] at hent
    exact absurd hent (by decide)
  have hstart : Enumerates .zero (fun _ => .zero) 1 (Keeps rootSlot) g₀.store _ := .start
  obtain ⟨c₁, hc₁, hstore, _, hoff₁, hgoing₁, hids₁⟩ :=
    Enumeration.exists_readdir hstart rfl hs.terminated rfl rfl
  rw [hoff] at hoff₁
  rw [hgoing] at hgoing₁
  have hchange := Gba.receive_of_request hcreate
  rw [show g₀.store = c₁.store from hstore.symm] at hchange
  have hc₂ := hc₁.change hgoing₁ rfl (hkeeps c₁ hstore) hchange
  obtain ⟨c₃, hc₃, _, _, _, hend₃, hids₃⟩ :=
    Enumeration.exists_readdir hc₂ hgoing₁ hs'.terminated hoff₁ rfl
  rw [← hid] at hc₃
  refine ⟨g₀, c₃, hg, hc₃, ?_, ?_, enumerationRight_of_keeps hs hroot hchain hc₃⟩
  · rw [hids₃, hsecond]
    change c₁.filenos ++ [2, 3] = _
    rw [hids₁, hfirst]
    rfl
  · rw [hend₃, hend]
    decide

def thirdSlot : EntryPtr := ⟨3, by decide⟩

def lastSlot : EntryPtr := ⟨4, by decide⟩

/-- The root has the files `test`, `a`, `b` and `c`; a first call delivers two of them, and then
`a` is removed. -/
theorem enumerationRight_counterexample : ∃ (s : Store) (c : Enumeration), s.Reachable ∧
    s.live rootSlot ∧ (∃ l, Chain s.next (s.child rootSlot) l) ∧
    Enumerates .zero (fun _ => .zero) (s.fileid rootSlot) (fun _ _ => True) s c ∧
    (∀ t ∈ c.stores, t.Links rootSlot 4) ∧ c.eofflag ≠ 0 ∧ c.times 4 = 0 ∧
    ¬ EnumerationRight rootSlot c := by
  obtain ⟨g', hg', hfacts⟩ := Option.map_eq_some_iff.mp
    (show (bootRun [.request (.rm ⟨1, byteName 97⟩), .request (.create ⟨1, byteName 99⟩),
        .request (.create ⟨1, byteName 98⟩), .request (.create ⟨1, byteName 97⟩)]).map
      (fun g => decide (
        (g.store.listing .zero 1 ⟨[], 39⟩ 4 0 false).dent.dents.map Dirent.dFileno = [5] ∧
        (g.store.listing .zero 1 ⟨[], 39⟩ 4 0 false).eofflag = 1 ∧
        nth g.store.next 1 (g.store.child rootSlot) = some thirdSlot ∧
        g.store.fileid thirdSlot = 4)) = some true by decide +kernel)
  obtain ⟨hsecond, hend, hnth', hfour'⟩ := of_decide_eq_true hfacts
  obtain ⟨g, hg, hrm⟩ := bootRun_cons hg'
  have hfacts := show (bootRun [.request (.create ⟨1, byteName 99⟩),
        .request (.create ⟨1, byteName 98⟩), .request (.create ⟨1, byteName 97⟩)]).map
      (fun g => decide (
        (g.store.listing .zero 1 ⟨[], 39⟩ 0 0 false).dent.dents.map Dirent.dFileno =
          [1, 1, 2, 3] ∧
        (g.store.listing .zero 1 ⟨[], 39⟩ 0 0 false).readoff = 4 ∧
        (g.store.listing .zero 1 ⟨[], 39⟩ 0 0 false).eofflag = 0 ∧
        g.store.live rootSlot ∧ g.store.fileid rootSlot = 1 ∧
        [g.store.child rootSlot, g.store.next testSlot, g.store.next newSlot,
          g.store.next thirdSlot, g.store.next lastSlot] =
          [some testSlot, some newSlot, some thirdSlot, some lastSlot, none] ∧
        g.store.fileid thirdSlot = 4)) = some true by decide +kernel
  rw [hg, Option.map_some, Option.some.injEq] at hfacts
  obtain ⟨hfirst, hoff, hgoing, hroot, hid, hlinks, hfour⟩ := of_decide_eq_true hfacts
  simp only [List.cons.injEq, and_true] at hlinks
  obtain ⟨hchild, hone, htwo, hthree, hlast⟩ := hlinks
  have hchain : Chain g.store.next (g.store.child rootSlot)
      [testSlot, newSlot, thirdSlot, lastSlot] := by
    rw [hchild]
    refine .cons (hone ▸ .cons (htwo ▸ .cons (hthree ▸ .cons (hlast ▸ .nil))))
  have hs : g.store.Reachable := ⟨g.phase, bootRun_reachable hg⟩
  have hs' : g'.store.Reachable := ⟨g'.phase, bootRun_reachable hg'⟩
  have hb : g.store.Links rootSlot 4 := Store.links_of_nth (hchain.nth 2) hfour (by decide)
  have hb' : g'.store.Links rootSlot 4 := Store.links_of_nth hnth' hfour' (by decide)
  have hstart : Enumerates .zero (fun _ => .zero) 1 (fun _ _ => True) g.store _ := .start
  obtain ⟨c₁, hc₁, hstore, hstores, hoff₁, hgoing₁, hids₁⟩ :=
    Enumeration.exists_readdir hstart rfl hs.terminated rfl rfl
  rw [hoff] at hoff₁
  rw [hgoing] at hgoing₁
  have hchange := Gba.receive_of_request hrm
  rw [show g.store = c₁.store from hstore.symm] at hchange
  obtain ⟨c₃, hc₃, _, hstores₃, _, hend₃, hids₃⟩ := Enumeration.exists_readdir
    (hc₁.change hgoing₁ rfl trivial hchange) hgoing₁ hs'.terminated hoff₁ rfl
  rw [← hid] at hc₃
  have hall : ∀ t ∈ c₃.stores, t.Links rootSlot 4 := by
    rw [hstores₃]
    change ∀ t ∈ g'.store :: g'.store :: c₁.stores, t.Links rootSlot 4
    rw [hstores]
    change ∀ t ∈ [g'.store, g'.store, g.store, g.store], t.Links rootSlot 4
    simp only [List.forall_mem_cons]
    exact ⟨hb', hb', hb, hb, nofun⟩
  have hne : c₃.eofflag ≠ 0 := by
    rw [hend₃, hend]
    decide
  have htimes : c₃.times 4 = 0 := by
    rw [Enumeration.times, hids₃, hsecond]
    change (c₁.filenos ++ [5]).count _ = 0
    rw [hids₁, hfirst]
    exact show ([1, 1, 2, 3] ++ [5] : List Word64).count ((4 : Word).setWidth 64) = 0 by decide
  refine ⟨g.store, c₃, hs, hroot, ⟨_, hchain⟩, hc₃, hall, hne, htimes, fun hright => ?_⟩
  exact absurd (htimes.symm.trans (hright.all hne 4 hall)) (by decide)

end WiiJoybus
