import WiiJoybus.Link.Names

/-!
The attributes of an entry, by each of the ways they come to the Wii.

LOOKUP, READDIR and GETATTR tell of the same fields, and each swaps the bytes of
its reply field by field. LOOKUP leaves out the two of 64 bits.
-/

namespace WiiJoybus
open LinkedTable ByteMemory StructLayout Dialogue Dialogue.Network

section Palindromes

theorem bswap_eq_self_iff {x : Word64} (hx : x.toNat < 2 ^ 32) : bswap x = x ↔ x = 0 := by
  constructor
  · intro h
    have hupper : ∀ i, 32 ≤ i → x.getLsbD i = false := by
      intro i hi
      exact Nat.testBit_lt_two_pow (Nat.lt_of_lt_of_le hx (Nat.pow_le_pow_right (by omega) hi))
    apply BitVec.eq_of_getLsbD_eq
    intro i hi
    rw [show (0 : Word64).getLsbD i = false from BitVec.getLsbD_zero]
    by_cases hlow : i < 32
    · rw [← h, getLsbD_bswap x i hi]
      exact hupper _ (by omega)
    · exact hupper i (by omega)
  · rintro rfl
    exact (bswap_eq_zero_iff (by decide) 0).mpr rfl

end Palindromes

/-- A size of 32 bits, and the device number that every entry starts with. -/
def Entry.Narrow (ent : Entry) : Prop := ent.vaSize.toNat < 2 ^ 32 ∧ ent.vaRdev = 0

def Store.Narrow (s : Store) : Prop := ∀ p, (s.entries p).Narrow

namespace Store

section Narrow

variable {s s' : Store} {p : EntryPtr} {m : Message}

theorem Narrow.setEntry (h : s.Narrow) {ent : Entry} (hent : ent.Narrow) :
    (s.setEntry p ent).Narrow := by
  intro q
  rw [setEntry_apply]
  split
  · exact hent
  · exact h q

theorem narrow_freshEntry (old : Entry) (fileid : Nat) (vt : Vtype) (rand : Word64) :
    (freshEntry old fileid vt rand).Narrow :=
  ⟨show (0 : Word64).toNat < 2 ^ 32 by decide, rfl⟩

theorem Narrow.initAt (h : s.Narrow) (vt : Vtype) (rand : Word64) : (s.initAt p vt rand).Narrow :=
  h.setEntry (narrow_freshEntry _ _ _ _)

theorem Narrow.entryAppend (h : s.Narrow) {parent ent : EntryPtr}
    (ha : s.entryAppend parent ent = some s') : s'.Narrow := by
  rcases entryAppend_some ha with ⟨_, rfl⟩ | ⟨_, n, k, _, _, rfl⟩
  · exact h.setEntry (h parent)
  · have hn : (s.setNext n (some ent)).Narrow := h.setEntry (h n)
    exact hn.setEntry (hn ent)

theorem Narrow.entryRemove (h : s.Narrow) {parent ent : EntryPtr}
    (hr : s.entryRemove parent ent = some s') : s'.Narrow := by
  obtain ⟨prev, k, _, rfl⟩ := entryRemove_some hr
  have hprev : (s.unlinkAfter ent prev).Narrow := by
    cases prev with
    | none => exact h
    | some prev => exact h.setEntry (h prev)
  exact hprev.setEntry (hprev ent)

theorem narrow_setWidth (n : Word) : (n.setWidth 64 : Word64).toNat < 2 ^ 32 := by
  rw [widen_toNat]
  exact n.isLt

theorem Narrow.entrySetsize (h : s.Narrow) (p : EntryPtr) (n : Word) :
    (s.entrySetsize p n).2.Narrow := by
  obtain ⟨hentries, _⟩ := resizeBlocks_entries s (s.entries p) n
  have hblocks : (s.resizeBlocks (s.entries p) n).2.Narrow := by
    intro q
    rw [congrFun hentries q]
    exact h q
  rw [entrySetsize_eq]
  split
  · split
    · exact hblocks
    · exact hblocks.setEntry ⟨narrow_setWidth n, (h p).2⟩
  · exact h.setEntry ⟨narrow_setWidth n, (h p).2⟩

theorem Narrow.change (h : s.Narrow) (hw : s.WellFormed) (hc : s.Change m s') : s'.Narrow := by
  cases hc with
  | keep => exact h
  | @create _ _ _ _ ent _ _ _ _ hi ha =>
      obtain ⟨_, _, rfl⟩ := entryInit_some hi
      have hs := (h.initAt _ _).entryAppend ha
      exact hs.setEntry (hs ent)
  | remove _ hr => exact h.entryRemove hr
  | @reclaim p _ =>
      have hs : (s.setEntry p { s.entries p with vaFileid := 0 }).Narrow := h.setEntry (h p)
      intro q
      rw [(entryReclaim_sameOwned hw p).entries]
      exact hs q
  | resize _ => exact h.entrySetsize _ _
  | copy _ hs =>
      intro q
      rw [hs.entries]
      exact h q

theorem boot_narrow {rootGen testGen : Word64} (h : boot rootGen testGen = some s) : s.Narrow := by
  obtain ⟨root, s₁, test, s₂, s₃, hroot, htest, happ, rfl⟩ := boot_some h
  obtain ⟨_, _, rfl⟩ := entryInit_some hroot
  obtain ⟨_, _, rfl⟩ := entryInit_some htest
  have hblank : blank.Narrow := fun _ => ⟨show (0 : Word64).toNat < 2 ^ 32 by decide, rfl⟩
  have hs := ((hblank.initAt .dir rootGen).initAt .reg testGen).entryAppend happ
  exact hs.setEntry (hs test)

theorem Reachable.narrow (h : s.Reachable) : s.Narrow := by
  obtain ⟨phase, hr⟩ := h
  exact (Gba.Reachable.invariant (P := fun s => s.WellFormed ∧ s.Narrow)
    (fun _ _ _ hb => ⟨boot_wellFormed hb, boot_narrow hb⟩)
    (fun _ _ _ hi hc => ⟨hi.1.change hc, hi.2.change hi.1 hc⟩) hr).2

end Narrow

end Store

/-- What GETATTR hands over are the fields of an entry. -/
structure Vattr.Tells (va : Vattr) (ent : Entry) : Prop where
  fileid : va.vaFileid = ent.vaFileid.setWidth 64
  type : va.vaType = ent.vaType
  size : va.vaSize = ent.vaSize
  rdev : va.vaRdev = ent.vaRdev
  mode : va.vaMode = ent.vaMode
  nlink : va.vaNlink = ent.vaNlink
  uid : va.vaUid = ent.vaUid
  gid : va.vaGid = ent.vaGid
  bytes : va.vaBytes = ent.vaBytes

/-- LOOKUP of its name, READDIR of its directory `d` and GETATTR of its id tell of an entry `q`
what its own fields are. -/
structure Store.AttributesAgree (s : Store) (d q : EntryPtr) : Prop where
  lookup (e : Puffs) (junk : Nat → Junk) (runs : Nat) (pni : Newinfo) (pcn : Cn)
    (hpcn : pcn.Holds (s.nameOf q)) :
    ∃ n, (link e junk).Exchanges (nodeLookup e (s.fileid d) pni pcn) ⟨⟨s, .dispatch⟩, runs⟩
      (.lookup 0 ⟨(s.entries q).vaFileid, (s.entries q).vaType, (s.entries q).vaSize,
        (s.entries q).vaRdev⟩) ⟨⟨s, .dispatch⟩, n⟩
  readdir (e : Puffs) (junk : Nat → Junk) (runs reslen : Nat) (readoff : Word64) (eofflag : Word)
    (wanted : Bool) :
    ∃ l n, (link e junk).Exchanges
        (nodeReaddir e (s.fileid d) ⟨[], reslen⟩ readoff eofflag wanted) ⟨⟨s, .dispatch⟩, runs⟩
        (.readdir 0 l) ⟨⟨s, .dispatch⟩, n⟩ ∧
      (∀ x ∈ l.dent.dents, x.dName = s.nameOf q →
        x = ⟨(s.entries q).vaFileid.setWidth 64, s.nameOf q, e.vtype2dt (s.entries q).vaType⟩ ∨
          ∃ dotdot, x = dotDirent dotdot) ∧
      (readoff = 0 → Roomy e reslen →
        ⟨(s.entries q).vaFileid.setWidth 64, s.nameOf q, e.vtype2dt (s.entries q).vaType⟩ ∈
          l.dent.dents)
  getattr (e : Puffs) (junk : Nat → Junk) (runs : Nat) (vap : Vattr) :
    ∃ va n, (link e junk).Exchanges (nodeGetattr e (s.fileid q) vap) ⟨⟨s, .dispatch⟩, runs⟩
        (.getattr 0 va) ⟨⟨s, .dispatch⟩, n⟩ ∧ va.Tells (s.entries q)

/-- The same attributes, apart from the id. -/
structure Entry.SameAttributes (ent ent' : Entry) : Prop where
  type : ent'.vaType = ent.vaType
  size : ent'.vaSize = ent.vaSize
  rdev : ent'.vaRdev = ent.vaRdev
  mode : ent'.vaMode = ent.vaMode
  nlink : ent'.vaNlink = ent.vaNlink
  uid : ent'.vaUid = ent.vaUid
  gid : ent'.vaGid = ent.vaGid
  bytes : ent'.vaBytes = ent.vaBytes

/-- The first slot with the id of `q` has its attributes. Only a slot that has been given back
can have another one before it. -/
def Store.Represented (s : Store) (q : EntryPtr) : Prop :=
  ∀ p, s.findById (s.fileid q) = some p → (s.entries q).SameAttributes (s.entries p)

section Agree

variable {s : Store} {d q : EntryPtr} {l : List EntryPtr}

theorem tells_attributes_iff (vap : Vattr) (resp : GetattrResp) {ent ent' : Entry}
    (hid : ent'.vaFileid = ent.vaFileid) :
    (getattrVattr vap (Store.attributes resp ent')).Tells ent ↔ ent.SameAttributes ent' := by
  constructor
  · intro h
    exact ⟨h.type, h.size, h.rdev, h.mode, h.nlink, h.uid, h.gid, h.bytes⟩
  · intro h
    exact ⟨congrArg (BitVec.setWidth 64) hid, h.type, h.size, h.rdev, h.mode, h.nlink, h.uid,
      h.gid, h.bytes⟩

theorem represented_of_live (hw : s.WellFormed) (hq : s.live q) : s.Represented q := by
  intro p hp
  rw [hw.findById hq, Option.some.injEq] at hp
  rw [← hp]
  exact ⟨rfl, rfl, rfl, rfl, rfl, rfl, rfl, rfl⟩

theorem getattr_found {p : EntryPtr} {id : Word} (hp : s.findById id = some p) (e : Puffs)
    (junk : Nat → Junk) (runs : Nat) (vap : Vattr) :
    ∃ n resp, (link e junk).Exchanges (nodeGetattr e id vap) ⟨⟨s, .dispatch⟩, runs⟩
      (.getattr 0 (getattrVattr vap (Store.attributes resp (s.entries p))))
      ⟨⟨s, .dispatch⟩, n⟩ := by
  have hc := calls_getattr e junk s runs id vap
  have hreply : getattrReply vap (s.handleGetattrRequest (junk runs) ⟨id⟩) = .getattr 0
      (getattrVattr vap (Store.attributes (junk runs).uninit (s.entries p))) := by
    simp only [Store.handleGetattrRequest, hp]
    exact if_neg (show ¬ (1 : Word) = 0 by decide)
  rw [hreply] at hc
  obtain ⟨n, hx⟩ := hc.exchanges
  exact ⟨n, _, hx⟩

theorem eq_of_nameOf (hnames : (l.map s.nameOf).Nodup) {p : EntryPtr} (hp : p ∈ l) (hq : q ∈ l)
    (h : s.nameOf p = s.nameOf q) : p = q :=
  List.inj_on_of_nodup_map hnames hp hq h

theorem lookupMatch_of_names (hw : s.WellFormed) (ht : s.Terminated) (hd : s.live d)
    (hchain : Chain s.next (s.child d) l) (hnames : (l.map s.nameOf).Nodup) (hq : q ∈ l)
    {pcn : Cn} (hpcn : pcn.Holds (s.nameOf q)) :
    s.lookupMatch ⟨s.fileid d, pcn.name⟩ = some (some q) := by
  have hname : CString.ofArray pcn.name = s.nameOf q := by
    rw [hpcn.ofArray (CString.zero_notMem_ofArray _)]
    exact List.take_of_length_le (Nat.le_of_lt (ht q))
  have hscan : s.lookupMatch ⟨s.fileid d, pcn.name⟩ = some (l.find? (s.hasName pcn.name)) := by
    simp only [Store.lookupMatch, hw.findById hd]
    exact Store.scan_of_chain hchain _
  rw [hscan]
  cases hfind : l.find? (s.hasName pcn.name) with
  | none =>
      have hno := List.find?_eq_none.mp hfind q hq
      rw [Store.hasName_eq hname] at hno
      exact absurd (decide_eq_true rfl) hno
  | some p =>
      have hp := List.find?_some hfind
      rw [Store.hasName_eq hname] at hp
      rw [eq_of_nameOf hnames (List.mem_of_find?_eq_some hfind) hq (of_decide_eq_true hp)]

theorem mem_of_nth (hchain : Chain s.next (s.child d) l) {k : Nat} {p : EntryPtr}
    (h : nth s.next k (s.child d) = some p) : p ∈ l := by
  rw [hchain.nth] at h
  exact List.mem_of_getElem? h

theorem readdir_agrees (hw : s.WellFormed) (ht : s.Terminated) (hd : s.live d)
    (hchain : Chain s.next (s.child d) l) (hnames : (l.map s.nameOf).Nodup) (hq : q ∈ l)
    (e : Puffs) (junk : Nat → Junk) (runs reslen : Nat) (readoff : Word64) (eofflag : Word)
    (wanted : Bool) :
    ∃ loop n, (link e junk).Exchanges
        (nodeReaddir e (s.fileid d) ⟨[], reslen⟩ readoff eofflag wanted) ⟨⟨s, .dispatch⟩, runs⟩
        (.readdir 0 loop) ⟨⟨s, .dispatch⟩, n⟩ ∧
      (∀ x ∈ loop.dent.dents, x.dName = s.nameOf q →
        x = s.direntOf e q ∨ ∃ dotdot, x = dotDirent dotdot) ∧
      (readoff = 0 → Roomy e reslen → s.direntOf e q ∈ loop.dent.dents) := by
  obtain ⟨n, hx⟩ := (calls_readdir ht e junk runs (s.fileid d) ⟨[], reslen⟩ readoff eofflag
    wanted).exchanges
  refine ⟨_, n, hx, ?_, ?_⟩
  · intro x hmem hname
    rcases mem_listing hw hd hmem with hdots | ⟨k, p, hp, rfl⟩
    · exact Or.inr hdots
    · rw [eq_of_nameOf hnames (mem_of_nth hchain hp) hq hname]
      exact Or.inl rfl
  · rintro rfl hroom
    obtain ⟨u, v, rfl⟩ := List.append_of_mem hq
    have hwalk : Begins s.next (s.child d) (u ++ [q]) := by
      intro k hk
      rw [hchain.nth, List.append_cons, List.getElem?_append_left hk]
    have hlen := hchain.length_le
    rw [Fintype.card_fin, List.append_cons, List.length_append] at hlen
    exact direntOf_mem_listing ht hw hd hroom hwalk (by omega) eofflag wanted

theorem Store.AttributesAgree.told (ha : s.AttributesAgree d q) (h : s.Reachable) (hd : s.live d)
    (hchain : Chain s.next (s.child d) l) (hnames : (l.map s.nameOf).Nodup) (hq : q ∈ l) :
    (s.entries q).vaSize = 0 ∧ s.nameOf q ≠ dotdotName ∧ s.Represented q := by
  have hpcn := holds_cnOf (s.nameOf q)
  obtain ⟨n, hx⟩ := ha.lookup .zero (fun _ => .zero) 0 ⟨0, 0, 0, 0⟩ _ hpcn
  obtain ⟨hdots, q', hq', hfound⟩ := lookup_exchanged hx
  rw [lookupMatch_of_names h.wellFormed h.terminated hd hchain hnames hq hpcn,
    Option.some.injEq, Option.some.injEq] at hq'
  subst hq'
  refine ⟨?_, fun hname => hdots (hpcn.isDotDot.mpr hname), fun p hp => ?_⟩
  · exact (bswap_eq_self_iff (h.narrow q).1).mp (congrArg Newinfo.size hfound).symm
  · obtain ⟨va, n, hx, htells⟩ := ha.getattr .zero (fun _ => .zero) 0 Puffs.zero.pnNew
    obtain ⟨n', resp, hx'⟩ := getattr_found hp .zero (fun _ => .zero) 0 Puffs.zero.pnNew
    obtain ⟨hout, _⟩ := hx.unique_out hx'
    injection hout with _ hva
    rw [hva] at htells
    exact (tells_attributes_iff _ resp (Store.findById_fileid hp)).mp htells

/-- The three ways agree exactly for an empty file or directory that LOOKUP finds and whose id
leads back to it. -/
theorem agree_iff (h : s.Reachable) (hd : s.live d) (hchain : Chain s.next (s.child d) l)
    (hnames : (l.map s.nameOf).Nodup) (hq : q ∈ l) :
    s.AttributesAgree d q ↔
      (s.entries q).vaSize = 0 ∧ s.nameOf q ≠ dotdotName ∧ s.Represented q := by
  have hw := h.wellFormed
  have ht := h.terminated
  refine ⟨fun ha => ha.told h hd hchain hnames hq, ?_⟩
  rintro ⟨hzero, hname, hrep⟩
  constructor
  case lookup =>
    intro e junk runs pni pcn hpcn
    obtain ⟨n, hx⟩ := exchanges_lookup e junk runs pni
      (fun hdots => hname (hpcn.isDotDot.mp hdots))
      (lookupMatch_of_names hw ht hd hchain hnames hq hpcn)
    have hinfo : s.newinfoOf q = ⟨(s.entries q).vaFileid, (s.entries q).vaType,
        (s.entries q).vaSize, (s.entries q).vaRdev⟩ := by
      rw [Store.newinfoOf, hzero, (h.narrow q).2,
        (bswap_eq_zero_iff (by decide) (0 : Word64)).mpr rfl]
      rfl
    exact ⟨n, hinfo ▸ hx⟩
  case readdir => exact readdir_agrees hw ht hd hchain hnames hq
  case getattr =>
    intro e junk runs vap
    cases hp : s.findById (s.fileid q) with
    | none => exact absurd rfl (Store.findById_eq_none hp q)
    | some p =>
        obtain ⟨n, resp, hx⟩ := getattr_found hp e junk runs vap
        exact ⟨_, n, hx,
          (tells_attributes_iff vap resp (Store.findById_fileid hp)).mpr (hrep p hp)⟩

end Agree

/-- The test file after boot, which is empty. -/
theorem agree_iff_test :
    ∃ g : Gba, bootRun [] = some g ∧ g.store.AttributesAgree rootSlot testSlot := by
  obtain ⟨g, hg, hr, hroot, hchain, htest, _, _⟩ := boot_root
  obtain ⟨hsize, hname⟩ : (g.store.entries testSlot).vaSize = 0 ∧
      g.store.nameOf testSlot ≠ dotdotName := by
    have hfacts : (bootRun []).map (fun g => decide ((g.store.entries testSlot).vaSize = 0 ∧
        g.store.nameOf testSlot ≠ dotdotName)) = some true := by decide +kernel
    rw [hg, Option.map_some, Option.some.injEq] at hfacts
    exact of_decide_eq_true hfacts
  exact ⟨g, hg, (agree_iff ⟨g.phase, hr⟩ hroot hchain (List.nodup_singleton _)
    (List.mem_singleton.mpr rfl)).mpr
      ⟨hsize, hname, represented_of_live (Store.Reachable.wellFormed ⟨g.phase, hr⟩) htest⟩⟩

/-- The test file with one byte. -/
theorem agree_counterexample :
    ∃ g : Gba, bootRun [.request (.setsize ⟨2, 1⟩)] = some g ∧ g.Reachable ∧
      g.store.live rootSlot ∧ Chain g.store.next (g.store.child rootSlot) [testSlot] ∧
      g.store.live testSlot ∧ ¬ g.store.AttributesAgree rootSlot testSlot := by
  obtain ⟨g, hg, hfacts⟩ := Option.map_eq_some_iff.mp
    (show (bootRun [.request (.setsize ⟨2, 1⟩)]).map (fun g => decide (g.store.live rootSlot ∧
      g.store.child rootSlot = some testSlot ∧ g.store.next testSlot = none ∧
      g.store.live testSlot ∧ (g.store.entries testSlot).vaSize ≠ 0)) = some true by
        decide +kernel)
  obtain ⟨hroot, hchild, hnext, htest, hsize⟩ := of_decide_eq_true hfacts
  have hchain : Chain g.store.next (g.store.child rootSlot) [testSlot] := by
    rw [hchild]
    exact .cons (hnext ▸ .nil)
  refine ⟨g, hg, bootRun_reachable hg, hroot, hchain, htest, fun ha => ?_⟩
  exact hsize (ha.told ⟨g.phase, bootRun_reachable hg⟩ hroot hchain (List.nodup_singleton _)
    (List.mem_singleton.mpr rfl)).1

end WiiJoybus
