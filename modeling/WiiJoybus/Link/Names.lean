import WiiJoybus.Link.Listing

/-!
Names between the two programs.

A name travels as the first 32 bytes of a component name, is printed into the entry
as a format, compared as a string by LOOKUP and copied as a string by READDIR. So it
comes back as it was when it is short, has no percent sign, and is not `..`, which
the Wii answers by itself.
-/

namespace WiiJoybus
open LinkedTable ByteMemory StructLayout Dialogue Dialogue.Network

/-- A component name that is this string. -/
structure Cn.Holds (pcn : Cn) (name : List Byte) : Prop where
  namelen : pcn.pcnNamelen = name.length
  bytes : ∀ k ≤ name.length, pcn.pcnName k = name.getD k 0

/-- What the kernel passes as a name. -/
structure Component (name : List Byte) : Prop where
  nonempty : name ≠ []
  nul : (0 : Byte) ∉ name
  slash : (47 : Byte) ∉ name

/-- The component name with zeros behind the string. -/
def cnOf (name : List Byte) : Cn := ⟨fun k => name.getD k 0, name.length⟩

theorem holds_cnOf (name : List Byte) : (cnOf name).Holds name := ⟨rfl, fun _ _ => rfl⟩

def dotdotName : List Byte := [46, 46]

section Components

variable {pcn : Cn} {name : List Byte}

/-- The wire has the first 32 bytes. -/
theorem Cn.Holds.ofArray (h : pcn.Holds name) (hnul : (0 : Byte) ∉ name) :
    CString.ofArray pcn.name = name.take 32 :=
  CString.ofArray_of_getD hnul fun i hi => h.bytes i hi

theorem Cn.Holds.isDotDot (h : pcn.Holds name) :
    pcn.isDotDot = true ↔ name = dotdotName := by
  rw [Cn.isDotDot, h.namelen]
  constructor
  · intro hdots
    simp only [Bool.and_eq_true, beq_iff_eq] at hdots
    obtain ⟨hlen, ⟨hzero, hone⟩, _⟩ := hdots
    obtain ⟨a, b, rfl⟩ := List.length_eq_two.mp hlen
    rw [h.bytes 0 (by simp)] at hzero
    rw [h.bytes 1 (by simp)] at hone
    simp only [List.getD_cons_zero, List.getD_cons_succ] at hzero hone
    rw [hzero, hone]
    rfl
  · rintro rfl
    have hlen : dotdotName.length = 2 := rfl
    rw [h.bytes 0 (by decide), h.bytes 1 (by decide), h.bytes 2 (by decide)]
    rfl

end Components

/-- CREATE or MKDIR of the name in the directory with the id `opc`. -/
inductive Operation.Creates (opc : Word) (pcn : Cn) : Operation → Prop where
  | create (pni vaType) : Creates opc pcn (.create opc pni pcn vaType)
  | mkdir (pni) : Creates opc pcn (.mkdir opc pni pcn)

section Creation

variable {e : Puffs} {junk : Nat → Junk} {s : Store} {runs : Nat} {ctx ctx' : Context} {opc : Word}
variable {pcn : Cn} {op : Operation} {pni : Newinfo} {errno : Word} {h : GbaHead}

theorem Operation.Creates.ended (hop : op.Creates opc pcn)
    (hx : (link e junk).Exchanges (op.run e ctx) ⟨⟨s, .dispatch⟩, runs⟩
      (.create errno pni ctx') h) :
    h.Home ∧ ((errno ≠ 0 ∧ h.state.store = s) ∨
      (errno = 0 ∧ ∃ vt r, s.handleCreateRequest (junk runs) vt ⟨opc, pcn.name⟩ = some r ∧
        r.1.exists_ ≠ 0 ∧ pni.cookie = r.1.vaFileid ∧ h.state.store = r.2)) := by
  have hended : ∀ {assign : Vattr → CreateResp → Vattr} {pni' : Newinfo} {vt : Vtype},
      (s.handleCreateRequest (junk runs) vt ⟨opc, pcn.name⟩).map (fun r =>
        (createReply e assign ctx pni' r.1, r.2)) =
        some (.create errno pni ctx', h.state.store) →
      (errno ≠ 0 ∧ h.state.store = s) ∨
      (errno = 0 ∧ ∃ vt r, s.handleCreateRequest (junk runs) vt ⟨opc, pcn.name⟩ = some r ∧
        r.1.exists_ ≠ 0 ∧ pni.cookie = r.1.vaFileid ∧ h.state.store = r.2) := by
    intro assign pni' vt hmap
    obtain ⟨r, hr, heq⟩ := Option.map_eq_some_iff.mp hmap
    obtain ⟨hout, hstore⟩ := Prod.mk.inj heq
    rw [createReply] at hout
    split at hout
    · rename_i hexists
      cases hout
      exact Or.inl ⟨by decide, hstore.symm.trans (Store.handleCreateRequest_refused hr hexists)⟩
    · rename_i hexists
      cases hout
      exact Or.inr ⟨rfl, vt, r, hr, hexists, rfl, hstore.symm⟩
  cases hop with
  | create pni' vaType =>
      obtain ⟨hends, hhome⟩ :=
        (calls_create e junk s runs ctx opc pni' pcn vaType).returns hx.returns
      refine ⟨hhome, ?_⟩
      split at hends
      · exact hended hends
      · cases hends
        exact Or.inl ⟨by decide, rfl⟩
  | mkdir pni' =>
      obtain ⟨hends, hhome⟩ := (calls_mkdir e junk s runs ctx opc pni' pcn).returns hx.returns
      exact ⟨hhome, hended hends⟩

end Creation

section Lookup

variable {e : Puffs} {junk : Nat → Junk} {s : Store} {runs : Nat} {opc : Word} {pni : Newinfo}
variable {pcn : Cn} {q : EntryPtr} {h : GbaHead}

/-- What LOOKUP hands to puffs for an entry: the 64-bit fields are swapped. -/
def Store.newinfoOf (s : Store) (p : EntryPtr) : Newinfo :=
  ⟨s.fileid p, (s.entries p).vaType, bswap (s.entries p).vaSize, bswap (s.entries p).vaRdev⟩

theorem exchanges_lookup (e : Puffs) (junk : Nat → Junk) (runs : Nat) (pni : Newinfo)
    (hdots : ¬ pcn.isDotDot = true) (hq : s.lookupMatch ⟨opc, pcn.name⟩ = some (some q)) :
    ∃ n, (link e junk).Exchanges (nodeLookup e opc pni pcn) ⟨⟨s, .dispatch⟩, runs⟩
      (.lookup 0 (s.newinfoOf q)) ⟨⟨s, .dispatch⟩, n⟩ := by
  have hc := calls_lookup e junk s runs opc pni pcn
  rw [if_neg hdots] at hc
  simp only [Store.handleLookupRequest, hq, Option.map_some] at hc
  exact hc.exchanges

theorem lookup_exchanged {found : Newinfo}
    (hx : (link e junk).Exchanges (nodeLookup e opc pni pcn) ⟨⟨s, .dispatch⟩, runs⟩
      (.lookup 0 found) h) :
    ¬ pcn.isDotDot = true ∧
      ∃ q, s.lookupMatch ⟨opc, pcn.name⟩ = some (some q) ∧ found = s.newinfoOf q := by
  have hends := (calls_lookup e junk s runs opc pni pcn).of_exchanges hx
  split at hends
  · cases hends
  · rename_i hdots
    refine ⟨hdots, ?_⟩
    cases hmatch : s.lookupMatch ⟨opc, pcn.name⟩ with
    | none => simp [Store.handleLookupRequest, hmatch] at hends
    | some m =>
        cases m with
        | none =>
            simp [Store.handleLookupRequest, hmatch, lookupOutcome, lookupReply, Errno.enoent]
              at hends
        | some q =>
            simp only [Store.handleLookupRequest, hmatch, Option.map_some] at hends
            cases hends
            exact ⟨q, rfl, rfl⟩

end Lookup

/-- CREATE or MKDIR of the name in the directory `d` ends in this way. -/
def Store.CreationEnds (s : Store) (e : Puffs) (junk : Nat → Junk) (runs : Nat) (d : EntryPtr)
    (name : List Byte) (errno : Word) (pni : Newinfo) (h : GbaHead) : Prop :=
  ∃ ctx ctx' pcn op, pcn.Holds name ∧ Operation.Creates (s.fileid d) pcn op ∧
    (link e junk).Exchanges (op.run e ctx) ⟨⟨s, .dispatch⟩, runs⟩ (.create errno pni ctx') h

section Ends

variable {e : Puffs} {junk : Nat → Junk} {s : Store} {runs : Nat} {d : EntryPtr}
variable {l : List EntryPtr} {name : List Byte} {pni : Newinfo} {errno : Word} {h : GbaHead}

theorem Store.CreationEnds.created (hends : s.CreationEnds e junk runs d name 0 pni h)
    (hw : s.WellFormed) (ht : s.Terminated) (hd : s.live d)
    (hchain : Chain s.next (s.child d) l) (hnul : (0 : Byte) ∉ name) :
    ∃ ent s' n stored, s.findById 0 = some ent ∧ s.id ≠ intMax ∧ h = ⟨⟨s', .dispatch⟩, n⟩ ∧
      Store.Created (junk runs) s d l stored s' ent ∧ CString.ofArray stored = name.take 32 ∧
      pni.cookie = s'.fileid ent := by
  obtain ⟨ctx, ctx', pcn, op, hpcn, hop, hx⟩ := hends
  obtain ⟨⟨s', phase⟩, n⟩ := h
  obtain ⟨hhome, ⟨hne, _⟩ | ⟨_, vt, r, hr, hexists, hcookie, hstore⟩⟩ := hop.ended hx
  · exact absurd rfl hne
  · obtain rfl : phase = .dispatch := hhome
    obtain ⟨ent, hfree, hid⟩ := Store.handleCreateRequest_accepted hr hexists
    have hparent : (⟨s.fileid d, pcn.name⟩ : CreateReq).parentFileid = s.fileid d := rfl
    obtain ⟨s₂, heq, hcreated⟩ :=
      Store.handleCreateRequest_created hw ht hd hchain hparent hfree hid (junk runs) vt
    rw [hr, Option.some.injEq] at heq
    subst heq
    obtain rfl : s' = s₂ := hstore
    exact ⟨ent, s', n, pcn.name, hfree, hid, rfl, hcreated, hpcn.ofArray hnul, hcookie⟩

/-- With a free slot and an id the creation is successful, whatever the name is. -/
theorem exists_creationEnds (hw : s.WellFormed) (ht : s.Terminated) (hd : s.live d)
    (hchain : Chain s.next (s.child d) l) {ent : EntryPtr} (hfree : s.findById 0 = some ent)
    (hid : s.id ≠ intMax) (e : Puffs) (junk : Nat → Junk) (runs : Nat) (name : List Byte) :
    ∃ pni h, s.CreationEnds e junk runs d name 0 pni h := by
  have hc := calls_mkdir e junk s runs [] (s.fileid d) ⟨0, 0, 0, 0⟩ (cnOf name)
  have hparent : (⟨s.fileid d, (cnOf name).name⟩ : CreateReq).parentFileid = s.fileid d := rfl
  obtain ⟨s', heq, _⟩ :=
    Store.handleCreateRequest_created hw ht hd hchain hparent hfree hid (junk runs) .dir
  generalize hresp : Store.attributes _ (s'.entries ent) = resp at heq
  have hexists : ¬ resp.exists_ = 0 := by
    rw [← hresp]
    exact (by decide : ¬ (1 : Word) = 0)
  rw [heq, Option.map_some, createReply, if_neg hexists] at hc
  obtain ⟨n, hx⟩ := hc.exchanges
  exact ⟨_, _, [], _, cnOf name, .mkdir (s.fileid d) ⟨0, 0, 0, 0⟩ (cnOf name), holds_cnOf name,
    .mkdir _, hx⟩

end Ends

/-- A creation of the name that succeeds has stored it: LOOKUP finds an entry with that name,
and READDIR has the new entry under it. One that fails has changed nothing, and another name
does not lead to the same slot. -/
structure Store.NameKept (s : Store) (d : EntryPtr) (name : List Byte) : Prop where
  found (e : Puffs) (junk : Nat → Junk) (runs : Nat) (pni : Newinfo) (h : GbaHead)
    (hends : s.CreationEnds e junk runs d name 0 pni h) (pni' : Newinfo) (pcn : Cn)
    (hpcn : pcn.Holds name) :
    ∃ found h' q, (link e junk).Exchanges (nodeLookup e (s.fileid d) pni' pcn) h
        (.lookup 0 found) h' ∧
      h.state.store.live q ∧ h.state.store.fileid q = found.cookie ∧
      h.state.store.nameOf q = name
  listed (e : Puffs) (junk : Nat → Junk) (runs : Nat) (pni : Newinfo) (h : GbaHead)
    (hends : s.CreationEnds e junk runs d name 0 pni h) (reslen : Nat) (eofflag : Word)
    (wanted : Bool) (hroom : Roomy e reslen) :
    ∃ l h' type, (link e junk).Exchanges
        (nodeReaddir e (s.fileid d) ⟨[], reslen⟩ 0 eofflag wanted) h (.readdir 0 l) h' ∧
      ⟨pni.cookie.setWidth 64, name, type⟩ ∈ l.dent.dents
  rejected (e : Puffs) (junk : Nat → Junk) (runs : Nat) (errno : Word) (pni : Newinfo)
    (h : GbaHead) (hends : s.CreationEnds e junk runs d name errno pni h) (herr : errno ≠ 0) :
    h.state.store = s
  distinct (name' : List Byte) (hc : Component name') (hne : name' ≠ name) (pcn pcn' : Cn)
    (hpcn : pcn.Holds name) (hpcn' : pcn'.Holds name') (q : EntryPtr)
    (hq : s.lookupMatch ⟨s.fileid d, pcn.name⟩ = some (some q)) :
    s.lookupMatch ⟨s.fileid d, pcn'.name⟩ ≠ some (some q)

/-- A name that the entry table can hold and LOOKUP does not refuse. -/
structure Storable (name : List Byte) : Prop where
  length_lt : name.length < 32
  percent : (37 : Byte) ∉ name
  dots : name ≠ dotdotName

section Kept

variable {s : Store} {d : EntryPtr} {l : List EntryPtr} {name : List Byte}

/-- The string of the request is one of the table only if nothing of the name is cut off. -/
theorem lookupMatch_holds (ht : s.Terminated) {opc : Word} {pcn : Cn} {q : EntryPtr}
    (hpcn : pcn.Holds name) (hnul : (0 : Byte) ∉ name)
    (hq : s.lookupMatch ⟨opc, pcn.name⟩ = some (some q)) : s.nameOf q = name := by
  have hname := Store.lookupMatch_name hq
  have hshort := ht q
  rw [hname, hpcn.ofArray hnul, List.length_take] at hshort
  rw [hname, hpcn.ofArray hnul, List.take_of_length_le (by omega)]

theorem rejected_of_creationEnds {e : Puffs} {junk : Nat → Junk} {runs : Nat} {errno : Word}
    {pni : Newinfo} {h : GbaHead} (hends : s.CreationEnds e junk runs d name errno pni h)
    (herr : errno ≠ 0) : h.state.store = s := by
  obtain ⟨_, _, _, _, _, hop, hx⟩ := hends
  rcases (hop.ended hx).2 with ⟨_, hsame⟩ | ⟨hzero, _⟩
  · exact hsame
  · exact absurd hzero herr

theorem Store.Created.nameOf_eq {j : Junk} {s' : Store} {ent : EntryPtr} {stored : Name}
    (h : Store.Created j s d l stored s' ent) (hs : Storable name) (hnul : (0 : Byte) ∉ name)
    (hstored : CString.ofArray stored = name.take 32) : s'.nameOf ent = name := by
  obtain ⟨old, hname⟩ := h.name
  have hwhole : name.take 32 = name := List.take_of_length_le (Nat.le_of_lt hs.length_lt)
  rw [hname, hstored, hwhole]
  exact CString.ofArray_snprintf _ _ hnul hs.percent hs.length_lt

theorem Storable.found (hs : Storable name) (hw : s.WellFormed) (ht : s.Terminated)
    (hd : s.live d) (hchain : Chain s.next (s.child d) l) (hnul : (0 : Byte) ∉ name)
    (hlive : s.FoundLive d name) {e : Puffs} {junk : Nat → Junk} {runs : Nat} {pni : Newinfo}
    {h : GbaHead} (hends : s.CreationEnds e junk runs d name 0 pni h) (pni' : Newinfo) {pcn : Cn}
    (hpcn : pcn.Holds name) :
    ∃ found h' q, (link e junk).Exchanges (nodeLookup e (s.fileid d) pni' pcn) h
        (.lookup 0 found) h' ∧
      h.state.store.live q ∧ h.state.store.fileid q = found.cookie ∧
      h.state.store.nameOf q = name := by
  obtain ⟨ent, s', n, stored, hfree, _, rfl, hcreated, hstored, _⟩ :=
    hends.created hw ht hd hchain hnul
  have hname := hcreated.nameOf_eq hs hnul hstored
  have hreq : CString.ofArray (⟨s.fileid d, pcn.name⟩ : LookupReq).name = name :=
    (hpcn.ofArray hnul).trans (List.take_of_length_le (Nat.le_of_lt hs.length_lt))
  obtain ⟨q, hq, hqname, hfirst⟩ := hcreated.lookupMatch hname hreq rfl
  obtain ⟨n', hx⟩ := exchanges_lookup e junk n pni'
    (fun hdots => hs.dots (hpcn.isDotDot.mp hdots)) hq
  refine ⟨_, _, q, hx, ?_, rfl, hqname⟩
  rcases Option.or_eq_some_iff.mp hfirst with hold | ⟨_, hnew⟩
  · have hqlive := (Store.foundLive_iff hchain hfree).mp hlive q hold
    have hother := (hcreated.others q (Store.ne_of_mem_before (List.mem_of_find?_eq_some hold))).1
    change s'.fileid q ≠ 0
    rw [hother]
    exact hqlive
  · rw [← Option.some.inj hnew]
    exact hcreated.live

theorem Storable.listed (hs : Storable name) (hw : s.WellFormed) (ht : s.Terminated)
    (hd : s.live d) (hchain : Chain s.next (s.child d) l) (hnul : (0 : Byte) ∉ name)
    {e : Puffs} {junk : Nat → Junk} {runs : Nat} {pni : Newinfo} {h : GbaHead}
    (hends : s.CreationEnds e junk runs d name 0 pni h) {reslen : Nat} (eofflag : Word)
    (wanted : Bool) (hroom : Roomy e reslen) :
    ∃ l h' type, (link e junk).Exchanges
        (nodeReaddir e (s.fileid d) ⟨[], reslen⟩ 0 eofflag wanted) h (.readdir 0 l) h' ∧
      ⟨pni.cookie.setWidth 64, name, type⟩ ∈ l.dent.dents := by
  obtain ⟨ent, s', n, stored, _, _, rfl, hcreated, hstored, hcookie⟩ :=
    hends.created hw ht hd hchain hnul
  have hmem := direntOf_mem_listing hcreated.terminated hcreated.wellFormed hcreated.dir hroom
    hcreated.walk hcreated.length_le eofflag wanted
  rw [Store.direntOf, hcreated.nameOf_eq hs hnul hstored, ← hcookie, hcreated.dirId] at hmem
  obtain ⟨n', hx⟩ := (calls_readdir hcreated.terminated e junk n (s.fileid d) ⟨[], reslen⟩ 0
    eofflag wanted).exchanges
  exact ⟨_, _, _, hx, hmem⟩

/-- A listing has the new entry under its name only. -/
theorem eq_of_listed {j : Junk} {s' : Store} {ent : EntryPtr} {stored : Name} {e : Puffs}
    {reslen : Nat} {eofflag : Word} {wanted : Bool} {id : Word} {type : Byte}
    (h : Store.Created j s d l stored s' ent) (hid : id = s'.fileid ent)
    (hmem : ⟨id.setWidth 64, name, type⟩ ∈
      (s'.listing e (s.fileid d) ⟨[], reslen⟩ 0 eofflag wanted).dent.dents) :
    (∃ dotdot, name = (dotDirent dotdot).dName) ∨ s'.nameOf ent = name := by
  rw [← h.dirId] at hmem
  rcases mem_listing h.wellFormed h.dir hmem with ⟨dotdot, heq⟩ | ⟨k, q, _, heq⟩
  · exact Or.inl ⟨dotdot, congrArg Dirent.dName heq⟩
  · right
    have hfile : id.setWidth 64 = (s'.fileid q).setWidth 64 := congrArg Dirent.dFileno heq
    have hsame : s'.fileid q = s'.fileid ent := (widen_inj hfile).symm.trans hid
    rw [← h.wellFormed.unique ent q h.live hsame]
    exact (congrArg Dirent.dName heq).symm

theorem Store.NameKept.storable (h : s.NameKept d name) (hw : s.WellFormed) (ht : s.Terminated)
    (hd : s.live d) (hchain : Chain s.next (s.child d) l) (hnul : (0 : Byte) ∉ name)
    {ent : EntryPtr} (hfree : s.findById 0 = some ent) (hid : s.id ≠ intMax) :
    Storable name ∧ s.FoundLive d name := by
  -- conversions print nothing here, so a percent sign is lost
  obtain ⟨pni, g, hends⟩ := exists_creationEnds hw ht hd hchain hfree hid .zero
    (fun _ => ⟨fun _ => 0, fun _ => 0, 0, fun _ => []⟩) 0 name
  obtain ⟨ent', s', n, stored, hfree', _, rfl, hcreated, hstored, hcookie⟩ :=
    hends.created hw ht hd hchain hnul
  obtain ⟨old, hprinted⟩ := hcreated.name
  obtain ⟨list, _, type, hlisted, hmem⟩ := h.listed _ _ _ _ _ hends _ 0 false
    ⟨32, fun k hk => hk, Nat.le_refl _⟩
  have hlist := (calls_readdir hcreated.terminated _ _ _ _ _ _ _ _).of_exchanges hlisted
  obtain ⟨hout, _⟩ := Prod.mk.inj (Option.some.inj hlist)
  cases hout
  have hname := eq_of_listed hcreated hcookie hmem
  have hlength : name.length < 32 := by
    rcases hname with ⟨dotdot, rfl⟩ | hname
    · cases dotdot <;> decide
    · rw [← hname]
      exact hcreated.terminated ent'
  have hwhole : name.take 32 = name := List.take_of_length_le (Nat.le_of_lt hlength)
  have hpercent : (37 : Byte) ∉ name := by
    intro hmem
    rcases hname with ⟨dotdot, rfl⟩ | hname
    · revert hmem
      cases dotdot <;> decide
    · have hlost := CString.length_ofArray_snprintf_lt old (by decide) hmem
      rw [hprinted, hstored, hwhole] at hname
      rw [hname] at hlost
      omega
  obtain ⟨found, g', q, hfound, hqlive, hqid, hqname⟩ := h.found _ _ _ _ _ hends ⟨0, 0, 0, 0⟩
    (cnOf name) (holds_cnOf name)
  obtain ⟨hdots, q', hq', rfl⟩ := lookup_exchanged hfound
  have hs : Storable name :=
    ⟨hlength, hpercent, fun hdd => hdots ((holds_cnOf name).isDotDot.mpr hdd)⟩
  refine ⟨hs, (Store.foundLive_iff hchain hfree').mpr fun first hfirst => ?_⟩
  have hreq : CString.ofArray (⟨s.fileid d, (cnOf name).name⟩ : LookupReq).name = name :=
    ((holds_cnOf name).ofArray hnul).trans hwhole
  obtain ⟨q₂, hq₂, _, hor⟩ := hcreated.lookupMatch (hcreated.nameOf_eq hs hnul hstored) hreq rfl
  rw [hfirst, Option.some_or, Option.some.injEq] at hor
  rw [hq₂, Option.some.injEq, Option.some.injEq] at hq'
  have hsame : q' = q := hcreated.wellFormed.unique q q' hqlive hqid.symm
  rw [← hsame, ← hq', ← hor] at hqlive
  have hother := (hcreated.others first
    (Store.ne_of_mem_before (List.mem_of_find?_eq_some hfirst))).1
  change s.fileid first ≠ 0
  rw [← hother]
  exact hqlive

/-- Names are kept exactly when nothing can be created, or the name is storable and no
reclaimed slot stands in its way. -/
theorem nameKept_iff (h : s.Reachable) (hd : s.live d) (hchain : Chain s.next (s.child d) l)
    (hc : Component name) :
    s.NameKept d name ↔
      s.findById 0 = none ∨ s.id = intMax ∨ Storable name ∧ s.FoundLive d name := by
  have hw := h.wellFormed
  have ht := h.terminated
  constructor
  · intro hkept
    by_cases hid : s.id = intMax
    · exact Or.inr (Or.inl hid)
    · cases hfree : s.findById 0 with
      | none => exact Or.inl rfl
      | some ent => exact Or.inr (Or.inr (hkept.storable hw ht hd hchain hc.nul hfree hid))
  · intro hcond
    have hstorable : ∀ {e junk runs pni g}, s.CreationEnds e junk runs d name 0 pni g →
        Storable name ∧ s.FoundLive d name := by
      intro e junk runs pni g hends
      obtain ⟨ent, _, _, _, hfree, hid, _⟩ := hends.created hw ht hd hchain hc.nul
      rcases hcond with hnone | hmax | hs
      · rw [hfree] at hnone
        cases hnone
      · exact absurd hmax hid
      · exact hs
    constructor
    case found =>
      intro e junk runs pni g hends pni' pcn hpcn
      obtain ⟨hs, hlive⟩ := hstorable hends
      exact hs.found hw ht hd hchain hc.nul hlive hends pni' hpcn
    case listed =>
      intro e junk runs pni g hends reslen eofflag wanted hroom
      exact (hstorable hends).1.listed hw ht hd hchain hc.nul hends eofflag wanted hroom
    case rejected =>
      intro e junk runs errno pni g hends herr
      exact rejected_of_creationEnds hends herr
    case distinct =>
      intro name' hc' hne pcn pcn' hpcn hpcn' q hq hq'
      exact hne ((lookupMatch_holds ht hpcn' hc'.nul hq').symm.trans
        (lookupMatch_holds ht hpcn hc.nul hq))

end Kept

theorem boot_root : ∃ g : Gba, bootRun [] = some g ∧ g.Reachable ∧ g.store.live rootSlot ∧
    Chain g.store.next (g.store.child rootSlot) [testSlot] ∧ g.store.live testSlot ∧
    g.store.findById 0 = some newSlot ∧ g.store.id ≠ intMax := by
  obtain ⟨g, hg, hfacts⟩ := Option.map_eq_some_iff.mp
    (show (bootRun []).map (fun g => decide (g.store.live rootSlot ∧
      g.store.child rootSlot = some testSlot ∧ g.store.next testSlot = none ∧
      g.store.live testSlot ∧ g.store.findById 0 = some newSlot ∧ g.store.id ≠ intMax)) =
        some true by decide +kernel)
  obtain ⟨hroot, hchild, hnext, htest, hfree, hid⟩ := of_decide_eq_true hfacts
  refine ⟨g, hg, bootRun_reachable hg, hroot, ?_, htest, hfree, hid⟩
  rw [hchild]
  exact .cons (hnext ▸ .nil)

/-- The name `a` in the root after boot. -/
theorem nameKept_iff_root :
    ∃ g : Gba, bootRun [] = some g ∧ g.store.NameKept rootSlot [97] := by
  obtain ⟨g, hg, hr, hroot, hchain, htest, _, _⟩ := boot_root
  refine ⟨g, hg, (nameKept_iff ⟨g.phase, hr⟩ hroot hchain
    ⟨by decide, by decide, by decide⟩).mpr
      (Or.inr (Or.inr ⟨⟨by decide, by decide, by decide⟩, ?_⟩))⟩
  exact Store.foundLive_of_chain hchain (by simpa using htest)

/-- `%s`, and a name of 32 bytes. -/
theorem nameKept_counterexample :
    ∃ g : Gba, bootRun [] = some g ∧ g.Reachable ∧ g.store.live rootSlot ∧
      Chain g.store.next (g.store.child rootSlot) [testSlot] ∧
      Component [37, 115] ∧ ¬ g.store.NameKept rootSlot [37, 115] ∧
      Component (List.replicate 32 97) ∧ ¬ g.store.NameKept rootSlot (List.replicate 32 97) := by
  obtain ⟨g, hg, hr, hroot, hchain, _, hfree, hid⟩ := boot_root
  have hw := Store.Reachable.wellFormed ⟨g.phase, hr⟩
  have ht := Store.Reachable.terminated ⟨g.phase, hr⟩
  refine ⟨g, hg, hr, hroot, hchain, ⟨by decide, by decide, by decide⟩, fun hkept => ?_,
    ⟨by decide, by decide, by decide⟩, fun hkept => ?_⟩
  · exact (hkept.storable hw ht hroot hchain (by decide) hfree hid).1.percent (by decide)
  · exact absurd (hkept.storable hw ht hroot hchain (by decide) hfree hid).1.length_lt (by decide)

end WiiJoybus
