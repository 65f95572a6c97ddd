import WiiJoybus.Gba.FileRuns
import WiiJoybus.Link.Append
import WiiJoybus.Link.SessionCalls

/-!
A file over a whole session.

To the Wii a file is a sequence of bytes: a write overlays it, a change of the size
cuts it or fills it up, a read returns a part of it, and nothing else touches it.
The operations of a session do this to one file, whatever they do to the others.
-/

namespace WiiJoybus
open ByteMemory StructLayout Dialogue Dialogue.Network

section Runs

/-- The file a message is about, as far as its data go. -/
def Message.names : Message → Option Word
  | .request (.setsize req) => some req.vaFileid
  | .request (.write req) => some req.fileid
  | .request (.reclaim req) => some req.vaFileid
  | _ => none

variable {g g' : Gba} {j : Junk} {m : Message} {ms : List Message} {p : EntryPtr}
variable {xs : List Byte}

theorem Gba.target_ne (hw : ∀ w, g.phase = .writing w → w.ent ≠ p)
    (hm : m.names ≠ some (g.store.fileid p)) : g.target m ≠ some p := by
  have hfind : ∀ {id : Word}, some id ≠ some (g.store.fileid p) →
      g.store.findById id ≠ some p :=
    fun hid hf => hid (congrArg some (Store.findById_fileid hf).symm)
  cases m with
  | chunk b =>
      intro ht
      rw [Gba.target] at ht
      cases hphase : g.phase with
      | dispatch => rw [hphase] at ht; cases ht
      | writing w =>
          rw [hphase] at ht
          cases ht
          exact hw w hphase rfl
  | request r =>
      cases r with
      | setsize | write | reclaim => exact hfind hm
      | statvfs | readdir | lookup | getattr | create | read | mkdir | rm =>
          intro ht
          cases ht

theorem Gba.Run.untouched (h : g.Run ms g') (hinv : g.FileInv p xs)
    (hw : ∀ w, g.phase = .writing w → w.ent ≠ p)
    (hms : ∀ m ∈ ms, m.names ≠ some (g.store.fileid p)) :
    g'.FileInv p xs ∧ g'.store.fileid p = g.store.fileid p := by
  induction h with
  | nil g => exact ⟨hinv, rfl⟩
  | @cons g g₁ g' j m ms hs _ ih =>
      have ht := Gba.target_ne hw (hms m List.mem_cons_self)
      have hid := (Gba.untouched hinv.wellFormed hinv.live hs ht).fileid
      obtain ⟨hinv', hid'⟩ := ih (hinv.untouched ht hs)
        (fun w hphase hp => ht (hp ▸ (Gba.receive_phase hs hphase).1))
        (fun m' hm' => by rw [hid]; exact hms m' (List.mem_cons_of_mem m hm'))
      exact ⟨hinv', hid'.trans hid⟩

end Runs

/-- The file whose data an operation may change. -/
def Operation.names : Operation → Option Word
  | .write opc _ _ _ _ => some opc
  | .reclaim opc => some opc
  | .setattr opc _ => some opc
  | _ => none

section Operations

variable {e : Puffs} {junk : Nat → Junk} {s s' : Store} {runs : Nat} {ctx : Context}
variable {op : Operation} {r : Outcome} {h : GbaHead} {p : EntryPtr} {xs : List Byte}

/-- The operation takes the GBA through messages that are about its file or no file. -/
def Served (op : Operation) (g g' : Gba) : Prop :=
  ∃ ms, g.Run ms g' ∧ ∀ m ∈ ms, m.names = none ∨ m.names = op.names

theorem served_self (op : Operation) (g : Gba) : Served op g g :=
  ⟨[], .nil g, fun _ hm => by cases hm⟩

theorem served_request {g g' : Gba} {j : Junk} {m : Message} (hs : g.receive j m = some g')
    (hm : m.names = none ∨ m.names = op.names) : Served op g g' :=
  ⟨[m], .cons hs (.nil g'), fun _ hmem => List.mem_singleton.mp hmem ▸ hm⟩

theorem Calls.served_kept {q : WiiProc} (ends : Option Outcome)
    (hc : Calls e junk s runs q (ends.map fun out => (out, s)))
    (hx : (link e junk).Exchanges q ⟨⟨s, .dispatch⟩, runs⟩ r h) :
    Served op ⟨s, .dispatch⟩ h.state := by
  obtain ⟨s', hends, hstate⟩ := hc.state hx
  obtain ⟨_, _, hx'⟩ := Option.map_eq_some_iff.mp hends
  cases hx'
  rw [hstate]
  exact served_self op _

theorem Calls.served_self {q : WiiProc} {out : Outcome}
    (hc : Calls e junk s runs q (some (out, s)))
    (hx : (link e junk).Exchanges q ⟨⟨s, .dispatch⟩, runs⟩ r h) :
    Served op ⟨s, .dispatch⟩ h.state :=
  Calls.served_kept (some out) hc hx

theorem Calls.served_request {q : WiiProc} {α : Type} {reply : Option (α × Store)}
    {out : α → Outcome} {m : Message}
    (hc : Calls e junk s runs q (reply.map fun x => (out x.1, x.2)))
    (hx : (link e junk).Exchanges q ⟨⟨s, .dispatch⟩, runs⟩ r h)
    (hm : Gba.receive (junk runs) ⟨s, .dispatch⟩ m = reply.map fun x => ⟨x.2, .dispatch⟩)
    (hnames : m.names = none ∨ m.names = op.names) : Served op ⟨s, .dispatch⟩ h.state := by
  obtain ⟨s', hends, hstate⟩ := hc.state hx
  obtain ⟨x, rfl, hx'⟩ := Option.map_eq_some_iff.mp hends
  cases hx'
  rw [hstate]
  exact WiiJoybus.served_request hm hnames

theorem names_of_writes {id : Word} {m : Message} (h : m.Writes id) :
    m.names = none ∨ m.names = some id := by
  cases m with
  | chunk b => exact Or.inl rfl
  | request r =>
      cases r with
      | write req => exact Or.inr (congrArg some h)
      | statvfs | readdir | lookup | getattr | create | read | mkdir | rm | reclaim | setsize =>
          exact False.elim h

theorem served_of_exchanges (hw : s.WellFormed) (ht : s.Terminated)
    (hk : ¬ s.Derails junk runs op)
    (hx : (link e junk).Exchanges (op.run e ctx) ⟨⟨s, .dispatch⟩, runs⟩ r h) :
    Served op ⟨s, .dispatch⟩ h.state := by
  cases op with
  | statvfs => exact (calls_statvfs e junk s runs).served_self hx
  | readdir opc dent readoff eofflag wanted =>
      exact (calls_readdir ht e junk runs opc dent readoff eofflag wanted).served_self hx
  | lookup opc pni pcn =>
      have hc := calls_lookup e junk s runs opc pni pcn
      split at hc
      · exact hc.served_self hx
      · refine Calls.served_kept ((s.handleLookupRequest (junk runs)
          ⟨opc, pcn.name⟩).map (lookupOutcome pni)) ?_ hx
        rwa [Option.map_map]
  | getattr opc vap => exact (calls_getattr e junk s runs opc vap).served_self hx
  | create opc pni pcn vaType =>
      have hc := calls_create e junk s runs ctx opc pni pcn vaType
      split at hc
      · exact hc.served_request hx (m := .request (.create ⟨opc, pcn.name⟩)) rfl (Or.inl rfl)
      · exact hc.served_self hx
  | mkdir opc pni pcn =>
      exact (calls_mkdir e junk s runs ctx opc pni pcn).served_request hx
        (m := .request (.mkdir ⟨opc, pcn.name⟩)) rfl (Or.inl rfl)
  | write opc buf offset resid append =>
      obtain ⟨ms, hrun, hms⟩ := run_write hw hk hx
      exact ⟨ms, hrun, fun m hm => names_of_writes (hms m hm)⟩
  | read opc buf offset resid =>
      obtain ⟨out, n, hm⟩ := readLoop_meets e junk s ⟨opc, offset, 0, buf, resid⟩ runs
      obtain ⟨_, rfl⟩ := hx.unique_out hm.exchanges
      exact served_self _ _
  | remove opc targ pcn =>
      exact (calls_remove e junk s runs ctx opc targ pcn).served_request hx
        (m := .request (.rm ⟨opc, pcn.name⟩)) rfl (Or.inl rfl)
  | reclaim opc =>
      obtain ⟨s', hends, hstate⟩ := (calls_reclaim e junk s runs ctx opc).state hx
      cases hends
      rw [hstate]
      exact served_request (j := junk runs) (m := .request (.reclaim ⟨opc⟩)) rfl (Or.inr rfl)
  | setattr opc vaSize =>
      by_cases hsend : vaSize ≠ puffsVnoval ∧ (ctx.cmap e opc).1.vaType = vreg
      · obtain ⟨s', hends, hstate⟩ :=
          (calls_setattr e junk s runs ctx opc hsend.1 hsend.2).state hx
        cases hends
        rw [hstate]
        exact served_request (j := junk runs) (m := .request (.setsize ⟨opc, vaSize⟩)) rfl
          (Or.inr rfl)
      · rw [Operation.run, setattr_local e ctx opc hsend] at hx
        exact Calls.served_self (calls_finish _) hx

theorem Served.untouched {g g' : Gba} (h : Served op g g') (hinv : g.FileInv p xs)
    (hphase : g.phase = .dispatch) (hop : op.names ≠ some (g.store.fileid p)) :
    g'.FileInv p xs ∧ g'.store.fileid p = g.store.fileid p := by
  obtain ⟨ms, hrun, hms⟩ := h
  refine hrun.untouched hinv (fun w hw => ?_) fun m hm => ?_
  · rw [hphase] at hw
    cases hw
  · rcases hms m hm with hnone | hsame
    · rw [hnone]
      exact nofun
    · rwa [hsame]

end Operations

section Effects

/-- SETATTR gets as far as the GBA. -/
def SessionCall.Resizes (e : Puffs) (c : SessionCall) (opc : Word) (vaSize : Word64) : Prop :=
  vaSize ≠ puffsVnoval ∧ (c.ctx.cmap e opc).1.vaType = vreg

instance (e : Puffs) (c : SessionCall) (opc : Word) (vaSize : Word64) :
    Decidable (c.Resizes e opc vaSize) :=
  inferInstanceAs (Decidable (_ ∧ _))

def bufBytes (buf : Memory) (n : Nat) : List Byte := List.ofFn fun k : Fin n => buf k

/-- What an operation means for the bytes of the file `id`. -/
def SessionCall.effect (e : Puffs) (id : Word) (c : SessionCall) (xs : List Byte) : List Byte :=
  match c.op with
  | .write opc buf offset resid _ =>
      if opc = id then ByteFile.write offset.toNat (bufBytes buf resid.toNat) xs else xs
  | .setattr opc vaSize =>
      if opc = id ∧ c.Resizes e opc vaSize then ByteFile.resize vaSize.toNat xs else xs
  | _ => xs

/-- What an operation on the file `id` returns when the file holds `xs`. -/
def SessionCall.Answers (e : Puffs) (id : Word) (c : SessionCall) (xs : List Byte) : Prop :=
  match c.op with
  | .write opc _ _ _ _ => opc = id → c.result = .write 0 0
  | .read opc buf offset resid => opc = id → ∃ buf' resid', c.result = .read 0 buf' resid' ∧
      resid'.toNat + min resid.toNat (xs.length - offset.toNat) = resid.toNat ∧
      ∀ k, buf' k = if k < min resid.toNat (xs.length - offset.toNat) then
        ByteFile.at_ xs (offset.toNat + k) else buf k
  | .setattr opc vaSize => opc = id → c.Resizes e opc vaSize → ∃ ctx, c.result = .setattr 0 ctx
  | _ => True

/-- The operation is one that the file can take as it is meant: it fits the store and the
exchange, and the file is not released. -/
def SessionCall.Sound (e : Puffs) (junk : Nat → Junk) (p : EntryPtr) (h : GbaHead)
    (c : SessionCall) : Prop :=
  match c.op with
  | .write opc _ offset resid append => opc = h.state.store.fileid p →
      (resid ≠ 0 → chunkErr junk h.runs = 0) ∧ (128 ∣ offset.toNat ∨ resid.toNat ≤ 128) ∧
      (h.state.store.prepared p offset resid).1 = 0 ∧
      h.state.Clean p (.request (.write (h.state.store.writeReq p offset resid append)))
  | .read opc _ offset resid => opc = h.state.store.fileid p →
      h.state.store.ReadsWhole p offset resid
  | .setattr opc vaSize => opc = h.state.store.fileid p → c.Resizes e opc vaSize →
      (h.state.store.entrySetsize p (vaSize.setWidth 32)).1 = 0 ∧
      h.state.Clean p (.request (.setsize ⟨opc, vaSize⟩))
  | .reclaim opc => opc ≠ h.state.store.fileid p
  | _ => True

end Effects

section Steps

variable {e : Puffs} {junk : Nat → Junk} {s s' : Store} {runs : Nat} {p : EntryPtr}
variable {xs : List Byte} {h h' : GbaHead} {r : Outcome} {c : SessionCall}

theorem clean_write (hw : s.WellFormed) (hp : s.live p) {offset : Word64} {resid : Word}
    {append : Bool} (hclean : Gba.Clean ⟨s, .dispatch⟩ p
      (.request (.write (s.writeReq p offset resid append)))) :
    offset.toNat + resid.toNat < 2 ^ 32 ∧ ∀ k, s.size p ≤ k → k < offset.toNat + resid.toNat →
      k / 128 < s.numblocks p → s.fileByte p k = 0 := by
  have htarget : Gba.target ⟨s, .dispatch⟩ (.request (.write (s.writeReq p offset resid append))) =
      some p := hw.findById hp
  have hextent := (Gba.clean_iff (n := offset.toNat + (resid.setWidth 64).toNat) htarget rfl).mp
    hclean
  rwa [widen_toNat] at hextent

theorem FileInv.prepared (hinv : Gba.FileInv ⟨s, .dispatch⟩ p xs) {offset : Word64} {resid : Word}
    {append : Bool} (hok : (s.prepared p offset resid).1 = 0)
    (hclean : Gba.Clean ⟨s, .dispatch⟩ p (.request (.write (s.writeReq p offset resid append)))) :
    Gba.FileInv ⟨(s.prepared p offset resid).2, .dispatch⟩ p
      (ByteFile.resize (max xs.length (offset.toNat + resid.toNat)) xs) := by
  have hlen : xs.length = s.size p := hinv.length
  obtain ⟨hend, hzeros⟩ := clean_write hinv.wellFormed hinv.live hclean
  have hsum : (offset + resid.setWidth 64).toNat = offset.toNat + resid.toNat := by
    rw [BitVec.toNat_add, widen_toNat, Nat.mod_eq_of_lt (by omega)]
  by_cases hgt : offset + resid.setWidth 64 > (s.entries p).vaSize
  · have hprepared : s.prepared p offset resid =
        s.entrySetsize p ((offset + resid.setWidth 64).setWidth 32) := if_pos hgt
    have hgt' : s.size p < (offset + resid.setWidth 64).toNat := BitVec.lt_def.mp hgt
    rw [hprepared] at hok ⊢
    obtain ⟨hiff, hw, hlive, hmap, _⟩ := hinv.resize (n := offset.toNat + resid.toNat)
      (k := (offset + resid.setWidth 64).setWidth 32)
      (fun hlt => by rw [BitVec.toNat_setWidth, hsum, Nat.mod_eq_of_lt hlt]) hok
    rw [Nat.max_eq_right (by omega)]
    exact ⟨hw, hlive, hmap, hiff.mpr ⟨hend, hzeros⟩, fun w hw => by cases hw⟩
  · have hprepared : s.prepared p offset resid = (0, s) := if_neg hgt
    have hle : ¬ s.size p < (offset + resid.setWidth 64).toNat :=
      fun hlt => hgt (BitVec.lt_def.mpr hlt)
    rw [hprepared, Nat.max_eq_left (by omega), ByteFile.resize_length]
    exact hinv

/-- A write overlays the bytes of its buffer. -/
theorem FileInv.write (hinv : Gba.FileInv ⟨s, .dispatch⟩ p xs) {buf : Memory} {offset : Word64}
    {resid : Word} {append : Bool} (herr : resid ≠ 0 → chunkErr junk runs = 0)
    (hborder : 128 ∣ offset.toNat ∨ resid.toNat ≤ 128)
    (hok : (s.prepared p offset resid).1 = 0)
    (hclean : Gba.Clean ⟨s, .dispatch⟩ p (.request (.write (s.writeReq p offset resid append))))
    (hx : (link e junk).Exchanges (nodeWrite e (s.fileid p) buf offset resid append)
      ⟨⟨s, .dispatch⟩, runs⟩ r h') :
    r = .write 0 0 ∧ h'.state.FileInv p
      (ByteFile.write offset.toNat (bufBytes buf resid.toNat) xs) ∧
      h'.state.store.fileid p = s.fileid p := by
  have hprepared := FileInv.prepared hinv hok hclean
  have hcontents : (s.prepared p offset resid).2.contents p =
      ByteFile.resize (max xs.length (offset.toNat + resid.toNat)) xs := hprepared.contents
  have hlen : xs.length = s.size p := hinv.length
  have hbuf : (bufBytes buf resid.toNat).length = resid.toNat := List.length_ofFn
  obtain ⟨hend, _⟩ := clean_write hinv.wellFormed hinv.live hclean
  obtain ⟨s', n, hx', hchunks, hsize, hbytes⟩ := writesFile_of_aligned hinv.wellFormed hinv.live
    hend hok hborder e junk runs buf append herr
  obtain ⟨rfl, rfl⟩ := hx.unique_out hx'
  have hshape : Store.SameShape (s.prepared p offset resid).2 s' := hchunks.shape
  have hid : s'.fileid p = (s.prepared p offset resid).2.fileid p := by
    rw [Store.fileid, Store.fileid, hshape.entries]
  have hsize' : s'.size p = (s.prepared p offset resid).2.size p := by
    rw [Store.size, Store.size, hshape.entries]
  have hbytes' : s'.contents p = ByteFile.write offset.toNat (bufBytes buf resid.toNat) xs := by
    rw [ByteFile.write, hbuf, ← hcontents]
    refine ByteFile.ext (by simp [hsize']) fun k hk => ?_
    rw [Store.length_contents] at hk
    rw [Store.at_contents hk, hbytes k hk, ByteFile.at_overlay, hbuf,
      Store.at_contents (hsize' ▸ hk)]
    · split
      · rename_i hin
        rw [bufBytes, ByteFile.at_, List.getD_eq_getElem _ _ (by rw [List.length_ofFn]; omega),
          List.getElem_ofFn]
      · rfl
    · rw [hbuf, Store.length_contents, ← hsize', hsize]
      exact Nat.le_max_right _ _
  refine ⟨rfl, ⟨hprepared.wellFormed.sameShape hshape, ?_, hprepared.map.sameShape hshape, hbytes',
    fun w hw => by cases hw⟩, ?_⟩
  · change s'.fileid p ≠ 0
    rw [hid]
    exact hprepared.live
  · exact hid.trans (Store.prepare_kept hinv.wellFormed p (s.writeReq p offset resid false)).2

/-- A read returns the part of the file that was asked for. -/
theorem FileInv.read (hinv : Gba.FileInv ⟨s, .dispatch⟩ p xs) {buf : Memory} {offset : Word64}
    {resid : Word} (hwhole : s.ReadsWhole p offset resid)
    (hx : (link e junk).Exchanges (nodeRead (s.fileid p) buf offset resid)
      ⟨⟨s, .dispatch⟩, runs⟩ r h') :
    ∃ buf' resid', r = .read 0 buf' resid' ∧
      resid'.toNat + min resid.toNat (xs.length - offset.toNat) = resid.toNat ∧
      ∀ k, buf' k = if k < min resid.toNat (xs.length - offset.toNat) then
        ByteFile.at_ xs (offset.toNat + k) else buf k := by
  have hlen : xs.length = s.size p := hinv.length
  obtain ⟨buf', resid', h₁, hx', hleft, hbytes⟩ :=
    hwhole.readsFile hinv.wellFormed hinv.live e junk runs buf
  refine ⟨buf', resid', (hx.unique_out hx').1, hlen ▸ hleft, fun k => ?_⟩
  rw [hbytes k, hlen]
  split
  · rw [← hinv.contents, Store.at_contents (by omega)]
  · rfl

theorem FileInv.setattr (hinv : Gba.FileInv ⟨s, .dispatch⟩ p xs) {ctx : Context}
    {vaSize : Word64} (hsize : vaSize ≠ puffsVnoval)
    (htype : (ctx.cmap e (s.fileid p)).1.vaType = vreg)
    (hok : (s.entrySetsize p (vaSize.setWidth 32)).1 = 0)
    (hclean : Gba.Clean ⟨s, .dispatch⟩ p (.request (.setsize ⟨s.fileid p, vaSize⟩)))
    (hx : (link e junk).Exchanges (nodeSetattr e ctx (s.fileid p) vaSize)
      ⟨⟨s, .dispatch⟩, runs⟩ r h') :
    (∃ ctx', r = .setattr 0 ctx') ∧
      h'.state.FileInv p (ByteFile.resize vaSize.toNat xs) ∧
      h'.state.store.fileid p = s.fileid p := by
  have hfind : s.findById (s.fileid p) = some p := hinv.wellFormed.findById hinv.live
  have hreply : s.handleSetsizeRequest (junk runs) ⟨s.fileid p, vaSize⟩ =
      (⟨0, ((s.entrySetsize p (vaSize.setWidth 32)).2.entries p).vaFileid,
        ((s.entrySetsize p (vaSize.setWidth 32)).2.entries p).vaBytes,
        ((s.entrySetsize p (vaSize.setWidth 32)).2.entries p).vaSize⟩,
        (s.entrySetsize p (vaSize.setWidth 32)).2) := by
    simp only [Store.handleSetsizeRequest, hfind]
  obtain ⟨s', hends, hstate⟩ := (calls_setattr e junk s runs ctx _ hsize htype).state hx
  rw [hreply, setattrReply, if_neg (not_not.mpr rfl)] at hends
  cases hends
  have hreceive : Gba.receive (junk runs) ⟨s, .dispatch⟩
      (.request (.setsize ⟨s.fileid p, vaSize⟩)) =
        some ⟨(s.entrySetsize p (vaSize.setWidth 32)).2, .dispatch⟩ := by
    simp only [Gba.receive, Store.serve, hreply]
  rw [hstate]
  exact ⟨⟨_, rfl⟩, (hinv.setsize hfind hok hreceive).2 hclean,
    (Store.sameTree_entrySetsize s p _).fileid p⟩

theorem SessionCall.step (ht : s.Terminated) (hk : ¬ s.Derails junk runs c.op)
    (hinv : Gba.FileInv ⟨s, .dispatch⟩ p xs) (hs : c.Sound e junk p ⟨⟨s, .dispatch⟩, runs⟩)
    (hx : (link e junk).Exchanges (c.op.run e c.ctx) ⟨⟨s, .dispatch⟩, runs⟩ c.result h') :
    c.Answers e (s.fileid p) xs ∧ h'.state.FileInv p (c.effect e (s.fileid p) xs) ∧
      h'.state.store.fileid p = s.fileid p := by
  obtain ⟨ctx, op, result⟩ := c
  have hother : op.names ≠ some (s.fileid p) →
      h'.state.FileInv p xs ∧ h'.state.store.fileid p = s.fileid p := fun hop =>
    (served_of_exchanges hinv.wellFormed ht hk hx).untouched hinv rfl hop
  cases op with
  | statvfs | readdir | lookup | getattr | create | mkdir | remove =>
      exact ⟨trivial, hother nofun⟩
  | write opc buf offset resid append =>
      have heffect : SessionCall.effect e (s.fileid p)
          ⟨ctx, .write opc buf offset resid append, result⟩ xs = if opc = s.fileid p then
            ByteFile.write offset.toNat (bufBytes buf resid.toNat) xs else xs := rfl
      by_cases hopc : opc = s.fileid p
      · subst hopc
        obtain ⟨herr, hborder, hok, hclean⟩ := hs rfl
        obtain ⟨hr, hkept⟩ := FileInv.write hinv herr hborder hok hclean hx
        rw [heffect, if_pos rfl]
        exact ⟨fun _ => hr, hkept⟩
      · rw [heffect, if_neg hopc]
        exact ⟨fun h => absurd h hopc, hother fun h => hopc (Option.some.inj h)⟩
  | read opc buf offset resid =>
      refine ⟨fun hopc => ?_, hother nofun⟩
      subst hopc
      exact FileInv.read hinv (hs rfl) hx
  | reclaim opc => exact ⟨trivial, hother fun h => hs (Option.some.inj h)⟩
  | setattr opc vaSize =>
      have heffect : SessionCall.effect e (s.fileid p) ⟨ctx, .setattr opc vaSize, result⟩ xs =
          if opc = s.fileid p ∧
              SessionCall.Resizes e ⟨ctx, .setattr opc vaSize, result⟩ opc vaSize then
            ByteFile.resize vaSize.toNat xs else xs := rfl
      by_cases hopc : opc = s.fileid p
      · subst hopc
        by_cases hresizes : SessionCall.Resizes e ⟨ctx, .setattr (s.fileid p) vaSize, result⟩
            (s.fileid p) vaSize
        · obtain ⟨hok, hclean⟩ := hs rfl hresizes
          obtain ⟨hr, hkept⟩ := FileInv.setattr hinv hresizes.1 hresizes.2 hok hclean hx
          rw [heffect, if_pos ⟨rfl, hresizes⟩]
          exact ⟨fun _ _ => hr, hkept⟩
        · rw [heffect, if_neg fun h => hresizes h.2]
          refine ⟨fun _ h => absurd h hresizes, ?_⟩
          rw [Operation.run, setattr_local e ctx (s.fileid p) hresizes] at hx
          obtain ⟨s', hends, hstate⟩ := (calls_finish _).state hx
          cases hends
          rw [hstate]
          exact ⟨hinv, rfl⟩
      · rw [heffect, if_neg fun h => hopc h.1]
        exact ⟨fun h => absurd h hopc, hother fun h => hopc (Option.some.inj h)⟩

end Steps

section Session

variable {e : Puffs} {junk : Nat → Junk} {s : Store} {r : Outcome} {d : DriverConfig}
variable {rootGen testGen : Word64} {p : EntryPtr} {xs : List Byte} {h : GbaHead}

end Session

end WiiJoybus
