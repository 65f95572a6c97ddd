import WiiJoybus.Gba.Positions
import WiiJoybus.Gba.Untouched

/-!
Files over whole runs.

A file is created empty, resized and written to, while anything may happen to
the others. Its contents follow the byte sequence as long as no growth exposes
what an earlier shrink left in the last block: blocks are zeroed when they are
taken and given back, and a shrink within a block does neither.
-/

namespace WiiJoybus
open ByteMemory

/-- The size a message asks a file to have, or to reach. -/
def Message.extent : Message → Option Nat
  | .request (.setsize req) => some req.vaSize.toNat
  | .request (.write req) => some (req.offset.toNat + req.resid.toNat)
  | _ => none

/-- What a message means for the bytes of file `p`: a resize, the extension that
starts a block-aligned write, one of its chunks, or nothing. -/
inductive Gba.FileStep (p : EntryPtr) (g : Gba) : Message → (List Byte → List Byte) → Prop where
  | resize {req} (hp : g.store.findById req.vaFileid = some p)
      (hok : (g.store.entrySetsize p (req.vaSize.setWidth 32)).1 = 0) :
      FileStep p g (.request (.setsize req)) (ByteFile.resize req.vaSize.toNat)
  | extend {req} (hp : g.store.findById req.fileid = some p) (halign : 128 ∣ req.offset.toNat)
      (hok : ∀ n, g.store.resizes (.request (.write req)) = some (p, n) →
        (g.store.entrySetsize p n).1 = 0) :
      FileStep p g (.request (.write req))
        fun xs => ByteFile.resize (max xs.length (req.offset.toNat + req.resid.toNat)) xs
  | overlay {w b} (hphase : g.phase = .writing w) (hp : w.ent = p)
      (hlen : b.buflen.toNat = min w.resid.toNat 128) :
      FileStep p g (.chunk b)
        (ByteFile.overlay w.offset.toNat ((List.ofFn b.buf).take b.buflen.toNat))
  | other {m} (h : g.target m ≠ some p) : FileStep p g m id

/-- The size asked for fits the store's 32 bits, and what it exposes of the file's
last block is zero. -/
def Gba.Clean (g : Gba) (p : EntryPtr) (m : Message) : Prop :=
  g.target m = some p → ∀ n, m.extent = some n → n < 2 ^ 32 ∧
    ∀ k, g.store.size p ≤ k → k < n → k / 128 < g.store.numblocks p → g.store.fileByte p k = 0

/-- Runs of file `p` from its creation, by messages that satisfy `P`, with the
byte sequence it should hold. -/
inductive Gba.FileRun (P : Gba → EntryPtr → Message → Prop) (p : EntryPtr) :
    Gba → List Byte → Prop where
  | boot {rootGen testGen s} (h : Store.boot rootGen testGen = some s) (hp : s.live p) :
      FileRun P p ⟨s, .dispatch⟩ []
  | create {g g' : Gba} {j m} (h : g.Reachable) (hs : g.receive j m = some g')
      (hold : ¬ g.store.live p) (hnew : g'.store.live p) : FileRun P p g' []
  | step {g g' : Gba} {j m f xs} (h : FileRun P p g xs) (hf : g.FileStep p m f)
      (hs : g.receive j m = some g') (hp : P g p m) : FileRun P p g' (f xs)

section Step

variable {g g' : Gba} {j : Junk} {m : Message} {p : EntryPtr} {xs : List Byte}
variable {f : List Byte → List Byte}

/-- The file holds `xs`, and a write in progress stays within it. -/
structure Gba.FileInv (g : Gba) (p : EntryPtr) (xs : List Byte) : Prop where
  wellFormed : g.store.WellFormed
  live : g.store.live p
  map : g.store.FileMap p
  contents : g.store.contents p = xs
  within : ∀ w, g.phase = .writing w → w.ent = p → 128 ∣ w.offset.toNat ∧ 0 < w.resid.toNat ∧
    w.offset.toNat + w.resid.toNat ≤ g.store.size p

theorem Gba.FileInv.length (h : g.FileInv p xs) : xs.length = g.store.size p := by
  rw [← h.contents, Store.length_contents]

theorem Gba.FileInv.contents_ne {s : Store} (hw : s.WellFormed) (hp : s.live p) {n : Nat}
    (hn : 2 ^ 32 ≤ n) : s.contents p ≠ ByteFile.resize n xs := by
  intro heq
  have hlen := congrArg List.length heq
  rw [Store.length_contents, ByteFile.length_resize] at hlen
  have := (hw.files p hp).size_lt
  omega

theorem Gba.FileInv.resize (h : g.FileInv p xs) {n : Nat} {k : Word} (hk : n < 2 ^ 32 → k.toNat = n)
    (hok : (g.store.entrySetsize p k).1 = 0) :
    ((g.store.entrySetsize p k).2.contents p = ByteFile.resize n xs ↔ n < 2 ^ 32 ∧
      ∀ i, g.store.size p ≤ i → i < n → i / 128 < g.store.numblocks p →
        g.store.fileByte p i = 0) ∧
      (g.store.entrySetsize p k).2.WellFormed ∧ (g.store.entrySetsize p k).2.live p ∧
      (g.store.entrySetsize p k).2.FileMap p ∧
      (n < 2 ^ 32 → (g.store.entrySetsize p k).2.size p = n) := by
  have hr := Store.entrySetsize_resized h.wellFormed h.live k
  have hlive := Store.live_entrySetsize (q := p) h.live k
  have hw := h.wellFormed.entrySetsize p k
  refine ⟨?_, hw, hlive, h.map.resized h.wellFormed h.live hr hok, ?_⟩
  · by_cases hn : n < 2 ^ 32
    · rw [← h.contents, ← hk hn, hr.contents_iff hok h.wellFormed h.live h.map]
      simp [k.isLt]
    · constructor
      · exact fun heq => absurd heq (Gba.FileInv.contents_ne hw hlive (by omega))
      · exact fun hboth => absurd hboth.1 hn
  · intro hn
    rw [hr.size hok, hk hn]

theorem Gba.clean_iff {n : Nat} (ht : g.target m = some p) (he : m.extent = some n) :
    g.Clean p m ↔ n < 2 ^ 32 ∧ ∀ k, g.store.size p ≤ k → k < n →
      k / 128 < g.store.numblocks p → g.store.fileByte p k = 0 := by
  constructor
  · exact fun h => h ht n he
  · intro h _ k hk
    cases he.symm.trans hk
    exact h

theorem Gba.clean_of_extent (he : m.extent = none) : g.Clean p m := by
  intro _ n hn
  cases he.symm.trans hn

theorem Gba.receive_write {req : WriteReq} (h : g.receive j (.request (.write req)) = some g')
    (hp : g.store.findById req.fileid = some p) (hok : (g.store.prepare p req).1 = 0) :
    g' = ⟨(g.store.prepare p req).2, Writing.next ⟨p, req.offset, req.resid, j.uninit⟩⟩ := by
  simp only [Gba.receive] at h
  split at h
  · simp only [Store.serve, Store.handleWriteRequest_some hp, hok, ne_eq, not_true, if_false,
      Option.some.injEq] at h
    exact h.symm
  · cases h

theorem Gba.FileInv.setsize (h : g.FileInv p xs) {req : SetattrReq}
    (hp : g.store.findById req.vaFileid = some p)
    (hok : (g.store.entrySetsize p (req.vaSize.setWidth 32)).1 = 0)
    (hs : g.receive j (.request (.setsize req)) = some g') :
    (g'.store.contents p = ByteFile.resize req.vaSize.toNat xs ↔
        g.Clean p (.request (.setsize req))) ∧
      (g.Clean p (.request (.setsize req)) →
        g'.FileInv p (ByteFile.resize req.vaSize.toNat xs)) := by
  have hk : req.vaSize.toNat < 2 ^ 32 → (req.vaSize.setWidth 32).toNat = req.vaSize.toNat := by
    intro hlt
    rw [BitVec.toNat_setWidth, Nat.mod_eq_of_lt hlt]
  obtain ⟨hiff, hw, hlive, hmap, _⟩ := h.resize hk hok
  obtain rfl := Gba.receive_setsize hs hp
  rw [← Gba.clean_iff (m := .request (.setsize req)) hp rfl] at hiff
  exact ⟨hiff, fun hclean => ⟨hw, hlive, hmap, hiff.mpr hclean, fun w hw => by cases hw⟩⟩

theorem Gba.FileInv.extend (h : g.FileInv p xs) {req : WriteReq}
    (hp : g.store.findById req.fileid = some p) (halign : 128 ∣ req.offset.toNat)
    (hok : ∀ n, g.store.resizes (.request (.write req)) = some (p, n) →
      (g.store.entrySetsize p n).1 = 0)
    (hs : g.receive j (.request (.write req)) = some g') :
    (g'.store.contents p =
        ByteFile.resize (max xs.length (req.offset.toNat + req.resid.toNat)) xs ↔
        g.Clean p (.request (.write req))) ∧
      (g.Clean p (.request (.write req)) → g'.FileInv p
        (ByteFile.resize (max xs.length (req.offset.toNat + req.resid.toNat)) xs)) := by
  have hlen := h.length
  have hsize := (h.wellFormed.files p h.live).size_lt
  have hsum : req.offset.toNat + req.resid.toNat < 2 ^ 32 →
      (req.offset + req.resid).toNat = req.offset.toNat + req.resid.toNat := by
    intro hlt
    rw [BitVec.toNat_add, Nat.mod_eq_of_lt (by omega)]
  have hclean := Gba.clean_iff (g := g) (m := .request (.write req)) hp rfl
  -- what is left once the preparation is known to have succeeded
  have hrest : ∀ s : Store, g' = ⟨s, Writing.next ⟨p, req.offset, req.resid, j.uninit⟩⟩ →
      s.WellFormed → s.live p → s.FileMap p →
      (s.contents p = ByteFile.resize (max xs.length (req.offset.toNat + req.resid.toNat)) xs ↔
        g.Clean p (.request (.write req))) →
      (g'.store.contents p =
          ByteFile.resize (max xs.length (req.offset.toNat + req.resid.toNat)) xs ↔
          g.Clean p (.request (.write req))) ∧
        (g.Clean p (.request (.write req)) → g'.FileInv p
          (ByteFile.resize (max xs.length (req.offset.toNat + req.resid.toNat)) xs)) := by
    rintro s rfl hw hlive hmap hiff
    refine ⟨hiff, fun hc => ⟨hw, hlive, hmap, hiff.mpr hc, ?_⟩⟩
    intro w hphase _
    obtain ⟨rfl, hpos⟩ := Writing.next_eq_writing hphase
    have hext := congrArg List.length (hiff.mpr hc)
    rw [Store.length_contents, ByteFile.length_resize] at hext
    exact ⟨halign, hpos, by simp only [hext]; omega⟩
  by_cases hgt : req.offset + req.resid > (g.store.entries p).vaSize
  · have hprepare : g.store.prepare p req =
        g.store.entrySetsize p ((req.offset + req.resid).setWidth 32) := if_pos hgt
    have hok' := hok _ (by simp only [Store.resizes, hp]; exact if_pos hgt)
    have hg' := Gba.receive_write hs hp (by rw [hprepare, hok'])
    rw [hprepare] at hg'
    have hgt' : g.store.size p < (req.offset + req.resid).toNat := BitVec.lt_def.mp hgt
    obtain ⟨hiff, hw, hlive, hmap, _⟩ :=
      h.resize (n := max xs.length (req.offset.toNat + req.resid.toNat))
        (k := (req.offset + req.resid).setWidth 32) (by
          intro hlt
          have := hsum (by omega)
          rw [BitVec.toNat_setWidth, Nat.mod_eq_of_lt (by omega)]
          omega) hok'
    refine hrest _ hg' hw hlive hmap (hiff.trans ?_)
    rw [hclean]
    constructor
    · rintro ⟨hlt, hzero⟩
      exact ⟨by omega, fun i hlo hhi => hzero i hlo (by omega)⟩
    · rintro ⟨hlt, hzero⟩
      exact ⟨by omega, fun i hlo hhi => hzero i hlo (by omega)⟩
  · have hprepare : g.store.prepare p req = (0, g.store) := if_neg hgt
    have hg' := Gba.receive_write hs hp (by rw [hprepare])
    rw [hprepare] at hg'
    have hle : ¬ g.store.size p < (req.offset + req.resid).toNat :=
      fun h => hgt (BitVec.lt_def.mpr h)
    refine hrest _ hg' h.wellFormed h.live h.map ?_
    rw [hclean]
    by_cases hlt : req.offset.toNat + req.resid.toNat < 2 ^ 32
    · have := hsum hlt
      have hmax : max xs.length (req.offset.toNat + req.resid.toNat) = xs.length := by omega
      rw [hmax, ByteFile.resize_length]
      exact ⟨fun _ => ⟨hlt, fun i hlo hhi => by omega⟩, fun _ => h.contents⟩
    · constructor
      · exact fun heq =>
          absurd heq (Gba.FileInv.contents_ne h.wellFormed h.live (by omega))
      · exact fun hboth => absurd hboth.1 hlt

theorem at_chunk (b : WriteBufReq) {n k : Nat} (hn : n ≤ 128) (hk : k < n) :
    ByteFile.at_ ((List.ofFn b.buf).take n) k = Copying.source j b k := by
  have hk' : k < blockSize := by
    simp only [blockSize]
    omega
  rw [Copying.source, dif_pos hk', ByteFile.at_, List.getD_eq_getElem?_getD, List.getElem?_take,
    if_pos hk, List.getElem?_ofFn, dif_pos hk']
  rfl

theorem Gba.FileInv.overlay (h : g.FileInv p xs) {w : Writing} {b : WriteBufReq}
    (hphase : g.phase = .writing w) (hp : w.ent = p)
    (hlen : b.buflen.toNat = min w.resid.toNat 128)
    (hs : g.receive j (.chunk b) = some g') :
    g'.FileInv p
      (ByteFile.overlay w.offset.toNat ((List.ofFn b.buf).take b.buflen.toNat) xs) := by
  obtain ⟨halign, hpos, hfit⟩ := h.within w hphase hp
  subst hp
  have hf := h.wellFormed.files w.ent h.live
  obtain ⟨c, hloop, hcopied⟩ := Copying.loop_copied j b
    (c := ⟨g.store, w.offset, w.resid, b.buflen, 0⟩) hf hpos hfit hlen (Or.inl halign)
    (show 2 ≤ w.resid.toNat + 1 by omega)
  have hg' : g' = ⟨c.store, Writing.next ⟨w.ent, c.offset, c.resid, w.bresp⟩⟩ := by
    simp only [Gba.receive, hphase, Store.handleWriteBuf, hloop, Option.map_some,
      Option.some.injEq] at hs
    exact hs.symm
  subst hg'
  have hshape : Store.SameShape g.store c.store := hcopied.shape
  have hsize : c.store.size w.ent = g.store.size w.ent := by
    rw [Store.size, Store.size, hshape.entries]
  have hoff : c.offset.toNat = w.offset.toNat + b.buflen.toNat := hcopied.offset
  have hresid : c.resid.toNat + b.buflen.toNat = w.resid.toNat := hcopied.resid
  constructor
  case wellFormed => exact h.wellFormed.sameShape hshape
  case live =>
    rw [Store.live, hshape.entries]
    exact h.live
  case map => exact h.map.sameShape hshape
  case contents =>
    have hbuf : ((List.ofFn b.buf).take b.buflen.toNat).length = b.buflen.toNat := by
      rw [List.length_take, List.length_ofFn, blockSize]
      omega
    apply ByteFile.ext
    · simp only [Store.length_contents, ByteFile.length_overlay, h.length, hsize]
    · intro k hk
      rw [Store.length_contents, hsize] at hk
      have hbytes := hcopied.bytes k hk
      rw [Store.at_contents (by rwa [hsize]), hbytes,
        ByteFile.at_overlay (by rw [hbuf, h.length]; omega), hbuf]
      split
      · rename_i hin
        simp only at hin
        simp only [Nat.zero_add]
        exact (at_chunk b (by omega) (by omega)).symm
      · rw [← h.contents, Store.at_contents hk]
  case within =>
    intro w' hphase' _
    obtain ⟨rfl, hpos'⟩ := Writing.next_eq_writing hphase'
    simp only at hpos' ⊢
    refine ⟨?_, hpos', by omega⟩
    omega

theorem Gba.FileInv.untouched (h : g.FileInv p xs) (ht : g.target m ≠ some p)
    (hs : g.receive j m = some g') : g'.FileInv p xs := by
  have hsame := Gba.untouched h.wellFormed h.live hs ht
  constructor
  case wellFormed => exact h.wellFormed.change (Gba.receive_change hs)
  case live =>
    change g'.store.fileid p ≠ 0
    rw [hsame.fileid]
    exact h.live
  case map => exact hsame.fileMap h.map
  case contents => rw [hsame.contents, h.contents]
  case within =>
    rintro w hphase rfl
    exact absurd (Gba.receive_phase hs hphase).1 ht

/-- One step of a file: its contents follow the byte sequence exactly when the
message is clean. -/
theorem Gba.FileInv.step (h : g.FileInv p xs) (hf : g.FileStep p m f)
    (hs : g.receive j m = some g') :
    (g'.store.contents p = f xs ↔ g.Clean p m) ∧ (g.Clean p m → g'.FileInv p (f xs)) := by
  have hinv : ∀ ys, g'.FileInv p ys → g.Clean p m →
      (g'.store.contents p = ys ↔ g.Clean p m) ∧ (g.Clean p m → g'.FileInv p ys) :=
    fun ys hi hc => ⟨⟨fun _ => hc, fun _ => hi.contents⟩, fun _ => hi⟩
  cases hf with
  | resize hp hok => exact h.setsize hp hok hs
  | extend hp halign hok => exact h.extend hp halign hok hs
  | overlay hphase hp hlen =>
      exact hinv _ (h.overlay hphase hp hlen hs) (Gba.clean_of_extent rfl)
  | other ht => exact hinv _ (h.untouched ht hs) fun ht' => absurd ht' ht

theorem Gba.fileInv_of_fresh {s : Store} (hw : s.WellFormed) (hp : s.live p)
    (hsize : s.size p = 0) (hblocks : ∀ b, (s.blocks b).vaFileid ≠ s.fileid p)
    (hphase : ∀ w, g.phase = .writing w → w.ent ≠ p) (hg : g.store = s) : g.FileInv p [] := by
  subst hg
  refine ⟨hw, hp, Store.fileMap_of_fresh hblocks, ?_, ?_⟩
  · rw [Store.contents, hsize]
    rfl
  · intro w hw hwp
    exact absurd hwp (hphase w hw)

end Step

section Creation

variable {s s' : Store} {p : EntryPtr}

def Store.Dataless (s : Store) : Prop :=
  (∀ p, s.live p → s.size p = 0) ∧ ∀ b, (s.blocks b).vaFileid = 0

theorem Store.Dataless.sameFiles (h : s.Dataless) (hs : SameFiles s s') : s'.Dataless := by
  constructor
  · intro p hp
    rw [live, hs.fileid] at hp
    rw [size, hs.size]
    exact h.1 p hp
  · rw [hs.blocks]
    exact h.2

theorem Store.size_initAt (s : Store) (p : EntryPtr) (vt : Vtype) (rand : Word64) :
    (s.initAt p vt rand).size p = 0 := by
  rw [size, initAt_entries, if_pos rfl]
  rfl

theorem Store.Dataless.initAt (h : s.Dataless) (p : EntryPtr) (vt : Vtype) (rand : Word64) :
    (s.initAt p vt rand).Dataless := by
  refine ⟨?_, h.2⟩
  intro q hq
  by_cases hqp : q = p
  · subst hqp
    exact size_initAt s q vt rand
  · rw [live, initAt_entries, if_neg hqp] at hq
    rw [size, initAt_entries, if_neg hqp]
    exact h.1 q hq

theorem Store.boot_dataless {rootGen testGen : Word64} (h : boot rootGen testGen = some s) :
    s.Dataless := by
  obtain ⟨root, s₁, test, s₂, s₃, hroot, htest, happ, rfl⟩ := boot_some h
  obtain ⟨_, _, rfl⟩ := entryInit_some hroot
  obtain ⟨_, _, rfl⟩ := entryInit_some htest
  have hblank : blank.Dataless := ⟨fun p hp => absurd (blank_fileid p) hp, fun _ => rfl⟩
  exact (((hblank.initAt root .dir rootGen).initAt test .reg testGen).sameFiles
    (sameFiles_entryAppend happ)).sameFiles (sameFiles_setEntry _ _ _ rfl rfl rfl)

/-- An entry that comes to life has no data, and no block is waiting for its id. -/
theorem Gba.fileInv_created {g g' : Gba} {j : Junk} {m : Message} (h : g.Reachable)
    (hs : g.receive j m = some g') (hold : ¬ g.store.live p) (hnew : g'.store.live p) :
    g'.FileInv p [] := by
  have hw : g.store.WellFormed := Store.Reachable.wellFormed ⟨g.phase, h⟩
  have hc := Gba.receive_change hs
  have hw' := hw.change hc
  generalize hs' : g'.store = s' at hc hw' hnew
  have hsame : s'.fileid p ≠ g.store.fileid p := by
    rw [show g.store.fileid p = 0 from not_not.mp hold]
    exact hnew
  cases hc with
  | keep _ _ _ => exact absurd rfl hsame
  | remove _ hr => exact absurd ((Store.sameFiles_entryRemove hr).fileid p) hsame
  | resize _ => exact absurd ((Store.sameTree_entrySetsize _ _ _).fileid p) hsame
  | copy _ hshape => exact absurd (by rw [Store.fileid, Store.fileid, hshape.entries]) hsame
  | @reclaim q _ =>
      rw [Store.entryReclaim_fileid hw] at hsame
      split at hsame
      · rename_i hpq
        exact absurd (not_not.mp hold).symm hsame
      · exact absurd rfl hsame
  | @create vt req parent j' ent s₁ s₂ hm _ hi ha =>
      obtain ⟨hfree, _, rfl⟩ := Store.entryInit_some hi
      have hfiles := (Store.sameFiles_entryAppend ha).trans
        (Store.sameFiles_setName j' s₂ ent req.name)
      have hfileid : (Store.setName j' s₂ ent req.name).fileid p =
          (g.store.initAt ent vt j'.rand).fileid p := hfiles.fileid p
      have hent : p = ent := by
        by_contra hne
        rw [hfileid, Store.fileid, Store.initAt_entries, if_neg hne] at hsame
        exact hsame rfl
      subst hent
      have hid : (Store.setName j' s₂ p req.name).fileid p = BitVec.ofNat 32 g.store.id := by
        rw [hfileid, Store.fileid, Store.initAt_entries, if_pos rfl]
        rfl
      refine Gba.fileInv_of_fresh hw' hnew ?_ ?_ ?_ hs'
      · rw [Store.size, hfiles.size]
        exact Store.size_initAt _ _ _ _
      · intro b hb
        rw [hid, hfiles.blocks] at hb
        have hlt := hw.owners b
        change (g.store.blocks b).vaFileid = _ at hb
        rw [hb, hw.fresh] at hlt
        exact absurd hlt (Nat.lt_irrefl _)
      · intro w hphase
        have ht := (Gba.receive_phase hs hphase).1
        cases m with
        | chunk b => cases hm
        | request r => cases r <;> first | cases ht | cases hm

end Creation

theorem Gba.FileRun.inv {g : Gba} {p : EntryPtr} {xs : List Byte}
    (h : g.FileRun Gba.Clean p xs) : g.FileInv p xs := by
  induction h with
  | @boot rootGen testGen s h hp =>
      have hempty := Store.boot_dataless h
      refine Gba.fileInv_of_fresh (Store.boot_wellFormed h) hp (hempty.1 p hp) ?_ ?_ rfl
      · intro b hb
        rw [hempty.2 b] at hb
        exact hp hb.symm
      · intro w hw
        cases hw
  | create h hs hold hnew => exact Gba.fileInv_created h hs hold hnew
  | step _ hf hs hclean ih => exact (ih.step hf hs).2 hclean

/-- A file run of clean messages refines the byte sequence, and its next message
keeps it so exactly when it is clean. -/
theorem fileRun_refines {g : Gba} {p : EntryPtr} {xs : List Byte}
    (h : g.FileRun Gba.Clean p xs) :
    g.store.live p ∧ g.store.contents p = xs ∧
      ∀ j m f g', g.FileStep p m f → g.receive j m = some g' →
        (g'.store.contents p = f xs ↔ g.Clean p m) :=
  ⟨h.inv.live, h.inv.contents, fun _ _ _ _ hf hs => (h.inv.step hf hs).1⟩

/-- Growing the test file to 300 bytes is clean and makes it 300 zeros. -/
theorem fileRun_refines_grown :
    ∃ g : Gba, bootRun [.request (.setsize ⟨2, 300⟩)] = some g ∧
      g.store.contents testSlot = List.replicate 300 0 := by
  obtain ⟨g, hg⟩ := Option.isSome_iff_exists.mp
    (show (bootRun [.request (.setsize ⟨2, 300⟩)]).isSome by decide +kernel)
  obtain ⟨g₀, hg₀, hm⟩ := bootRun_cons hg
  obtain ⟨s, hs, rfl⟩ := bootRun_nil hg₀
  have hfacts : (Store.boot 0 0).map (fun s => (decide (s.live testSlot), s.findById 2,
      (s.entrySetsize testSlot 300).1, s.numblocks testSlot)) =
        some (true, some testSlot, 0, 0) := by decide +kernel
  simp only [hs, Option.map_some, Option.some.injEq, Prod.mk.injEq, decide_eq_true_iff] at hfacts
  obtain ⟨hlive, hfind, hok, hnum⟩ := hfacts
  have hstep : Gba.FileStep testSlot ⟨s, .dispatch⟩ (.request (.setsize ⟨2, 300⟩))
      (ByteFile.resize 300) := .resize hfind hok
  have hclean : Gba.Clean ⟨s, .dispatch⟩ testSlot (.request (.setsize ⟨2, 300⟩)) := by
    intro _ n hn
    cases hn
    refine ⟨by decide, fun k _ _ hk => ?_⟩
    rw [show (Gba.mk s .dispatch).store.numblocks testSlot = 0 from hnum] at hk
    exact absurd hk (Nat.not_lt_zero _)
  exact ⟨g, hg, (fileRun_refines (.step (.boot hs hlive) hstep hm hclean)).2.1⟩

/-- Ten bytes are written, the file is cut to five and grown to ten again: the
bytes that were cut off are back. -/
theorem fileRun_counterexample :
    ∃ (g : Gba) (xs : List Byte), g.FileRun (fun _ _ _ => True) testSlot xs ∧
      g.store.contents testSlot ≠ xs := by
  obtain ⟨g₄, hg₄, hbyte⟩ := Option.map_eq_some_iff.mp
    (show (bootRun [.request (.setsize ⟨2, 10⟩), .request (.setsize ⟨2, 5⟩),
        .chunk ⟨10, fun _ => 255⟩, .request (.write ⟨2, 0, 0, 10⟩)]).map (fun g =>
      (g.store.size testSlot, g.store.fileByte testSlot 7)) = some (10, 255) by decide +kernel)
  obtain ⟨hsize, hbyte⟩ := Prod.mk.inj hbyte
  obtain ⟨g₃, hg₃, hm₄⟩ := bootRun_cons hg₄
  obtain ⟨g₂, hg₂, hm₃⟩ := bootRun_cons hg₃
  obtain ⟨g₁, hg₁, hm₂⟩ := bootRun_cons hg₂
  obtain ⟨g₀, hg₀, hm₁⟩ := bootRun_cons hg₁
  obtain ⟨s, hs, rfl⟩ := bootRun_nil hg₀
  have hfacts : (Store.boot 0 0).map (fun s => (decide (s.live testSlot), s.findById 2,
      (s.resizes (.request (.write ⟨2, 0, 0, 10⟩))).map fun c => (s.entrySetsize c.1 c.2).1,
      (s.prepare testSlot ⟨2, 0, 0, 10⟩).1)) = some (true, some testSlot, some 0, 0) := by
    decide +kernel
  simp only [hs, Option.map_some, Option.some.injEq, Prod.mk.injEq, decide_eq_true_iff] at hfacts
  obtain ⟨hlive, hfind, hok, hprepare⟩ := hfacts
  have hphase : g₁.phase = .writing ⟨testSlot, 0, 10, Junk.uninit .zero⟩ := by
    rw [Gba.receive_write hm₁ hfind hprepare]
    rfl
  have hfacts₂ : (bootRun [.chunk ⟨10, fun _ => 255⟩, .request (.write ⟨2, 0, 0, 10⟩)]).map
      (fun g => (g.store.findById 2, (g.store.entrySetsize testSlot 5).1)) =
        some (some testSlot, 0) := by decide +kernel
  have hfacts₃ : (bootRun [.request (.setsize ⟨2, 5⟩), .chunk ⟨10, fun _ => 255⟩,
      .request (.write ⟨2, 0, 0, 10⟩)]).map
      (fun g => (g.store.findById 2, (g.store.entrySetsize testSlot 10).1)) =
        some (some testSlot, 0) := by decide +kernel
  simp only [hg₂, Option.map_some, Option.some.injEq, Prod.mk.injEq] at hfacts₂
  simp only [hg₃, Option.map_some, Option.some.injEq, Prod.mk.injEq] at hfacts₃
  have hrun₁ : g₁.FileRun (fun _ _ _ => True) testSlot _ :=
    .step (.boot hs hlive) (.extend hfind ⟨0, rfl⟩ (by
      intro n hn
      rw [hn, Option.map_some, Option.some.injEq] at hok
      exact hok)) hm₁ trivial
  have hrun₂ := hrun₁.step (.overlay hphase rfl (by decide)) hm₂ trivial
  have hstep₃ : g₂.FileStep testSlot (.request (.setsize ⟨2, 5⟩)) (ByteFile.resize 5) :=
    .resize hfacts₂.1 hfacts₂.2
  have hstep₄ : g₃.FileStep testSlot (.request (.setsize ⟨2, 10⟩)) (ByteFile.resize 10) :=
    .resize hfacts₃.1 hfacts₃.2
  have hrun₄ := (hrun₂.step hstep₃ hm₃ trivial).step hstep₄ hm₄ trivial
  refine ⟨g₄, _, hrun₄, ?_⟩
  intro heq
  have hat := congrArg (fun xs => ByteFile.at_ xs 7) heq
  simp only [Store.at_contents (show 7 < g₄.store.size testSlot by omega), hbyte,
    ByteFile.at_resize] at hat
  revert hat
  decide

end WiiJoybus
