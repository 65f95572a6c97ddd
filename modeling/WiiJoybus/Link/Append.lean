import WiiJoybus.Link.Session

/-!
Writes that are to append.

The Wii tells the GBA that a write is to append, and the GBA swaps the flag and does
not look at it: the bytes go where the offset of the request leads. Such a write
appends exactly if that is the end of the file.
-/

namespace WiiJoybus
open ByteMemory StructLayout Dialogue Dialogue.Network

/-- The file has grown by the first `n` bytes of `buf`. -/
structure Store.Appended (s : Store) (p : EntryPtr) (buf : Memory) (n : Nat) (s' : Store) :
    Prop where
  size : s'.size p = s.size p + n
  kept : ∀ k < s.size p, s'.fileByte p k = s.fileByte p k
  stored : ∀ k < n, s'.fileByte p (s.size p + k) = buf k

/-- A write of `resid` bytes that is sent to append, with this offset, appends when it succeeds. -/
def Store.AppendsFile (s : Store) (p : EntryPtr) (offset : Word64) (resid : Word) : Prop :=
  ∀ (e : Puffs) (junk : Nat → Junk) (runs n : Nat) (buf : Memory) (left : Word) (s' : Store),
    (link e junk).Exchanges (nodeWrite e (s.fileid p) buf offset resid true)
      ⟨⟨s, .dispatch⟩, runs⟩ (.write 0 left) ⟨⟨s', .dispatch⟩, n⟩ →
    s.Appended p buf resid.toNat s'

/-- A write that can succeed: there is room for it, and the cuts of the two programs coincide. -/
def Store.Writable (s : Store) (p : EntryPtr) (offset : Word64) (resid : Word) : Prop :=
  s.Growable p offset (resid.setWidth 64) ∧ (128 ∣ offset.toNat ∨ resid.toNat ≤ 128)

/-- The offset leads to the end of the file, and the new end is a 32-bit number; an empty write
does not move the end. -/
def Store.AtEnd (s : Store) (p : EntryPtr) (offset : Word64) (resid : Word) : Prop :=
  if resid = 0 then offset.toNat ≤ s.size p ∨ offset.toNat % 2 ^ 32 = s.size p
  else position offset = s.size p ∧ s.size p + resid.toNat < 2 ^ 32

section Chunks

variable {junk : Nat → Junk}

theorem ChunksCopied.shape {l : WriteLoop} {n n' : Nat} {g g' : Gba}
    (h : ChunksCopied junk l n g n' g') : Store.SameShape g.store g'.store := by
  induction h with
  | done _ => exact .refl _
  | chunk _ hloop _ _ ih => exact (Store.sameShape_copying_loop hloop).trans ih

theorem ChunksCopied.placed {l : WriteLoop} {n n' : Nat} {g g' : Gba}
    (h : ChunksCopied junk l n g n' g') {s : Store} {w : Writing} (hg : g = ⟨s, w.next⟩)
    (hleft : w.resid.toNat = l.resid.toNat) (hf : s.FileOk w.ent)
    (hend : position w.offset + l.resid.toNat < 2 ^ 39) :
    ∀ k < s.size w.ent, g'.store.fileByte w.ent k =
      if position w.offset ≤ k ∧ k < position w.offset + l.resid.toNat then
        l.buf (l.src + (k - position w.offset))
      else s.fileByte w.ent k := by
  induction h generalizing s w with
  | @done l n g hresid =>
      intro k _
      rw [hg, hresid, if_neg (by simp)]
  | @chunk l n s₁ w₁ c n' g' hresid hloop hsrc rest ih =>
      injection hg with hs hphase
      subst hs
      obtain rfl := Writing.next_bresp hphase.symm
      have hlen := chunkLen_toNat l.resid
      obtain ⟨hx, m, hplaced⟩ := Copying.loop_placed hloop hf (by simp only; omega)
      obtain rfl : m = (chunkLen l.resid).toNat := hplaced.whole hx hsrc rfl
      have hmoved : position c.offset = position w₁.offset + (chunkLen l.resid).toNat :=
        hplaced.moved
      have hcount : c.resid.toNat + (chunkLen l.resid).toNat = w₁.resid.toNat := hplaced.resid
      have hnext : l.advance.resid.toNat = l.resid.toNat - (chunkLen l.resid).toNat :=
        BitVec.toNat_sub_of_le (by rw [BitVec.le_def]; omega)
      have hsize : c.store.size w₁.ent = s₁.size w₁.ent := by
        rw [Store.size, Store.size, hplaced.shape.entries]
      have hbytes := ih (s := c.store) (w := ⟨w₁.ent, c.offset, c.resid, w₁.bresp⟩) rfl
        (by simp only; omega) (hplaced.fileOk hf) (by simp only; omega)
      intro k hk
      have hfirst : c.store.fileByte w₁.ent k = _ := hplaced.bytes k hk
      rw [hbytes k (hsize.symm ▸ hk), hfirst]
      simp only [hmoved, hnext]
      by_cases hlo : position w₁.offset ≤ k
      · by_cases hmid : k < position w₁.offset + (chunkLen l.resid).toNat
        · rw [if_neg (by omega), if_pos ⟨hlo, hmid⟩, if_pos ⟨hlo, by omega⟩,
            source_breq (junk n) l (by omega), Nat.zero_add]
        · by_cases hhi : k < position w₁.offset + l.resid.toNat
          · rw [if_pos ⟨by omega, by omega⟩, if_pos ⟨hlo, hhi⟩]
            change l.buf (l.src + (chunkLen l.resid).toNat + _) = _
            congr 1
            omega
          · rw [if_neg (by omega), if_neg (by omega), if_neg (by omega)]
      · rw [if_neg (by omega), if_neg (by omega), if_neg (by omega)]

end Chunks

namespace Store

section Prepared

variable {s : Store} {p : EntryPtr} {n : Word} {r : Word × Store} {offset : Word64} {resid : Word}

theorem Resized.fileByte_old (hr : Resized s p n r) (hok : r.1 = 0) (hw : s.WellFormed)
    (hp : s.live p) (hle : s.size p ≤ n.toNat) {k : Nat} (hk : k < s.size p) :
    r.2.fileByte p k = s.fileByte p k := by
  have hid : s.fileid p ≠ 0 := hp
  have hf := hw.files p hp
  have hnum := s.numblocks_lt p
  have hext := hf.block_lt hk
  have hn := n.isLt
  cases hr with
  | shrunk hlt _ =>
      rw [hf.size_eq] at hle
      omega
  | @grown s₁ _ _ htaken =>
      apply fileByte_congr (setEntry_field Entry.vaFileid s₁ p (sizedTo (s.entries p) n)
        (by rw [htaken.entries]; rfl) p |>.trans (by rw [htaken.entries]; rfl))
      intro b hb
      rw [setEntry_blocks]
      rcases htaken.cases b with hsame | ⟨hfree, m, hm, hset⟩
      · exact hsame
      · rcases hb with hb | hb
        · exact absurd (hb.1.symm.trans hfree) hid
        · have hidx := hb.2
          rw [setEntry_blocks, hset] at hidx
          have := ofNat_inj (by omega) (by omega) hidx
          omega
  | failed _ _ _ _ _ => exact absurd (show enoblocksfree = 0 from hok) (by decide)
  | same _ _ =>
      exact fileByte_congr (setEntry_field Entry.vaFileid s p (sized (s.entries p) n) rfl p)
        fun b _ => rfl

theorem prepared_ok_iff (hw : s.WellFormed) :
    (s.prepared p offset resid).1 = 0 ↔ s.Growable p offset (resid.setWidth 64) :=
  prepare_ok_iff hw p (s.writeReq p offset resid false)

theorem prepared_old (hw : s.WellFormed) (hp : s.live p)
    (hok : (s.prepared p offset resid).1 = 0)
    (hle : s.size p ≤ (s.prepared p offset resid).2.size p) {k : Nat} (hk : k < s.size p) :
    (s.prepared p offset resid).2.fileByte p k = s.fileByte p k := by
  rcases prepare_cases s p (s.writeReq p offset resid false) with hprepare | hprepare
  · rw [prepared, hprepare] at hok hle ⊢
    generalize BitVec.setWidth 32 _ = n at hok hle ⊢
    have hr := entrySetsize_resized hw hp n
    rw [hr.size hok] at hle
    exact hr.fileByte_old hok hw hp hle hk
  · rw [prepared, hprepare]

end Prepared

end Store

section Writes

variable {e : Puffs} {junk : Nat → Junk} {s s' : Store} {p : EntryPtr} {offset : Word64}
variable {resid left : Word} {runs n : Nat} {buf : Memory} {append : Bool}

theorem writes_succeeded (hw : s.WellFormed) (hp : s.live p)
    (hx : (link e junk).Exchanges (nodeWrite e (s.fileid p) buf offset resid append)
      ⟨⟨s, .dispatch⟩, runs⟩ (.write 0 left) ⟨⟨s', .dispatch⟩, n⟩) :
    s.Writable p offset resid ∧ ∃ n', ChunksCopied junk ⟨0, buf, resid⟩ (runs + 1)
      ⟨(s.prepared p offset resid).2,
        Writing.next ⟨p, offset, resid.setWidth 64, (junk runs).uninit⟩⟩ n' ⟨s', .dispatch⟩ := by
  have hfind := hw.findById hp
  by_cases hok : (s.prepared p offset resid).1 = 0
  case neg =>
    have hends := (calls_write_refused e junk runs buf append hfind hok).of_exchanges hx
    injection hends with hends
    injection hends with hout
    injection hout with herr
    exact absurd herr hok
  case pos =>
    by_cases hborder : 128 ∣ offset.toNat ∨ resid.toNat ≤ 128
    case neg =>
      obtain ⟨hunaligned, hlong⟩ := not_or.mp hborder
      exact absurd hx (stalls_write e junk runs buf append hfind hok hunaligned
        (Nat.not_le.mp hlong)).hangs.not_exchanges
    case pos =>
      obtain ⟨_, _, hround⟩ := round_prepare e junk runs buf append hfind hok
      obtain ⟨n', s'', hchunks⟩ := chunksCopied_of_border junk ⟨0, buf, resid⟩
        (s.prepared p offset resid).2 ⟨p, offset, resid.setWidth 64, (junk runs).uninit⟩ (runs + 1)
        (widen_toNat resid) (hborder.imp_right fun h => (widen_toNat resid).symm ▸ h)
      have herr : ∀ w, Writing.next ⟨p, offset, resid.setWidth 64, (junk runs).uninit⟩ =
          .writing w → w.bresp.err = 0 := by
        intro w hphase
        obtain ⟨rfl, hpos⟩ := Writing.next_eq_writing hphase
        by_contra herr
        have hresid : resid ≠ 0 := by
          rintro rfl
          simp at hpos
        obtain ⟨c, hplays, _⟩ := plays_write_failed e junk runs buf append hfind hok hresid hborder
          herr
        obtain ⟨hout, _⟩ := hx.returns.unique (hplays.returns (gba_waits e junk _))
        injection hout with hzero
        exact herr hzero.symm
      obtain ⟨_, hheads⟩ := hx.unique_out (hround.meets (hchunks.meets rfl herr)).exchanges
      injection hheads with hstate
      injection hstate with hstore
      subst hstore
      exact ⟨⟨(Store.prepared_ok_iff hw).mp hok, hborder⟩, n', hchunks⟩

/-- What a write that succeeds has done. -/
structure Written (s : Store) (p : EntryPtr) (offset : Word64) (resid : Word) (buf : Memory)
    (s' : Store) : Prop where
  writable : s.Writable p offset resid
  ok : (s.prepared p offset resid).1 = 0
  shape : Store.SameShape (s.prepared p offset resid).2 s'
  bytes (hend : position offset + resid.toNat < 2 ^ 39) :
    ∀ k < (s.prepared p offset resid).2.size p, s'.fileByte p k =
      if position offset ≤ k ∧ k < position offset + resid.toNat then buf (k - position offset)
      else (s.prepared p offset resid).2.fileByte p k

theorem written (hw : s.WellFormed) (hp : s.live p)
    (hx : (link e junk).Exchanges (nodeWrite e (s.fileid p) buf offset resid append)
      ⟨⟨s, .dispatch⟩, runs⟩ (.write 0 left) ⟨⟨s', .dispatch⟩, n⟩) :
    Written s p offset resid buf s' := by
  obtain ⟨hwritable, n', hchunks⟩ := writes_succeeded hw hp hx
  refine ⟨hwritable, (Store.prepared_ok_iff hw).mpr hwritable.1, hchunks.shape, ?_⟩
  intro hend k hk
  have hbytes := hchunks.placed (w := ⟨p, offset, resid.setWidth 64, (junk runs).uninit⟩) rfl
    (widen_toNat resid) (Store.prepare_fileOk hw hp _) hend k hk
  simpa only [Nat.zero_add] using hbytes

theorem Written.prepared_size (h : Written s p offset resid buf s') :
    (s.prepared p offset resid).2.size p = s'.size p := by
  rw [Store.size, Store.size, h.shape.entries]

theorem Written.size (h : Written s p offset resid buf s') (hw : s.WellFormed) (hp : s.live p) :
    s'.size p = if s.size p < (offset.toNat + resid.toNat) % 2 ^ 64 then
        (offset.toNat + resid.toNat) % 2 ^ 32
      else s.size p :=
  h.prepared_size.symm.trans (Store.prepared_size hw hp h.ok)

theorem Store.AtEnd.lt (hat : s.AtEnd p offset resid) (hw : s.WellFormed) (hp : s.live p) :
    position offset + resid.toNat < 2 ^ 39 := by
  have hlt := (hw.files p hp).size_lt
  rw [Store.AtEnd] at hat
  split at hat
  case isTrue hresid =>
    rw [hresid]
    exact Nat.mod_lt _ (by decide)
  case isFalse => omega

theorem toNat_ne_zero (hresid : resid ≠ 0) : resid.toNat ≠ 0 :=
  fun hz => hresid (BitVec.eq_of_toNat_eq hz)

theorem Written.appended (h : Written s p offset resid buf s') (hw : s.WellFormed)
    (hp : s.live p) (hat : s.AtEnd p offset resid) : s.Appended p buf resid.toNat s' := by
  have hsize := h.size hw hp
  have hprepared := h.prepared_size
  have hbytes := h.bytes (hat.lt hw hp)
  have hlt := (hw.files p hp).size_lt
  have hwide := offset.isLt
  have hlong := resid.isLt
  rw [Store.AtEnd] at hat
  by_cases hresid : resid = 0
  · -- nothing is sent, and the end stays
    have hzero : resid.toNat = 0 := by
      rw [hresid]
      rfl
    rw [if_pos hresid] at hat
    have hstay : s'.size p = s.size p := by
      rw [hsize, hzero]
      split <;> omega
    refine ⟨by omega, fun k hk => ?_, fun k hk => by omega⟩
    rw [hbytes k (by omega), if_neg (by omega)]
    exact Store.prepared_old hw hp h.ok (by omega) hk
  · rw [if_neg hresid] at hat
    obtain ⟨hpos, hend⟩ := hat
    have hne := toNat_ne_zero hresid
    have hgrown : s'.size p = s.size p + resid.toNat := by
      rw [position] at hpos
      rw [hsize]
      split <;> omega
    refine ⟨hgrown, fun k hk => ?_, fun k hk => ?_⟩
    · rw [hbytes k (by omega), if_neg (by omega)]
      exact Store.prepared_old hw hp h.ok (by omega) hk
    · rw [hbytes _ (by omega), if_pos (by omega), hpos, Nat.add_sub_cancel_left]

theorem appendsFile_of_atEnd (hw : s.WellFormed) (hp : s.live p)
    (hat : s.Writable p offset resid → s.AtEnd p offset resid) :
    s.AppendsFile p offset resid := by
  intro e junk runs n buf left s' hx
  have hwritten := written hw hp hx
  exact hwritten.appended hw hp (hat hwritten.writable)

/-- Where the size comes out right but the offset leads past every file, the buffer is lost. -/
theorem Written.atEnd (h : Written s p offset resid buf s') (hw : s.WellFormed) (hp : s.live p)
    (hresid : resid ≠ 0) (happ : s.Appended p buf resid.toNat s')
    (hbuf : buf 0 ≠ (s.prepared p offset resid).2.fileByte p (s.size p)) :
    s.AtEnd p offset resid := by
  have hsize := h.size hw hp
  have hprepared := h.prepared_size
  have hgrown := happ.size
  have hstored := happ.stored 0
  have hne := toNat_ne_zero hresid
  have hwide := offset.isLt
  have hlong := resid.isLt
  have hmod : offset.toNat % 2 ^ 32 = s.size p ∧ s.size p + resid.toNat < 2 ^ 32 := by
    rw [hgrown] at hsize
    split at hsize <;> omega
  rw [Store.AtEnd, if_neg hresid]
  refine ⟨?_, hmod.2⟩
  by_contra hfar
  have hbeyond : s.size p < position offset ∧ position offset + resid.toNat < 2 ^ 39 := by
    rw [position] at hfar ⊢
    omega
  have hbyte := h.bytes hbeyond.2 (s.size p) (by omega)
  rw [if_neg (by omega)] at hbyte
  rw [Nat.add_zero, hbyte] at hstored
  exact hbuf (hstored (by omega)).symm

theorem atEnd_of_appendsFile (hw : s.WellFormed) (hp : s.live p)
    (h : s.AppendsFile p offset resid) (hwritable : s.Writable p offset resid) :
    s.AtEnd p offset resid := by
  have hok := (Store.prepared_ok_iff hw).mpr hwritable.1
  by_cases hresid : resid = 0
  · subst hresid
    obtain ⟨n, hx⟩ := (calls_write_empty .zero (fun _ => .zero) 0 (fun _ => 0) true
      (hw.findById hp) hok).exchanges
    have hstay := (h .zero (fun _ => .zero) 0 n (fun _ => 0) 0 _ hx).size
    have hwide := offset.isLt
    have hlt := (hw.files p hp).size_lt
    rw [Store.prepared_size hw hp hok, show (0 : Word).toNat = 0 from rfl] at hstay
    rw [Store.AtEnd, if_pos rfl]
    split at hstay <;> omega
  · -- a buffer whose first byte is not there yet
    let buf : Memory := fun _ => (s.prepared p offset resid).2.fileByte p (s.size p) + 1
    obtain ⟨s', hc⟩ := calls_write_done .zero (fun _ => .zero) 0 buf true (hw.findById hp) hok
      hwritable.2 (show chunkErr (fun _ => .zero) 0 = 0 by decide +kernel)
    obtain ⟨n, hx⟩ := hc.exchanges
    refine (written hw hp hx).atEnd hw hp hresid (h .zero (fun _ => .zero) 0 n buf 0 s' hx) ?_
    change _ + 1 ≠ _
    simp

end Writes

/-- Writes to one file that are sent to append and succeed, each with an offset that leads to the
end of the file; the list has their buffers. -/
inductive AppendRun (e : Puffs) (junk : Nat → Junk) (p : EntryPtr) :
    Store → Nat → List (List Byte) → Store → Prop where
  | done (s : Store) (runs : Nat) : AppendRun e junk p s runs [] s
  | write {s s' s'' : Store} {offset : Word64} {resid left : Word} {runs n : Nat} {buf : Memory}
      {bufs : List (List Byte)} (hat : s.AtEnd p offset resid)
      (hx : (link e junk).Exchanges (nodeWrite e (s.fileid p) buf offset resid true)
        ⟨⟨s, .dispatch⟩, runs⟩ (.write 0 left) ⟨⟨s', .dispatch⟩, n⟩)
      (rest : AppendRun e junk p s' n bufs s'') :
      AppendRun e junk p s runs ((List.range resid.toNat).map buf :: bufs) s''

section Runs

variable {e : Puffs} {junk : Nat → Junk} {s s' : Store} {p : EntryPtr} {offset : Word64}
variable {resid left : Word} {runs n : Nat} {buf : Memory} {bufs : List (List Byte)}

theorem Store.Appended.contents (h : s.Appended p buf n s') :
    s'.contents p = s.contents p ++ (List.range n).map buf := by
  apply List.ext_getElem
  · simp [h.size]
  · intro k hk _
    rw [Store.length_contents, h.size] at hk
    by_cases hold : k < s.size p
    · rw [List.getElem_append_left (by simpa using hold)]
      simpa [Store.contents] using h.kept k hold
    · rw [List.getElem_append_right (by simpa using hold)]
      have hnew := h.stored (k - s.size p) (by omega)
      rw [Nat.add_sub_cancel' (by omega)] at hnew
      simpa [Store.contents] using hnew

theorem Written.next (h : Written s p offset resid buf s') (hw : s.WellFormed)
    (hp : s.live p) : s'.WellFormed ∧ s'.live p := by
  obtain ⟨hkept, hid⟩ := Store.prepare_kept hw p (s.writeReq p offset resid false)
  refine ⟨hkept.sameShape h.shape, ?_⟩
  change Store.fileid _ p ≠ 0
  rw [Store.fileid, h.shape.entries]
  exact fun hzero => hp (hid.symm.trans hzero)

/-- A run of such writes yields the concatenation of their buffers. -/
theorem AppendRun.contents (h : AppendRun e junk p s runs bufs s') (hw : s.WellFormed)
    (hp : s.live p) : s'.contents p = s.contents p ++ bufs.flatten := by
  induction h with
  | done s runs => simp only [List.flatten_nil, List.append_nil]
  | write hat hx rest ih =>
      have hwritten := written hw hp hx
      obtain ⟨hw', hp'⟩ := hwritten.next hw hp
      rw [ih hw' hp', (hwritten.appended hw hp hat).contents, List.flatten_cons, List.append_assoc]

/-- A write that can succeed appends exactly if its offset leads to the end of the file, and runs
of these write all their buffers one behind the other. -/
theorem appendsFile_iff (h : s.Reachable) (hp : s.live p) :
    (∀ (offset : Word64) (resid : Word), s.AppendsFile p offset resid ↔
      (s.Writable p offset resid → s.AtEnd p offset resid)) ∧
    ∀ (e : Puffs) (junk : Nat → Junk) (runs : Nat) (bufs : List (List Byte)) (s' : Store),
      AppendRun e junk p s runs bufs s' → s'.contents p = s.contents p ++ bufs.flatten :=
  ⟨fun _ _ => ⟨atEnd_of_appendsFile h.wellFormed hp, appendsFile_of_atEnd h.wellFormed hp⟩,
    fun _ _ _ _ _ hrun => hrun.contents h.wellFormed hp⟩

end Runs

/-- Three hundred bytes for the test file, which is empty after boot. -/
theorem appendsFile_iff_test :
    ∃ g : Gba, bootRun [] = some g ∧ g.store.AppendsFile testSlot 0 300 := by
  obtain ⟨g, hg, hfacts⟩ := Option.map_eq_some_iff.mp
    (show (bootRun []).map (fun g => decide (g.store.live testSlot ∧
      g.store.size testSlot = 0)) = some true by decide +kernel)
  obtain ⟨hlive, hsize⟩ := of_decide_eq_true hfacts
  refine ⟨g, hg, ((appendsFile_iff ⟨g.phase, bootRun_reachable hg⟩ hlive).1 0 300).mpr
    fun _ => ?_⟩
  rw [Store.AtEnd, if_neg (by decide), hsize]
  exact ⟨rfl, by decide⟩

/-- Five bytes for the test file when it has 200, with the offset 0. -/
theorem appendsFile_counterexample :
    ∃ g : Gba, bootRun [.request (.setsize ⟨2, 200⟩)] = some g ∧ g.Reachable ∧
      g.store.live testSlot ∧ (g.store.entries testSlot).vaType = Vtype.reg.code ∧
      g.store.size testSlot = 200 ∧ g.store.Writable testSlot 0 5 ∧
      ¬ g.store.AppendsFile testSlot 0 5 := by
  obtain ⟨g, hg, hfacts⟩ := Option.map_eq_some_iff.mp
    (show (bootRun [.request (.setsize ⟨2, 200⟩)]).map (fun g => decide (g.store.live testSlot ∧
      (g.store.entries testSlot).vaType = Vtype.reg.code ∧ g.store.size testSlot = 200)) =
        some true by decide +kernel)
  obtain ⟨hlive, htype, hsize⟩ := of_decide_eq_true hfacts
  have hw := Store.Reachable.wellFormed ⟨g.phase, bootRun_reachable hg⟩
  have hwritable : g.store.Writable testSlot 0 5 := by
    refine ⟨fun hlt => absurd hlt ?_, Or.inl (by decide)⟩
    rw [hsize]
    decide
  refine ⟨g, hg, bootRun_reachable hg, hlive, htype, hsize, hwritable, fun happends => ?_⟩
  have hat := atEnd_of_appendsFile hw hlive happends hwritable
  rw [Store.AtEnd, if_neg (by decide), hsize] at hat
  exact absurd hat.1 (by decide)

end WiiJoybus
