import WiiJoybus.Gba.Positions
import WiiJoybus.Gba.Sizes
import WiiJoybus.Link.Network

/-!
Writing a file over the link.

The data phase of a write is described once, chunk by chunk, as what the GBA's
copying does with the chunks of the Wii. On one side such a description is an
exchange that ends; on the other side there is one whenever the cuts of the two
programs coincide, and the file then holds the buffer.
-/

namespace WiiJoybus
open ByteMemory StructLayout Dialogue Dialogue.Network

/-- From message `n` and state `g` on, the GBA copies every chunk the Wii still has to
send, taking no byte from beyond it, and is then at message `n'` in state `g'`. -/
inductive ChunksCopied (junk : Nat → Junk) : WriteLoop → Nat → Gba → Nat → Gba → Prop where
  | done {l n g} (hresid : l.resid = 0) : ChunksCopied junk l n g n g
  | chunk {l n s w c n' g'} (hresid : l.resid ≠ 0)
      (hloop : Copying.loop (junk n) l.breq w.ent (w.resid.toNat + 1)
        ⟨s, w.offset, w.resid, l.breq.buflen, 0⟩ = some c)
      (hsrc : c.src ≤ l.breq.buflen.toNat)
      (rest : ChunksCopied junk l.advance (n + 1)
        ⟨c.store, Writing.next ⟨w.ent, c.offset, c.resid, w.bresp⟩⟩ n' g') :
      ChunksCopied junk l n ⟨s, .writing w⟩ n' g'

section Rounds

variable {e : Puffs} {junk : Nat → Junk} {s : Store} {runs : Nat}

theorem chunkLen_toNat (resid : Word) : (chunkLen resid).toNat = min resid.toNat 128 := by
  have h : (128 : Word).toNat = 128 := by decide
  simp only [chunkLen, BitVec.lt_def, h]
  split <;> omega

theorem round_write (e : Puffs) (junk : Nat → Junk) (s : Store) (runs : Nat) (req : WriteReq)
    (f : WriteResp → WiiProc) :
    (link e junk).Round linkCubeQueueSize
      (command e .write req >>= fun wresp => f (WriteResp.sswap wresp))
      (f (s.handleWriteRequest (junk runs) req).1) (.ret (.inl ⟨⟨s, .dispatch⟩, runs⟩))
      (.ret (.inl ⟨⟨(s.handleWriteRequest (junk runs) req).2.1,
        (s.handleWriteRequest (junk runs) req).2.2⟩, runs + 1⟩))
      (Cmd.write.code :: structWords wii e.stack req)
      (structWords gba (junk runs).stack (s.handleWriteRequest (junk runs) req).1) :=
  round_command (fun req => some ((s.handleWriteRequest (junk runs) req).1,
      ⟨(s.handleWriteRequest (junk runs) req).2.1, (s.handleWriteRequest (junk runs) req).2.2⟩))
    (h := ⟨⟨s, .dispatch⟩, runs⟩) rfl rfl req.sswap_swapped rfl
    (congrArg f (WriteResp.sswap_swapped _))

theorem handleWriteBuf_eq {j : Junk} {w : Writing} {breq : WriteBufReq} {c : Copying}
    (h : Copying.loop j breq w.ent (w.resid.toNat + 1) ⟨s, w.offset, w.resid, breq.buflen, 0⟩ =
      some c) :
    s.handleWriteBuf j w breq =
      some (w.bresp, c.store, Writing.next ⟨w.ent, c.offset, c.resid, w.bresp⟩) := by
  rw [Store.handleWriteBuf, h]
  rfl

theorem round_advance {w : Writing} {l : WriteLoop} {c : Copying} (hresid : l.resid ≠ 0)
    (hloop : Copying.loop (junk runs) l.breq w.ent (w.resid.toNat + 1)
      ⟨s, w.offset, w.resid, l.breq.buflen, 0⟩ = some c) (herr : w.bresp.err = 0) :
    (link e junk).Round linkCubeQueueSize (l.body e) (.ret (.inl (.write l.advance)))
      (.ret (.inl ⟨⟨s, .writing w⟩, runs⟩))
      (.ret (.inl ⟨⟨c.store, Writing.next ⟨w.ent, c.offset, c.resid, w.bresp⟩⟩, runs + 1⟩))
      (structWords wii e.stack l.breq) (structWords gba (junk runs).stack w.bresp) := by
  rw [WriteLoop.body, if_neg hresid]
  refine round_chunk (h := ⟨⟨s, .writing w⟩, runs⟩) rfl (handleWriteBuf_eq hloop) ?_
  rw [WriteBufResp.sswap_swapped, WriteLoop.reply, herr, if_neg (by decide)]

theorem Writing.next_bresp {w w' : Writing} (h : w.next = .writing w') : w' = w := by
  rw [Writing.next] at h
  split at h
  · cases h
  · cases h
    rfl

theorem ChunksCopied.meets {l : WriteLoop} {n n' : Nat} {g g' : Gba}
    (h : ChunksCopied junk l n g n' g') (hend : g'.phase = .dispatch)
    (herr : ∀ w, g.phase = .writing w → w.bresp.err = 0) :
    (link e junk).Meets linkCubeQueueSize (.ret (.inl (.write l))) (.ret (.inl ⟨g, n⟩))
      (.write 0 0) ⟨g', n'⟩ := by
  induction h with
  | @done l n g hresid =>
      refine .client_loop ?_
      change (link e junk).Meets linkCubeQueueSize (l.body e) _ _ _
      rw [WriteLoop.body, if_pos hresid, hresid]
      exact .done hend
  | @chunk l n s w c n' g' hresid hloop hsrc rest ih =>
      have hw := herr w rfl
      refine .client_loop ((round_advance hresid hloop hw).meets (ih hend ?_))
      intro w' hw'
      rw [Writing.next_bresp hw']
      exact hw

end Rounds

section Data

variable {junk : Nat → Junk} {s s₀ : Store} {p : EntryPtr} {l : WriteLoop} {w : Writing}
variable {o total t n : Nat} {buf : Memory}

/-- The data phase after `t` of `total` bytes, from the offset `o` on; `s₀` is the store
before it. -/
structure Sending (s₀ : Store) (p : EntryPtr) (o total : Nat) (buf : Memory) (t : Nat)
    (l : WriteLoop) (s : Store) (w : Writing) : Prop where
  src : l.src = t
  buffer : l.buf = buf
  resid : l.resid.toNat + t = total
  cut : 128 ∣ t ∨ t = total
  ent : w.ent = p
  offset : w.offset.toNat = o + t
  left : w.resid.toNat = l.resid.toNat
  shape : Store.SameShape s₀ s
  bytes : ∀ k < s₀.size p, s.fileByte p k =
    if o ≤ k ∧ k < o + t then buf (k - o) else s₀.fileByte p k

theorem source_breq (j : Junk) (l : WriteLoop) {k : Nat} (hk : k < (chunkLen l.resid).toNat) :
    Copying.source j l.breq k = l.buf (l.src + k) := by
  have hlen := chunkLen_toNat l.resid
  have hblock : k < blockSize := by
    change k < 128
    omega
  rw [Copying.source, dif_pos hblock]
  exact if_pos hk

theorem Sending.fileOk (h : Sending s₀ p o total buf t l s w) (hf : s₀.FileOk p) : s.FileOk p := by
  have hentries := h.shape.entries
  exact hf.congr (by rw [Store.fileid, Store.fileid, hentries]) (by rw [hentries])
    (by rw [hentries]) fun b _ => ⟨h.shape.fileid b, h.shape.idx b⟩

theorem Sending.size (h : Sending s₀ p o total buf t l s w) : s.size p = s₀.size p := by
  rw [Store.size, Store.size, h.shape.entries]

theorem Sending.advance (h : Sending s₀ p o total buf t l s w) (hf : s₀.FileOk p)
    (hfit : o + total ≤ s₀.size p) (hborder : 128 ∣ o ∨ total ≤ 128)
    (hresid : l.resid.toNat ≠ 0) (j : Junk) :
    ∃ c, Copying.loop j l.breq w.ent (w.resid.toNat + 1)
        ⟨s, w.offset, w.resid, l.breq.buflen, 0⟩ = some c ∧ c.src ≤ l.breq.buflen.toNat ∧
      Sending s₀ p o total buf (t + (chunkLen l.resid).toNat) l.advance c.store
        ⟨w.ent, c.offset, c.resid, w.bresp⟩ := by
  have hlen := chunkLen_toNat l.resid
  have htotal := h.resid
  have hcut := h.cut
  have hoff := h.offset
  have hleft := h.left
  have hsize := h.size
  obtain rfl := h.ent
  obtain ⟨c, hloop, hc⟩ := Copying.loop_copied j l.breq
    (c := ⟨s, w.offset, w.resid, l.breq.buflen, 0⟩) (h.fileOk hf) (by simp only; omega)
    (by simp only; omega) (show (chunkLen l.resid).toNat = min w.resid.toNat 128 by omega)
    (by simp only; omega) (show 2 ≤ w.resid.toNat + 1 by omega)
  have hcsrc : c.src = 0 + (chunkLen l.resid).toNat := hc.src
  have hcoff : c.offset.toNat = w.offset.toNat + (chunkLen l.resid).toNat := hc.offset
  have hcresid : c.resid.toNat + (chunkLen l.resid).toNat = w.resid.toNat := hc.resid
  have hnext : (l.resid - chunkLen l.resid).toNat = l.resid.toNat - (chunkLen l.resid).toNat :=
    BitVec.toNat_sub_of_le (by rw [BitVec.le_def]; omega)
  refine ⟨c, hloop, by rw [hcsrc, Nat.zero_add]; exact Nat.le_refl _, ?_⟩
  constructor
  case src => exact congrArg (· + _) h.src
  case buffer => exact h.buffer
  case resid =>
    change (l.resid - chunkLen l.resid).toNat + _ = _
    omega
  case cut => omega
  case ent => rfl
  case offset =>
    change c.offset.toNat = _
    omega
  case left =>
    change c.resid.toNat = (l.resid - chunkLen l.resid).toNat
    omega
  case shape => exact h.shape.trans hc.shape
  case bytes =>
    intro k hk
    have hbytes : c.store.fileByte w.ent k = _ := hc.bytes k (by simp only [hsize]; exact hk)
    rw [hbytes]
    simp only [hoff]
    by_cases hnew : o + t ≤ k ∧ k < o + t + (chunkLen l.resid).toNat
    · have hsource := source_breq j l (k := 0 + (k - (o + t))) (by omega)
      refine (if_pos hnew).trans ?_
      rw [hsource, h.buffer, h.src, if_pos (by omega)]
      congr 1
      omega
    · refine (if_neg hnew).trans ?_
      rw [h.bytes k hk]
      by_cases hold : o ≤ k ∧ k < o + t
      · rw [if_pos hold, if_pos (by omega)]
      · rw [if_neg hold, if_neg (by omega)]

theorem Sending.run (h : Sending s₀ p o total buf t l s w) (hf : s₀.FileOk p)
    (hfit : o + total ≤ s₀.size p) (hborder : 128 ∣ o ∨ total ≤ 128) (n : Nat) :
    ∃ n' s', ChunksCopied junk l n ⟨s, w.next⟩ n' ⟨s', .dispatch⟩ ∧ Store.SameShape s₀ s' ∧
      ∀ k < s₀.size p, s'.fileByte p k =
        if o ≤ k ∧ k < o + total then buf (k - o) else s₀.fileByte p k := by
  induction hm : l.resid.toNat using Nat.strong_induction_on generalizing t l s w n with
  | _ m ih =>
      have htotal := h.resid
      have hleft := h.left
      by_cases hzero : l.resid.toNat = 0
      · have hw : w.next = .dispatch := if_pos (BitVec.eq_of_toNat_eq (by simp; omega))
        have hdone : t = total := by omega
        refine ⟨n, s, ?_, h.shape, hdone ▸ h.bytes⟩
        rw [hw]
        exact .done (BitVec.eq_of_toNat_eq (by simpa using hzero))
      · have hw : w.next = .writing w := if_neg (by
          intro hz
          rw [hz] at hleft
          exact hzero (by simpa using hleft.symm))
        obtain ⟨c, hloop, hsrc, hnext⟩ := h.advance hf hfit hborder hzero (junk n)
        have hlen := chunkLen_toNat l.resid
        have hsmaller : l.advance.resid.toNat < m := by
          have := hnext.resid
          omega
        obtain ⟨n', s', hrest, hshape, hbytes⟩ := ih _ hsmaller hnext (n + 1) rfl
        refine ⟨n', s', ?_, hshape, hbytes⟩
        rw [hw]
        exact .chunk (fun hz => hzero (by rw [hz]; rfl)) hloop hsrc hrest

/-- Whatever the blocks hold, every chunk is used up when the cuts coincide. -/
theorem chunksCopied_of_border (junk : Nat → Junk) (l : WriteLoop) (s : Store) (w : Writing)
    (n : Nat) (hleft : w.resid.toNat = l.resid.toNat)
    (hborder : 128 ∣ w.offset.toNat ∨ w.resid.toNat ≤ 128) :
    ∃ n' s', ChunksCopied junk l n ⟨s, w.next⟩ n' ⟨s', .dispatch⟩ := by
  induction hm : l.resid.toNat using Nat.strong_induction_on generalizing l s w n with
  | _ m ih =>
      by_cases hzero : l.resid.toNat = 0
      · have hw : w.next = .dispatch := if_pos (BitVec.eq_of_toNat_eq (by simp; omega))
        refine ⟨n, s, ?_⟩
        rw [hw]
        exact .done (BitVec.eq_of_toNat_eq (by simpa using hzero))
      · have hw : w.next = .writing w := if_neg (by
          intro hz
          rw [hz] at hleft
          exact hzero (by simpa using hleft.symm))
        have hlen := chunkLen_toNat l.resid
        obtain ⟨c, hloop, hc⟩ := Copying.loop_counted (junk n) l.breq w.ent
          (c := ⟨s, w.offset, w.resid, l.breq.buflen, 0⟩) (by simp only; omega)
          (show (chunkLen l.resid).toNat = min w.resid.toNat 128 by omega) hborder
          (show 2 ≤ w.resid.toNat + 1 by omega)
        have hcsrc : c.src = 0 + (chunkLen l.resid).toNat := hc.src
        have hcresid : c.resid.toNat + (chunkLen l.resid).toNat = w.resid.toNat := hc.resid
        have hcoff : c.offset = w.offset + BitVec.ofNat 64 (chunkLen l.resid).toNat := hc.offset
        have hadvance : l.advance.resid.toNat = l.resid.toNat - (chunkLen l.resid).toNat :=
          BitVec.toNat_sub_of_le (by rw [BitVec.le_def]; omega)
        have hoff : c.offset.toNat = (w.offset.toNat + (chunkLen l.resid).toNat) % 2 ^ 64 := by
          rw [hcoff, BitVec.toNat_add, BitVec.toNat_ofNat]
          omega
        obtain ⟨n', s', hrest⟩ := ih l.advance.resid.toNat (by omega) l.advance c.store
          ⟨w.ent, c.offset, c.resid, w.bresp⟩ (n + 1) (by simp only; omega)
          (by simp only; omega) rfl
        refine ⟨n', s', ?_⟩
        rw [hw]
        exact .chunk (fun hz => hzero (by rw [hz]; rfl)) hloop
          (by rw [hcsrc, Nat.zero_add]; exact Nat.le_refl _) hrest

end Data

/-- The request that starts a write of `resid` bytes. -/
def Store.writeReq (s : Store) (p : EntryPtr) (offset : Word64) (resid : Word) (append : Bool) :
    WriteReq :=
  ⟨s.fileid p, if append then 1 else 0, offset, resid.setWidth 64⟩

/-- The store between the request and the data phase, with the error code. -/
def Store.prepared (s : Store) (p : EntryPtr) (offset : Word64) (resid : Word) : Word × Store :=
  s.prepare p (s.writeReq p offset resid false)

/-- A write whose replies carry no error ends on both sides, its chunks are copied
without a byte from beyond them, and the file then holds the buffer. -/
def Store.WritesFile (s : Store) (p : EntryPtr) (offset : Word64) (resid : Word) : Prop :=
  ∀ (e : Puffs) (junk : Nat → Junk) (runs : Nat) (buf : Memory) (append : Bool),
    (resid ≠ 0 → ((junk runs).uninit : WriteBufResp).err = 0) →
    ∃ (s' : Store) (n : Nat),
      (link e junk).Exchanges (nodeWrite e (s.fileid p) buf offset resid append)
        ⟨⟨s, .dispatch⟩, runs⟩ (.write 0 0) ⟨⟨s', .dispatch⟩, n⟩ ∧
      ChunksCopied junk ⟨0, buf, resid⟩ (runs + 1)
        ⟨(s.prepared p offset resid).2,
          Writing.next ⟨p, offset, resid.setWidth 64, (junk runs).uninit⟩⟩ n ⟨s', .dispatch⟩ ∧
      s'.size p = max (s.size p) (offset.toNat + resid.toNat) ∧
      ∀ k < s'.size p, s'.fileByte p k =
        if offset.toNat ≤ k ∧ k < offset.toNat + resid.toNat then buf (k - offset.toNat)
        else (s.prepared p offset resid).2.fileByte p k

section Exact

variable {s : Store} {p : EntryPtr} {offset : Word64} {resid : Word}

/-- The file after a preparation that has succeeded, also where the end wraps. -/
theorem Store.prepared_size (hw : s.WellFormed) (hp : s.live p)
    (hok : (s.prepared p offset resid).1 = 0) :
    (s.prepared p offset resid).2.size p =
      if s.size p < (offset.toNat + resid.toNat) % 2 ^ 64 then
        (offset.toNat + resid.toNat) % 2 ^ 32
      else s.size p := by
  have hsize := prepare_size hw hp (s.writeReq p offset resid false) hok
  have hend : s.endSize p (s.writeReq p offset resid false) =
      if s.size p < (offset.toNat + (resid.setWidth 64).toNat) % 2 ^ 64 then
        (offset.toNat + (resid.setWidth 64).toNat) % 2 ^ 32
      else s.size p := rfl
  rw [widen_toNat] at hend
  exact hsize.trans hend

theorem Store.prepared_size_of_fits (hw : s.WellFormed) (hp : s.live p)
    (hend : offset.toNat + resid.toNat < 2 ^ 32) (hok : (s.prepared p offset resid).1 = 0) :
    (s.prepared p offset resid).2.size p = max (s.size p) (offset.toNat + resid.toNat) := by
  rw [prepared_size hw hp hok]
  split <;> omega

theorem handleWriteRequest_prepared {id : Word} (hp : s.findById id = some p)
    (hok : (s.prepared p offset resid).1 = 0) (j : Junk) (append : Bool) :
    s.handleWriteRequest j ⟨id, if append then 1 else 0, offset, resid.setWidth 64⟩ =
      (⟨1, 0⟩, (s.prepared p offset resid).2,
        Writing.next ⟨p, offset, resid.setWidth 64, j.uninit⟩) := by
  have hprepare : s.prepare p ⟨id, if append then 1 else 0, offset, resid.setWidth 64⟩ =
      s.prepared p offset resid := rfl
  rw [Store.handleWriteRequest_some hp, hprepare, hok, if_neg (by simp)]

theorem round_prepare (e : Puffs) (junk : Nat → Junk) (runs : Nat) {id : Word} (buf : Memory)
    (append : Bool) (hp : s.findById id = some p) (hok : (s.prepared p offset resid).1 = 0) :
    ∃ req resp, (link e junk).Round linkCubeQueueSize
      (nodeWrite e id buf offset resid append) (.ret (.inl (.write ⟨0, buf, resid⟩)))
      (.ret (.inl ⟨⟨s, .dispatch⟩, runs⟩))
      (.ret (.inl ⟨⟨(s.prepared p offset resid).2,
        Writing.next ⟨p, offset, resid.setWidth 64, (junk runs).uninit⟩⟩, runs + 1⟩)) req resp := by
  have hround := round_write e junk s runs ⟨id, if append then 1 else 0, offset, resid.setWidth 64⟩
    (writeReply buf resid)
  rw [handleWriteRequest_prepared hp hok] at hround
  exact ⟨_, _, hround⟩

theorem writesFile_of_aligned (hw : s.WellFormed) (hp : s.live p)
    (hend : offset.toNat + resid.toNat < 2 ^ 32) (hok : (s.prepared p offset resid).1 = 0)
    (h : 128 ∣ offset.toNat ∨ resid.toNat ≤ 128) : s.WritesFile p offset resid := by
  intro e junk runs buf append herr
  have hf : (s.prepared p offset resid).2.FileOk p := Store.prepare_fileOk hw hp _
  have hsize := Store.prepared_size_of_fits hw hp hend hok
  obtain ⟨_, _, hround⟩ := round_prepare e junk runs buf append (hw.findById hp) hok
  have hstart : Sending (s.prepared p offset resid).2 p offset.toNat resid.toNat buf 0
      ⟨0, buf, resid⟩ (s.prepared p offset resid).2
      ⟨p, offset, resid.setWidth 64, (junk runs).uninit⟩ :=
    { src := rfl
      buffer := rfl
      resid := rfl
      cut := Or.inl (dvd_zero 128)
      ent := rfl
      offset := rfl
      left := widen_toNat resid
      shape := .refl _
      bytes := fun k _ => by rw [if_neg (by omega)] }
  obtain ⟨n, s', hchunks, hshape, hbytes⟩ := hstart.run hf (by omega) h (runs + 1)
  have hsize' : s'.size p = (s.prepared p offset resid).2.size p := by
    rw [Store.size, Store.size, hshape.entries]
  refine ⟨s', n, (hround.meets (hchunks.meets rfl ?_)).exchanges, hchunks, by rw [hsize', hsize],
    fun k hk => hbytes k (hsize' ▸ hk)⟩
  intro w hphase
  obtain ⟨rfl, hpos⟩ := Writing.next_eq_writing hphase
  refine herr ?_
  rintro rfl
  simp at hpos

/-- A longer write that does not start on a block border leaves the GBA in its copying
loop and the Wii without a reply. -/
theorem stalls_write (e : Puffs) (junk : Nat → Junk) (runs : Nat) {id : Word} (buf : Memory)
    (append : Bool) (hp : s.findById id = some p) (hok : (s.prepared p offset resid).1 = 0)
    (hborder : ¬ 128 ∣ offset.toNat) (hlong : 128 < resid.toNat) :
    (link e junk).Stalls linkCubeQueueSize (nodeWrite e id buf offset resid append)
      (.ret (.inl ⟨⟨s, .dispatch⟩, runs⟩)) := by
  obtain ⟨_, _, hround⟩ := round_prepare e junk runs buf append hp hok
  have hwide := widen_toNat resid
  have hlt := resid.isLt
  have hnext : Writing.next ⟨p, offset, resid.setWidth 64, (junk runs).uninit⟩ =
      .writing ⟨p, offset, resid.setWidth 64, (junk runs).uninit⟩ := if_neg (by
    intro hz
    rw [show resid.setWidth 64 = 0 from hz] at hwide
    simp at hwide
    omega)
  have hresid : resid ≠ 0 := by
    rintro rfl
    simp at hlong
  rw [hnext] at hround
  refine hround.stalls (.client_loop ?_)
  change (link e junk).Stalls linkCubeQueueSize (WriteLoop.body e ⟨0, buf, resid⟩) _
  rw [WriteLoop.body, if_neg hresid]
  refine stalls_chunk (h := ⟨⟨_, .writing _⟩, _⟩) rfl ?_
  have hlen := chunkLen_toNat resid
  rw [Store.handleWriteBuf, Copying.loop_overshoots hborder (by simp only; omega)
    (by simp only; omega)]
  · rfl
  · apply BitVec.eq_of_toNat_eq
    change (chunkLen resid).toNat = (128 : Word).toNat
    rw [hlen]
    simp
    omega

end Exact

theorem aligned_of_writesFile {s : Store} {p : EntryPtr} {offset : Word64} {resid : Word}
    (hw : s.WellFormed) (hp : s.live p) (hok : (s.prepared p offset resid).1 = 0)
    (hwrites : s.WritesFile p offset resid) : 128 ∣ offset.toNat ∨ resid.toNat ≤ 128 := by
  by_contra hbad
  obtain ⟨hborder, hlong⟩ := not_or.mp hbad
  obtain ⟨s', n, hx, _⟩ := hwrites .zero (fun _ => .zero) 0 (fun _ => 0) false
    fun _ => by decide +kernel
  exact (stalls_write .zero (fun _ => .zero) 0 (fun _ => 0) false (hw.findById hp) hok hborder
    (Nat.not_le.mp hlong)).hangs.not_exchanges hx

/-- A write ends right exactly when it starts on a block border or fits one chunk. -/
theorem writesFile_iff {s : Store} (h : s.Reachable) {p : EntryPtr} (hp : s.live p)
    (offset : Word64) (resid : Word) (hend : offset.toNat + resid.toNat < 2 ^ 32)
    (hok : (s.prepared p offset resid).1 = 0) :
    s.WritesFile p offset resid ↔ 128 ∣ offset.toNat ∨ resid.toNat ≤ 128 :=
  ⟨aligned_of_writesFile h.wellFormed hp hok, writesFile_of_aligned h.wellFormed hp hend hok⟩

/-- Three hundred bytes at the start of the test file. -/
theorem writesFile_iff_start :
    ∃ g : Gba, bootRun [] = some g ∧ g.store.WritesFile testSlot 0 300 := by
  obtain ⟨g, hg, hfacts⟩ := Option.map_eq_some_iff.mp
    (show (bootRun []).map (fun g =>
      (decide (g.store.live testSlot), (g.store.prepared testSlot 0 300).1)) = some (true, 0) by
        decide +kernel)
  obtain ⟨hlive, hok⟩ := Prod.mk.inj hfacts
  exact ⟨g, hg, (writesFile_iff ⟨g.phase, bootRun_reachable hg⟩ (of_decide_eq_true hlive) 0 300
    (by decide) hok).mpr (Or.inl (by decide))⟩

/-- Two hundred bytes from the second byte on. -/
theorem writesFile_counterexample :
    ∃ g : Gba, bootRun [] = some g ∧ g.Reachable ∧ g.store.live testSlot ∧
      (g.store.entries testSlot).vaType = Vtype.reg.code ∧
      (g.store.prepared testSlot 1 200).1 = 0 ∧ ¬ g.store.WritesFile testSlot 1 200 := by
  obtain ⟨g, hg, hfacts⟩ := Option.map_eq_some_iff.mp
    (show (bootRun []).map (fun g =>
      (decide (g.store.live testSlot), (g.store.entries testSlot).vaType,
        (g.store.prepared testSlot 1 200).1)) = some (true, Vtype.reg.code, 0) by decide +kernel)
  simp only [Prod.mk.injEq, decide_eq_true_iff] at hfacts
  obtain ⟨hlive, htype, hok⟩ := hfacts
  refine ⟨g, hg, bootRun_reachable hg, hlive, htype, hok, fun hwrites => ?_⟩
  have haligned := aligned_of_writesFile
    (Store.Reachable.wellFormed ⟨g.phase, bootRun_reachable hg⟩) hlive hok hwrites
  revert haligned
  decide

end WiiJoybus
