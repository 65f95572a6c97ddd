import WiiJoybus.Link.Calls
import WiiJoybus.Link.Write

/-!
How a write ends, whatever the store holds.

The request is answered first, and nothing is sent for a write of no bytes. Where
the cuts of the two programs differ, the first chunk is never answered. Otherwise
each chunk is answered by a word that nothing has been assigned to, and the Wii
returns at once when it is not zero.
-/

namespace WiiJoybus
open ByteMemory StructLayout Dialogue Dialogue.Network

section Ends

variable {s : Store} {p : EntryPtr} {id : Word} {offset : Word64} {resid : Word}
variable (e : Puffs) (junk : Nat → Junk) (runs : Nat) (buf : Memory) (append : Bool)

/-- The word that answers the chunks of a write whose request is message `runs`. -/
def chunkErr (junk : Nat → Junk) (runs : Nat) : Word := ((junk runs).uninit : WriteBufResp).err

theorem calls_write_missing (hp : s.findById id = none) :
    Calls e junk s runs (nodeWrite e id buf offset resid append)
      (some (.write Errno.enoent resid, s)) := by
  have hround := round_write e junk s runs ⟨id, if append then 1 else 0, offset, resid.setWidth 64⟩
    (writeReply buf resid)
  simp only [Store.handleWriteRequest, hp] at hround
  exact ⟨runs + 1, hround.meets (.done rfl)⟩

theorem calls_write_refused (hp : s.findById id = some p)
    (hbad : (s.prepared p offset resid).1 ≠ 0) :
    Calls e junk s runs (nodeWrite e id buf offset resid append)
      (some (.write (s.prepared p offset resid).1 resid, (s.prepared p offset resid).2)) := by
  have hround := round_write e junk s runs ⟨id, if append then 1 else 0, offset, resid.setWidth 64⟩
    (writeReply buf resid)
  have hprepare : s.prepare p ⟨id, if append then 1 else 0, offset, resid.setWidth 64⟩ =
      s.prepared p offset resid := rfl
  have hreply : s.handleWriteRequest (junk runs)
      ⟨id, if append then 1 else 0, offset, resid.setWidth 64⟩ =
        (⟨1, (s.prepared p offset resid).1⟩, (s.prepared p offset resid).2, .dispatch) := by
    rw [Store.handleWriteRequest_some hp, hprepare, if_pos hbad]
  have hend : writeReply buf resid ⟨1, (s.prepared p offset resid).1⟩ =
      finish (.write (s.prepared p offset resid).1 resid) := by
    rw [writeReply, if_neg (show ¬ (1 : Word) = 0 by decide), if_pos hbad]
  rw [hreply, hend] at hround
  exact ⟨runs + 1, hround.meets (.done rfl)⟩

theorem calls_write_endless (hp : s.findById id = some p) (hok : (s.prepared p offset resid).1 = 0)
    (hborder : ¬ 128 ∣ offset.toNat) (hlong : 128 < resid.toNat) :
    Calls e junk s runs (nodeWrite e id buf offset resid append) none :=
  stalls_write e junk runs buf append hp hok hborder hlong

theorem calls_write_empty (hp : s.findById id = some p) (hok : (s.prepared p offset 0).1 = 0) :
    Calls e junk s runs (nodeWrite e id buf offset 0 append)
      (some (.write 0 0, (s.prepared p offset 0).2)) := by
  obtain ⟨_, _, hround⟩ := round_prepare e junk runs buf append hp hok
  exact ⟨runs + 1, hround.meets ((ChunksCopied.done rfl).meets rfl (by rintro w ⟨⟩))⟩

theorem next_of_resid (hresid : resid ≠ 0) (bresp : WriteBufResp) :
    Writing.next ⟨p, offset, resid.setWidth 64, bresp⟩ =
      .writing ⟨p, offset, resid.setWidth 64, bresp⟩ := by
  refine if_neg fun hz => hresid (BitVec.eq_of_toNat_eq ?_)
  have hwide := widen_toNat resid
  rw [show resid.setWidth 64 = 0 from hz] at hwide
  exact hwide.symm

theorem calls_write_done (hp : s.findById id = some p) (hok : (s.prepared p offset resid).1 = 0)
    (hborder : 128 ∣ offset.toNat ∨ resid.toNat ≤ 128) (herr : chunkErr junk runs = 0) :
    ∃ s', Calls e junk s runs (nodeWrite e id buf offset resid append) (some (.write 0 0, s')) := by
  obtain ⟨_, _, hround⟩ := round_prepare e junk runs buf append hp hok
  have hwide := widen_toNat resid
  obtain ⟨n, s', hchunks⟩ := chunksCopied_of_border junk ⟨0, buf, resid⟩
    (s.prepared p offset resid).2 ⟨p, offset, resid.setWidth 64, (junk runs).uninit⟩ (runs + 1)
    hwide (hborder.imp_right fun h => hwide ▸ h)
  refine ⟨s', n, hround.meets (hchunks.meets rfl ?_)⟩
  intro w hphase
  obtain ⟨rfl, _⟩ := Writing.next_eq_writing hphase
  exact herr

theorem gba_waits (e : Puffs) (junk : Nat → Junk) (h : GbaHead) :
    (link e junk).Waits .server h := by
  change ∃ k, GbaHead.body junk h = .recv k
  rw [GbaHead.body]
  split
  · exact ⟨_, rfl⟩
  · exact ⟨_, rfl⟩

theorem round_failed {w : Writing} {l : WriteLoop} {c : Copying} (hresid : l.resid ≠ 0)
    (hloop : Copying.loop (junk runs) l.breq w.ent (w.resid.toNat + 1)
      ⟨s, w.offset, w.resid, l.breq.buflen, 0⟩ = some c) (herr : w.bresp.err ≠ 0) :
    (link e junk).Round linkCubeQueueSize (l.body e) (finish (.write w.bresp.err l.resid))
      (.ret (.inl ⟨⟨s, .writing w⟩, runs⟩))
      (.ret (.inl ⟨⟨c.store, Writing.next ⟨w.ent, c.offset, c.resid, w.bresp⟩⟩, runs + 1⟩))
      (structWords wii e.stack l.breq) (structWords gba (junk runs).stack w.bresp) := by
  rw [WriteLoop.body, if_neg hresid]
  refine round_chunk (h := ⟨⟨s, .writing w⟩, runs⟩) rfl (handleWriteBuf_eq hloop) ?_
  rw [WriteBufResp.sswap_swapped, WriteLoop.reply]
  exact if_pos ((BitVec.pos_iff_ne_zero w.bresp.err).mpr herr)

/-- After an error in the first answer the GBA may still be waiting for chunks. -/
theorem plays_write_failed (hp : s.findById id = some p)
    (hok : (s.prepared p offset resid).1 = 0) (hresid : resid ≠ 0)
    (hborder : 128 ∣ offset.toNat ∨ resid.toNat ≤ 128) (herr : chunkErr junk runs ≠ 0) :
    ∃ c : Copying, (link e junk).Plays linkCubeQueueSize (nodeWrite e id buf offset resid append)
      (.ret (.inl ⟨⟨s, .dispatch⟩, runs⟩)) (.ret (.inr (.write (chunkErr junk runs) resid)))
      (.ret (.inl ⟨⟨c.store, Writing.next ⟨p, c.offset, c.resid, (junk runs).uninit⟩⟩,
        runs + 2⟩)) ∧
      c.resid.toNat + min resid.toNat 128 = resid.toNat := by
  obtain ⟨_, _, hround⟩ := round_prepare e junk runs buf append hp hok
  rw [next_of_resid hresid] at hround
  have hwide := widen_toNat resid
  have hlen := chunkLen_toNat resid
  have hpos : 0 < resid.toNat := by
    refine Nat.pos_of_ne_zero fun hz => hresid (BitVec.eq_of_toNat_eq ?_)
    rw [hz]
    rfl
  let l : WriteLoop := ⟨0, buf, resid⟩
  obtain ⟨c, hloop, hc⟩ := Copying.loop_counted (junk (runs + 1)) l.breq p
    (c := ⟨(s.prepared p offset resid).2, offset, resid.setWidth 64, l.breq.buflen, 0⟩)
    (show 0 < (resid.setWidth 64).toNat by omega)
    (show (chunkLen resid).toNat = min (resid.setWidth 64).toNat 128 by omega)
    (hborder.imp_right fun h => hwide ▸ h)
    (show 2 ≤ (resid.setWidth 64).toNat + 1 by omega)
  have hcresid : c.resid.toNat + (chunkLen resid).toNat = (resid.setWidth 64).toNat := hc.resid
  have hchunk := round_failed e junk (runs + 1)
    (w := ⟨p, offset, resid.setWidth 64, (junk runs).uninit⟩) (l := l) hresid hloop herr
  exact ⟨c, hround.plays (.client_loop (hchunk.plays .done)), by omega⟩

/-- When one chunk is all, the GBA is done with it. -/
theorem calls_write_failed (hp : s.findById id = some p)
    (hok : (s.prepared p offset resid).1 = 0) (hresid : resid ≠ 0) (hshort : resid.toNat ≤ 128)
    (herr : chunkErr junk runs ≠ 0) :
    ∃ s', Calls e junk s runs (nodeWrite e id buf offset resid append)
      (some (.write (chunkErr junk runs) resid, s')) := by
  obtain ⟨c, hplays, hc⟩ := plays_write_failed e junk runs buf append hp hok hresid
    (Or.inr hshort) herr
  have hzero : c.resid = 0 := by
    apply BitVec.eq_of_toNat_eq
    rw [Nat.min_eq_left hshort] at hc
    change c.resid.toNat = 0
    omega
  have hnext : Writing.next ⟨p, c.offset, c.resid, (junk runs).uninit⟩ = .dispatch := by
    rw [hzero]
    rfl
  rw [hnext] at hplays
  exact ⟨c.store, runs + 2, hplays.meets rfl⟩

end Ends

end WiiJoybus
