import WiiJoybus.Gba.Copy
import WiiJoybus.Link.Network

/-!
Reading a file over the link.

The GBA chooses the length of a reply by itself: up to a block from the offset
on, whatever the Wii asks for. So replies follow each other in steps of 128
bytes until the file ends or the count of the Wii happens to hit zero, and every
reply reads its bytes from one block, also those that lie in the next one.
-/

namespace WiiJoybus
open ByteMemory StructLayout Dialogue Dialogue.Network

section Reply

variable {s : Store} {p : EntryPtr} {req : ReadReq}

theorem min64_toNat (a b : Word64) : (Store.min64 a b).toNat = min a.toNat b.toNat := by
  simp only [Store.min64, BitVec.lt_def]
  split <;> omega

def repliedByte (j : Junk) (s : Store) (p : EntryPtr) (o k : Nat) : Byte :=
  if o % 128 + k < 128 then s.fileByte p (o + k) else j.beyond (o % 128 + k)

structure Replied (j : Junk) (s : Store) (p : EntryPtr) (o : Nat) (resp : ReadResp) : Prop where
  err : resp.err = 0
  copylen : resp.copylen.toNat = min (s.size p - o) 128
  buf : ∀ k (hk : k < blockSize), k < s.size p - o →
    resp.buf ⟨k, hk⟩ = repliedByte j s p o k

theorem handleReadRequest_past (j : Junk) (hw : s.WellFormed) (hp : s.live p)
    (hid : req.fileid = s.fileid p) (ho : s.size p < req.offset.toNat) :
    (s.handleReadRequest j req).err = 2 := by
  have hsize := (hw.files p hp).size_eq
  have hgt : req.offset > (s.entries p).file.datalen.setWidth 64 := by
    have := s.datalen_lt p
    rw [gt_iff_lt, BitVec.lt_def, BitVec.toNat_setWidth]
    rw [hsize, Store.datalen] at ho
    omega
  simp only [Store.handleReadRequest, hid, hw.findById hp, if_pos hgt]

theorem handleReadRequest_replied (j : Junk) (req : ReadReq) (hw : s.WellFormed) (hp : s.live p)
    (hid : req.fileid = s.fileid p) (ho : req.offset.toNat ≤ s.size p) :
    Replied j s p req.offset.toNat (s.handleReadRequest j req) := by
  have hf := hw.files p hp
  have hsize := hf.size_eq
  have hlt := s.datalen_lt p
  have hwide : ((s.entries p).file.datalen.setWidth 64).toNat = s.size p := by
    rw [hsize, BitVec.toNat_setWidth]
    exact Nat.mod_eq_of_lt (Nat.lt_of_lt_of_le hlt (by decide))
  have hle : ¬ req.offset > (s.entries p).file.datalen.setWidth 64 := by
    rw [gt_iff_lt, BitVec.lt_def, hwide]
    omega
  have hlen : ((Store.min64 ((s.entries p).file.datalen.setWidth 64 - req.offset)
      (pbaBlocksize 64)).setWidth 32).toNat = min (s.size p - req.offset.toNat) 128 := by
    have hblock : (pbaBlocksize 64).toNat = 128 := by decide
    rw [BitVec.toNat_setWidth, min64_toNat, hblock,
      BitVec.toNat_sub_of_le (by rwa [BitVec.le_def, hwide]), hwide]
    omega
  constructor
  case err => simp only [Store.handleReadRequest, hid, hw.findById hp, if_neg hle]
  case copylen =>
    simp only [Store.handleReadRequest, hid, hw.findById hp, if_neg hle]
    exact hlen
  case buf =>
    intro k hk hin
    have hcount : k < min (s.size p - req.offset.toNat) 128 := lt_min hin hk
    obtain ⟨b, hb⟩ := Option.ne_none_iff_exists'.mp
      (hf.blockFetch_ne_none (hf.block_lt (show req.offset.toNat < s.size p by omega)))
    have hidx : (blocknum req.offset pbaBlockshift).setWidth 32 =
        BitVec.ofNat 32 (req.offset.toNat / 128) := by
      apply BitVec.eq_of_toNat_eq
      rw [BitVec.toNat_setWidth, blocknum_toNat, BitVec.toNat_ofNat]
    have hfetch : s.blockFetch (s.entries p).vaFileid
        ((blocknum req.offset pbaBlockshift).setWidth 32) = some b := by
      rw [hidx]
      exact hb
    simp only [Store.handleReadRequest, hid, hw.findById hp, if_neg hle, hlen, if_pos hcount,
      hfetch, blockoff_toNat, Store.readByte, repliedByte]
    by_cases hblock : req.offset.toNat % 128 + k < 128
    · have hsame : (req.offset.toNat + k) / 128 = req.offset.toNat / 128 := by omega
      have hmod : (req.offset.toNat + k) % 128 = req.offset.toNat % 128 + k := by omega
      refine (dif_pos hblock).trans ?_
      rw [if_pos hblock, Store.fileByte_of_fetch (by rw [hsame]; exact hb)]
      congr 1
      exact Fin.ext hmod.symm
    · refine (dif_neg hblock).trans ?_
      rw [if_neg hblock]

end Reply

section Loop

variable {e : Puffs} {junk : Nat → Junk} {s : Store} {p : EntryPtr} {runs : Nat}

/-- How many bytes reach the buffer, from the offset `o` of a file of `size` bytes. -/
def deliveredTotal (size o resid : Nat) : Nat :=
  if 128 ∣ resid ∧ resid ≤ size - o then resid else size - o

def deliveredByte (junk : Nat → Junk) (runs : Nat) (s : Store) (p : EntryPtr) (o k : Nat) : Byte :=
  repliedByte (junk (runs + k / 128)) s p (o + k / 128 * 128) (k % 128)

def delivered (junk : Nat → Junk) (runs : Nat) (s : Store) (p : EntryPtr) (o t : Nat)
    (buf : Memory) : Memory :=
  fun k => if k < t then deliveredByte junk runs s p o k else buf k

/-- The loop of READ after `i` replies. -/
structure Reading (junk : Nat → Junk) (runs : Nat) (s : Store) (p : EntryPtr) (o : Nat)
    (buf : Memory) (resid : Word) (i : Nat) (l : ReadLoop) : Prop where
  fileid : l.fileid = s.fileid p
  offset : l.offset.toNat = o + l.dest
  dest : l.dest = min (128 * i) (s.size p - o)
  buf : l.buf = delivered junk runs s p o l.dest buf
  resid : l.resid = resid - BitVec.ofNat 32 l.dest

theorem round_read (e : Puffs) (junk : Nat → Junk) (s : Store) (runs : Nat) {l : ReadLoop}
    (hresid : l.resid ≠ 0) :
    (link e junk).Round linkCubeQueueSize (l.body e)
      (l.reply e (s.handleReadRequest (junk runs) l.req)) (.ret (.inl ⟨⟨s, .dispatch⟩, runs⟩))
      (.ret (.inl ⟨⟨s, .dispatch⟩, runs + 1⟩)) (Cmd.read.code :: structWords wii e.stack l.req)
      (structWords gba (junk runs).stack (s.handleReadRequest (junk runs) l.req)) := by
  rw [ReadLoop.body, if_neg hresid]
  exact round_command (fun req => some (s.handleReadRequest (junk runs) req, ⟨s, .dispatch⟩))
    (h := ⟨⟨s, .dispatch⟩, runs⟩) rfl rfl l.req.sswap_swapped rfl
    (congrArg (l.reply e) (ReadResp.sswap_swapped _))

theorem Reading.deliver {o i : Nat} {buf : Memory} {resid : Word} {l : ReadLoop}
    (h : Reading junk runs s p o buf resid i l) (hsize : s.size p < 2 ^ 32)
    (hin : 128 * i < s.size p - o) {resp : ReadResp}
    (hr : Replied (junk (runs + i)) s p l.offset.toNat resp) :
    Reading junk runs s p o buf resid (i + 1) (l.deliver e resp) := by
  have hdest : l.dest = 128 * i := by rw [h.dest, Nat.min_eq_left (Nat.le_of_lt hin)]
  have hoff := h.offset
  have hlen : resp.copylen.toNat = min (s.size p - o - 128 * i) 128 := by
    rw [hr.copylen, hoff, hdest, Nat.sub_add_eq]
  constructor
  case fileid => exact h.fileid
  case offset =>
    change (l.offset + resp.copylen.setWidth 64).toNat = o + (l.dest + resp.copylen.toNat)
    rw [BitVec.toNat_add, BitVec.toNat_setWidth, hoff]
    omega
  case dest =>
    change l.dest + resp.copylen.toNat = _
    omega
  case buf =>
    funext k
    simp only [ReadLoop.deliver, h.buf, delivered]
    by_cases hold : k < l.dest
    · rw [if_neg (by omega), if_pos hold, if_pos (by omega)]
    · by_cases hnew : k < l.dest + resp.copylen.toNat
      · have hblock : k - l.dest < blockSize := by
          change k - l.dest < 128
          omega
        rw [if_pos ⟨by omega, hnew⟩, if_pos hnew, dif_pos hblock, hr.buf _ hblock (by omega),
          deliveredByte, show k / 128 = i by omega, hoff, show k % 128 = k - l.dest by omega,
          hdest, Nat.mul_comm]
      · rw [if_neg (by omega), if_neg hold, if_neg hnew]
  case resid =>
    change l.resid - resp.copylen = resid - BitVec.ofNat 32 (l.dest + resp.copylen.toNat)
    rw [h.resid]
    apply BitVec.eq_of_toNat_eq
    simp only [BitVec.toNat_sub, BitVec.toNat_ofNat]
    omega

/-- The loop stops where the file ends, or before, when the count is used up by
whole blocks. -/
theorem Reading.meets {o i : Nat} {buf : Memory} {resid : Word} {l : ReadLoop}
    (h : Reading junk runs s p o buf resid i l) (hw : s.WellFormed) (hp : s.live p)
    (ho : o ≤ s.size p)
    (hleft : 128 ∣ resid.toNat ∧ resid.toNat ≤ s.size p - o → l.dest ≤ resid.toNat) :
    ∃ n, (link e junk).Meets linkCubeQueueSize (.ret (.inl (.read l)))
      (.ret (.inl ⟨⟨s, .dispatch⟩, runs + i⟩))
      (.read 0 (delivered junk runs s p o (deliveredTotal (s.size p) o resid.toNat) buf)
        (resid - BitVec.ofNat 32 (deliveredTotal (s.size p) o resid.toNat)))
      ⟨⟨s, .dispatch⟩, n⟩ := by
  have hsize := (hw.files p hp).size_lt
  have hresid := resid.isLt
  induction hm : s.size p - o - l.dest using Nat.strong_induction_on generalizing l i with
  | _ m ih =>
      have hdest := h.dest
      have hlresid : l.resid.toNat = (resid.toNat + 2 ^ 32 - l.dest) % 2 ^ 32 := by
        rw [h.resid, BitVec.toNat_sub, BitVec.toNat_ofNat]
        omega
      by_cases hzero : l.resid = 0
      · have hT : l.dest = deliveredTotal (s.size p) o resid.toNat := by
          rw [hzero] at hlresid
          simp only [BitVec.ofNat_eq_ofNat, BitVec.toNat_ofNat, Nat.zero_mod] at hlresid
          rw [deliveredTotal]
          split <;> omega
        refine ⟨runs + i, .client_loop ?_⟩
        change (link e junk).Meets linkCubeQueueSize (l.body e) _ _ _
        rw [ReadLoop.body, if_pos hzero, h.buf, h.resid, hT]
        exact .done rfl
      · have hne : l.resid.toNat ≠ 0 := fun hz => hzero (BitVec.eq_of_toNat_eq (by simpa using hz))
        have hr := handleReadRequest_replied (junk (runs + i)) l.req hw hp h.fileid
          (by rw [show l.req.offset = l.offset from rfl, h.offset]; omega)
        have hlen := hr.copylen
        rw [show l.req.offset = l.offset from rfl, h.offset] at hlen
        have hround := round_read e junk s (runs + i) hzero
        by_cases hend : s.size p - o ≤ l.dest
        · have hT : l.dest = deliveredTotal (s.size p) o resid.toNat := by
            rw [deliveredTotal]
            split <;> omega
          have hcopy : (s.handleReadRequest (junk (runs + i)) l.req).copylen = 0 := by
            apply BitVec.eq_of_toNat_eq
            rw [hlen]
            simp only [BitVec.ofNat_eq_ofNat, BitVec.toNat_ofNat, Nat.zero_mod]
            omega
          refine ⟨runs + i + 1, .client_loop (hround.meets ?_)⟩
          rw [ReadLoop.reply, hr.err, if_neg (by simp), if_pos hcopy, h.buf, h.resid, hT]
          exact .done rfl
        · have hcopy : (s.handleReadRequest (junk (runs + i)) l.req).copylen ≠ 0 := by
            intro hz
            rw [hz] at hlen
            simp only [BitVec.ofNat_eq_ofNat, BitVec.toNat_ofNat, Nat.zero_mod] at hlen
            omega
          have hnext := h.deliver (e := e) hsize (by omega) hr
          have hstep : (l.deliver e (s.handleReadRequest (junk (runs + i)) l.req)).dest =
              l.dest + (s.handleReadRequest (junk (runs + i)) l.req).copylen.toNat := rfl
          obtain ⟨n, hn⟩ := ih _ (by omega) hnext (by
            rintro ⟨⟨q, hq⟩, hle⟩
            have := hleft ⟨⟨q, hq⟩, hle⟩
            omega) rfl
          refine ⟨n, .client_loop (hround.meets ?_)⟩
          rw [ReadLoop.reply, hr.err, if_neg (by simp), if_neg hcopy]
          exact hn

theorem reading_start {o : Word64} {buf : Memory} {resid : Word} :
    Reading junk runs s p o.toNat buf resid 0 ⟨s.fileid p, o, 0, buf, resid⟩ where
  fileid := rfl
  offset := rfl
  dest := by simp
  buf := by
    funext k
    simp [delivered]
  resid := by simp

/-- The GBA refuses an offset past the end of the file. -/
theorem meets_read_past {o : Word64} {buf : Memory} {resid : Word} (hw : s.WellFormed)
    (hp : s.live p) (ho : s.size p < o.toNat) (hresid : resid ≠ 0) :
    (link e junk).Meets linkCubeQueueSize (nodeRead (s.fileid p) buf o resid)
      (.ret (.inl ⟨⟨s, .dispatch⟩, runs⟩)) (.read 2 buf resid) ⟨⟨s, .dispatch⟩, runs + 1⟩ := by
  have hround := round_read e junk s runs
    (l := ⟨s.fileid p, o, 0, buf, resid⟩) hresid
  refine .client_loop (hround.meets ?_)
  rw [ReadLoop.reply, handleReadRequest_past (junk runs) hw hp rfl ho, if_pos (by decide)]
  exact .done rfl

end Loop

/-- A read of `resid` bytes from `offset` on succeeds and brings as many of them
as the file has, whatever the two programs find in memory they do not own. -/
def Store.ReadsFile (s : Store) (p : EntryPtr) (offset : Word64) (resid : Word) : Prop :=
  ∀ (e : Puffs) (junk : Nat → Junk) (runs : Nat) (buf : Memory),
    ∃ (buf' : Memory) (resid' : Word) (h' : GbaHead),
      (link e junk).Exchanges (nodeRead (s.fileid p) buf offset resid) ⟨⟨s, .dispatch⟩, runs⟩
        (.read 0 buf' resid') h' ∧
      resid'.toNat + min resid.toNat (s.size p - offset.toNat) = resid.toNat ∧
      ∀ k, buf' k =
        if k < min resid.toNat (s.size p - offset.toNat) then s.fileByte p (offset.toNat + k)
        else buf k

/-- The offset is within the file, all that is read of it lies within aligned
blocks, and the count ends with the file or with a block. -/
def Store.ReadsWhole (s : Store) (p : EntryPtr) (offset : Word64) (resid : Word) : Prop :=
  resid = 0 ∨ (offset.toNat ≤ s.size p ∧
    (128 ∣ offset.toNat ∨ s.size p - offset.toNat ≤ 128 - offset.toNat % 128) ∧
    (s.size p - offset.toNat ≤ resid.toNat ∨ 128 ∣ resid.toNat))

section Exact

variable {s : Store} {p : EntryPtr} {offset : Word64} {resid : Word}

theorem exchanges_read (hw : s.WellFormed) (hp : s.live p) (ho : offset.toNat ≤ s.size p)
    (resid : Word) (e : Puffs) (junk : Nat → Junk) (runs : Nat) (buf : Memory) :
    ∃ n, (link e junk).Exchanges (nodeRead (s.fileid p) buf offset resid) ⟨⟨s, .dispatch⟩, runs⟩
      (.read 0 (delivered junk runs s p offset.toNat
          (deliveredTotal (s.size p) offset.toNat resid.toNat) buf)
        (resid - BitVec.ofNat 32 (deliveredTotal (s.size p) offset.toNat resid.toNat)))
      ⟨⟨s, .dispatch⟩, n⟩ := by
  obtain ⟨n, hn⟩ := reading_start.meets (e := e) hw hp ho fun _ => Nat.zero_le _
  exact ⟨n, hn.exchanges⟩

theorem deliveredByte_of_whole {junk : Nat → Junk} {runs k : Nat}
    (hk : k < s.size p - offset.toNat)
    (hblock : 128 ∣ offset.toNat ∨ s.size p - offset.toNat ≤ 128 - offset.toNat % 128) :
    deliveredByte junk runs s p offset.toNat k = s.fileByte p (offset.toNat + k) := by
  have hin : (offset.toNat + k / 128 * 128) % 128 + k % 128 < 128 := by omega
  rw [deliveredByte, repliedByte, if_pos hin]
  congr 1
  omega

theorem Store.ReadsWhole.readsFile (hw : s.WellFormed) (hp : s.live p)
    (h : s.ReadsWhole p offset resid) : s.ReadsFile p offset resid := by
  intro e junk runs buf
  rcases h with rfl | ⟨ho, hblock, hcount⟩
  · refine ⟨buf, 0, ⟨⟨s, .dispatch⟩, runs⟩, ?_, by simp, by simp⟩
    exact Meets.exchanges (n := linkCubeQueueSize) (.client_loop (.done rfl))
  · obtain ⟨n, hn⟩ := exchanges_read hw hp ho resid e junk runs buf
    have hsize := (hw.files p hp).size_lt
    have hresid := resid.isLt
    have hT : deliveredTotal (s.size p) offset.toNat resid.toNat =
        min resid.toNat (s.size p - offset.toNat) := by
      rw [deliveredTotal]
      split <;> omega
    rw [hT] at hn
    refine ⟨_, _, _, hn, ?_, ?_⟩
    · rw [BitVec.toNat_sub, BitVec.toNat_ofNat]
      omega
    · intro k
      rw [delivered]
      split
      · rw [deliveredByte_of_whole (by omega) hblock]
      · rfl

def Junk.differing (b : Byte) : Junk := { Junk.zero with beyond := fun _ => ~~~b }

theorem Store.ReadsFile.readsWhole (hw : s.WellFormed) (hp : s.live p)
    (h : s.ReadsFile p offset resid) : s.ReadsWhole p offset resid := by
  by_cases hzero : resid = 0
  · exact Or.inl hzero
  have hsize := (hw.files p hp).size_lt
  have hresid := resid.isLt
  have hpos : resid.toNat ≠ 0 := fun hz => hzero (BitVec.eq_of_toNat_eq (by simpa using hz))
  -- the byte a reply takes from beyond a block is not the one the file has there
  obtain ⟨junk, hjunk⟩ : ∃ junk : Nat → Junk, ∀ n k, (junk n).beyond k =
      ~~~(s.fileByte p (offset.toNat + (128 - offset.toNat % 128))) :=
    ⟨fun _ => .differing _, fun _ _ => rfl⟩
  obtain ⟨buf', resid', h', hx, hleft, hbytes⟩ := h .zero junk 0 fun _ => 0
  by_cases ho : offset.toNat ≤ s.size p
  · obtain ⟨n, hn⟩ := exchanges_read hw hp ho resid .zero junk 0 fun _ => 0
    have hsame := (hx.unique_out hn).1
    simp only [Outcome.read.injEq, true_and] at hsame
    obtain ⟨rfl, rfl⟩ := hsame
    rw [BitVec.toNat_sub, BitVec.toNat_ofNat] at hleft
    have hT : deliveredTotal (s.size p) offset.toNat resid.toNat =
        min resid.toNat (s.size p - offset.toNat) := by
      have : deliveredTotal (s.size p) offset.toNat resid.toNat < 2 ^ 32 := by
        rw [deliveredTotal]
        split <;> omega
      omega
    refine Or.inr ⟨ho, ?_, ?_⟩
    · by_contra hcross
      have hk := hbytes (128 - offset.toNat % 128)
      have hlt : 128 - offset.toNat % 128 < min resid.toNat (s.size p - offset.toNat) := by
        rw [deliveredTotal] at hT
        split at hT <;> omega
      rw [if_pos hlt, hT, delivered, if_pos hlt, deliveredByte, repliedByte,
        if_neg (by omega), hjunk] at hk
      exact absurd hk (by
        generalize s.fileByte p (offset.toNat + (128 - offset.toNat % 128)) = x
        revert x
        decide)
    · rw [deliveredTotal] at hT
      split at hT <;> omega
  · obtain ⟨n, hn⟩ : ∃ n, (link .zero junk).Exchanges
        (nodeRead (s.fileid p) (fun _ => 0) offset resid) ⟨⟨s, .dispatch⟩, 0⟩
        (.read 2 (fun _ => 0) resid) ⟨⟨s, .dispatch⟩, n⟩ :=
      ⟨1, (meets_read_past hw hp (Nat.not_le.mp ho) hzero).exchanges⟩
    have hsame := (hx.unique_out hn).1
    simp only [Outcome.read.injEq] at hsame
    exact absurd hsame.1 (by decide)

end Exact

/-- Reading is right exactly for counts and offsets that make it whole. -/
theorem readsFile_iff {s : Store} (h : s.Reachable) {p : EntryPtr} (hp : s.live p)
    (offset : Word64) (resid : Word) :
    s.ReadsFile p offset resid ↔ s.ReadsWhole p offset resid :=
  ⟨fun hr => hr.readsWhole h.wellFormed hp, fun hr => hr.readsFile h.wellFormed hp⟩

/-- All of a grown test file from its second block on. -/
theorem readsFile_iff_grown :
    ∃ g : Gba, bootRun [.request (.setsize ⟨2, 300⟩)] = some g ∧
      g.store.ReadsFile testSlot 128 300 := by
  obtain ⟨g, hg, hfacts⟩ := Option.map_eq_some_iff.mp
    (show (bootRun [.request (.setsize ⟨2, 300⟩)]).map (fun g =>
      (decide (g.store.live testSlot), g.store.size testSlot)) = some (true, 300) by
        decide +kernel)
  obtain ⟨hlive, hsize⟩ := Prod.mk.inj hfacts
  refine ⟨g, hg, (readsFile_iff ⟨g.phase, bootRun_reachable hg⟩ (of_decide_eq_true hlive) 128
    300).mpr (Or.inr ?_)⟩
  rw [hsize]
  decide

/-- A buffer of fifty bytes for a file of a hundred: all of the file is stored. -/
theorem readsFile_counterexample :
    ∃ g : Gba, bootRun [.request (.setsize ⟨2, 100⟩)] = some g ∧ g.Reachable ∧
      g.store.live testSlot ∧ (g.store.entries testSlot).vaType = Vtype.reg.code ∧
      ¬ g.store.ReadsFile testSlot 0 50 := by
  obtain ⟨g, hg, hfacts⟩ := Option.map_eq_some_iff.mp
    (show (bootRun [.request (.setsize ⟨2, 100⟩)]).map (fun g =>
      (decide (g.store.live testSlot), g.store.size testSlot,
        (g.store.entries testSlot).vaType)) = some (true, 100, Vtype.reg.code) by decide +kernel)
  simp only [Prod.mk.injEq, decide_eq_true_iff] at hfacts
  obtain ⟨hlive, hsize, htype⟩ := hfacts
  refine ⟨g, hg, bootRun_reachable hg, hlive, htype, fun hr => ?_⟩
  have hwhole := hr.readsWhole (Store.Reachable.wellFormed ⟨g.phase, bootRun_reachable hg⟩) hlive
  rw [Store.ReadsWhole, hsize] at hwhole
  revert hwhole
  decide

end WiiJoybus
