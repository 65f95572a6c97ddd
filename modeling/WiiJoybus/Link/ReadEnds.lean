import WiiJoybus.Link.Read

/-!
How the loop of READ ends.

The count of the Wii is no measure of the loop, since the GBA does not look at it:
it may wrap. What grows with every reply that has bytes in it is the offset, and
the first reply that was successful puts it within the file for good.
-/

namespace WiiJoybus
open ByteMemory StructLayout Dialogue Dialogue.Network

section Loop

variable (e : Puffs) (junk : Nat → Junk) (s : Store)

def ReadLoop.after (l : ReadLoop) (runs : Nat) : Nat → ReadLoop
  | 0 => l
  | k + 1 => (l.after runs k).deliver e
      (s.handleReadRequest (junk (runs + k)) (l.after runs k).req)

def ReadLoop.answered (l : ReadLoop) (runs k : Nat) : ReadResp :=
  s.handleReadRequest (junk (runs + k)) (l.after e junk s runs k).req

/-- The loop goes through `m` iterations with a request each and then returns `r`. -/
structure ReadLoop.EndsAfter (l : ReadLoop) (runs m : Nat) (r : Outcome) : Prop where
  reached : ∀ k < m, (link e junk).Plays linkCubeQueueSize (.ret (.inl (.read l)))
    (.ret (.inl ⟨⟨s, .dispatch⟩, runs⟩)) (.ret (.inl (.read (l.after e junk s runs k))))
    (.ret (.inl ⟨⟨s, .dispatch⟩, runs + k⟩))
  asks : ∀ k < m, (l.after e junk s runs k).resid ≠ 0
  returns : (link e junk).Meets linkCubeQueueSize (.ret (.inl (.read l)))
    (.ret (.inl ⟨⟨s, .dispatch⟩, runs⟩)) r ⟨⟨s, .dispatch⟩, runs + m⟩

/-- No offset of the loop lies past the end of the file, and no reply is an error. -/
structure ReadLoop.StaysWithin (p : EntryPtr) (l : ReadLoop) (runs m : Nat) : Prop where
  offset : ∀ k ≤ m, (l.after e junk s runs k).offset.toNat ≤ s.size p
  err : ∀ k < m, (l.answered e junk s runs k).err = 0

end Loop

section Ends

variable {e : Puffs} {junk : Nat → Junk} {s : Store} {p : EntryPtr} {l : ReadLoop} {runs m : Nat}
variable {r : Outcome}

theorem ReadLoop.after_succ (e : Puffs) (junk : Nat → Junk) (s : Store) (l : ReadLoop)
    (runs k : Nat) :
    l.after e junk s runs (k + 1) =
      (l.deliver e (s.handleReadRequest (junk runs) l.req)).after e junk s (runs + 1) k := by
  induction k with
  | zero => rfl
  | succ k ih =>
      rw [ReadLoop.after, ih, ReadLoop.after, show runs + 1 + k = runs + (k + 1) by omega]

theorem ReadLoop.EndsAfter.idle (e : Puffs) (junk : Nat → Junk) (s : Store) (runs : Nat)
    (hresid : l.resid = 0) : l.EndsAfter e junk s runs 0 (.read 0 l.buf l.resid) where
  reached k hk := absurd hk (Nat.not_lt_zero k)
  asks k hk := absurd hk (Nat.not_lt_zero k)
  returns := by
    refine .client_loop ?_
    change (link e junk).Meets linkCubeQueueSize (l.body e) _ _ _
    rw [ReadLoop.body, if_pos hresid]
    exact .done rfl

theorem ReadLoop.EndsAfter.last (hresid : l.resid ≠ 0)
    (hreply : l.reply e (s.handleReadRequest (junk runs) l.req) = .ret (.inr r)) :
    l.EndsAfter e junk s runs 1 r where
  reached k hk := by
    obtain rfl := Nat.lt_one_iff.mp hk
    exact .done
  asks k hk := by
    obtain rfl := Nat.lt_one_iff.mp hk
    exact hresid
  returns := by
    have hround := round_read e junk s runs hresid
    rw [hreply] at hround
    exact .client_loop (hround.meets (.done rfl))

theorem ReadLoop.EndsAfter.step (hresid : l.resid ≠ 0)
    (hreply : l.reply e (s.handleReadRequest (junk runs) l.req) =
      .ret (.inl (.read (l.deliver e (s.handleReadRequest (junk runs) l.req)))))
    (h : (l.deliver e (s.handleReadRequest (junk runs) l.req)).EndsAfter e junk s (runs + 1) m r) :
    l.EndsAfter e junk s runs (m + 1) r := by
  have hround := round_read e junk s runs hresid
  rw [hreply] at hround
  constructor
  case reached =>
    intro k hk
    cases k with
    | zero => exact .done
    | succ k =>
        rw [ReadLoop.after_succ, show runs + (k + 1) = runs + 1 + k by omega]
        exact .client_loop (hround.plays (h.reached k (by omega)))
  case asks =>
    intro k hk
    cases k with
    | zero => exact hresid
    | succ k =>
        rw [ReadLoop.after_succ]
        exact h.asks k (by omega)
  case returns =>
    rw [show runs + (m + 1) = runs + 1 + m by omega]
    exact .client_loop (hround.meets h.returns)

theorem ReadLoop.StaysWithin.idle (hoff : l.offset.toNat ≤ s.size p) :
    l.StaysWithin e junk s p runs 0 where
  offset k hk := by
    obtain rfl := Nat.le_zero.mp hk
    exact hoff
  err k hk := absurd hk (Nat.not_lt_zero k)

theorem ReadLoop.StaysWithin.step (hoff : l.offset.toNat ≤ s.size p)
    (herr : (s.handleReadRequest (junk runs) l.req).err = 0)
    (h : (l.deliver e (s.handleReadRequest (junk runs) l.req)).StaysWithin e junk s p
      (runs + 1) m) : l.StaysWithin e junk s p runs (m + 1) := by
  constructor
  case offset =>
    intro k hk
    cases k with
    | zero => exact hoff
    | succ k =>
        rw [ReadLoop.after_succ]
        exact h.offset k (by omega)
  case err =>
    intro k hk
    cases k with
    | zero => exact herr
    | succ k =>
        have hrest := h.err k (by omega)
        rw [ReadLoop.answered] at hrest ⊢
        rwa [ReadLoop.after_succ, show runs + (k + 1) = runs + 1 + k by omega]

/-- From an offset within the file the loop takes a block with every reply but the last. -/
theorem readLoop_ends (e : Puffs) (junk : Nat → Junk) (l : ReadLoop) (runs : Nat)
    (hw : s.WellFormed) (hp : s.live p) (hid : l.fileid = s.fileid p)
    (hoff : l.offset.toNat ≤ s.size p) :
    ∃ m buf resid, m ≤ (s.size p - l.offset.toNat + 127) / 128 + 1 ∧
      l.EndsAfter e junk s runs m (.read 0 buf resid) ∧ l.StaysWithin e junk s p runs m := by
  -- every reply brings the offset nearer to the end of the file
  induction hm : s.size p - l.offset.toNat using Nat.strong_induction_on generalizing l runs with
  | _ d ih =>
      by_cases hresid : l.resid = 0
      · exact ⟨0, _, _, Nat.zero_le _, .idle e junk s runs hresid, .idle hoff⟩
      · have hr := handleReadRequest_replied (junk runs) l.req hw hp hid hoff
        have hlen := hr.copylen
        have hsize := (hw.files p hp).size_lt
        rw [show l.req.offset = l.offset from rfl] at hlen
        have hnext : (l.deliver e (s.handleReadRequest (junk runs) l.req)).offset.toNat =
            l.offset.toNat + min (s.size p - l.offset.toNat) 128 := by
          simp only [ReadLoop.deliver, BitVec.toNat_add, BitVec.toNat_setWidth, hlen]
          omega
        by_cases hcopy : (s.handleReadRequest (junk runs) l.req).copylen = 0
        · refine ⟨1, l.buf, l.resid, by omega, .last hresid ?_, .step hoff hr.err (.idle ?_)⟩
          · rw [ReadLoop.reply, if_neg (not_not.mpr hr.err), if_pos hcopy, finish]
          · omega
        · have hpos : 0 < (s.handleReadRequest (junk runs) l.req).copylen.toNat :=
            Nat.pos_of_ne_zero fun hz => hcopy (BitVec.eq_of_toNat_eq hz)
          obtain ⟨m, buf, resid, hle, hends, hwithin⟩ :=
            ih _ (by omega) (l.deliver e (s.handleReadRequest (junk runs) l.req)) (runs + 1)
              hid (by omega) rfl
          refine ⟨m + 1, buf, resid, by omega, .step hresid ?_ hends, .step hoff hr.err hwithin⟩
          rw [ReadLoop.reply, if_neg (not_not.mpr hr.err), if_neg hcopy]

end Ends

/-- A read sends at most as many requests as the file has blocks, and two more. Once its first
reply was successful no offset lies past the end of the file, no reply is an error, and the
read succeeds. -/
def Store.ReadEnds (s : Store) (p : EntryPtr) (offset : Word64) (resid : Word) : Prop :=
  ∀ (e : Puffs) (junk : Nat → Junk) (runs : Nat) (buf : Memory),
    ∃ (l : ReadLoop) (m : Nat) (errno : Word) (buf' : Memory) (resid' : Word),
      nodeRead (s.fileid p) buf offset resid = .ret (.inl (.read l)) ∧
      m ≤ s.size p / 128 + 2 ∧ l.EndsAfter e junk s runs m (.read errno buf' resid') ∧
      ((l.answered e junk s runs 0).err = 0 → l.StaysWithin e junk s p runs m ∧ errno = 0)

/-- The loop of READ ends for every offset and every count. -/
theorem reads_end {s : Store} (h : s.Reachable) {p : EntryPtr} (hp : s.live p)
    (offset : Word64) (resid : Word) : s.ReadEnds p offset resid := by
  have hw := h.wellFormed
  intro e junk runs buf
  refine ⟨⟨s.fileid p, offset, 0, buf, resid⟩, ?_⟩
  by_cases hoff : offset.toNat ≤ s.size p
  · obtain ⟨m, buf', resid', hle, hends, hwithin⟩ :=
      readLoop_ends e junk ⟨s.fileid p, offset, 0, buf, resid⟩ runs hw hp rfl hoff
    exact ⟨m, 0, buf', resid', rfl, by omega, hends, fun _ => ⟨hwithin, rfl⟩⟩
  · have herr : (s.handleReadRequest (junk runs)
        (ReadLoop.req ⟨s.fileid p, offset, 0, buf, resid⟩)).err = 2 :=
      handleReadRequest_past (junk runs) hw hp rfl (Nat.not_le.mp hoff)
    have hfails : (ReadLoop.answered e junk s ⟨s.fileid p, offset, 0, buf, resid⟩
        runs 0).err ≠ 0 := by
      rw [ReadLoop.answered]
      exact fun hz => absurd (herr.symm.trans hz) (by decide)
    by_cases hresid : resid = 0
    · exact ⟨0, 0, buf, resid, rfl, Nat.zero_le _, .idle e junk s runs hresid,
        fun hz => absurd hz hfails⟩
    · refine ⟨1, 2, buf, resid, rfl, by omega, .last hresid ?_, fun hz => absurd hz hfails⟩
      rw [ReadLoop.reply, herr, if_pos (by decide), finish]

/-- Fifty bytes are wanted of a file of three hundred: the count wraps, and the loop ends. -/
theorem reads_end_wrapping :
    ∃ g : Gba, bootRun [.request (.setsize ⟨2, 300⟩)] = some g ∧
      g.store.ReadEnds testSlot 0 50 := by
  obtain ⟨g, hg, hlive⟩ := Option.map_eq_some_iff.mp
    (show (bootRun [.request (.setsize ⟨2, 300⟩)]).map (fun g =>
      decide (g.store.live testSlot)) = some true by decide +kernel)
  exact ⟨g, hg, reads_end ⟨g.phase, bootRun_reachable hg⟩ (of_decide_eq_true hlive) 0 50⟩

end WiiJoybus
