import WiiJoybus.Gba.Names
import WiiJoybus.Link.Calls

/-!
Listing a directory over the link.

READDIR asks for one entry after the other, by its number on the chain, until there
is none or the caller's buffer is full. Every record takes room, so the loop ends
even on a chain that does not.
-/

namespace WiiJoybus
open LinkedTable ByteMemory StructLayout Dialogue Dialogue.Network

namespace ReaddirLoop

variable (e : Puffs)

def answered (resp : ReaddirResp) : Option Dirent :=
  if resp.exists_ = 0 then none else some (dirent e resp)

/-- The loop over the entries that `listed` has for a message and a number. -/
def fill (listed : Nat → Word → Option Dirent) : (fuel n : Nat) → ReaddirLoop → ReaddirLoop
  | 0, _, l => l
  | fuel + 1, n, l =>
      match listed n l.req.n with
      | none => { l with eofflag := 1 }
      | some d =>
          match e.nextdent l.dent d with
          | (false, _) => l
          | (true, dent) => fill listed fuel (n + 1) (l.advance dent)

variable {e} {listed : Nat → Word → Option Dirent} {l : ReaddirLoop} {dent : DirentBuf} {d : Dirent}

theorem nextdent_true (h : e.nextdent l.dent d = (true, dent)) :
    e.reclen d.dName.length ≤ l.dent.reslen ∧
      dent = ⟨l.dent.dents ++ [d], l.dent.reslen - e.reclen d.dName.length⟩ := by
  rw [Puffs.nextdent] at h
  split at h
  · cases h
  · rename_i hroom
    cases h
    exact ⟨Nat.not_lt.mp hroom, rfl⟩

theorem nextdent_of_room (h : e.reclen d.dName.length ≤ l.dent.reslen) :
    e.nextdent l.dent d =
      (true, ⟨l.dent.dents ++ [d], l.dent.reslen - e.reclen d.dName.length⟩) := by
  rw [Puffs.nextdent, if_neg (Nat.not_lt.mpr h)]

theorem mem_fill {fuel n : Nat} (h : d ∈ (fill e listed fuel n l).dent.dents) :
    d ∈ l.dent.dents ∨ ∃ k num, listed k num = some d := by
  induction fuel generalizing n l with
  | zero => exact Or.inl h
  | succ fuel ih =>
      rw [fill] at h
      split at h
      · exact Or.inl h
      · rename_i d' hd'
        split at h
        · exact Or.inl h
        · rename_i dent hdent
          obtain ⟨_, rfl⟩ := nextdent_true hdent
          rcases ih h with hmem | hlisted
          · rcases List.mem_append.mp hmem with hold | hnew
            · exact Or.inl hold
            · rw [List.mem_singleton.mp hnew]
              exact Or.inr ⟨_, _, hd'⟩
          · exact Or.inr hlisted

theorem subset_fill {fuel n : Nat} (h : d ∈ l.dent.dents) :
    d ∈ (fill e listed fuel n l).dent.dents := by
  induction fuel generalizing n l with
  | zero => exact h
  | succ fuel ih =>
      rw [fill]
      split
      · exact h
      · split
        · exact h
        · rename_i dent hdent
          obtain ⟨_, rfl⟩ := nextdent_true hdent
          exact ih (List.mem_append_left _ h)

theorem req_n {i : Nat} (h : l.readoff = BitVec.ofNat 64 (2 + i)) :
    l.req.n = BitVec.ofNat 32 i := by
  apply BitVec.eq_of_toNat_eq
  have htwo : (2 : Word64).toNat = 2 := rfl
  change ((l.readoff - 2).setWidth 32).toNat = _
  simp only [h, BitVec.toNat_setWidth, BitVec.toNat_sub, BitVec.toNat_ofNat, htwo]
  omega

theorem fill_of_room {fuel n : Nat} (hd : listed n l.req.n = some d)
    (hroom : e.reclen d.dName.length ≤ l.dent.reslen) :
    fill e listed (fuel + 1) n l = fill e listed fuel (n + 1)
      (l.advance ⟨l.dent.dents ++ [d], l.dent.reslen - e.reclen d.dName.length⟩) := by
  simp only [fill, hd, nextdent_of_room hroom]

theorem fill_const (listed : Word → Option Dirent) (fuel n m : Nat) (l : ReaddirLoop) :
    fill e (fun _ => listed) fuel n l = fill e (fun _ => listed) fuel m l := by
  induction fuel generalizing n m l with
  | zero => rfl
  | succ fuel ih =>
      rw [fill, fill]
      cases listed l.req.n with
      | none => rfl
      | some d =>
          simp only
          split
          · rfl
          · exact ih _ _ _

/-- The entry number `i + m` gets into a buffer that has room for it and those before it. -/
theorem fill_lists (cap m i : Nat) {fuel n : Nat}
    (hoff : l.readoff = BitVec.ofNat 64 (2 + i)) (hroom : (m + 1) * cap ≤ l.dent.reslen)
    (hfuel : m < fuel)
    (hlisted : ∀ t < m, ∀ k, ∃ d, listed k (BitVec.ofNat 32 (i + t)) = some d ∧
      e.reclen d.dName.length ≤ cap)
    (hd : ∀ k, listed k (BitVec.ofNat 32 (i + m)) = some d) (hcap : e.reclen d.dName.length ≤ cap) :
    d ∈ (fill e listed fuel n l).dent.dents := by
  rw [Nat.succ_mul] at hroom
  induction m generalizing i fuel n l with
  | zero =>
      obtain ⟨fuel, rfl⟩ := Nat.exists_eq_add_of_lt hfuel
      have hnow : listed n l.req.n = some d := req_n hoff ▸ hd n
      rw [fill_of_room hnow (by omega)]
      exact subset_fill (List.mem_append_right _ (List.mem_singleton.mpr rfl))
  | succ m ih =>
      obtain ⟨fuel, rfl⟩ := Nat.exists_eq_add_of_lt (Nat.lt_of_succ_lt hfuel)
      obtain ⟨d', hd', hcap'⟩ := hlisted 0 (Nat.succ_pos m) n
      have hnow : listed n l.req.n = some d' := req_n hoff ▸ hd'
      rw [fill_of_room hnow (by omega)]
      have hoff' : l.readoff + 1 = BitVec.ofNat 64 (2 + (i + 1)) := by
        rw [hoff, ← Nat.add_assoc, BitVec.ofNat_add (2 + i) 1]
        rfl
      rw [Nat.succ_mul] at hroom
      refine ih (i + 1) hoff' ?_ (by omega) ?_ ?_
      · simp only [advance]
        omega
      · intro t ht k
        rw [Nat.add_right_comm]
        exact hlisted (t + 1) (by omega) k
      · intro k
        rw [Nat.add_right_comm]
        exact hd k

end ReaddirLoop

section Meets

variable (e : Puffs) (junk : Nat → Junk) (s : Store) {id : Word}

theorem round_readdir (runs : Nat) (l : ReaddirLoop) :
    (link e junk).Round linkCubeQueueSize (l.body e)
      (l.reply e (s.handleReaddirRequest (junk runs) l.req)) (.ret (.inl ⟨⟨s, .dispatch⟩, runs⟩))
      (.ret (.inl ⟨⟨s, .dispatch⟩, runs + 1⟩)) (Cmd.readdir.code :: structWords wii e.stack l.req)
      (structWords gba (junk runs).stack (s.handleReaddirRequest (junk runs) l.req)) :=
  round_command (fun req => some (s.handleReaddirRequest (junk runs) req, ⟨s, .dispatch⟩))
    (h := ⟨⟨s, .dispatch⟩, runs⟩) rfl rfl l.req.sswap_swapped rfl
    (congrArg (l.reply e) (ReaddirResp.sswap_swapped _))

/-- The loop ends when it is allowed more exchanges than there is room. -/
theorem readdirLoop_meets (l : ReaddirLoop) (hid : l.id = id) (fuel : Nat)
    (hfuel : l.dent.reslen < fuel) (runs : Nat) :
    ∃ n, (link e junk).Meets linkCubeQueueSize (.ret (.inl (.readdir l)))
      (.ret (.inl ⟨⟨s, .dispatch⟩, runs⟩))
      (.readdir 0 (l.fill e (fun k num =>
        ReaddirLoop.answered e (s.handleReaddirRequest (junk k) ⟨id, num⟩)) fuel runs))
      ⟨⟨s, .dispatch⟩, n⟩ := by
  induction fuel generalizing l runs with
  | zero => omega
  | succ fuel ih =>
      have hround := round_readdir e junk s runs l
      have hreq : l.req = ⟨id, l.req.n⟩ := by rw [← hid]; rfl
      rw [ReaddirLoop.reply, hreq] at hround
      rw [ReaddirLoop.fill]
      by_cases hend : (s.handleReaddirRequest (junk runs) ⟨id, l.req.n⟩).exists_ = 0
      · rw [if_pos hend] at hround
        refine ⟨runs + 1, .client_loop (hround.meets ?_)⟩
        simp only [ReaddirLoop.answered, if_pos hend]
        exact .done rfl
      · rw [if_neg hend] at hround
        simp only [ReaddirLoop.answered, if_neg hend]
        generalize ReaddirLoop.dirent e (s.handleReaddirRequest (junk runs) ⟨id, l.req.n⟩) = d at *
        cases hnext : e.nextdent l.dent d with
        | mk fits dent =>
            rw [hnext] at hround
            cases fits with
            | false => exact ⟨runs + 1, .client_loop (hround.meets (.done rfl))⟩
            | true =>
                obtain ⟨hroom, rfl⟩ := ReaddirLoop.nextdent_true hnext
                have hpos := e.reclen_pos d.dName.length
                have hless : l.dent.reslen - e.reclen d.dName.length < fuel := by omega
                obtain ⟨n, hn⟩ := ih (l.advance ⟨l.dent.dents ++ [d], _⟩) hid hless (runs + 1)
                exact ⟨n, .client_loop (hround.meets hn)⟩

end Meets

section Listed

variable {s : Store} {d q : EntryPtr}

def Store.direntOf (s : Store) (e : Puffs) (p : EntryPtr) : Dirent :=
  ⟨(s.fileid p).setWidth 64, s.nameOf p, e.vtype2dt (s.entries p).vaType⟩

def Store.listed (s : Store) (e : Puffs) (id num : Word) : Option Dirent :=
  match s.findById id with
  | none => none
  | some parent => (nth s.next num.toInt.toNat (s.child parent)).map (s.direntOf e)

/-- The name survives the copies when it ends within its array. -/
theorem answered_eq_listed (h : s.Terminated) (e : Puffs) (j : Junk) (id num : Word) :
    ReaddirLoop.answered e (s.handleReaddirRequest j ⟨id, num⟩) = s.listed e id num := by
  rw [Store.listed, Store.handleReaddirRequest]
  cases hid : s.findById id with
  | none => rfl
  | some parent =>
      simp only
      rw [Store.child]
      cases hnth : nth s.next num.toInt.toNat (s.entries parent).child with
      | none => rfl
      | some q =>
          have hname := CString.ofArray_put (CString.zero_notMem_ofArray _) (h q)
            ((j.uninit : ReaddirResp)).name
          simp only [ReaddirLoop.answered, ReaddirLoop.dirent, Option.map_some]
          rw [if_neg (by decide)]
          exact congrArg some (congrArg (fun name => Dirent.mk _ name _) hname)

/-- READDIR before its first request. -/
def readdirStart (e : Puffs) (opc : Word) (dent : DirentBuf) (readoff : Word64) (eofflag : Word)
    (wanted : Bool) : ReaddirLoop :=
  (ReaddirLoop.dot e ⟨opc, readoff, dent, eofflag, if wanted then some [] else none⟩ false).dot e
    true

theorem readdirStart_id (e : Puffs) (opc : Word) (dent : DirentBuf) (readoff : Word64)
    (eofflag : Word) (wanted : Bool) :
    (readdirStart e opc dent readoff eofflag wanted).id = opc := by
  have hdot : ∀ (l : ReaddirLoop) (dotdot : Bool), (l.dot e dotdot).id = l.id := by
    intro l dotdot
    rw [ReaddirLoop.dot]
    split_ifs <;> rfl
  rw [readdirStart, hdot, hdot]

def Store.listing (s : Store) (e : Puffs) (opc : Word) (dent : DirentBuf) (readoff : Word64)
    (eofflag : Word) (wanted : Bool) : ReaddirLoop :=
  (readdirStart e opc dent readoff eofflag wanted).fill e (fun _ => s.listed e opc)
    ((readdirStart e opc dent readoff eofflag wanted).dent.reslen + 1) 0

theorem calls_readdir (h : s.Terminated) (e : Puffs) (junk : Nat → Junk) (runs : Nat) (opc : Word)
    (dent : DirentBuf) (readoff : Word64) (eofflag : Word) (wanted : Bool) :
    Calls e junk s runs (nodeReaddir e opc dent readoff eofflag wanted)
      (some (.readdir 0 (s.listing e opc dent readoff eofflag wanted), s)) := by
  have hmeets := readdirLoop_meets e junk s (readdirStart e opc dent readoff eofflag wanted)
    (readdirStart_id e opc dent readoff eofflag wanted) _ (Nat.lt_succ_self _) runs
  simp only [answered_eq_listed h] at hmeets
  rw [ReaddirLoop.fill_const (s.listed e opc) _ runs 0] at hmeets
  exact hmeets

end Listed

section Directory

variable {s : Store} {e : Puffs} {d q : EntryPtr} {opc : Word} {dent : DirentBuf} {x : Dirent}
variable {readoff : Word64} {eofflag : Word} {wanted : Bool}

def dotDirent (dotdot : Bool) : Dirent := ⟨1, if dotdot then [46, 46] else [46], dtDir⟩

theorem dot_dent (e : Puffs) (l : ReaddirLoop) (dotdot : Bool) :
    (l.dot e dotdot).dent = l.dent ∨ (l.dot e dotdot).dent =
      ⟨l.dent.dents ++ [dotDirent dotdot],
        l.dent.reslen - e.reclen (dotDirent dotdot).dName.length⟩ := by
  have hgen : e.gendotdent l.dent 1 dotdot = l.dent ∨ e.gendotdent l.dent 1 dotdot =
      ⟨l.dent.dents ++ [dotDirent dotdot],
        l.dent.reslen - e.reclen (dotDirent dotdot).dName.length⟩ := by
    rw [show e.gendotdent l.dent 1 dotdot = (e.nextdent l.dent (dotDirent dotdot)).2 from rfl,
      Puffs.nextdent]
    by_cases hroom : e.reclen (dotDirent dotdot).dName.length > l.dent.reslen
    · rw [if_pos hroom]
      exact Or.inl rfl
    · rw [if_neg hroom]
      exact Or.inr rfl
  rw [ReaddirLoop.dot]
  by_cases hturn : l.readoff = (if dotdot then 1 else 0)
  · rw [if_pos hturn]
    exact hgen
  · rw [if_neg hturn]
    exact Or.inl rfl

theorem mem_readdirStart {reslen : Nat}
    (h : x ∈ (readdirStart e opc ⟨[], reslen⟩ readoff eofflag wanted).dent.dents) :
    ∃ dotdot, x = dotDirent dotdot := by
  rw [readdirStart] at h
  generalize hl : ReaddirLoop.dot e ⟨opc, readoff, ⟨[], reslen⟩, eofflag, _⟩ false = l at h
  have hfirst : ∀ y ∈ l.dent.dents, y = dotDirent false := by
    rw [← hl]
    intro y hy
    rcases dot_dent e ⟨opc, readoff, ⟨[], reslen⟩, eofflag, _⟩ false with heq | heq
    · rw [heq] at hy
      cases hy
    · rw [heq] at hy
      simpa using hy
  rcases dot_dent e l true with heq | heq
  · rw [heq] at h
    exact ⟨false, hfirst x h⟩
  · rw [heq] at h
    rcases List.mem_append.mp h with hold | hnew
    · exact ⟨false, hfirst x hold⟩
    · exact ⟨true, List.mem_singleton.mp hnew⟩

/-- The buffer has room for two dots and as many entries as there can be. -/
def Roomy (e : Puffs) (reslen : Nat) : Prop :=
  ∃ cap, (∀ k < 32, e.reclen k ≤ cap) ∧ (entriesMax + 2) * cap ≤ reslen

theorem readdirStart_zero (opc : Word) (reslen : Nat) (eofflag : Word) (wanted : Bool) {cap : Nat}
    (hcap : ∀ k < 32, e.reclen k ≤ cap) :
    (readdirStart e opc ⟨[], reslen⟩ 0 eofflag wanted).readoff = 2 ∧
      reslen ≤ (readdirStart e opc ⟨[], reslen⟩ 0 eofflag wanted).dent.reslen + 2 * cap := by
  refine ⟨rfl, ?_⟩
  have hless : ∀ (l : ReaddirLoop) (dotdot : Bool),
      l.dent.reslen ≤ (l.dot e dotdot).dent.reslen + cap := by
    intro l dotdot
    have hrec : e.reclen (dotDirent dotdot).dName.length ≤ cap := by
      refine hcap _ ?_
      cases dotdot <;> decide
    rcases dot_dent e l dotdot with heq | heq
    · rw [heq]
      omega
    · rw [heq]
      simp only
      omega
  have hone := hless ⟨opc, 0, ⟨[], reslen⟩, eofflag, if wanted then some [] else none⟩ false
  have htwo := hless (ReaddirLoop.dot e
    ⟨opc, 0, ⟨[], reslen⟩, eofflag, if wanted then some [] else none⟩ false) true
  rw [readdirStart]
  simp only at hone
  omega

theorem listed_eq {id num : Word} (hw : s.WellFormed) (hd : s.live d) (hid : id = s.fileid d) :
    s.listed e id num = (nth s.next num.toInt.toNat (s.child d)).map (s.direntOf e) := by
  rw [Store.listed, hid, hw.findById hd]

/-- Whatever READDIR delivers for a directory is one of the dots or an entry of its chain. -/
theorem mem_listing {reslen : Nat} (hw : s.WellFormed) (hd : s.live d)
    (h : x ∈ (s.listing e (s.fileid d) ⟨[], reslen⟩ readoff eofflag wanted).dent.dents) :
    (∃ dotdot, x = dotDirent dotdot) ∨
      ∃ k q, nth s.next k (s.child d) = some q ∧ x = s.direntOf e q := by
  rcases ReaddirLoop.mem_fill h with hstart | ⟨_, num, hnum⟩
  · exact Or.inl (mem_readdirStart hstart)
  · rw [listed_eq hw hd rfl] at hnum
    obtain ⟨q, hq, rfl⟩ := Option.map_eq_some_iff.mp hnum
    exact Or.inr ⟨_, q, hq, rfl⟩

/-- A buffer with enough room gets every entry the walk comes to. -/
theorem direntOf_mem_listing {reslen : Nat} {u : List EntryPtr} (h : s.Terminated)
    (hw : s.WellFormed) (hd : s.live d) (hroom : Roomy e reslen)
    (hwalk : Begins s.next (s.child d) (u ++ [q])) (hlen : (u ++ [q]).length ≤ entriesMax)
    (eofflag : Word) (wanted : Bool) :
    s.direntOf e q ∈ (s.listing e (s.fileid d) ⟨[], reslen⟩ 0 eofflag wanted).dent.dents := by
  obtain ⟨cap, hcap, hroom⟩ := hroom
  have hmax : entriesMax = 20 := rfl
  rw [List.length_append, List.length_singleton, hmax] at hlen
  have hnum : ∀ k < 20, (BitVec.ofNat 32 k).toInt.toNat = k := by decide
  have hget : ∀ k ≤ u.length, ∃ p, nth s.next k (s.child d) = some p := by
    intro k hk
    have hlt : k < (u ++ [q]).length := by
      rw [List.length_append, List.length_singleton]
      omega
    exact ⟨(u ++ [q])[k], by rw [hwalk k hlt, List.getElem?_eq_getElem hlt]⟩
  have hlast : nth s.next u.length (s.child d) = some q := by
    rw [hwalk u.length (by simp)]
    simp
  obtain ⟨hoff, hreslen⟩ := readdirStart_zero (s.fileid d) reslen eofflag wanted hcap
  have hneed : (u.length + 1) * cap ≤ 20 * cap := Nat.mul_le_mul_right cap hlen
  rw [hmax] at hroom
  refine ReaddirLoop.fill_lists cap u.length 0 hoff ?_ ?_ ?_ ?_ (hcap _ (h q))
  · omega
  · have hone := Nat.le_trans (e.reclen_pos 0) (hcap 0 (by decide))
    have hle := Nat.le_mul_of_pos_right (u.length + 1) hone
    omega
  · intro t ht k
    obtain ⟨p, hp⟩ := hget t (Nat.le_of_lt ht)
    refine ⟨s.direntOf e p, ?_, hcap _ (h p)⟩
    rw [listed_eq hw hd rfl, Nat.zero_add, hnum t (by omega), hp]
    rfl
  · intro k
    rw [listed_eq hw hd rfl, Nat.zero_add, hnum _ (by omega), hlast]
    rfl

end Directory

end WiiJoybus
