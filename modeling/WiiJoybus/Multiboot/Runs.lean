import WiiJoybus.Multiboot.Multiboot

/-!
What a run of `multiboot` shows.

Each part of the program determines what it reads of the image and what it
writes to the port; only the answers of the GBA are open.
-/

namespace WiiJoybus
open ByteMemory Port

variable {α : Type} {rom : Memory} {ev : List Event} {i : Nat}

section Serial

/-- The value of a GBA_WRITE, byte by byte. -/
def written? : Event → Option (List Byte)
  | .transfer (cmd :: val) _ => if cmd = gbaWriteCmd then some val else none
  | _ => none

theorem runs_siSend {out : List Byte} {k : Memory → Prog α} {a : α}
    (h : Runs rom (siSend out k) ev a) :
    ∃ input ev', ev = .transfer out (some input) :: ev' ∧ Runs rom (k input) ev' a := by
  cases h with
  | @transfer _ _ reply ev' _ h =>
      cases reply with
      | none => cases h
      | some input => exact ⟨input, ev', rfl, h⟩

theorem runs_gbaWrite {val res : Word} (h : Runs rom (gbaWrite val) ev res) :
    ∃ input, ev = [.transfer (gbaWriteCmd :: hostBytes val) (some input)] := by
  obtain ⟨input, ev', rfl, hret⟩ := runs_siSend h
  obtain ⟨rfl, _⟩ := hret.of_ret
  exact ⟨input, rfl⟩

theorem runs_gbaRead {res : Word} (h : Runs rom gbaRead ev res) :
    ∃ input, ev = [.transfer [gbaReadCmd] (some input)] ∧
      res = ByteMemory.load .big 32 input 0 := by
  obtain ⟨input, ev', rfl, hret⟩ := runs_siSend h
  obtain ⟨rfl, hres⟩ := hret.of_ret
  exact ⟨input, rfl, hres⟩

theorem runs_command8 {cmd res : Word} (h : Runs rom (command8 cmd) ev res) :
    ∃ input, ev = [.transfer ((hostBytes cmd).take 1) (some input)] ∧
      res = ByteMemory.load .big 32 input 0 := by
  obtain ⟨input, ev', rfl, hret⟩ := runs_siSend h
  obtain ⟨rfl, hres⟩ := hret.of_ret
  exact ⟨input, rfl, hres⟩

end Serial

section Words

theorem joined_eq_load (e : Endian) (m : Memory) (off : Nat) :
    joined (m (off + e.place 32 3)) (m (off + e.place 32 2)) (m (off + e.place 32 1))
      (m (off + e.place 32 0)) = ByteMemory.load e 32 m off := by
  apply BitVec.eq_of_getLsbD_eq
  intro j hj
  obtain ⟨k, i, hi, rfl⟩ : ∃ k i, i < 8 ∧ j = 8 * k + i :=
    ⟨j / 8, j % 8, Nat.mod_lt _ (by decide), by omega⟩
  have hk : k = 0 ∨ k = 1 ∨ k = 2 ∨ k = 3 := by omega
  rw [getLsbD_load _ _ _ _ _ hj, show (8 * k + i) / 8 = k by omega,
    show (8 * k + i) % 8 = i by omega]
  rcases hk with rfl | rfl | rfl | rfl <;>
    simp (disch := omega) [joined, BitVec.getLsbD_of_ge] <;> intros <;> omega

/-- The word of an image at a position, its lowest byte first. -/
def romWord (rom : Memory) (i : Nat) : Word := ByteMemory.load .little 32 rom i

/-- The word the machine has there, its highest byte first. -/
def hostWord (rom : Memory) (i : Nat) : Word := ByteMemory.load .big 32 rom i

theorem runs_loadHost {val : Word} (h : Runs rom (loadHost i) ev val) :
    val = hostWord rom i ∧ ev = [.load i, .load (i + 1), .load (i + 2), .load (i + 3)] := by
  cases h with | load h => cases h with | load h => cases h with | load h => cases h with
    | load h =>
        obtain ⟨rfl, rfl⟩ := h.of_ret
        exact ⟨joined_eq_load .big rom i, rfl⟩

theorem runs_loadEnc {val : Word} (h : Runs rom (loadEnc i) ev val) :
    val = romWord rom i ∧ ev = [.load (i + 3), .load (i + 2), .load (i + 1), .load i] := by
  cases h with | load h => cases h with | load h => cases h with | load h => cases h with
    | load h =>
        obtain ⟨rfl, rfl⟩ := h.of_ret
        exact ⟨joined_eq_load .little rom i, rfl⟩

end Words

section Loops

variable {st st' : Body}

theorem runs_sendHeaderWord {u u' : Unit} (h : Runs rom (sendHeaderWord i u) ev u') :
    ∃ input, ev = [.load i, .load (i + 1), .load (i + 2), .load (i + 3),
      .transfer (gbaWriteCmd :: hostBytes (hostWord rom i)) (some input)] := by
  obtain ⟨ev₁, val, ev₂, rfl, hval, h₂⟩ := Runs.of_bind h
  obtain ⟨rfl, rfl⟩ := runs_loadHost hval
  obtain ⟨ev₃, _, ev₄, rfl, hwrite, h₄⟩ := Runs.of_bind h₂
  obtain ⟨rfl, _⟩ := h₄.of_ret
  obtain ⟨input, rfl⟩ := runs_gbaWrite hwrite
  exact ⟨input, rfl⟩

def Body.next (rom : Memory) (i : Nat) (st : Body) : Body :=
  ⟨docrc st.fcrc (romWord rom i), nextKey st.sessionkey⟩

def Body.sent (rom : Memory) (i : Nat) (st : Body) : List Byte :=
  hostBytes (bswap (scramble (romWord rom i) (nextKey st.sessionkey) i))

theorem runs_sendWord (h : Runs rom (sendWord i st) ev st') :
    st' = st.next rom i ∧ ∃ input, ev =
      [.load (i + 3), .load (i + 2), .load (i + 1), .load i,
        .transfer (gbaWriteCmd :: st.sent rom i) (some input)] := by
  obtain ⟨ev₁, enc, ev₂, rfl, henc, h₂⟩ := Runs.of_bind h
  obtain ⟨rfl, rfl⟩ := runs_loadEnc henc
  obtain ⟨ev₃, _, ev₄, rfl, hwrite, h₄⟩ := Runs.of_bind h₂
  obtain ⟨rfl, rfl⟩ := h₄.of_ret
  obtain ⟨input, rfl⟩ := runs_gbaWrite hwrite
  exact ⟨rfl, input, rfl⟩

variable {is : List Nat}

theorem sendHeader_index {u u' : Unit} (h : Runs rom (.loop sendHeaderWord is u) ev u') :
    ev.filterMap Event.index? = is.flatMap fun i => [i, i + 1, i + 2, i + 3] := by
  refine Runs.loop_shows Event.index? _ (fun i u ev u' h => ?_) h
  obtain ⟨input, rfl⟩ := runs_sendHeaderWord h
  rfl

theorem sendBody_index (h : Runs rom (.loop sendWord is st) ev st') :
    ev.filterMap Event.index? = is.flatMap fun i => [i + 3, i + 2, i + 1, i] := by
  refine Runs.loop_shows Event.index? _ (fun i st ev st' h => ?_) h
  obtain ⟨rfl, input, rfl⟩ := runs_sendWord h
  rfl

end Loops

section Whole

/-- A part of a run in which nothing of the image is read and no value is written. -/
def Quiet (ev : List Event) : Prop :=
  ev.filterMap written? = [] ∧ ev.filterMap Event.index? = []

theorem Quiet.append {ev ev' : List Event} (h : Quiet ev) (h' : Quiet ev') : Quiet (ev ++ ev') :=
  ⟨by rw [List.filterMap_append, h.1, h'.1, List.nil_append],
    by rw [List.filterMap_append, h.2, h'.2, List.nil_append]⟩

theorem quiet_nil : Quiet [] := ⟨rfl, rfl⟩

theorem runs_attempt {again : Prog Bool} {ok : Bool} (h : Runs rom (awaitReady.attempt again) ev ok)
    (hagain : ∀ ev ok, Runs rom again ev ok → Quiet ev) : Quiet ev := by
  obtain ⟨ev₁, _, ev₂, rfl, hreset, h₂⟩ := Runs.of_bind h
  obtain ⟨ev₃, res, ev₄, rfl, hident, h₄⟩ := Runs.of_bind h₂
  obtain ⟨_, rfl, _⟩ := runs_command8 hreset
  obtain ⟨_, rfl, _⟩ := runs_command8 hident
  refine Quiet.append ⟨rfl, rfl⟩ (Quiet.append ⟨rfl, rfl⟩ ?_)
  split at h₄
  · obtain ⟨rfl, _⟩ := h₄.of_ret
    exact quiet_nil
  · exact hagain _ _ h₄

theorem runs_awaitReady {left : Nat} {ok : Bool} (h : Runs rom (awaitReady left) ev ok) :
    Quiet ev := by
  induction left generalizing ev ok with
  | zero =>
      exact runs_attempt h fun ev ok h => by
        obtain ⟨rfl, _⟩ := h.of_ret
        exact quiet_nil
  | succ left ih => exact runs_attempt h fun ev ok h => ih h

/-- The parts of a run of `sendRom`, in their order. -/
structure Sends (rom : Memory) (size : Word) (ev : List Event) (raw : Word)
    (header body : List Event) (st : Body) : Prop where
  events : ∃ r₁ r₂ r₃ r₄ : Memory, raw = ByteMemory.load .big 32 r₁ 0 ∧
    ev = [.transfer [gbaReadCmd] (some r₁)] ++
      ([.transfer (gbaWriteCmd :: hostBytes (calckey (roundUp8 size))) (some r₂)] ++
      (header ++ (body ++
      ([.transfer (gbaWriteCmd :: hostBytes (bswap (trailer (roundUp8 size) st))) (some r₃)] ++
      [.transfer [gbaReadCmd] (some r₄)]))))
  header : Runs rom sendHeader header ()
  body : Runs rom (sendBody (roundUp8 size) (sessionKey raw)) body st

theorem runs_sendRom {size : Word} {u : Unit} (h : Runs rom (sendRom size) ev u) :
    ∃ raw header body st, Sends rom size ev raw header body st := by
  obtain ⟨_, raw, _, rfl, hraw, hafterRaw⟩ := Runs.of_bind h
  obtain ⟨r₁, rfl, hr₁⟩ := runs_gbaRead hraw
  obtain ⟨_, _, _, rfl, hkey, hafterKey⟩ := Runs.of_bind hafterRaw
  obtain ⟨r₂, rfl⟩ := runs_gbaWrite hkey
  obtain ⟨header, _, _, rfl, hheader, hafterHeader⟩ := Runs.of_bind hafterKey
  obtain ⟨body, st, _, rfl, hbody, hafterBody⟩ := Runs.of_bind hafterHeader
  obtain ⟨_, _, _, rfl, hlast, hafterLast⟩ := Runs.of_bind hafterBody
  obtain ⟨r₃, rfl⟩ := runs_gbaWrite hlast
  obtain ⟨_, _, _, rfl, hread, hret⟩ := Runs.of_bind hafterLast
  obtain ⟨r₄, rfl, _⟩ := runs_gbaRead hread
  obtain ⟨rfl, _⟩ := hret.of_ret
  exact ⟨raw, header, body, st, ⟨r₁, r₂, r₃, r₄, hr₁, by simp only [List.append_nil]⟩, hheader,
    hbody⟩

theorem runs_multiboot {size : Word} (h : Runs rom (multiboot size) ev 0) :
    ∃ pre rest raw header body st, ev = pre ++ rest ∧ Quiet pre ∧
      Sends rom size rest raw header body st := by
  obtain ⟨pre, ready, rest, rfl, hready, hrest⟩ := Runs.of_bind h
  cases ready with
  | false =>
      obtain ⟨_, habs⟩ := hrest.of_ret
      exact absurd habs (by decide)
  | true =>
      obtain ⟨rest, _, _, rfl, hsend, hret⟩ := Runs.of_bind hrest
      obtain ⟨rfl, _⟩ := hret.of_ret
      obtain ⟨raw, header, body, st, hs⟩ := runs_sendRom hsend
      exact ⟨pre, rest, raw, header, body, st, by rw [List.append_nil], runs_awaitReady hready, hs⟩

theorem multiboot_index {size : Word} (h : Runs rom (multiboot size) ev 0) :
    ev.filterMap Event.index? = (headerOffsets.flatMap fun i => [i, i + 1, i + 2, i + 3]) ++
      (bodyOffsets (roundUp8 size)).flatMap fun i => [i + 3, i + 2, i + 1, i] := by
  obtain ⟨pre, rest, raw, header, body, st, rfl, hquiet, hs⟩ := runs_multiboot h
  obtain ⟨r₁, r₂, r₃, r₄, _, rfl⟩ := hs.events
  have hheader : header.filterMap Event.index? = _ := sendHeader_index hs.header
  have hbody : body.filterMap Event.index? = _ := sendBody_index hs.body
  have htransfer : ∀ (out : List Byte) (reply : Option Memory),
      [Event.transfer out reply].filterMap Event.index? = [] := fun _ _ => rfl
  simp only [List.filterMap_append, hquiet.2, hheader, hbody, htransfer, List.nil_append,
    List.append_nil]

end Whole

section Existence

def ones : Memory := fun _ => 255

theorem exists_gbaWrite (rom : Memory) (val : Word) : ∃ ev res, Runs rom (gbaWrite val) ev res :=
  ⟨_, _, .transfer (r := some ones) (.ret _)⟩

theorem exists_gbaRead (rom : Memory) : ∃ ev res, Runs rom gbaRead ev res :=
  ⟨_, _, .transfer (r := some ones) (.ret _)⟩

theorem exists_loadHost (rom : Memory) (i : Nat) :
    ∃ ev, Runs rom (loadHost i) ev (hostWord rom i) := by
  rw [hostWord, ← joined_eq_load]
  exact ⟨_, .load (.load (.load (.load (.ret _))))⟩

theorem exists_loadEnc (rom : Memory) (i : Nat) :
    ∃ ev, Runs rom (loadEnc i) ev (romWord rom i) := by
  rw [romWord, ← joined_eq_load]
  exact ⟨_, .load (.load (.load (.load (.ret _))))⟩

theorem exists_sendHeader (rom : Memory) : ∃ ev, Runs rom sendHeader ev () := by
  have hword : ∀ (i : Nat) (u : Unit), ∃ ev, Runs rom (sendHeaderWord i u) ev () := by
    intro i u
    obtain ⟨ev₁, hload⟩ := exists_loadHost rom i
    obtain ⟨ev₂, _, hwrite⟩ := exists_gbaWrite rom (hostWord rom i)
    exact ⟨_, hload.bind (hwrite.bind (.ret ()))⟩
  obtain ⟨ev, h⟩ := runs_loop hword headerOffsets ()
  exact ⟨ev, h⟩

theorem exists_sendBody (rom : Memory) (sendsize key : Word) :
    ∃ ev st, Runs rom (sendBody sendsize key) ev st := by
  have hword : ∀ (i : Nat) (st : Body), ∃ ev, Runs rom (sendWord i st) ev (st.next rom i) := by
    intro i st
    obtain ⟨ev₁, hload⟩ := exists_loadEnc rom i
    obtain ⟨ev₂, _, hwrite⟩ :=
      exists_gbaWrite rom (bswap (scramble (romWord rom i) (nextKey st.sessionkey) i))
    exact ⟨_, hload.bind (hwrite.bind (.ret _))⟩
  obtain ⟨ev, h⟩ := runs_loop hword (bodyOffsets sendsize) ⟨0x15A0, key⟩
  exact ⟨ev, _, h⟩

theorem exists_awaitReady (rom : Memory) (left : Nat) :
    ∃ ev, Runs rom (awaitReady (left + 1)) ev true := by
  have hreset : Runs rom cmdReset _ _ := .transfer (r := some ones) (.ret _)
  have hident : Runs rom cmdIdentify _ (ByteMemory.load .big 32 ones 0) :=
    .transfer (r := some ones) (.ret _)
  have hready : Runs rom (if ByteMemory.load .big 32 ones 0 &&& 0x00001000 ≠ 0 then .ret true
      else awaitReady left) [] true := by
    rw [if_pos (by decide +kernel)]
    exact .ret true
  exact ⟨_, hreset.bind (hident.bind hready)⟩

/-- There is a run for every image and every size. -/
theorem exists_multiboot (rom : Memory) (size : Word) : ∃ ev, Runs rom (multiboot size) ev 0 := by
  obtain ⟨ev₁, hready⟩ := exists_awaitReady rom mbMaxRetry
  obtain ⟨ev₂, raw, hraw⟩ := exists_gbaRead rom
  obtain ⟨ev₃, _, hkey⟩ := exists_gbaWrite rom (calckey (roundUp8 size))
  obtain ⟨ev₄, hheader⟩ := exists_sendHeader rom
  obtain ⟨ev₅, st, hbody⟩ := exists_sendBody rom (roundUp8 size) (sessionKey raw)
  obtain ⟨ev₆, _, hlast⟩ := exists_gbaWrite rom (bswap (trailer (roundUp8 size) st))
  obtain ⟨ev₇, _, hread⟩ := exists_gbaRead rom
  have hsend : Runs rom (sendRom size) _ () :=
    hraw.bind (hkey.bind (hheader.bind (hbody.bind (hlast.bind (hread.bind (.ret ()))))))
  have hrest : Runs rom (if true then sendRom size >>= fun _ => .ret (0 : Word) else .ret 1) _ 0 :=
    hsend.bind (.ret 0)
  rw [multiboot]
  exact ⟨_, hready.bind hrest⟩

end Existence

end WiiJoybus
