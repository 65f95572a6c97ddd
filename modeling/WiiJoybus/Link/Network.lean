import WiiJoybus.Gba.Server
import WiiJoybus.Library.Exchange
import WiiJoybus.Shared.Codec
import WiiJoybus.Wii.Client

/-!
The two programs on one link.

An exchange is one round: the command word and the words of a request one way,
the words of the reply the other way. A handler that never ends leaves the Wii
waiting. Every operation is played from such rounds.
-/

namespace WiiJoybus
open ByteMemory StructLayout Dialogue Dialogue.Network

abbrev Heads : Side → Type
  | wii => WiiHead
  | gba => GbaHead

abbrev Outs : Side → Type
  | wii => Outcome
  | gba => Empty

abbrev GbaProc := Proc Word (GbaHead ⊕ Empty)

def link (e : Puffs) (junk : Nat → Junk) : Network Word Heads Outs where
  wire := joybus
  idle := idle
  body
    | wii => WiiHead.body e
    | gba => GbaHead.body junk
  home := GbaHead.Home
  home_recv := GbaHead.home_recv junk

/-- LINK_CUBE_QUEUE_SIZE -/
def linkCubeQueueSize : Nat := 120

/-- A message whose words, and a command word before them, fit into the queue. -/
class Fits (α : Type) [CStruct α] : Prop where
  sizeof_pos : 1 ≤ sizeof α
  words_lt : (sizeof α + 3) / 4 + ((sizeof α + 3) / 4 + 30) / 31 < linkCubeQueueSize

section Messages

instance : Fits StatvfsResp := ⟨by decide, by decide⟩

instance : Fits ReaddirReq := ⟨by decide, by decide⟩

instance : Fits ReaddirResp := ⟨by decide, by decide⟩

instance : Fits LookupReq := ⟨by decide, by decide⟩

instance : Fits LookupResp := ⟨by decide, by decide⟩

instance : Fits GetattrReq := ⟨by decide, by decide⟩

instance : Fits GetattrResp := ⟨by decide, by decide⟩

instance : Fits CreateReq := ⟨by decide, by decide⟩

instance : Fits WriteReq := ⟨by decide, by decide⟩

instance : Fits WriteResp := ⟨by decide, by decide⟩

instance : Fits WriteBufReq := ⟨by decide, by decide⟩

instance : Fits WriteBufResp := ⟨by decide, by decide⟩

instance : Fits ReadReq := ⟨by decide, by decide⟩

instance : Fits ReadResp := ⟨by decide, by decide⟩

instance : Fits RmReq := ⟨by decide, by decide⟩

instance : Fits RmResp := ⟨by decide, by decide⟩

instance : Fits ReclaimReq := ⟨by decide, by decide⟩

instance : Fits ReclaimResp := ⟨by decide, by decide⟩

instance : Fits SetattrReq := ⟨by decide, by decide⟩

instance : Fits SetattrResp := ⟨by decide, by decide⟩

end Messages

section Swaps

@[simp] theorem ReaddirReq.sswap_swapped (r : ReaddirReq) :
    sswap (swapped r) = r := swapped_swapped r

@[simp] theorem LookupReq.sswap_swapped (r : LookupReq) :
    sswap (swapped r) = r := swapped_swapped r

@[simp] theorem GetattrReq.sswap_swapped (r : GetattrReq) :
    sswap (swapped r) = r := swapped_swapped r

@[simp] theorem CreateReq.sswap_swapped (r : CreateReq) :
    sswap (swapped r) = r := swapped_swapped r

@[simp] theorem WriteReq.sswap_swapped (r : WriteReq) :
    sswap (swapped r) = r := swapped_swapped r

@[simp] theorem WriteBufReq.sswap_swapped (r : WriteBufReq) :
    sswap (swapped r) = r := swapped_swapped r

@[simp] theorem ReadReq.sswap_swapped (r : ReadReq) :
    sswap (swapped r) = r := swapped_swapped r

@[simp] theorem RmReq.sswap_swapped (r : RmReq) :
    sswap (swapped r) = r := swapped_swapped r

@[simp] theorem ReclaimReq.sswap_swapped (r : ReclaimReq) :
    sswap (swapped r) = r := swapped_swapped r

@[simp] theorem SetattrReq.sswap_swapped (r : SetattrReq) :
    sswap (swapped r) = r := swapped_swapped r

@[simp] theorem StatvfsResp.sswap_swapped (r : StatvfsResp) :
    sswap (swapped r) = r := swapped_swapped r

@[simp] theorem ReaddirResp.sswap_swapped (r : ReaddirResp) :
    sswap (swapped r) = r := swapped_swapped r

@[simp] theorem GetattrResp.sswap_swapped (r : GetattrResp) :
    sswap (swapped r) = r := swapped_swapped r

@[simp] theorem WriteResp.sswap_swapped (r : WriteResp) :
    sswap (swapped r) = r := swapped_swapped r

@[simp] theorem WriteBufResp.sswap_swapped (r : WriteBufResp) :
    sswap (swapped r) = r := swapped_swapped r

@[simp] theorem ReadResp.sswap_swapped (r : ReadResp) :
    sswap (swapped r) = r := swapped_swapped r

@[simp] theorem RmResp.sswap_swapped (r : RmResp) :
    sswap (swapped r) = r := swapped_swapped r

@[simp] theorem ReclaimResp.sswap_swapped (r : ReclaimResp) :
    sswap (swapped r) = r := swapped_swapped r

@[simp] theorem SetattrResp.sswap_swapped (r : SetattrResp) :
    sswap (swapped r) = r := swapped_swapped r

/-- LOOKUP leaves the swapped size and device number as they arrive. -/
@[simp] theorem LookupResp.sswap_swapped (r : LookupResp) :
    sswap (swapped r) = { r with vaSize := bswap r.vaSize, vaRdev := bswap r.vaRdev } := by
  have hback : ∀ w : Word, bswap (bswap w) = w := bswap_bswap (by decide)
  change (⟨bswap (bswap r.exists_), bswap (bswap r.vaFileid), bswap (bswap r.vaType),
    bswap r.vaSize, bswap r.vaRdev⟩ : LookupResp) = _
  rw [hback, hback, hback]

end Swaps

section Turns

variable {e : Puffs} {junk : Nat → Junk} {α : Type} [CStruct α]

theorem structWords_length (s : Side) (uninit : Memory) (a : α) :
    (structWords s uninit a).length = (sizeof α + 3) / 4 + ((sizeof α + 3) / 4 + 30) / 31 :=
  packets_length s _ _

theorem structWords_audible (s : Side) (uninit : Memory) (a : α) :
    ∀ w ∈ structWords s uninit a, idle s.other (joybus w) = false := by
  intro w hw
  have hflag := ne_zero_of_flag (packets_flag s _ _ w hw)
  cases s with
  | client => rfl
  | server => exact beq_false_of_ne hflag

variable [Fits α]

theorem utterance_struct (s : Side) (uninit : Memory) (a : α) :
    (link e junk).Utterance linkCubeQueueSize s (structWords s uninit a) where
  nonempty := by
    have hpos := Fits.sizeof_pos (α := α)
    intro h
    have hlen := structWords_length s uninit a
    rw [h, List.length_nil] at hlen
    omega
  length_le := by
    rw [structWords_length]
    exact Nat.le_of_lt Fits.words_lt
  audible := structWords_audible s uninit a

theorem utterance_command (cmd : Cmd) (uninit : Memory) (a : α) :
    (link e junk).Utterance linkCubeQueueSize .client (cmd.code :: structWords wii uninit a) where
  nonempty := List.cons_ne_nil _ _
  length_le := by
    rw [List.length_cons, structWords_length]
    exact Fits.words_lt
  audible _ _ := rfl

end Turns

section Rounds

variable {e : Puffs} {junk : Nat → Junk} {α β : Type} [CStruct α] [CStruct β]
variable {req : α} {resp : β} {sswap : α → α} {handle : α → Option (β × Gba)} {g : Gba}
variable {j : Junk} {runs : Nat} {f : β → WiiProc} {p : WiiProc}

theorem follows_request [Fits β] (uninit : Memory) {c : List (Side × Word)} {q : WiiProc}
    (h : Follows joybus (WiiHead.body e) wii (f (swapped resp)) c q) :
    Follows joybus (WiiHead.body e) wii (request e req >>= f)
      (turn wii (structWords wii e.stack req) (turn gba (structWords gba uninit resp) c)) q := by
  rw [request, Proc.bind_assoc, sendStruct_eq]
  exact .sendAll _ (.feed _ (receiveStruct_feed gba uninit e.stack resp Fits.sizeof_pos) h)

theorem follows_request_wait (e : Puffs) (req : α) (f : β → WiiProc) :
    ∃ k, Follows joybus (WiiHead.body e) wii (request e req >>= f)
      (turn wii (structWords wii e.stack req) []) (.recv k) := by
  obtain ⟨k, hk⟩ : ∃ k, (receiveStruct wii e.stack >>= f) = .recv k := ⟨_, rfl⟩
  refine ⟨k, ?_⟩
  rw [request, Proc.bind_assoc, sendStruct_eq, ← hk]
  exact .sendAll _ (.done _)

theorem follows_answer [Fits α] (uninit : Memory) (hs : sswap (swapped req) = req)
    (hh : handle req = some (resp, g)) {c : List (Side × Word)} {q : GbaProc}
    (h : Follows joybus (GbaHead.body junk) gba (.ret (.inl ⟨g, runs + 1⟩)) c q) :
    Follows joybus (GbaHead.body junk) gba (answer j runs sswap handle)
      (turn wii (structWords wii uninit req) (turn gba (structWords gba j.stack resp) c)) q := by
  refine .feed _ (receiveStruct_feed wii uninit j.stack req Fits.sizeof_pos) ?_
  simp only [hs, hh, sendStruct_eq]
  exact .sendAll _ h

theorem follows_answer_none [Fits α] (uninit : Memory) (hs : sswap (swapped req) = req)
    (hh : handle req = none) :
    Follows joybus (GbaHead.body junk) gba (answer j runs sswap handle)
      (turn wii (structWords wii uninit req) []) .halt := by
  refine .feed _ (receiveStruct_feed wii uninit j.stack req Fits.sizeof_pos) ?_
  simp only [hs, hh]
  exact .done _

theorem follows_switch {h : GbaHead} (hh : h.Home) (cmd : Cmd) {c : List (Side × Word)}
    {q : GbaProc} (hq : Follows joybus (GbaHead.body junk) gba
      (h.state.store.switch (junk h.runs) h.runs cmd) c q) :
    Follows joybus (GbaHead.body junk) gba (.ret (.inl h)) ((wii, cmd.code) :: c) q := by
  refine .loop ?_
  rw [GbaHead.body, show h.state.phase = .dispatch from hh]
  refine .recv ?_
  rw [joybus, bswap_bswap (by decide), Cmd.ofCode_code]
  exact hq

theorem follows_writing {h : GbaHead} {w : Writing} (hphase : h.state.phase = .writing w)
    {c : List (Side × Word)} {q : GbaProc}
    (hq : Follows joybus (GbaHead.body junk) gba
      (answer (junk h.runs) h.runs WriteBufReq.sswap fun breq =>
        (h.state.store.handleWriteBuf (junk h.runs) w breq).map fun r =>
          (r.1, ⟨r.2.1, r.2.2⟩)) c q) :
    Follows joybus (GbaHead.body junk) gba (.ret (.inl h)) c q := by
  refine .loop ?_
  rw [GbaHead.body, hphase]
  exact hq

theorem round_command [Fits α] [Fits β] (handle : α → Option (β × Gba)) {h : GbaHead}
    (hhome : h.Home) {cmd : Cmd}
    (hcase : h.state.store.switch (junk h.runs) h.runs cmd =
      answer (junk h.runs) h.runs sswap handle)
    (hs : sswap (swapped req) = req) (hh : handle req = some (resp, g))
    (hp : f (swapped resp) = p) :
    (link e junk).Round linkCubeQueueSize (command e cmd req >>= f) p (.ret (.inl h))
      (.ret (.inl ⟨g, h.runs + 1⟩)) (cmd.code :: structWords wii e.stack req)
      (structWords gba (junk h.runs).stack resp) where
  asks := utterance_command cmd _ _
  answers := utterance_struct .server _ _
  client _ _ hf := .clear (.send (follows_request _ (hp ▸ hf)))
  server _ _ hf := follows_switch hhome cmd (hcase ▸ follows_answer _ hs hh hf)

theorem stalls_command [Fits α] (handle : α → Option (β × Gba)) {h : GbaHead} (hhome : h.Home)
    {cmd : Cmd}
    (hcase : h.state.store.switch (junk h.runs) h.runs cmd =
      answer (junk h.runs) h.runs sswap handle)
    (hs : sswap (swapped req) = req) (hh : handle req = none) :
    (link e junk).Stalls linkCubeQueueSize (command e cmd req >>= f) (.ret (.inl h)) := by
  obtain ⟨k, hk⟩ := follows_request_wait e req f
  exact ⟨turn wii (cmd.code :: structWords wii e.stack req) [], k,
    .hang (utterance_command cmd _ _), .clear (.send hk),
    follows_switch hhome cmd (hcase ▸ follows_answer_none _ hs hh)⟩

theorem round_chunk {h : GbaHead} {w : Writing} (hphase : h.state.phase = .writing w)
    {breq : WriteBufReq} {r : WriteBufResp × Store × Phase}
    (hh : h.state.store.handleWriteBuf (junk h.runs) w breq = some r)
    {f : WriteBufResp → WiiProc} (hp : f (swapped r.1) = p) :
    (link e junk).Round linkCubeQueueSize (request e breq >>= f) p (.ret (.inl h))
      (.ret (.inl ⟨⟨r.2.1, r.2.2⟩, h.runs + 1⟩)) (structWords wii e.stack breq)
      (structWords gba (junk h.runs).stack r.1) where
  asks := utterance_struct .client _ _
  answers := utterance_struct .server _ _
  client _ _ hf := follows_request _ (hp ▸ hf)
  server _ _ hf := follows_writing hphase
    (follows_answer _ breq.sswap_swapped (by rw [hh]; rfl) hf)

theorem stalls_chunk {h : GbaHead} {w : Writing} (hphase : h.state.phase = .writing w)
    {breq : WriteBufReq} (hh : h.state.store.handleWriteBuf (junk h.runs) w breq = none)
    {f : WriteBufResp → WiiProc} :
    (link e junk).Stalls linkCubeQueueSize (request e breq >>= f) (.ret (.inl h)) := by
  obtain ⟨k, hk⟩ := follows_request_wait e breq f
  exact ⟨turn wii (structWords wii e.stack breq) [], k, .hang (utterance_struct .client _ _), hk,
    follows_writing hphase (follows_answer_none _ breq.sswap_swapped (by rw [hh]; rfl))⟩

theorem round_statvfs {h : GbaHead} (hhome : h.Home) {f : StatvfsResp → WiiProc}
    (hp : f (swapped h.state.store.handleStatvfsRequest) = p) :
    (link e junk).Round linkCubeQueueSize
      (.clear (.send Cmd.statvfs.code (receiveStruct wii e.stack >>= f))) p (.ret (.inl h))
      (.ret (.inl ⟨⟨h.state.store, .dispatch⟩, h.runs + 1⟩)) [Cmd.statvfs.code]
      (structWords gba (junk h.runs).stack h.state.store.handleStatvfsRequest) where
  asks := ⟨List.cons_ne_nil _ _, by decide, fun _ _ => rfl⟩
  answers := utterance_struct .server _ _
  client _ _ hf := .clear (.send (.feed _ (receiveStruct_feed gba _ e.stack _ Fits.sizeof_pos)
    (hp ▸ hf)))
  server _ _ hf := by
    refine follows_switch hhome .statvfs ?_
    rw [Store.switch, sendStruct_eq]
    exact .sendAll _ hf

end Rounds

end WiiJoybus
