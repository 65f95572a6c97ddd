import WiiJoybus.Gba.Dispatcher
import WiiJoybus.Shared.Command

/-!
The GBA as a process.

Between two messages the process is at a loop head: the dispatcher's loop or the
write handler's. What the source leaves open is drawn anew for every message.
-/

namespace WiiJoybus
open ByteMemory StructLayout Dialogue

structure GbaHead where
  state : Gba
  /-- The number of messages dealt with, which selects the `Junk` of the next one. -/
  runs : Nat

/-- Receive a request, handle it and reply; a handler that never ends halts. -/
def answer {α β : Type} [CStruct α] [CStruct β] (j : Junk) (runs : Nat) (sswap : α → α)
    (handle : α → Option (β × Gba)) : Proc Word (GbaHead ⊕ Empty) :=
  receiveStruct gba j.stack >>= fun req =>
    match handle (sswap req) with
    | none => .halt
    | some (resp, g) => sendStruct gba j.stack resp >>= fun _ => .ret (.inl ⟨g, runs + 1⟩)

/-- The cases of the dispatcher's switch. -/
def Store.switch (j : Junk) (runs : Nat) (s : Store) : Cmd → Proc Word (GbaHead ⊕ Empty)
  | .statvfs =>
      sendStruct gba j.stack s.handleStatvfsRequest >>= fun _ =>
        .ret (.inl ⟨⟨s, .dispatch⟩, runs + 1⟩)
  | .readdir => answer j runs ReaddirReq.sswap fun req =>
      some (s.handleReaddirRequest j req, ⟨s, .dispatch⟩)
  | .lookup => answer j runs LookupReq.sswap fun req =>
      (s.handleLookupRequest j req).map fun resp => (resp, ⟨s, .dispatch⟩)
  | .getattr => answer j runs GetattrReq.sswap fun req =>
      some (s.handleGetattrRequest j req, ⟨s, .dispatch⟩)
  | .create => answer j runs CreateReq.sswap fun req =>
      (s.handleCreateRequest j .reg req).map fun r => (r.1, ⟨r.2, .dispatch⟩)
  | .write => answer j runs WriteReq.sswap fun req =>
      some ((s.handleWriteRequest j req).1, ⟨(s.handleWriteRequest j req).2.1,
        (s.handleWriteRequest j req).2.2⟩)
  | .read => answer j runs ReadReq.sswap fun req =>
      some (s.handleReadRequest j req, ⟨s, .dispatch⟩)
  | .mkdir => answer j runs CreateReq.sswap fun req =>
      (s.handleCreateRequest j .dir req).map fun r => (r.1, ⟨r.2, .dispatch⟩)
  | .rm => answer j runs RmReq.sswap fun req =>
      (s.handleRmRequest j req).map fun r => (r.1, ⟨r.2, .dispatch⟩)
  | .reclaim => answer j runs ReclaimReq.sswap fun req =>
      some ((s.handleReclaimRequest j req).1, ⟨(s.handleReclaimRequest j req).2, .dispatch⟩)
  | .setsize => answer j runs SetattrReq.sswap fun req =>
      some ((s.handleSetsizeRequest j req).1, ⟨(s.handleSetsizeRequest j req).2, .dispatch⟩)

def GbaHead.body (junk : Nat → Junk) (h : GbaHead) : Proc Word (GbaHead ⊕ Empty) :=
  match h.state.phase with
  | .dispatch => .recv fun w =>
      match Cmd.ofCode (bswap w) with
      | none => .ret (.inl h)
      | some cmd => h.state.store.switch (junk h.runs) h.runs cmd
  | .writing w => answer (junk h.runs) h.runs WriteBufReq.sswap fun breq =>
      (h.state.store.handleWriteBuf (junk h.runs) w breq).map fun r => (r.1, ⟨r.2.1, r.2.2⟩)

def GbaHead.Home (h : GbaHead) : Prop := h.state.phase = .dispatch

theorem GbaHead.home_recv (junk : Nat → Junk) (h : GbaHead) (hh : h.Home) :
    ∃ k, h.body junk = .recv k := by
  rw [body, show h.state.phase = .dispatch from hh]
  exact ⟨_, rfl⟩

section Machine

variable {junk : Nat → Junk} {Q : GbaHead → Prop}

theorem answer_all {α β : Type} [CStruct α] [CStruct β] {j : Junk} {runs : Nat} {sswap : α → α}
    {handle : α → Option (β × Gba)} (h : ∀ req r, handle req = some r → Q ⟨r.2, runs + 1⟩) :
    (answer j runs sswap handle).All (Sum.elim Q fun _ => True) := by
  refine .bind _ fun req => ?_
  cases hr : handle (sswap req) with
  | none => exact trivial
  | some r => exact .bind _ fun _ => h _ r hr

theorem Store.switch_all {s : Store} {j : Junk} {runs : Nat}
    (hserve : ∀ m g, s.serve j m = some g → Q ⟨g, runs + 1⟩) (cmd : Cmd) :
    (s.switch j runs cmd).All (Sum.elim Q fun _ => True) := by
  have hanswer : ∀ {α β : Type} [CStruct α] [CStruct β] {sswap : α → α}
      {handle : α → Option (β × Gba)} (m : α → Request),
      (∀ req, s.serve j (m req) = (handle req).map Prod.snd) →
        (answer j runs sswap handle).All (Sum.elim Q fun _ => True) := by
    intro α β _ _ sswap handle m hm
    refine answer_all fun req r hr => hserve (m req) r.2 ?_
    rw [hm, hr, Option.map_some]
  cases cmd with
  | statvfs => exact .bind _ fun _ => hserve .statvfs _ rfl
  | readdir =>
      rw [switch]
      refine hanswer .readdir fun req => ?_
      rfl
  | lookup =>
      rw [switch]
      refine hanswer .lookup fun req => ?_
      rw [serve, Option.map_map]
      rfl
  | getattr =>
      rw [switch]
      refine hanswer .getattr fun req => ?_
      rfl
  | create =>
      rw [switch]
      refine hanswer .create fun req => ?_
      rw [serve, Option.map_map]
      rfl
  | write =>
      rw [switch]
      refine hanswer .write fun req => ?_
      rfl
  | read =>
      rw [switch]
      refine hanswer .read fun req => ?_
      rfl
  | mkdir =>
      rw [switch]
      refine hanswer .mkdir fun req => ?_
      rw [serve, Option.map_map]
      rfl
  | rm =>
      rw [switch]
      refine hanswer .rm fun req => ?_
      rw [serve, Option.map_map]
      rfl
  | reclaim =>
      rw [switch]
      refine hanswer .reclaim fun req => ?_
      rfl
  | setsize =>
      rw [switch]
      refine hanswer .setsize fun req => ?_
      rfl

/-- From one message to the next the process does what the machine does. -/
theorem GbaHead.body_all {h : GbaHead} (hself : h.Home → Q h)
    (hnext : ∀ m g, h.state.receive (junk h.runs) m = some g → Q ⟨g, h.runs + 1⟩) :
    (h.body junk).All (Sum.elim Q fun _ => True) := by
  rw [GbaHead.body]
  cases hphase : h.state.phase with
  | writing w =>
      refine answer_all fun breq r hr => hnext (.chunk breq) r.2 ?_
      obtain ⟨x, hx, rfl⟩ := Option.map_eq_some_iff.mp hr
      simp only [Gba.receive, hphase, hx, Option.map_some]
  | dispatch =>
      intro w
      change Proc.All _ (match Cmd.ofCode (bswap w) with
        | none => .ret (.inl h)
        | some cmd => h.state.store.switch (junk h.runs) h.runs cmd)
      cases Cmd.ofCode (bswap w) with
      | none => exact hself hphase
      | some cmd =>
          refine Store.switch_all (fun m g hm => hnext (.request m) g ?_) cmd
          simp only [Gba.receive, hphase, hm]

/-- A word that is no command takes the dispatcher back to where it is. -/
theorem GbaHead.of_body_all {h : GbaHead} (hh : h.Home)
    (hb : (h.body junk).All (Sum.elim Q fun _ => True)) : Q h := by
  have hnone : Cmd.ofCode (bswap (0 : Word)) = none := by decide +kernel
  rw [GbaHead.body, show h.state.phase = .dispatch from hh] at hb
  have hword : ∀ w : Word, Cmd.ofCode (bswap w) = none → Q h := by
    intro w hw
    have hw' : Proc.All (Sum.elim Q fun _ => True) (match Cmd.ofCode (bswap w) with
      | none => .ret (.inl h)
      | some cmd => h.state.store.switch (junk h.runs) h.runs cmd) := hb w
    rw [hw] at hw'
    exact hw'
  exact hword 0 hnone

end Machine

end WiiJoybus
