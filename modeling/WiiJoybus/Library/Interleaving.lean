import WiiJoybus.Library.Dialogue

/-!
All interleavings of a dialogue.

A configuration holds both processes and the words in flight towards each. The
client performs one operation after another; the server serves for ever from
its home loop heads. If every allowed operation has a conversation that both
sides follow, every reachable configuration is in step: one side is ahead, the
other still has the words in flight to read, and both then continue with the
same conversation.
-/

namespace Dialogue

structure Network (W : Type) (Head Out : Side → Type) where
  wire : W → W
  /-- Words a waiting receiver polls and passes over. -/
  idle : Side → W → Bool
  body : (s : Side) → Head s → Proc W (Head s ⊕ Out s)
  /-- Loop heads at which the server waits for the next operation. -/
  home : Head .server → Prop
  home_recv : ∀ h, home h → ∃ k, body .server h = .recv k

structure Config (W : Type) (Head Out : Side → Type) where
  proc : (s : Side) → Proc W (Head s ⊕ Out s)
  /-- The words in flight towards a side, as they were sent. -/
  inbox : Side → List W

variable {W : Type} {Head Out : Side → Type}

def Config.after (cfg : Config W Head Out) (s : Side) (p : Proc W (Head s ⊕ Out s))
    (inbox out : List W) : Config W Head Out where
  proc := Function.update cfg.proc s p
  inbox := fun t => if t = s then inbox else cfg.inbox t ++ out

def Config.start (cfg : Config W Head Out)
    (p : Proc W (Head .client ⊕ Out .client)) : Config W Head Out :=
  { cfg with proc := Function.update cfg.proc .client p }

namespace Network

variable (N : Network W Head Out)

/-- One move of side `s`: the inbox it leaves and the words it sends. -/
inductive LocalStep (s : Side) :
    Proc W (Head s ⊕ Out s) → List W → Proc W (Head s ⊕ Out s) → List W → List W → Prop where
  | send (w k i) : LocalStep s (.send w k) i k i [w]
  | recv (w k i) (h : N.idle s (N.wire w) = false) :
      LocalStep s (.recv k) (w :: i) (k (N.wire w)) i []
  | skip (w k i) (h : N.idle s (N.wire w) = true) :
      LocalStep s (.recv k) (w :: i) (.recv k) i []
  | clear (k) : LocalStep s (.clear k) [] k [] []
  | drain (w k i) : LocalStep s (.clear k) (w :: i) (.clear k) i []
  | loop (h i) : LocalStep s (.ret (.inl h)) i (N.body s h) i []

def Step (cfg cfg' : Config W Head Out) : Prop :=
  ∃ s p i out, N.LocalStep s (cfg.proc s) (cfg.inbox s) p i out ∧ cfg' = cfg.after s p i out

/-- The server gets to the home loop head `h` without another word. -/
def AtHome (h : Head .server) (p : Proc W (Head .server ⊕ Out .server)) : Prop :=
  Follows N.wire (N.body .server) .server p [] (.ret (.inl h)) ∨
  Follows N.wire (N.body .server) .server p [] (N.body .server h)

def Home (p : Proc W (Head .server ⊕ Out .server)) : Prop :=
  ∃ h, N.home h ∧ N.AtHome h p

/-- How an exchange ends: the client has a result and the server is home, or
the server has halted and the client waits for a word that never comes. -/
def Final (e : (s : Side) → Proc W (Head s ⊕ Out s)) : Prop :=
  (∃ r, e .client = .ret (.inr r) ∧ N.Home (e .server)) ∨
  (∃ k, e .client = .recv k ∧ e .server = .halt)

/-- No word of the conversation looks idle to its reader, and no side sends more
than `n` words in a row. -/
structure Orderly (n : Nat) (c : List (Side × W)) : Prop where
  audible : ∀ x ∈ c, N.idle x.1.other (N.wire x.2) = false
  bounded : ∀ (pre : List (Side × W)) (s : Side) (run : List W) (rest : List (Side × W)),
    c = pre ++ (run.map (Prod.mk s) ++ rest) → run.length ≤ n

theorem Orderly.tail {n : Nat} {x : Side × W} {c : List (Side × W)}
    (h : N.Orderly n (x :: c)) : N.Orderly n c where
  audible y hy := h.audible y (List.mem_cons_of_mem x hy)
  bounded pre s run rest hc := h.bounded (x :: pre) s run rest (by rw [hc]; rfl)

def ServerLast (c : List (Side × W)) : Prop :=
  ∀ x, c.getLast? = some x → x.1 = .server

theorem ServerLast.tail {x : Side × W} {c : List (Side × W)}
    (h : ServerLast (x :: c)) : ServerLast c := by
  intro y hy
  apply h y
  cases c with
  | nil => simp at hy
  | cons z c => simpa using hy

/-- Side `s` is ahead of side `t`, which has still to read the words in flight. -/
structure Ahead (n : Nat) (s t : Side) (c : List (Side × W))
    (e : (s : Side) → Proc W (Head s ⊕ Out s)) (cfg : Config W Head Out) : Prop where
  sides : t = s.other
  empty : cfg.inbox s = []
  ahead : Follows N.wire (N.body s) s (cfg.proc s) c (e s)
  behind : Follows N.wire (N.body t) t (cfg.proc t)
    ((cfg.inbox t).map (Prod.mk s) ++ c) (e t)
  final : N.Final e
  orderly : N.Orderly n ((cfg.inbox t).map (Prod.mk s) ++ c)
  last : (∃ r, e .client = .ret (.inr r)) → ServerLast ((cfg.inbox t).map (Prod.mk s) ++ c)

def InStep (n : Nat) (cfg : Config W Head Out) : Prop :=
  ∃ s t c e, N.Ahead n s t c e cfg

variable {N}

theorem Home.cases {p : Proc W (Head .server ⊕ Out .server)} (h : N.Home p) :
    (∃ l, p = .ret (.inl l) ∧ N.Home (N.body .server l)) ∨ (∃ k, p = .recv k) := by
  obtain ⟨d, hd, hp⟩ := h
  obtain ⟨k, hk⟩ := N.home_recv d hd
  rcases hp with hp | hp
  · cases hp with
    | done => exact Or.inl ⟨d, rfl, d, hd, Or.inr (.done _)⟩
    | loop rest => exact Or.inl ⟨_, rfl, d, hd, Or.inl rest⟩
  · generalize hq : N.body .server d = q at hp
    cases hp with
    | done => exact Or.inr ⟨k, hq.symm.trans hk⟩
    | loop rest => exact Or.inl ⟨_, rfl, d, hd, Or.inr (hq ▸ rest)⟩

theorem Home.loop {l : Head .server} (h : N.Home (N.body .server l)) :
    N.Home (.ret (.inl l)) := by
  obtain ⟨d, hd, hp⟩ := h
  rcases hp with hp | hp
  · exact ⟨d, hd, Or.inl (.loop hp)⟩
  · exact ⟨d, hd, Or.inr (.loop hp)⟩

theorem Home.of_follows {p q : Proc W (Head .server ⊕ Out .server)}
    (h : Follows N.wire (N.body .server) .server p [] q) (hq : N.Home q) : N.Home p := by
  generalize hc : ([] : List (Side × W)) = c at h
  induction h with
  | done p => exact hq
  | loop rest ih => exact (ih hq hc).loop
  | send rest ih | recv rest ih | clear rest ih => cases hc

theorem Final.not_send {e : (s : Side) → Proc W (Head s ⊕ Out s)} (h : N.Final e) (s : Side)
    (w : W) (k) : e s ≠ .send w k := by
  rcases h with ⟨r, hc, hs⟩ | ⟨k', hc, hs⟩
  · cases s with
    | client => simp [hc]
    | server => rcases hs.cases with ⟨l, hl, _⟩ | ⟨k', hl⟩ <;> simp [hl]
  · cases s <;> simp [hc, hs]

theorem Final.not_clear {e : (s : Side) → Proc W (Head s ⊕ Out s)} (h : N.Final e) (s : Side)
    (k) : e s ≠ .clear k := by
  rcases h with ⟨r, hc, hs⟩ | ⟨k', hc, hs⟩
  · cases s with
    | client => simp [hc]
    | server => rcases hs.cases with ⟨l, hl, _⟩ | ⟨k', hl⟩ <;> simp [hl]
  · cases s <;> simp [hc, hs]

theorem AtHome.enter {d l : Head .server} (hd : N.home d) (h : N.AtHome d (.ret (.inl l))) :
    N.AtHome d (N.body .server l) := by
  obtain ⟨k, hk⟩ := N.home_recv d hd
  rcases h with h | h
  · cases h with
    | done => exact Or.inr (.done _)
    | loop rest => exact Or.inl rest
  · rw [hk] at h
    cases h with
    | loop rest => exact Or.inr (hk ▸ rest)

/-- `e'` is where `e` gets to by itself. -/
def Onward (N : Network W Head Out) (e e' : (s : Side) → Proc W (Head s ⊕ Out s)) : Prop :=
  e' .client = e .client ∧ ∀ d, N.home d → N.AtHome d (e .server) → N.AtHome d (e' .server)

theorem Onward.refl (e : (s : Side) → Proc W (Head s ⊕ Out s)) : N.Onward e e :=
  ⟨rfl, fun _ _ h => h⟩

theorem Onward.trans {e e' e'' : (s : Side) → Proc W (Head s ⊕ Out s)} (h : N.Onward e e')
    (h' : N.Onward e' e'') : N.Onward e e'' :=
  ⟨h'.1.trans h.1, fun d hd hh => h'.2 d hd (h.2 d hd hh)⟩

theorem Final.enter {e : (s : Side) → Proc W (Head s ⊕ Out s)} (h : N.Final e) (s : Side)
    {l : Head s} (hl : e s = .ret (.inl l)) :
    ∃ e', N.Final e' ∧ e' s = N.body s l ∧ (∀ t, t ≠ s → e' t = e t) ∧ N.Onward e e' := by
  rcases h with ⟨r, hc, hs⟩ | ⟨k', hc, hs⟩
  · cases s with
    | client => simp [hc] at hl
    | server =>
        have honward : ∀ d, N.home d → N.AtHome d (e .server) →
            N.AtHome d (N.body .server l) := fun d hd hh => AtHome.enter hd (hl ▸ hh)
        obtain ⟨d, hd, hh⟩ := hs
        have hb : N.Home (N.body .server l) := ⟨d, hd, honward d hd hh⟩
        refine ⟨Function.update e .server (N.body .server l), ?_, by simp, ?_, ?_, ?_⟩
        · exact Or.inl ⟨r, by simpa using hc, by simpa using hb⟩
        · intro t ht
          simp [Function.update_of_ne ht]
        · simp
        · simpa using honward
  · cases s <;> simp [hc, hs] at hl

end Network

section After

variable (cfg : Config W Head Out) (s : Side) (p : Proc W (Head s ⊕ Out s)) (i out : List W)

@[simp] theorem Config.after_proc_self : (cfg.after s p i out).proc s = p := by
  simp [Config.after]

@[simp] theorem Config.after_inbox_self : (cfg.after s p i out).inbox s = i := by
  simp [Config.after]

theorem Config.after_proc_of_ne {t : Side} (h : t ≠ s) :
    (cfg.after s p i out).proc t = cfg.proc t := by
  simp [Config.after, Function.update_of_ne h]

theorem Config.after_inbox_of_ne {t : Side} (h : t ≠ s) :
    (cfg.after s p i out).inbox t = cfg.inbox t ++ out := by
  simp [Config.after, h]

end After

namespace Network

variable {N : Network W Head Out} {n : Nat} {s t : Side} {c : List (Side × W)}
variable {e : (s : Side) → Proc W (Head s ⊕ Out s)} {cfg : Config W Head Out}

/-- In step, on the way from `e`. -/
def InStepFrom (N : Network W Head Out) (n : Nat) (e : (s : Side) → Proc W (Head s ⊕ Out s))
    (cfg : Config W Head Out) : Prop :=
  ∃ s t c e', N.Ahead n s t c e' cfg ∧ N.Onward e e'

theorem InStepFrom.inStep (h : N.InStepFrom n e cfg) : N.InStep n cfg := by
  obtain ⟨s, t, c, e', ha, _⟩ := h
  exact ⟨s, t, c, e', ha⟩

theorem InStepFrom.trans {e' : (s : Side) → Proc W (Head s ⊕ Out s)} (h : N.InStepFrom n e' cfg)
    (ho : N.Onward e e') : N.InStepFrom n e cfg := by
  obtain ⟨s, t, c, e'', ha, ho'⟩ := h
  exact ⟨s, t, c, e'', ha, ho.trans ho'⟩

/-- The side that is ahead moves: it sends the next word of the conversation or
continues a loop. -/
theorem Ahead.step_ahead (h : N.Ahead n s t c e cfg) {p i out}
    (hstep : N.LocalStep s (cfg.proc s) (cfg.inbox s) p i out) :
    N.InStepFrom n e (cfg.after s p i out) := by
  have hts : t ≠ s := h.sides ▸ s.other_ne
  have hs := h.ahead
  rw [h.empty] at hstep
  generalize cfg.proc s = p₀ at hstep hs
  generalize hq : e s = q at hs
  cases hstep with
  | send w k _ =>
      cases hs with
      | done => exact absurd hq (h.final.not_send s w _)
      | @send _ _ c' _ rest =>
          have hc : (cfg.inbox t).map (Prod.mk s) ++ (s, w) :: c' =
              (cfg.inbox t ++ [w]).map (Prod.mk s) ++ c' := by simp
          refine ⟨s, t, c', e, ⟨h.sides, ?_, ?_, ?_, h.final, ?_, ?_⟩, .refl e⟩
          · simp
          · simpa [hq] using rest
          · rw [Config.after_proc_of_ne _ _ _ _ _ hts, Config.after_inbox_of_ne _ _ _ _ _ hts, ← hc]
            exact h.behind
          · rw [Config.after_inbox_of_ne _ _ _ _ _ hts, ← hc]
            exact h.orderly
          · rw [Config.after_inbox_of_ne _ _ _ _ _ hts, ← hc]
            exact h.last
  | clear =>
      cases hs with
      | done => exact absurd hq (h.final.not_clear s _)
      | @clear w _ c' _ rest =>
          refine ⟨s, t, (s, w) :: c', e, ⟨h.sides, ?_, ?_, ?_, h.final, ?_, ?_⟩, .refl e⟩
          · simp
          · simpa [hq] using rest
          · simpa [Config.after_proc_of_ne _ _ _ _ _ hts, Config.after_inbox_of_ne _ _ _ _ _ hts]
              using h.behind
          · simpa [Config.after_inbox_of_ne _ _ _ _ _ hts] using h.orderly
          · simpa [Config.after_inbox_of_ne _ _ _ _ _ hts] using h.last
  | loop l _ =>
      cases hs with
      | done =>
          obtain ⟨e', hf, hes, het, honward⟩ := h.final.enter s hq
          refine ⟨s, t, [], e', ⟨h.sides, ?_, ?_, ?_, hf, ?_, ?_⟩, honward⟩
          · simp
          · simpa [hes] using Follows.done (N.body s l)
          · simpa [Config.after_proc_of_ne _ _ _ _ _ hts, Config.after_inbox_of_ne _ _ _ _ _ hts,
              het t hts] using h.behind
          · simpa [Config.after_inbox_of_ne _ _ _ _ _ hts] using h.orderly
          · intro hr
            simpa [Config.after_inbox_of_ne _ _ _ _ _ hts] using h.last (honward.1 ▸ hr)
      | loop rest =>
          refine ⟨s, t, c, e, ⟨h.sides, ?_, ?_, ?_, h.final, ?_, ?_⟩, .refl e⟩
          · simp
          · simpa [hq] using rest
          · simpa [Config.after_proc_of_ne _ _ _ _ _ hts, Config.after_inbox_of_ne _ _ _ _ _ hts]
              using h.behind
          · simpa [Config.after_inbox_of_ne _ _ _ _ _ hts] using h.orderly
          · simpa [Config.after_inbox_of_ne _ _ _ _ _ hts] using h.last

/-- The side that is behind moves while words are in flight: it reads the oldest
one or continues a loop. -/
theorem Ahead.step_behind (h : N.Ahead n s t c e cfg) {w : W} {ws : List W}
    (hin : cfg.inbox t = w :: ws) {p i out}
    (hstep : N.LocalStep t (cfg.proc t) (cfg.inbox t) p i out) :
    N.InStepFrom n e (cfg.after t p i out) := by
  have hst : s ≠ t := fun hst => s.other_ne (h.sides.symm.trans hst.symm)
  have hto : t.other = s := by rw [h.sides, Side.other_other]
  have ht := h.behind
  have ho := h.orderly
  have hl := h.last
  simp only [hin, List.map_cons, List.cons_append] at ht ho hl
  rw [hin] at hstep
  generalize cfg.proc t = p₀ at hstep ht
  cases hstep with
  | send w' k _ => exact absurd (congrArg Prod.fst ht.of_send.1) hst
  | recv _ k _ hidle =>
      refine ⟨s, t, c, e, ⟨h.sides, ?_, ?_, ?_, h.final, ?_, ?_⟩, .refl e⟩
      · rw [Config.after_inbox_of_ne _ _ _ _ _ hst, h.empty]; rfl
      · rw [Config.after_proc_of_ne _ _ _ _ _ hst]; exact h.ahead
      · simpa using ht.of_recv.2
      · simpa using ho.tail
      · intro hr
        simpa using (hl hr).tail
  | skip _ k _ hidle =>
      have := ho.audible (s, w) (List.mem_cons_self)
      rw [← h.sides, hidle] at this
      exact absurd this (by decide)
  | drain _ k _ => exact absurd ht.of_clear.1 hst
  | loop l _ =>
      refine ⟨s, t, c, e, ⟨h.sides, ?_, ?_, ?_, h.final, ?_, ?_⟩, .refl e⟩
      · rw [Config.after_inbox_of_ne _ _ _ _ _ hst, h.empty]; rfl
      · rw [Config.after_proc_of_ne _ _ _ _ _ hst]; exact h.ahead
      · simpa using ht.of_loop
      · simpa using ho
      · intro hr
        simpa using hl hr

theorem InStepFrom.step {cfg' : Config W Head Out} (h : N.InStepFrom n e cfg)
    (hstep : N.Step cfg cfg') : N.InStepFrom n e cfg' := by
  obtain ⟨s, t, c, e, ha, honward⟩ := h
  refine InStepFrom.trans ?_ honward
  obtain ⟨a, p, i, out, hloc, rfl⟩ := hstep
  have hside : a = s ∨ a = t := by
    have := s.eq_or_eq_other a
    rwa [← ha.sides] at this
  rcases hside with rfl | rfl
  · exact ha.step_ahead hloc
  · cases hin : cfg.inbox a with
    | cons w ws => exact ha.step_behind hin hloc
    | nil =>
        -- with nothing in flight the two sides are level and may change roles
        have hb := ha.behind
        have ho := ha.orderly
        have hl := ha.last
        simp only [hin, List.map_nil, List.nil_append] at hb ho hl
        have hlevel : N.Ahead n a s c e cfg :=
          { sides := by rw [ha.sides, Side.other_other]
            empty := hin
            ahead := hb
            behind := by simpa [ha.empty] using ha.ahead
            final := ha.final
            orderly := by simpa [ha.empty] using ho
            last := by simpa [ha.empty] using hl }
        exact hlevel.step_ahead hloc

theorem InStep.step {cfg' : Config W Head Out} (h : N.InStep n cfg) (hstep : N.Step cfg cfg') :
    N.InStep n cfg' := by
  obtain ⟨s, t, c, e, ha⟩ := h
  have hfrom : N.InStepFrom n e cfg := ⟨s, t, c, e, ha, .refl e⟩
  exact (hfrom.step hstep).inStep

/-- An operation `p` and the server's home loop head `h` have a conversation. -/
def Talks (N : Network W Head Out) (n : Nat) (h : Head .server)
    (p : Proc W (Head .client ⊕ Out .client)) : Prop :=
  ∃ c e, Follows N.wire (N.body .client) .client p c (e .client) ∧
    Follows N.wire (N.body .server) .server (.ret (.inl h)) c (e .server) ∧
    N.Final e ∧ N.Orderly n c ∧ ((∃ r, e .client = .ret (.inr r)) → ServerLast c)

/-- The configurations reachable when every operation the client starts is one
that `allowed` permits at the home loop head the server is at. -/
inductive Reach (N : Network W Head Out)
    (allowed : Head .server → Proc W (Head .client ⊕ Out .client) → Prop)
    (cfg₀ : Config W Head Out) : Config W Head Out → Prop where
  | refl : Reach N allowed cfg₀ cfg₀
  | step {cfg cfg'} (h : Reach N allowed cfg₀ cfg) (hs : N.Step cfg cfg') :
      Reach N allowed cfg₀ cfg'
  | start {cfg r p} (h : Reach N allowed cfg₀ cfg) (hr : cfg.proc .client = .ret (.inr r))
      (ha : ∀ d, N.home d → N.AtHome d (cfg.proc .server) → allowed d p) :
      Reach N allowed cfg₀ (cfg.start p)

theorem InStep.returned (h : N.InStep n cfg) {r : Out .client}
    (hr : cfg.proc .client = .ret (.inr r)) :
    (∀ s, cfg.inbox s = []) ∧ N.Home (cfg.proc .server) := by
  obtain ⟨s, t, c, e, ha⟩ := h
  have hdone : ∀ {c : List (Side × W)} {q},
      Follows N.wire (N.body .client) .client (.ret (.inr r)) c q → c = [] ∧ q = .ret (.inr r) := by
    intro c q hf
    cases hf
    exact ⟨rfl, rfl⟩
  have hserver : e .client = .ret (.inr r) → N.Home (e .server) := by
    intro hc
    rcases ha.final with ⟨_, _, hs⟩ | ⟨k, hk, _⟩
    · exact hs
    · rw [hc] at hk
      cases hk
  cases s with
  | client =>
      obtain rfl : t = .server := ha.sides
      have hf := ha.ahead
      rw [hr] at hf
      obtain ⟨rfl, hc⟩ := hdone hf
      -- the words in flight are the client's, but the server has the last word
      have hin : cfg.inbox .server = [] := by
        have hl := ha.last ⟨r, hc⟩
        cases hw : (cfg.inbox .server).getLast? with
        | none => exact List.getLast?_eq_none_iff.mp hw
        | some w =>
            have := hl (.client, w) (by simp [hw])
            cases this
      have hb := ha.behind
      rw [hin] at hb
      refine ⟨?_, .of_follows hb (hserver hc)⟩
      intro s
      cases s with
      | client => exact ha.empty
      | server => exact hin
  | server =>
      obtain rfl : t = .client := ha.sides
      have hf := ha.behind
      rw [hr] at hf
      obtain ⟨happ, hc⟩ := hdone hf
      obtain ⟨hin, rfl⟩ := List.append_eq_nil_iff.mp happ
      refine ⟨?_, .of_follows ha.ahead (hserver hc)⟩
      intro s
      cases s with
      | client => exact List.map_eq_nil_iff.mp hin
      | server => exact ha.empty

theorem InStep.not_blocked (h : N.InStep n cfg) (hin : ∀ s, cfg.inbox s = []) :
    ¬ ∀ s, ∃ k, cfg.proc s = .recv k := by
  intro hk
  obtain ⟨s, t, c, e, ha⟩ := h
  obtain ⟨k, hs⟩ := hk s
  obtain ⟨k', ht⟩ := hk t
  have hf := ha.ahead
  have hb := ha.behind
  simp only [hin t, List.map_nil, List.nil_append] at hb
  rw [hs] at hf
  rw [ht] at hb
  cases c with
  | cons x c =>
      have hx := hf.of_recv.1.symm.trans hb.of_recv.1
      rw [ha.sides, Side.other_other] at hx
      exact s.other_ne hx
  | nil =>
      have hes : ∀ a, ∃ k, e a = .recv k := by
        intro a
        have hside : a = s ∨ a = t := by
          have := s.eq_or_eq_other a
          rwa [← ha.sides] at this
        rcases hside with rfl | rfl
        · generalize hq : e a = q at hf
          cases hf
          exact ⟨k, rfl⟩
        · generalize hq : e a = q at hb
          cases hb
          exact ⟨k', rfl⟩
      rcases ha.final with ⟨r, hc, _⟩ | ⟨_, _, hd⟩
      · obtain ⟨k, hk⟩ := hes .client
        rw [hc] at hk
        cases hk
      · obtain ⟨k, hk⟩ := hes .server
        rw [hd] at hk
        cases hk

theorem InStep.inbox_le (h : N.InStep n cfg) (s : Side) : (cfg.inbox s).length ≤ n := by
  obtain ⟨a, b, c, e, ha⟩ := h
  have hside : s = a ∨ s = b := by
    have := a.eq_or_eq_other s
    rwa [← ha.sides] at this
  rcases hside with rfl | rfl
  · rw [ha.empty]
    exact Nat.zero_le n
  · exact ha.orderly.bounded [] a _ c rfl

theorem InStep.audible (h : N.InStep n cfg) {w : W} (hw : w ∈ cfg.inbox s) :
    N.idle s (N.wire w) = false := by
  obtain ⟨a, b, c, e, ha⟩ := h
  have hside : s = a ∨ s = b := by
    have := a.eq_or_eq_other s
    rwa [← ha.sides] at this
  rcases hside with rfl | rfl
  · rw [ha.empty] at hw
    cases hw
  · rw [ha.sides] at hw ⊢
    rw [ha.sides] at ha
    exact ha.orderly.audible (a, w) (List.mem_append_left _ (List.mem_map_of_mem hw))

theorem InStep.clear_empty (h : N.InStep n cfg) {k : Proc W (Head s ⊕ Out s)}
    (hk : cfg.proc s = .clear k) : cfg.inbox s = [] := by
  obtain ⟨a, b, c, e, ha⟩ := h
  have hside : s = a ∨ s = b := by
    have := a.eq_or_eq_other s
    rwa [← ha.sides] at this
  rcases hside with rfl | rfl
  · exact ha.empty
  · have hb := ha.behind
    rw [hk] at hb
    cases hin : cfg.inbox s with
    | nil => rfl
    | cons w ws =>
        rw [hin] at hb
        have hfirst := hb.of_clear.1
        rw [ha.sides] at hfirst
        exact absurd hfirst.symm a.other_ne

theorem InStep.inbox_lt (h : N.InStep n cfg) {w : W} {k : Proc W (Head s ⊕ Out s)}
    (hk : cfg.proc s = .send w k) : (cfg.inbox s.other).length < n := by
  have hstep : N.Step cfg (cfg.after s k (cfg.inbox s) [w]) :=
    ⟨s, k, _, [w], by rw [hk]; exact .send w k _, rfl⟩
  have hle := (h.step hstep).inbox_le s.other
  rw [Config.after_inbox_of_ne cfg s k _ _ s.other_ne, List.length_append] at hle
  exact hle

theorem Follows.append_nil {p q r : Proc W (Head .server ⊕ Out .server)}
    (h : Follows N.wire (N.body .server) .server p [] q)
    (hq : Follows N.wire (N.body .server) .server q c r) :
    Follows N.wire (N.body .server) .server p c r := by
  generalize hc : ([] : List (Side × W)) = c' at h
  induction h with
  | done p => exact hq
  | loop rest ih => exact .loop (ih hq hc)
  | send rest ih | recv rest ih | clear rest ih => cases hc

/-- Between two operations: nothing is in flight and the server is at the home loop head `d`. -/
structure Quiet (N : Network W Head Out) (d : Head .server) (cfg : Config W Head Out) : Prop where
  inbox : ∀ s, cfg.inbox s = []
  home : N.home d
  atHome : N.AtHome d (cfg.proc .server)

theorem Quiet.start {d : Head .server} (hq : N.Quiet d cfg)
    {p : Proc W (Head .client ⊕ Out .client)}
    (hcl : Follows N.wire (N.body .client) .client p c (e .client))
    (hsv : Follows N.wire (N.body .server) .server (.ret (.inl d)) c (e .server))
    (hf : N.Final e) (ho : N.Orderly n c) (hl : (∃ r, e .client = .ret (.inr r)) → ServerLast c) :
    N.InStepFrom n e (cfg.start p) := by
  have hserver : ∃ e', N.Final e' ∧ N.Onward e e' ∧
      Follows N.wire (N.body .server) .server (cfg.proc .server) c (e' .server) := by
    rcases hq.atHome with hh | hh
    · exact ⟨e, hf, .refl e, Follows.append_nil hh hsv⟩
    · generalize hq : e .server = q at hsv
      cases hsv with
      | done =>
          obtain ⟨e', hf', hes, _, honward⟩ := hf.enter .server hq
          exact ⟨e', hf', honward, hes ▸ hh⟩
      | loop rest => exact ⟨e, hf, .refl e, hq ▸ Follows.append_nil hh rest⟩
  obtain ⟨e', hf', honward, hs'⟩ := hserver
  refine ⟨.client, .server, c, e', ⟨rfl, ?_, ?_, ?_, hf', ?_, ?_⟩, honward⟩
  · exact hq.inbox .client
  · simpa [Config.start, honward.1] using hcl
  · simpa [Config.start, hq.inbox] using hs'
  · simpa [Config.start, hq.inbox] using ho
  · intro hret
    simpa [Config.start, hq.inbox] using hl (honward.1 ▸ hret)

theorem InStep.start (h : N.InStep n cfg) {r : Out .client}
    (hr : cfg.proc .client = .ret (.inr r)) {p}
    (ht : ∀ d, N.home d → N.AtHome d (cfg.proc .server) → N.Talks n d p) :
    N.InStep n (cfg.start p) := by
  obtain ⟨hin, d, hd, hhome⟩ := h.returned hr
  obtain ⟨c, e, hcl, hsv, hf, ho, hl⟩ := ht d hd hhome
  exact (Quiet.start ⟨hin, hd, hhome⟩ hcl hsv hf ho hl).inStep

theorem AtHome.of_follows {d : Head .server} {p q : Proc W (Head .server ⊕ Out .server)}
    (h : Follows N.wire (N.body .server) .server p [] q) (hq : N.AtHome d q) : N.AtHome d p :=
  hq.imp (Follows.append_nil h) (Follows.append_nil h)

/-- An operation that has returned has returned what its conversation says. -/
theorem InStepFrom.returned (h : N.InStepFrom n e cfg) {r : Out .client}
    (hr : cfg.proc .client = .ret (.inr r)) :
    e .client = .ret (.inr r) ∧
      ∀ d, N.home d → N.AtHome d (e .server) → N.Quiet d cfg := by
  have hin := (h.inStep.returned hr).1
  obtain ⟨s, t, c, e', ha, honward⟩ := h
  have hfollows : ∀ a, Follows N.wire (N.body a) a (cfg.proc a) c (e' a) := by
    intro a
    have hside : a = s ∨ a = t := by
      have := s.eq_or_eq_other a
      rwa [← ha.sides] at this
    rcases hside with rfl | rfl
    · exact ha.ahead
    · have hb := ha.behind
      rwa [hin, List.map_nil, List.nil_append] at hb
  have hclient := hfollows .client
  rw [hr, honward.1] at hclient
  generalize e .client = q at hclient
  cases hclient with
  | done =>
      exact ⟨rfl, fun d hd hh => ⟨hin, hd, .of_follows (hfollows .server) (honward.2 d hd hh)⟩⟩

theorem InStepFrom.steps {cfg' : Config W Head Out} (h : N.InStepFrom n e cfg)
    (hs : Relation.ReflTransGen N.Step cfg cfg') : N.InStepFrom n e cfg' := by
  induction hs with
  | refl => exact h
  | tail _ hstep ih => exact ih.step hstep

/-- The next loop head of the process, if any, is one of `Q`. -/
def Within (Q : Head s → Prop) (p : Proc W (Head s ⊕ Out s)) : Prop :=
  p.All (Sum.elim Q fun _ => True)

/-- `Q` is an invariant of the server's loops, and can be told from the program of a home. -/
structure Holds (N : Network W Head Out) (Q : Head .server → Prop) : Prop where
  body : ∀ l, Q l → Within Q (N.body .server l)
  home : ∀ l, N.home l → Within Q (N.body .server l) → Q l

section Holds

variable {Q : Head .server → Prop}
variable {allowed : Head .server → Proc W (Head .client ⊕ Out .client) → Prop}
variable {cfg₀ : Config W Head Out}

theorem Holds.localStep (hQ : N.Holds Q) {p p' : Proc W (Head .server ⊕ Out .server)}
    {i i' out : List W} (hp : Within Q p) (h : N.LocalStep .server p i p' i' out) :
    Within Q p' := by
  cases h with
  | send w k | skip w k _ h | clear k | drain w k => exact hp
  | recv w k _ h => exact hp _
  | loop l => exact hQ.body l hp

theorem Holds.follows (hQ : N.Holds Q) {p q : Proc W (Head .server ⊕ Out .server)}
    {c : List (Side × W)} (hp : Within Q p)
    (h : Follows N.wire (N.body .server) .server p c q) : Within Q q :=
  h.all (fun l hl => hQ.body l hl) hp

theorem Holds.reach (hQ : N.Holds Q) (h₀ : Within Q (cfg₀.proc .server))
    (h : N.Reach allowed cfg₀ cfg) : Within Q (cfg.proc .server) := by
  induction h with
  | refl => exact h₀
  | @step cfg _ _ hs ih =>
      obtain ⟨s, p, i, out, hloc, rfl⟩ := hs
      cases s with
      | client => rwa [Config.after_proc_of_ne cfg .client p i out (by decide)]
      | server =>
          rw [Config.after_proc_self]
          exact hQ.localStep ih hloc
  | start _ _ _ ih => exact ih

theorem Holds.atHome (hQ : N.Holds Q) {d : Head .server} (hd : N.home d)
    {p : Proc W (Head .server ⊕ Out .server)} (hp : Within Q p) (h : N.AtHome d p) : Q d := by
  rcases h with h | h
  · exact hQ.follows hp h
  · exact hQ.home d hd (hQ.follows hp h)

/-- The session rule: if every operation that is allowed in an invariant home has a
conversation, every reachable configuration is in step. -/
theorem Reach.inStep (hQ : N.Holds Q) (hQ₀ : Within Q (cfg₀.proc .server))
    (ht : ∀ d p, N.home d → Q d → allowed d p → N.Talks n d p) (h₀ : N.InStep n cfg₀)
    (h : N.Reach allowed cfg₀ cfg) : N.InStep n cfg := by
  induction h with
  | refl => exact h₀
  | step _ hs ih => exact ih.step hs
  | start hreach hr ha ih =>
      have hwithin := hQ.reach hQ₀ hreach
      exact ih.start hr fun d hd hh => ht d _ hd (hQ.atHome hd hwithin hh) (ha d hd hh)

end Holds

end Network

end Dialogue
