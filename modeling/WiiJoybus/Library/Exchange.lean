import WiiJoybus.Library.Interleaving

/-!
Conversations built from turns, and their uniqueness.

A request and its reply are two turns. A conversation of such rounds never lets
more words pile up than its longest turn holds, and the server has the last
word. Two processes have at most one finished conversation, so an outcome shown
for one conversation is the outcome.
-/

namespace Dialogue

variable {W H R : Type}

/-- One move of a process that the other side can see, internal moves included. -/
inductive Acts (wire : W → W) (body : H → Proc W (H ⊕ R)) (me : Side) :
    Proc W (H ⊕ R) → Side × W → Proc W (H ⊕ R) → Prop where
  | send (w k) : Acts wire body me (.send w k) (me, w) k
  | recv (w k) : Acts wire body me (.recv k) (me.other, w) (k (wire w))
  | clear {w k p} (h : Acts wire body me k (me, w) p) : Acts wire body me (.clear k) (me, w) p
  | loop {l x p} (h : Acts wire body me (body l) x p) : Acts wire body me (.ret (.inl l)) x p

section Acts

variable {wire : W → W} {body : H → Proc W (H ⊕ R)} {me : Side}

theorem Follows.acts {p q : Proc W (H ⊕ R)} {x : Side × W} {c : List (Side × W)}
    (h : Follows wire body me p (x :: c) q) :
    ∃ p', Acts wire body me p x p' ∧ Follows wire body me p' c q := by
  generalize hc : x :: c = c' at h
  induction h with
  | done p => cases hc
  | loop rest ih =>
      obtain ⟨p', ha, hf⟩ := ih hc
      exact ⟨p', .loop ha, hf⟩
  | send rest ih =>
      cases hc
      exact ⟨_, .send _ _, rest⟩
  | recv rest ih =>
      cases hc
      exact ⟨_, .recv _ _, rest⟩
  | clear rest ih =>
      cases hc
      obtain ⟨p', ha, hf⟩ := ih rfl
      exact ⟨p', .clear ha, hf⟩

/-- A process decides by itself whose turn it is, and what it sends. -/
theorem Acts.unique {p p₁ p₂ : Proc W (H ⊕ R)} {x y : Side × W}
    (hx : Acts wire body me p x p₁) (hy : Acts wire body me p y p₂) :
    x.1 = y.1 ∧ (x.1 = me → x = y) ∧ (x = y → p₁ = p₂) := by
  induction hx with
  | send w k =>
      cases hy
      exact ⟨rfl, fun _ => rfl, fun _ => rfl⟩
  | recv w k =>
      cases hy
      refine ⟨rfl, fun h => absurd h me.other_ne, ?_⟩
      intro h
      cases h
      rfl
  | clear _ ih =>
      cases hy with
      | clear hy => exact ih hy
  | loop _ ih =>
      cases hy with
      | loop hy => exact ih hy

/-- Two points a process gets to with the same conversation lie on one way. -/
theorem Follows.linear {p q q' : Proc W (H ⊕ R)} {c : List (Side × W)}
    (h : Follows wire body me p c q) (h' : Follows wire body me p c q') :
    Follows wire body me q [] q' ∨ Follows wire body me q' [] q := by
  induction h with
  | done p => exact Or.inl h'
  | loop rest ih =>
      cases h' with
      | done => exact Or.inr (.loop rest)
      | loop rest' => exact ih rest'
  | send rest ih =>
      cases h' with
      | send rest' => exact ih rest'
  | recv rest ih =>
      cases h' with
      | recv rest' => exact ih rest'
  | clear rest ih =>
      cases h' with
      | clear rest' => exact ih rest'

/-- A process at rest: it has a result, waits for a word or has halted. -/
def AtRest (q : Proc W (H ⊕ R)) : Prop :=
  (∃ r, q = .ret (.inr r)) ∨ (∃ k, q = .recv k) ∨ q = .halt

theorem Follows.rest_unique {p q q' : Proc W (H ⊕ R)} (h : Follows wire body me p [] q)
    (h' : Follows wire body me p [] q') (hq : AtRest q) (hq' : AtRest q') : q = q' := by
  generalize hc : ([] : List (Side × W)) = c at h
  induction h with
  | done p =>
      rcases hq with ⟨r, rfl⟩ | ⟨k, rfl⟩ | rfl <;> cases h' <;> rfl
  | @loop l _ _ rest ih =>
      cases h' with
      | done => rcases hq' with ⟨r, h⟩ | ⟨k, h⟩ | h <;> cases h
      | loop rest' => exact ih rest' hq hc
  | send rest ih | recv rest ih | clear rest ih => cases hc

theorem Follows.rest_acts {p q p' : Proc W (H ⊕ R)} {x : Side × W}
    (h : Follows wire body me p [] q) (hq : AtRest q) (ha : Acts wire body me p x p') :
    ∃ k, q = .recv k := by
  generalize hc : ([] : List (Side × W)) = c at h
  induction h with
  | done p =>
      rcases hq with ⟨r, rfl⟩ | ⟨k, rfl⟩ | rfl
      · cases ha
      · exact ⟨k, rfl⟩
      · cases ha
  | loop rest ih =>
      cases ha with
      | loop ha => exact ih hq ha hc
  | send rest ih | recv rest ih | clear rest ih => cases hc

end Acts

namespace Network

variable {Head Out : Side → Type} (N : Network W Head Out)

/-- The operation `p`, started at the home loop head `h`, finishes with the
result `r` and leaves the server at the home loop head `h'`. -/
def Exchanges (p : Proc W (Head .client ⊕ Out .client)) (h : Head .server) (r : Out .client)
    (h' : Head .server) : Prop :=
  ∃ c, Follows N.wire (N.body .client) .client p c (.ret (.inr r)) ∧
    Follows N.wire (N.body .server) .server (.ret (.inl h)) c (.ret (.inl h')) ∧ N.home h'

/-- The operation `p`, started at the home loop head `h`, leaves the client
waiting for ever for a server that has halted. -/
def Hangs (p : Proc W (Head .client ⊕ Out .client)) (h : Head .server) : Prop :=
  ∃ c k, Follows N.wire (N.body .client) .client p c (.recv k) ∧
    Follows N.wire (N.body .server) .server (.ret (.inl h)) c .halt

variable {N}

theorem joint_unique {c c' : List (Side × W)} {p p₁ p₂ : Proc W (Head .client ⊕ Out .client)}
    {q q₁ q₂ : Proc W (Head .server ⊕ Out .server)}
    (hp : Follows N.wire (N.body .client) .client p c p₁)
    (hq : Follows N.wire (N.body .server) .server q c q₁)
    (hp' : Follows N.wire (N.body .client) .client p c' p₂)
    (hq' : Follows N.wire (N.body .server) .server q c' q₂)
    (hrest : AtRest p₁ ∧ AtRest q₁ ∧ ((∃ k, p₁ = .recv k) → ¬ ∃ k, q₁ = .recv k))
    (hrest' : AtRest p₂ ∧ AtRest q₂ ∧ ((∃ k, p₂ = .recv k) → ¬ ∃ k, q₂ = .recv k)) :
    c = c' ∧ p₁ = p₂ ∧ q₁ = q₂ := by
  induction c generalizing p q c' with
  | nil =>
      cases c' with
      | nil =>
          exact ⟨rfl, hp.rest_unique hp' hrest.1 hrest'.1,
            hq.rest_unique hq' hrest.2.1 hrest'.2.1⟩
      | cons y c' =>
          obtain ⟨_, hpa, _⟩ := hp'.acts
          obtain ⟨_, hqa, _⟩ := hq'.acts
          exact absurd (hq.rest_acts hrest.2.1 hqa) (hrest.2.2 (hp.rest_acts hrest.1 hpa))
  | cons x c ih =>
      obtain ⟨p', hpx, hpf⟩ := hp.acts
      obtain ⟨q', hqx, hqf⟩ := hq.acts
      cases c' with
      | nil => exact absurd (hq'.rest_acts hrest'.2.1 hqx) (hrest'.2.2 (hp'.rest_acts hrest'.1 hpx))
      | cons y c' =>
          obtain ⟨p'', hpy, hpf'⟩ := hp'.acts
          obtain ⟨q'', hqy, hqf'⟩ := hq'.acts
          obtain ⟨hside, hcl, hpp⟩ := hpx.unique hpy
          obtain ⟨_, hsv, hqq⟩ := hqx.unique hqy
          have hxy : x = y := by
            cases hx : x.1 with
            | client => exact hcl hx
            | server => exact hsv hx
          subst hxy
          obtain rfl := hpp rfl
          obtain rfl := hqq rfl
          obtain ⟨rfl, hp₂, hq₂⟩ := ih hpf hqf hpf' hqf'
          exact ⟨rfl, hp₂, hq₂⟩

/-- A loop head at which its side waits for a word. -/
def Waits (N : Network W Head Out) (s : Side) (h : Head s) : Prop := ∃ k, N.body s h = .recv k

/-- The operation `p`, started at the home loop head `h`, ends with the result `r` while
the server waits at the loop head `h'`, which need not be a home. -/
def Returns (N : Network W Head Out) (p : Proc W (Head .client ⊕ Out .client)) (h : Head .server)
    (r : Out .client) (h' : Head .server) : Prop :=
  ∃ c, Follows N.wire (N.body .client) .client p c (.ret (.inr r)) ∧
    Follows N.wire (N.body .server) .server (.ret (.inl h)) c (.ret (.inl h')) ∧
    N.Waits .server h'

section Unique

variable {p : Proc W (Head .client ⊕ Out .client)} {h h' h₁ h₂ : Head .server}
variable {r r₁ r₂ : Out .client}

theorem Waits.follows {s : Side} {l : Head s} (hw : N.Waits s l) {c : List (Side × W)}
    {q : Proc W (Head s ⊕ Out s)}
    (hq : Follows N.wire (N.body s) s q c (.ret (.inl l))) :
    ∃ k, N.body s l = .recv k ∧ Follows N.wire (N.body s) s q c (.recv k) := by
  obtain ⟨k, hk⟩ := hw
  refine ⟨k, hk, ?_⟩
  generalize he : (Proc.ret (Sum.inl l) : Proc W (Head s ⊕ Out s)) = e at hq
  induction hq with
  | done p =>
      subst he
      exact .loop (hk ▸ .done _)
  | loop rest ih => exact .loop (ih he)
  | send rest ih => exact .send (ih he)
  | recv rest ih => exact .recv (ih he)
  | clear rest ih => exact .clear (ih he)

theorem Waits.unique {s : Side} {l l' : Head s} (hl : N.Waits s l) (hl' : N.Waits s l')
    {c : List (Side × W)} {q : Proc W (Head s ⊕ Out s)}
    (hq : Follows N.wire (N.body s) s q c (.ret (.inl l)))
    (hq' : Follows N.wire (N.body s) s q c (.ret (.inl l'))) : l = l' := by
  have hstay : ∀ {l l' : Head s}, N.Waits s l →
      Follows N.wire (N.body s) s (.ret (.inl l)) [] (.ret (.inl l')) → l = l' := by
    rintro l l' ⟨k, hk⟩ hf
    cases hf with
    | done => rfl
    | loop rest =>
        rw [hk] at rest
        cases rest
  rcases hq.linear hq' with hf | hf
  · exact hstay hl hf
  · exact (hstay hl' hf).symm

theorem Returns.unique (hx₁ : N.Returns p h r₁ h₁) (hx₂ : N.Returns p h r₂ h₂) :
    r₁ = r₂ ∧ h₁ = h₂ := by
  obtain ⟨c, hp, hq, hh₁⟩ := hx₁
  obtain ⟨c', hp', hq', hh₂⟩ := hx₂
  obtain ⟨k, hk, hqk⟩ := hh₁.follows hq
  obtain ⟨k', hk', hqk'⟩ := hh₂.follows hq'
  have hdone : ∀ r : Out .client,
      (∃ k, (Proc.ret (.inr r) : Proc W (Head .client ⊕ Out .client)) = .recv k) → False := by
    rintro r ⟨_, h⟩
    cases h
  obtain ⟨rfl, hpp, _⟩ := joint_unique hp hqk hp' hqk'
    ⟨Or.inl ⟨_, rfl⟩, Or.inr (Or.inl ⟨_, rfl⟩), fun h => (hdone _ h).elim⟩
    ⟨Or.inl ⟨_, rfl⟩, Or.inr (Or.inl ⟨_, rfl⟩), fun h => (hdone _ h).elim⟩
  refine ⟨?_, hh₁.unique hh₂ hq hq'⟩
  cases hpp
  rfl

theorem Exchanges.returns (hx : N.Exchanges p h r h') : N.Returns p h r h' := by
  obtain ⟨c, hp, hq, hh⟩ := hx
  exact ⟨c, hp, hq, N.home_recv h' hh⟩

theorem Exchanges.unique_out (h₁x : N.Exchanges p h r₁ h₁) (h₂x : N.Exchanges p h r₂ h₂) :
    r₁ = r₂ ∧ h₁ = h₂ :=
  h₁x.returns.unique h₂x.returns

theorem Hangs.not_returns (hh : N.Hangs p h) : ¬ N.Returns p h r h' := by
  rintro ⟨c', hp', hq', hwaits⟩
  obtain ⟨c, k, hp, hq⟩ := hh
  obtain ⟨k', _, hqk⟩ := hwaits.follows hq'
  obtain ⟨_, hpp, _⟩ := joint_unique hp hq hp' hqk
    ⟨Or.inr (Or.inl ⟨_, rfl⟩), Or.inr (Or.inr rfl), by rintro - ⟨_, h⟩; cases h⟩
    ⟨Or.inl ⟨_, rfl⟩, Or.inr (Or.inl ⟨_, rfl⟩), by rintro ⟨_, h⟩; cases h⟩
  cases hpp

theorem Hangs.not_exchanges (hh : N.Hangs p h) : ¬ N.Exchanges p h r h' :=
  fun hx => hh.not_returns hx.returns

end Unique

/-- The words side `s` sends in a row, before the rest of the conversation. -/
def turn (s : Side) (ws : List W) (c : List (Side × W)) : List (Side × W) :=
  ws.map (Prod.mk s) ++ c

/-- How many words the conversation starts with that side `s` sends in a row. -/
def lead (s : Side) : List (Side × W) → Nat
  | [] => 0
  | x :: c => if x.1 = s then lead s c + 1 else 0

theorem lead_turn_other (s : Side) (w : W) (ws : List W) (c : List (Side × W)) :
    lead s (turn s.other (w :: ws) c) = 0 := by
  simp [turn, lead, s.other_ne]

theorem le_lead (s : Side) (run : List W) (c : List (Side × W)) :
    run.length ≤ lead s (run.map (Prod.mk s) ++ c) := by
  induction run with
  | nil => exact Nat.zero_le _
  | cons w run ih => simpa [lead] using ih

theorem Orderly.nil (n : Nat) : N.Orderly n [] where
  audible x hx := by cases hx
  bounded pre s run rest hc := by
    obtain ⟨_, hc⟩ := List.append_eq_nil_iff.mp hc.symm
    obtain ⟨hrun, _⟩ := List.append_eq_nil_iff.mp hc
    simp [List.map_eq_nil_iff.mp hrun]

theorem Orderly.cons {n : Nat} {s : Side} {w : W} {c : List (Side × W)}
    (hw : N.idle s.other (N.wire w) = false) (hn : lead s c + 1 ≤ n) (h : N.Orderly n c) :
    N.Orderly n ((s, w) :: c) where
  audible x hx := by
    rcases List.mem_cons.mp hx with rfl | hx
    · exact hw
    · exact h.audible x hx
  bounded pre s' run rest hc := by
    cases pre with
    | cons x pre =>
        simp only [List.cons_append, List.cons.injEq] at hc
        exact h.bounded pre s' run rest hc.2
    | nil =>
        cases run with
        | nil => exact Nat.zero_le n
        | cons w' run =>
            simp only [List.nil_append, List.map_cons, List.cons_append, List.cons.injEq,
              Prod.mk.injEq] at hc
            obtain ⟨⟨rfl, rfl⟩, rfl⟩ := hc
            have := le_lead s run rest
            simp only [List.length_cons]
            omega

theorem Orderly.turn {n : Nat} {s : Side} {ws : List W} {c : List (Side × W)}
    (hws : ∀ w ∈ ws, N.idle s.other (N.wire w) = false) (hn : ws.length + lead s c ≤ n)
    (h : N.Orderly n c) : N.Orderly n (turn s ws c) := by
  have hlead : ∀ ws : List W, lead s (Network.turn s ws c) = ws.length + lead s c := by
    intro ws
    induction ws with
    | nil => simp [Network.turn]
    | cons w ws ih =>
        have hstep : lead s (Network.turn s (w :: ws) c) = lead s (Network.turn s ws c) + 1 := by
          simp [Network.turn, lead]
        rw [hstep, ih, List.length_cons]
        omega
  induction ws with
  | nil => exact h
  | cons w ws ih =>
      have hl := hlead ws
      rw [List.length_cons] at hn
      refine .cons (hws w List.mem_cons_self) ?_ (ih ?_ (by omega))
      · change lead s (Network.turn s ws c) + 1 ≤ n
        omega
      · intro v hv
        exact hws v (List.mem_cons_of_mem w hv)

/-- A turn that can be part of an orderly conversation. -/
structure Utterance (N : Network W Head Out) (n : Nat) (s : Side) (ws : List W) : Prop where
  nonempty : ws ≠ []
  length_le : ws.length ≤ n
  audible : ∀ w ∈ ws, N.idle s.other (N.wire w) = false

/-- Conversations of whole rounds; with `false`, the server never answers the
client's last turn. -/
inductive Rounds (N : Network W Head Out) (n : Nat) : Bool → List (Side × W) → Prop where
  | nil : Rounds N n true []
  | hang {req} (hreq : N.Utterance n .client req) : Rounds N n false (turn .client req [])
  | round {b req resp c} (hreq : N.Utterance n .client req) (hresp : N.Utterance n .server resp)
      (h : Rounds N n b c) : Rounds N n b (turn .client req (turn .server resp c))

theorem Rounds.lead_server {n : Nat} {b : Bool} {c : List (Side × W)} (h : N.Rounds n b c) :
    lead .server c = 0 := by
  cases h with
  | nil => rfl
  | @hang req hreq | @round _ req _ _ hreq =>
      cases req with
      | nil => exact absurd rfl hreq.nonempty
      | cons w ws => exact lead_turn_other .server w ws _

theorem Rounds.orderly {n : Nat} {b : Bool} {c : List (Side × W)} (h : N.Rounds n b c) :
    N.Orderly n c := by
  induction h with
  | nil => exact .nil n
  | hang hreq => exact .turn hreq.audible (by simpa [lead] using hreq.length_le) (.nil n)
  | @round _ req resp c hreq hresp h ih =>
      have hc := h.lead_server
      refine .turn hreq.audible ?_ (.turn hresp.audible ?_ ih)
      · cases resp with
        | nil => exact absurd rfl hresp.nonempty
        | cons w ws =>
            have := lead_turn_other .client w ws c
            simp only [Side.other] at this
            rw [this]
            exact hreq.length_le
      · rw [hc]
        exact hresp.length_le

theorem Rounds.serverLast {n : Nat} {c : List (Side × W)} (h : N.Rounds n true c) :
    ServerLast c := by
  generalize hb : true = b at h
  induction h with
  | nil => intro x hx; cases hx
  | hang => cases hb
  | @round _ req resp c hreq hresp _ ih =>
      intro x hx
      cases hc : c.getLast? with
      | some y =>
          simp only [Network.turn, List.getLast?_append, hc, Option.some_or,
            Option.some.injEq] at hx
          exact ih hb x (hx ▸ hc)
      | none =>
          cases hr : resp.getLast? with
          | none => exact absurd (List.getLast?_eq_none_iff.mp hr) hresp.nonempty
          | some w =>
              simp only [Network.turn, List.getLast?_append, hc, List.getLast?_map, hr,
                Option.map_some, Option.none_or, Option.some_or, Option.some.injEq] at hx
              rw [← hx]

/-- `p` and `q` play whole rounds, after which the client has the result `r` and
the server is at the home loop head `h`. -/
def Meets (N : Network W Head Out) (n : Nat) (p : Proc W (Head .client ⊕ Out .client))
    (q : Proc W (Head .server ⊕ Out .server)) (r : Out .client) (h : Head .server) : Prop :=
  ∃ c, N.Rounds n true c ∧ Follows N.wire (N.body .client) .client p c (.ret (.inr r)) ∧
    Follows N.wire (N.body .server) .server q c (.ret (.inl h)) ∧ N.home h

/-- `p` and `q` play whole rounds and are then at `p'` and `q'`. -/
def Plays (N : Network W Head Out) (n : Nat) (p : Proc W (Head .client ⊕ Out .client))
    (q : Proc W (Head .server ⊕ Out .server)) (p' : Proc W (Head .client ⊕ Out .client))
    (q' : Proc W (Head .server ⊕ Out .server)) : Prop :=
  ∃ c, N.Rounds n true c ∧ Follows N.wire (N.body .client) .client p c p' ∧
    Follows N.wire (N.body .server) .server q c q'

/-- `p` and `q` play rounds until the server halts on a turn of the client. -/
def Stalls (N : Network W Head Out) (n : Nat) (p : Proc W (Head .client ⊕ Out .client))
    (q : Proc W (Head .server ⊕ Out .server)) : Prop :=
  ∃ c k, N.Rounds n false c ∧ Follows N.wire (N.body .client) .client p c (.recv k) ∧
    Follows N.wire (N.body .server) .server q c .halt

/-- One round: the client gets from `p` to `p'`, the server from `q` to `q'`. -/
structure Round (N : Network W Head Out) (n : Nat) (p p' : Proc W (Head .client ⊕ Out .client))
    (q q' : Proc W (Head .server ⊕ Out .server)) (req resp : List W) : Prop where
  asks : N.Utterance n .client req
  answers : N.Utterance n .server resp
  client : ∀ c e, Follows N.wire (N.body .client) .client p' c e →
    Follows N.wire (N.body .client) .client p (turn .client req (turn .server resp c)) e
  server : ∀ c e, Follows N.wire (N.body .server) .server q' c e →
    Follows N.wire (N.body .server) .server q (turn .client req (turn .server resp c)) e

section Meets

variable {n : Nat} {p p' : Proc W (Head .client ⊕ Out .client)}
variable {q q' : Proc W (Head .server ⊕ Out .server)} {req resp : List W}
variable {r : Out .client} {h h' : Head .server}

theorem Meets.done (hh : N.home h) : N.Meets n (.ret (.inr r)) (.ret (.inl h)) r h :=
  ⟨[], .nil, .done _, .done _, hh⟩

theorem Round.meets (hr : N.Round n p p' q q' req resp) (hm : N.Meets n p' q' r h) :
    N.Meets n p q r h := by
  obtain ⟨c, hc, hp, hq, hh⟩ := hm
  exact ⟨_, .round hr.asks hr.answers hc, hr.client c _ hp, hr.server c _ hq, hh⟩

theorem Round.stalls (hr : N.Round n p p' q q' req resp) (hm : N.Stalls n p' q') :
    N.Stalls n p q := by
  obtain ⟨c, k, hc, hp, hq⟩ := hm
  exact ⟨_, k, .round hr.asks hr.answers hc, hr.client c _ hp, hr.server c _ hq⟩

theorem Plays.done : N.Plays n p q p q := ⟨[], .nil, .done _, .done _⟩

theorem Round.plays {p'' : Proc W (Head .client ⊕ Out .client)}
    {q'' : Proc W (Head .server ⊕ Out .server)} (hr : N.Round n p p' q q' req resp)
    (hm : N.Plays n p' q' p'' q'') : N.Plays n p q p'' q'' := by
  obtain ⟨c, hc, hp, hq⟩ := hm
  exact ⟨_, .round hr.asks hr.answers hc, hr.client c _ hp, hr.server c _ hq⟩

theorem Plays.client_loop {l : Head .client} (hm : N.Plays n (N.body .client l) q p' q') :
    N.Plays n (.ret (.inl l)) q p' q' := by
  obtain ⟨c, hc, hp, hq⟩ := hm
  exact ⟨c, hc, .loop hp, hq⟩

theorem Meets.plays (hm : N.Meets n p q r h) : N.Plays n p q (.ret (.inr r)) (.ret (.inl h)) := by
  obtain ⟨c, hc, hp, hq, _⟩ := hm
  exact ⟨c, hc, hp, hq⟩

theorem Plays.meets (hm : N.Plays n p q (.ret (.inr r)) (.ret (.inl h))) (hh : N.home h) :
    N.Meets n p q r h := by
  obtain ⟨c, hc, hp, hq⟩ := hm
  exact ⟨c, hc, hp, hq, hh⟩

theorem Plays.returns (hm : N.Plays n p (.ret (.inl h)) (.ret (.inr r)) (.ret (.inl h')))
    (hw : N.Waits .server h') : N.Returns p h r h' := by
  obtain ⟨c, _, hp, hq⟩ := hm
  exact ⟨c, hp, hq, hw⟩

theorem Meets.client_loop {l : Head .client} (hm : N.Meets n (N.body .client l) q r h) :
    N.Meets n (.ret (.inl l)) q r h := by
  obtain ⟨c, hc, hp, hq, hh⟩ := hm
  exact ⟨c, hc, .loop hp, hq, hh⟩

theorem Meets.server_loop {l : Head .server} (hm : N.Meets n p (N.body .server l) r h) :
    N.Meets n p (.ret (.inl l)) r h := by
  obtain ⟨c, hc, hp, hq, hh⟩ := hm
  exact ⟨c, hc, hp, .loop hq, hh⟩

theorem Stalls.client_loop {l : Head .client} (hm : N.Stalls n (N.body .client l) q) :
    N.Stalls n (.ret (.inl l)) q := by
  obtain ⟨c, k, hc, hp, hq⟩ := hm
  exact ⟨c, k, hc, .loop hp, hq⟩

theorem Stalls.server_loop {l : Head .server} (hm : N.Stalls n p (N.body .server l)) :
    N.Stalls n p (.ret (.inl l)) := by
  obtain ⟨c, k, hc, hp, hq⟩ := hm
  exact ⟨c, k, hc, hp, .loop hq⟩

theorem Meets.exchanges (hm : N.Meets n p (.ret (.inl h')) r h) : N.Exchanges p h' r h := by
  obtain ⟨c, _, hp, hq, hh⟩ := hm
  exact ⟨c, hp, hq, hh⟩

theorem Stalls.hangs (hm : N.Stalls n p (.ret (.inl h'))) : N.Hangs p h' := by
  obtain ⟨c, k, _, hp, hq⟩ := hm
  exact ⟨c, k, hp, hq⟩

private def ends (p : Proc W (Head .client ⊕ Out .client))
    (q : Proc W (Head .server ⊕ Out .server)) : (s : Side) → Proc W (Head s ⊕ Out s)
  | .client => p
  | .server => q

theorem Meets.talks (hm : N.Meets n p (.ret (.inl h')) r h) : N.Talks n h' p := by
  obtain ⟨c, hc, hp, hq, hh⟩ := hm
  exact ⟨c, ends (.ret (.inr r)) (.ret (.inl h)), hp, hq,
    Or.inl ⟨r, rfl, h, hh, Or.inl (.done _)⟩, hc.orderly, fun _ => hc.serverLast⟩

theorem Stalls.talks (hm : N.Stalls n p (.ret (.inl h'))) : N.Talks n h' p := by
  obtain ⟨c, k, hc, hp, hq⟩ := hm
  refine ⟨c, ends (.recv k) .halt, hp, hq, Or.inr ⟨k, rfl, rfl⟩, hc.orderly, ?_⟩
  rintro ⟨r, hr⟩
  cases hr

theorem Meets.start {cfg : Config W Head Out} (hm : N.Meets n p (.ret (.inl h)) r h')
    (hq : N.Quiet h cfg) : ∃ e, e .client = .ret (.inr r) ∧ N.home h' ∧
      N.AtHome h' (e .server) ∧ N.InStepFrom n e (cfg.start p) := by
  obtain ⟨c, hc, hp, hsv, hh⟩ := hm
  exact ⟨ends (.ret (.inr r)) (.ret (.inl h')), rfl, hh, Or.inl (.done _),
    hq.start hp hsv (Or.inl ⟨r, rfl, h', hh, Or.inl (.done _)⟩) hc.orderly fun _ => hc.serverLast⟩

theorem Stalls.start {cfg : Config W Head Out} (hm : N.Stalls n p (.ret (.inl h)))
    (hq : N.Quiet h cfg) : ∃ e k, e .client = .recv k ∧ N.InStepFrom n e (cfg.start p) := by
  obtain ⟨c, k, hc, hp, hsv⟩ := hm
  exact ⟨ends (.recv k) .halt, k, rfl,
    hq.start hp hsv (Or.inr ⟨k, rfl, rfl⟩) hc.orderly (by rintro ⟨_, h⟩; cases h)⟩

end Meets

section Play

variable {allowed : Head .server → Proc W (Head .client ⊕ Out .client) → Prop}
variable {cfg₀ cfg : Config W Head Out} {s : Side}

/-- `cfg'` is reachable, side `s` has moved to `p` and the other side is where it was. -/
structure MovedTo (N : Network W Head Out)
    (allowed : Head .server → Proc W (Head .client ⊕ Out .client) → Prop)
    (cfg₀ cfg : Config W Head Out) (s : Side) (p : Proc W (Head s ⊕ Out s))
    (cfg' : Config W Head Out) : Prop where
  reach : N.Reach allowed cfg₀ cfg'
  moved : cfg'.proc s = p
  other : cfg'.proc s.other = cfg.proc s.other

theorem MovedTo.of_step {p q : Proc W (Head s ⊕ Out s)} {i out : List W}
    {cfg' : Config W Head Out}
    (h : N.MovedTo allowed cfg₀ (cfg.after s p i out) s q cfg') :
    N.MovedTo allowed cfg₀ cfg s q cfg' where
  reach := h.reach
  moved := h.moved
  other := h.other.trans (Config.after_proc_of_ne cfg s p i out s.other_ne)

theorem movedTo_after {p q : Proc W (Head s ⊕ Out s)} {i i' out : List W}
    (hr : N.Reach allowed cfg₀ cfg) (hp : cfg.proc s = p) (hin : cfg.inbox s = i)
    (hstep : N.LocalStep s p i q i' out) :
    N.MovedTo allowed cfg₀ cfg s q (cfg.after s q i' out) where
  reach := hr.step ⟨s, q, i', out, by rwa [hp, hin], rfl⟩
  moved := by simp
  other := Config.after_proc_of_ne cfg s q i' out s.other_ne

theorem Acts.send_reach {p p' : Proc W (Head s ⊕ Out s)} {w : W}
    (ha : Acts N.wire (N.body s) s p (s, w) p') (hr : N.Reach allowed cfg₀ cfg)
    (hp : cfg.proc s = p) (hin : cfg.inbox s = []) :
    ∃ cfg', N.MovedTo allowed cfg₀ cfg s p' cfg' ∧ cfg'.inbox s = [] ∧
      cfg'.inbox s.other = cfg.inbox s.other ++ [w] := by
  generalize hx : (s, w) = x at ha
  induction ha generalizing cfg with
  | send v k =>
      cases hx
      exact ⟨_, movedTo_after hr hp hin (.send w k []), by simp,
        Config.after_inbox_of_ne cfg s k [] [w] s.other_ne⟩
  | recv v k => exact absurd (congrArg Prod.fst hx).symm s.other_ne
  | @clear v k q h ih =>
      have hm := movedTo_after hr hp hin (.clear k)
      obtain ⟨cfg', hm', hi, ho⟩ := ih hm.reach hm.moved (by simp) hx
      exact ⟨cfg', hm'.of_step, hi, ho.trans (by
        rw [Config.after_inbox_of_ne cfg s k [] [] s.other_ne, List.append_nil])⟩
  | @loop l y q h ih =>
      have hm := movedTo_after hr hp hin (.loop l [])
      obtain ⟨cfg', hm', hi, ho⟩ := ih hm.reach hm.moved (by simp) hx
      exact ⟨cfg', hm'.of_step, hi, ho.trans (by
        rw [Config.after_inbox_of_ne cfg s _ [] [] s.other_ne, List.append_nil])⟩

theorem Acts.recv_reach {p p' : Proc W (Head s ⊕ Out s)} {w : W}
    (ha : Acts N.wire (N.body s) s p (s.other, w) p') (hr : N.Reach allowed cfg₀ cfg)
    (hp : cfg.proc s = p) (hin : cfg.inbox s = [w]) (haud : N.idle s (N.wire w) = false) :
    ∃ cfg', N.MovedTo allowed cfg₀ cfg s p' cfg' ∧ cfg'.inbox s = [] ∧
      cfg'.inbox s.other = cfg.inbox s.other := by
  generalize hx : (s.other, w) = x at ha
  induction ha generalizing cfg with
  | send v k => exact absurd (congrArg Prod.fst hx) s.other_ne
  | recv v k =>
      cases hx
      exact ⟨_, movedTo_after hr hp hin (.recv w k [] haud), by simp, by
        rw [Config.after_inbox_of_ne cfg s _ [] [] s.other_ne, List.append_nil]⟩
  | clear h ih => exact absurd (congrArg Prod.fst hx) s.other_ne
  | @loop l y q h ih =>
      have hm := movedTo_after hr hp hin (.loop l [w])
      obtain ⟨cfg', hm', hi, ho⟩ := ih hm.reach hm.moved (by simp) hx
      exact ⟨cfg', hm'.of_step, hi, ho.trans (by
        rw [Config.after_inbox_of_ne cfg s _ [w] [] s.other_ne, List.append_nil])⟩

theorem Follows.rest_reach {p q : Proc W (Head s ⊕ Out s)}
    (h : Follows N.wire (N.body s) s p [] q) (hr : N.Reach allowed cfg₀ cfg)
    (hp : cfg.proc s = p) (hin : cfg.inbox s = []) :
    ∃ cfg', N.MovedTo allowed cfg₀ cfg s q cfg' ∧ cfg'.inbox s = [] ∧
      cfg'.inbox s.other = cfg.inbox s.other := by
  generalize hc : ([] : List (Side × W)) = c at h
  induction h generalizing cfg with
  | done p => exact ⟨cfg, ⟨hr, hp, rfl⟩, hin, rfl⟩
  | @loop l c q rest ih =>
      have hm := movedTo_after hr hp hin (.loop l [])
      obtain ⟨cfg', hm', hi, ho⟩ := ih hm.reach hm.moved (by simp) hc
      exact ⟨cfg', hm'.of_step, hi, ho.trans (by
        rw [Config.after_inbox_of_ne cfg s _ [] [] s.other_ne, List.append_nil])⟩
  | send rest ih | recv rest ih | clear rest ih => cases hc

/-- A conversation that both sides follow is one of the runs, namely the one in which
every word is taken as soon as it is there. -/
theorem Reach.play {c : List (Side × W)} {p : Proc W (Head .client ⊕ Out .client)}
    {q : Proc W (Head .server ⊕ Out .server)} (hr : N.Reach allowed cfg₀ cfg)
    (hp : Follows N.wire (N.body .client) .client (cfg.proc .client) c p)
    (hq : Follows N.wire (N.body .server) .server (cfg.proc .server) c q)
    (hin : ∀ s, cfg.inbox s = [])
    (haud : ∀ x ∈ c, N.idle x.1.other (N.wire x.2) = false) :
    ∃ cfg', N.Reach allowed cfg₀ cfg' ∧ cfg'.proc .client = p ∧ cfg'.proc .server = q ∧
      ∀ s, cfg'.inbox s = [] := by
  induction c generalizing cfg with
  | nil =>
      obtain ⟨cfg₁, hm₁, hi₁, ho₁⟩ := Follows.rest_reach hp hr rfl (hin .client)
      have hq₁ : cfg₁.inbox .server = [] := ho₁.trans (hin .server)
      obtain ⟨cfg₂, hm₂, hi₂, ho₂⟩ := Follows.rest_reach hq hm₁.reach hm₁.other hq₁
      refine ⟨cfg₂, hm₂.reach, hm₂.other.trans hm₁.moved, hm₂.moved, ?_⟩
      intro s
      cases s with
      | client => exact ho₂.trans hi₁
      | server => exact hi₂
  | cons x c ih =>
      obtain ⟨s, w⟩ := x
      have hx := haud (s, w) List.mem_cons_self
      have hrest := fun y hy => haud y (List.mem_cons_of_mem _ hy)
      obtain ⟨p', hpa, hpf⟩ := hp.acts
      obtain ⟨q', hqa, hqf⟩ := hq.acts
      cases s with
      | client =>
          obtain ⟨cfg₁, hm₁, hi₁, ho₁⟩ := Acts.send_reach hpa hr rfl (hin .client)
          have hw : cfg₁.inbox .server = [w] := by
            rw [show Side.server = Side.client.other from rfl, ho₁, hin, List.nil_append]
          obtain ⟨cfg₂, hm₂, hi₂, ho₂⟩ := Acts.recv_reach hqa hm₁.reach hm₁.other hw hx
          refine ih hm₂.reach ?_ ?_ ?_ hrest
          · exact (hm₂.other.trans hm₁.moved) ▸ hpf
          · exact hm₂.moved ▸ hqf
          · intro s
            cases s with
            | client => exact ho₂.trans hi₁
            | server => exact hi₂
      | server =>
          obtain ⟨cfg₁, hm₁, hi₁, ho₁⟩ := Acts.send_reach hqa hr rfl (hin .server)
          have hw : cfg₁.inbox .client = [w] := by
            rw [show Side.client = Side.server.other from rfl, ho₁, hin, List.nil_append]
          obtain ⟨cfg₂, hm₂, hi₂, ho₂⟩ := Acts.recv_reach hpa hm₁.reach hm₁.other hw hx
          refine ih hm₂.reach ?_ ?_ ?_ hrest
          · exact hm₂.moved ▸ hpf
          · exact (hm₂.other.trans hm₁.moved) ▸ hqf
          · intro s
            cases s with
            | client => exact hi₂
            | server => exact ho₂.trans hi₁

theorem Plays.reach {n : Nat} {p : Proc W (Head .client ⊕ Out .client)}
    {q : Proc W (Head .server ⊕ Out .server)} (hr : N.Reach allowed cfg₀ cfg)
    (hm : N.Plays n (cfg.proc .client) (cfg.proc .server) p q) (hin : ∀ s, cfg.inbox s = []) :
    ∃ cfg', N.Reach allowed cfg₀ cfg' ∧ cfg'.proc .client = p ∧ cfg'.proc .server = q ∧
      ∀ s, cfg'.inbox s = [] := by
  obtain ⟨c, hc, hp, hq⟩ := hm
  exact hr.play hp hq hin hc.orderly.audible

end Play

end Network

end Dialogue
