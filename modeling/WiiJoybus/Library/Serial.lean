import WiiJoybus.Library.Exchange

/-!
Operations one after the other.

The meaning of a session is that of its operations taken one by one, each of them
in one piece. Such a session is determined by its operations.
-/

namespace Dialogue

variable {W H R α β : Type}

/-- A process that never discards what is pending. -/
def Proc.Plain : Proc W α → Prop
  | .ret _ => True
  | .send _ k => k.Plain
  | .recv k => ∀ w, (k w).Plain
  | .clear _ => False
  | .halt => True

theorem Proc.Plain.bind {p : Proc W α} {f : α → Proc W β} (hp : p.Plain)
    (hf : ∀ a, (f a).Plain) : (p >>= f).Plain := by
  change (p.bind f).Plain
  induction p with
  | ret a => exact hf a
  | send w k ih => exact ih hp
  | recv k ih => exact fun w => ih w (hp w)
  | clear k ih => exact absurd hp id
  | halt => exact trivial

theorem Proc.plain_sendAll (ws : List W) : (sendAll ws).Plain := by
  induction ws with
  | nil => exact trivial
  | cons w ws ih => exact ih

theorem Acts.plain {wire : W → W} {body : H → Proc W (H ⊕ R)} {me : Side}
    (hbody : ∀ l, (body l).Plain) {p p' : Proc W (H ⊕ R)} {x : Side × W}
    (ha : Acts wire body me p x p') (hp : p.Plain) : p'.Plain := by
  induction ha with
  | send w k => exact hp
  | recv w k => exact hp _
  | clear _ _ => exact absurd hp id
  | @loop l x p' _ ih => exact ih (hbody l)

namespace Network

variable {Head Out : Side → Type} (N : Network W Head Out)

/-- The given operations end with the given results and take the server from `h` to `h'`. -/
inductive Serial : Head .server → List (Proc W (Head .client ⊕ Out .client) × Out .client) →
    Head .server → Prop where
  | nil (h) : Serial h [] h
  | cons {h h' h'' p r ops} (hx : N.Exchanges p h r h') (rest : Serial h' ops h'') :
      Serial h ((p, r) :: ops) h''

/-- Every operation is allowed where its turn comes. -/
def AllowedAlong (allowed : Head .server → Proc W (Head .client ⊕ Out .client) → Prop) :
    Head .server → List (Proc W (Head .client ⊕ Out .client) × Out .client) → Prop
  | _, [] => True
  | h, (p, r) :: ops => allowed h p ∧ ∀ h', N.Exchanges p h r h' → AllowedAlong allowed h' ops

variable {N} {Q : Head .server → Prop} {h h₁ h₂ : Head .server}
variable {allowed : Head .server → Proc W (Head .client ⊕ Out .client) → Prop}
variable {cfg₀ cfg cfg' : Config W Head Out}
variable {ops ops' : List (Proc W (Head .client ⊕ Out .client) × Out .client)}

theorem Step.plain (hbody : ∀ l, (N.body .server l).Plain) (hs : N.Step cfg cfg')
    (hp : (cfg.proc .server).Plain) : (cfg'.proc .server).Plain := by
  obtain ⟨s, p, i, out, hloc, rfl⟩ := hs
  cases s with
  | client => rwa [Config.after_proc_of_ne cfg .client p i out (by decide)]
  | server =>
      rw [Config.after_proc_self]
      generalize cfg.proc .server = p₀ at hloc hp
      generalize cfg.inbox .server = i₀ at hloc
      cases hloc with
      | send | skip => exact hp
      | recv w k _ h => exact hp _
      | clear | drain => exact absurd hp id
      | loop l _ => exact hbody l

theorem Steps.plain (hbody : ∀ l, (N.body .server l).Plain)
    (hs : Relation.ReflTransGen N.Step cfg cfg') (hp : (cfg.proc .server).Plain) :
    (cfg'.proc .server).Plain := by
  induction hs with
  | refl => exact hp
  | tail _ hstep ih => exact hstep.plain hbody ih

theorem Reach.plain (hbody : ∀ l, (N.body .server l).Plain) (hr : N.Reach allowed cfg₀ cfg)
    (hp : (cfg₀.proc .server).Plain) : (cfg.proc .server).Plain := by
  induction hr with
  | refl => exact hp
  | step _ hstep ih => exact Step.plain hbody hstep ih
  | start _ _ _ ih => exact ih

theorem Serial.of_nil (hs : N.Serial h [] h₁) : h₁ = h := by
  cases hs
  rfl

theorem Serial.of_cons {x : Proc W (Head .client ⊕ Out .client) × Out .client}
    (hs : N.Serial h (x :: ops) h₂) :
    ∃ h₁, N.Exchanges x.1 h x.2 h₁ ∧ N.Serial h₁ ops h₂ := by
  cases hs with
  | cons hx rest => exact ⟨_, hx, rest⟩

/-- The operations determine their results and where the server ends. -/
theorem Serial.unique (hs : N.Serial h ops h₁) (hs' : N.Serial h ops' h₂)
    (hops : ops.map Prod.fst = ops'.map Prod.fst) : ops = ops' ∧ h₁ = h₂ := by
  induction hs generalizing ops' with
  | nil h =>
      obtain rfl := List.map_eq_nil_iff.mp hops.symm
      cases hs'
      exact ⟨rfl, rfl⟩
  | cons hx _ ih =>
      cases hs' with
      | nil => cases hops
      | cons hx' rest' =>
          simp only [List.map_cons, List.cons.injEq] at hops
          obtain ⟨rfl, hops⟩ := hops
          obtain ⟨rfl, rfl⟩ := hx.unique_out hx'
          obtain ⟨rfl, rfl⟩ := ih rest' hops
          exact ⟨rfl, rfl⟩

theorem Holds.exchanges (hQ : N.Holds Q) {p : Proc W (Head .client ⊕ Out .client)}
    {r : Out .client} (hx : N.Exchanges p h r h₁) (hh : Q h) : Q h₁ := by
  obtain ⟨c, _, hserver, _⟩ := hx
  exact hQ.follows (p := .ret (.inl h)) hh hserver

theorem Serial.home (hs : N.Serial h ops h₁) (hh : N.home h) : N.home h₁ := by
  induction hs with
  | nil => exact hh
  | cons hx _ ih =>
      obtain ⟨_, _, _, hhome⟩ := hx
      exact ih hhome

theorem Holds.serial (hQ : N.Holds Q) (hs : N.Serial h ops h₁) (hh : Q h) : Q h₁ := by
  induction hs with
  | nil => exact hh
  | cons hx _ ih => exact ih (hQ.exchanges hx hh)

theorem Quiet.inStep {n : Nat} {cfg : Config W Head Out} (hq : N.Quiet h cfg) {r : Out .client}
    (hr : cfg.proc .client = .ret (.inr r)) : N.InStep n cfg :=
  ⟨.client, .server, [], cfg.proc, rfl, hq.inbox _, .done _, by rw [hq.inbox]; exact .done _,
    Or.inl ⟨r, hr, h, hq.home, hq.atHome⟩, by rw [hq.inbox]; exact .nil n,
    fun _ x hx => by rw [hq.inbox] at hx; cases hx⟩

end Network

end Dialogue
