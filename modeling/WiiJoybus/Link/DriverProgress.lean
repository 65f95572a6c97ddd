import WiiJoybus.Link.DriverSession

/-!
Every operation can be brought to its end.

Whatever the order of the steps was up to now, the side that is behind reads the words
in flight, and the two programs then play the rest of the conversation word by word.
New words get to the program with an interrupt only. The Wii always has one to cause.
-/

namespace WiiJoybus
open Dialogue Dialogue.Network Interrupt RingBuffer

variable {Head Out : Side → Type} {size n : Nat} {N : Network Word Head Out}
variable {cube : LinkCube size} {p p' : Proc Word (Head wii ⊕ Out wii)}
variable {q q' : Proc Word (Head gba ⊕ Out gba)}
variable {inc out ins outs ws : List Word} {c : List (Side × Word)}

/-- The next thing the Wii does, whatever it is, has the new words put where the program
can read them. -/
theorem Follows.kick (thread : Thread Head Out size) (hN : Polled N)
    (hp : Follows N.wire (N.body wii) wii p c p') (hf : Free cube)
    (hheld : cube.Held inc out ins []) (hroom : ins.length ≤ size)
    (hsend : ∀ w c', c = (wii, w) :: c' → ins.length < size)
    (hend : c = [] → ∃ k, p' = .recv k) :
    ∃ p₁ cube₁ c₁, ∃ ws : List Word, DriverSteps N ⟨p, thread, cube⟩ ⟨p₁, thread, cube₁⟩ ∧
      c = ws.map (Prod.mk wii) ++ c₁ ∧ Follows N.wire (N.body wii) wii p₁ c₁ p' ∧
      Rested cube₁ (ins ++ ws.map N.wire) [] := by
  have hport := hheld.joyTrans_nil
  have hpolled : Rested cube.sent (ins ++ [].map N.wire) [] := by
    rw [List.map_nil, List.append_nil]
    exact hf.sent_nil hheld hroom
  induction hp with
  | done p =>
      obtain ⟨k, rfl⟩ := hend rfl
      exact ⟨_, _, [], [], .single (step_poll_idle hN hport), rfl, .done _, hpolled⟩
  | @loop l c p' _ ih =>
      obtain ⟨p₁, cube₁, c₁, ws, hs, hc, hrest, hrested⟩ := ih hsend hend
      exact ⟨p₁, cube₁, c₁, ws, .head .loop hs, hc, hrest, hrested⟩
  | @send w k c p' hrest _ =>
      obtain rfl := (List.append_eq_nil_iff.mp hheld.outs_eq.symm).2
      obtain ⟨hf', hheld'⟩ := hf.receive hheld (hsend w c rfl) (N.wire w)
      exact ⟨_, _, c, [w], .single .write, rfl, hrest, hf', hheld'⟩
  | @recv w k c p' hrest _ =>
      exact ⟨_, _, _, [], .single (step_poll_idle hN hport), rfl, .recv hrest, hpolled⟩
  | @clear w k c p' hrest _ =>
      exact ⟨_, _, _, [], .single (step_clear_idle hN hport), rfl, hrest, hpolled⟩

theorem Rested.drain (client : Proc Word (Head wii ⊕ Out wii))
    (hbody : ∀ l, (N.body gba l).Plain)
    (hq : Follows N.wire (N.body gba) gba q (ws.map (Prod.mk wii) ++ c) q') (hplain : q.Plain)
    (hc : Rested cube (ws.map N.wire) []) :
    ∃ q₁ cube₁, DriverSteps N ⟨client, .ret q, cube⟩ ⟨client, .ret q₁, cube₁⟩ ∧ q₁.Plain ∧
      Follows N.wire (N.body gba) gba q₁ c q' ∧ Rested cube₁ [] [] := by
  induction ws generalizing q cube with
  | nil => exact ⟨q, cube, .refl, hplain, hq, hc⟩
  | cons w ws ih =>
      obtain ⟨q₁, hqa, hqf⟩ := Follows.acts hq
      obtain ⟨cube₁, hs₁, hc₁⟩ := Acts.server_recv hbody hqa hplain hc
      obtain ⟨q₂, cube₂, hs₂, hplain₂, hqf₂, hc₂⟩ := ih hqf (hqa.plain hbody hplain) hc₁
      exact ⟨q₂, cube₂, hs₁.trans hs₂, hplain₂, hqf₂, hc₂⟩

theorem Follows.poll_all (thread : Thread Head Out size) (hN : Polled N)
    (hp : Follows N.wire (N.body wii) wii p (outs.map (Prod.mk gba) ++ c) p') (hf : Free cube)
    (hheld : cube.Held inc out [] outs) (haud : ∀ w ∈ outs, N.idle wii (N.wire w) = false) :
    ∃ p₁ cube₁, DriverSteps N ⟨p, thread, cube⟩ ⟨p₁, thread, cube₁⟩ ∧
      Follows N.wire (N.body wii) wii p₁ c p' ∧ Rested cube₁ [] [] := by
  induction outs generalizing p cube inc out with
  | nil =>
      obtain ⟨_, _, hins⟩ := hheld.ins_eq
      obtain rfl := (List.append_eq_nil_iff.mp hins.symm).1
      obtain rfl := (List.append_eq_nil_iff.mp hheld.outs_eq.symm).2
      exact ⟨p, cube, .refl, hp, hf, hheld⟩
  | cons w outs ih =>
      obtain ⟨p₁, hpa, hpf⟩ := Follows.acts hp
      obtain ⟨cube₁, hs₁, hf₁, hheld₁⟩ := Acts.client_recv hN hpa hf hheld (Nat.zero_le size)
        (fun v hv => hN.ne_zero (haud v hv)) (haud w List.mem_cons_self)
      obtain ⟨p₂, cube₂, hs₂, hpf₂, hc₂⟩ :=
        ih hpf hf₁ hheld₁ fun v hv => haud v (List.mem_cons_of_mem w hv)
      exact ⟨p₂, cube₂, hs₁.trans hs₂, hpf₂, hc₂⟩

theorem serverLast_wii (h : ServerLast (ws.map (Prod.mk wii))) : ws = [] := by
  cases hw : ws.getLast? with
  | none => exact List.getLast?_eq_none_iff.mp hw
  | some w =>
      have hside := h (wii, w) (by rw [List.getLast?_map, hw]; rfl)
      cases hside

section Finish

variable {cfg : Config Word Head Out} {e : (s : Side) → Proc Word (Head s ⊕ Out s)}
variable {s t : Side} {d : Driven Head Out size} {client : Proc Word (Head wii ⊕ Out wii)}

/-- Where the program is between two calls, the exchange can be played to its end. -/
theorem Shows.play (hN : Polled N) (hn : n ≤ size) (hsize : 0 < size)
    (hbody : ∀ l, (N.body gba l).Plain) (h : Shows N ⟨client, .ret q, cube⟩ cfg inc out)
    (ha : N.Ahead n s t c e cfg) (hplain : q.Plain) :
    ∃ cube', DriverSteps N ⟨client, .ret q, cube⟩ ⟨e wii, .ret (e gba), cube'⟩ ∧
      Rested cube' [] [] := by
  obtain ⟨hq, hf⟩ := h.stage.of_ret
  have hclient : cfg.proc wii = client := h.client
  have hheld := h.held
  have hahead := ha.ahead
  have hbehind := ha.behind
  have haud := ha.orderly.audible
  cases s with
  | server =>
      obtain rfl : t = wii := ha.sides
      rw [ha.empty, List.map_nil] at hheld
      rw [hq] at hahead
      rw [hclient] at hbehind
      obtain ⟨p₁, cube₁, hs₁, hp₁, hc₁⟩ := Follows.poll_all (.ret q) hN hbehind hf hheld
        fun w hw => haud (gba, w) (List.mem_append_left _ (List.mem_map_of_mem hw))
      obtain ⟨cube₂, hs₂, hc₂⟩ := hc₁.play hN hsize hbody hp₁ hahead hplain
        fun x hx => haud x (List.mem_append_right _ hx)
      exact ⟨cube₂, hs₁.trans hs₂, hc₂⟩
  | client =>
      obtain rfl : t = gba := ha.sides
      rw [ha.empty] at hheld
      rw [hclient] at hahead
      rw [hq] at hbehind
      have hlast := ha.last
      have hbounded := ha.orderly.bounded []
      generalize cfg.inbox gba = ws at hheld hbehind haud hlast hbounded
      cases ws with
      | nil =>
          obtain ⟨_, _, hins⟩ := hheld.ins_eq
          obtain rfl := (List.append_eq_nil_iff.mp hins.symm).1
          obtain rfl := (List.append_eq_nil_iff.mp hheld.outs_eq.symm).2
          have hc : Rested cube [] [] := ⟨hf, hheld⟩
          exact hc.play hN hsize hbody hahead hbehind hplain haud
      | cons v ws =>
          have hroom : ((v :: ws).map N.wire).length ≤ size := by
            rw [List.length_map]
            exact (hbounded wii (v :: ws) c rfl).trans hn
          obtain ⟨p₁, cube₁, c₁, vs, hs₁, rfl, hp₁, hc₁⟩ := Follows.kick (.ret q) hN hahead hf hheld
            hroom (fun w c' hc' => by
              subst hc'
              have hle := hbounded wii (v :: ws ++ [w]) c' (by simp)
              rw [List.length_append] at hle
              rw [List.length_map]
              exact hle.trans hn)
            (fun hc' => by
              subst hc'
              rcases ha.final with ⟨r, hr, _⟩ | ⟨k, hk, _⟩
              · rw [List.append_nil] at hlast
                cases serverLast_wii (hlast ⟨r, hr⟩)
              · exact ⟨k, hk⟩)
          rw [← List.append_assoc, ← List.map_append] at hbehind
          rw [← List.map_append] at hc₁
          obtain ⟨q₂, cube₂, hs₂, hplain₂, hq₂, hc₂⟩ :=
            hc₁.drain p₁ hbody hbehind hplain
          obtain ⟨cube₃, hs₃, hc₃⟩ := hc₂.play hN hsize hbody hp₁ hq₂ hplain₂
            fun x hx => haud x (List.mem_append_right _ (List.mem_append_right _ hx))
          exact ⟨cube₃, (hs₁.trans hs₂).trans hs₃, hc₃⟩

/-- From wherever it is an exchange can be played to its end. -/
theorem Shows.finish (hN : Polled N) (hn : n ≤ size) (hsize : 0 < size)
    (hbody : ∀ l, (N.body gba l).Plain) (h : Shows N d cfg inc out) (hin : N.InStep n cfg)
    (hplain : (cfg.proc gba).Plain) :
    ∃ e cube', N.Final e ∧ DriverSteps N d ⟨e wii, .ret (e gba), cube'⟩ ∧
      Rested cube' [] [] := by
  obtain ⟨client, thread, cube⟩ := d
  have hthread := steps_thread (N := N) client thread cube
  obtain ⟨s, t, c, e, ha⟩ := hin
  obtain ⟨cfg', inc', out', hreach, h'⟩ := h.steps hN hn ⟨s, t, c, e, ha, .refl e⟩ hthread
  obtain ⟨s', t', c', e', ha', _⟩ := InStepFrom.steps ⟨s, t, c, e, ha, .refl e⟩ hreach
  have hplain' := Steps.plain hbody hreach hplain
  rw [h'.stage.of_ret.1] at hplain'
  obtain ⟨cube', hs, hc⟩ := h'.play hN hn hsize hbody ha' hplain'
  exact ⟨e', cube', ha'.final, hthread.trans hs, hc⟩

end Finish

end WiiJoybus
