import WiiJoybus.Link.TreeSession

/-!
A name over a session.

What CREATE or MKDIR has bound to a name stays there through everything that the other
calls do, until the name is removed or its directory is reclaimed.
-/

namespace WiiJoybus
open ByteMemory Dialogue Dialogue.Network

/-- The operation makes a node with the name in the directory. -/
def Operation.Makes (dir : Word) (name : List Byte) : Operation → Prop
  | .create opc _ pcn vaType =>
      (vaType = vreg ∨ vaType = vsock) ∧ opc = dir ∧ FileTree.stored pcn.name = name
  | .mkdir opc _ pcn => opc = dir ∧ FileTree.stored pcn.name = name
  | _ => False

/-- The operation removes the name from the directory, or reclaims the directory. -/
def Operation.Drops (dir : Word) (name : List Byte) : Operation → Prop
  | .remove opc _ pcn => opc = dir ∧ CString.ofArray pcn.name = name
  | .reclaim opc => opc = dir
  | _ => False

namespace FileTree

variable {t : FileTree} {dir i : Word} {name : List Byte} {op : Operation} {e : Puffs}
variable {cs cs' : List SessionCall}

theorem lookup_unlink_of_ne {n : List Byte} (h : n ≠ name) (l : List (List Byte × Word)) :
    (unlink n l).lookup name = l.lookup name := by
  have herase : ∀ l : List (List Byte × Word),
      (l.eraseP fun b => b.1 = n).lookup name = l.lookup name := by
    intro l
    induction l with
    | nil => rfl
    | cons b l ih =>
        obtain ⟨m, id⟩ := b
        by_cases hm : m = n
        · subst hm
          have hne : (name == m) = false := beq_false_of_ne h.symm
          simp [List.lookup_cons, hne]
        · simp [hm, List.lookup_cons, ih]
  cases l with
  | nil => rfl
  | cons b l =>
      obtain ⟨m, id⟩ := b
      rw [unlink]
      split
      · rfl
      · rw [List.lookup_cons, List.lookup_cons, herase]

theorem lookup_create {vt : Vtype} {req : CreateReq} (h : t.lookup dir name = some i) :
    (t.create vt req).lookup dir name = some i := by
  rw [create]
  split
  · exact h
  · exact DirTree.lookup_bind_of_some h

theorem lookup_rm {req : RmReq}
    (hne : ¬ (req.parentFileid = dir ∧ CString.ofArray req.name = name)) :
    (t.rm req).lookup dir name = t.lookup dir name := by
  by_cases hdir : dir = req.parentFileid
  · subst hdir
    refine (DirTree.lookup_rebind_self).trans ?_
    exact lookup_unlink_of_ne (fun h => hne ⟨rfl, h⟩) _
  · exact DirTree.lookup_rebind_of_ne hdir

theorem lookup_reclaim {req : ReclaimReq} (hne : req.vaFileid ≠ dir) :
    (t.reclaim req).lookup dir name = t.lookup dir name := by
  rw [reclaim]
  split
  · rfl
  · exact DirTree.lookup_forget_of_ne hne.symm

/-- A name that is bound stays bound to the same node. -/
theorem lookup_afterCall (h : t.lookup dir name = some i) (hop : ¬ op.Drops dir name) :
    (t.afterCall op).lookup dir name = some i := by
  cases op with
  | create opc pni pcn vaType =>
      rw [afterCall, Operation.changes]
      split
      · exact h
      · rename_i m hm
        split at hm
        · cases hm
          exact lookup_create h
        · cases hm
  | mkdir opc pni pcn => exact lookup_create h
  | remove opc targ pcn =>
      have hsame : (t.rm ⟨opc, pcn.name⟩).lookup dir name = t.lookup dir name := lookup_rm hop
      exact hsame.trans h
  | reclaim opc => exact (lookup_reclaim hop).trans h
  | statvfs | readdir | lookup | getattr | write | read | setattr => exact h

theorem lookup_foldl (h : t.lookup dir name = some i)
    (hcs : ∀ c ∈ cs, ¬ c.op.Drops dir name) :
    (cs.foldl (fun t c => t.afterCall c.op) t).lookup dir name = some i := by
  induction cs generalizing t with
  | nil => exact h
  | cons c cs ih =>
      exact ih (lookup_afterCall h (hcs c List.mem_cons_self))
        fun c' hc' => hcs c' (List.mem_cons_of_mem c hc')

theorem lookup_made {pni pni' : Newinfo} {vt : Vtype} (req : CreateReq)
    {ctx ctx' : Context} (hnew : t.lookup dir name = none) (hdir : req.parentFileid = dir)
    (hname : stored req.name = name)
    (h : t.AnswersCreate req.parentFileid pni ctx (.create 0 pni' ctx')) :
    (t.create vt req).lookup dir name = some pni'.cookie := by
  subst hdir hname
  rw [AnswersCreate] at h
  rw [create]
  split at h
  · cases h
  · rename_i hroom
    obtain ⟨_, heq⟩ := h
    cases heq
    rw [if_neg hroom]
    exact DirTree.lookup_bind_self hnew

theorem AnswersCalls.append (h : t.AnswersCalls e (cs ++ cs')) :
    (cs.foldl (fun t c => t.afterCall c.op) t).AnswersCalls e cs' := by
  induction cs generalizing t with
  | nil => exact h
  | cons c cs ih => exact ih h.2

theorem lookup_afterMade {c : SessionCall} {pni : Newinfo} {ctx : Context}
    (hnew : t.lookup dir name = none) (hop : c.op.Makes dir name) (ha : t.Answers e c)
    (hr : c.result = .create 0 pni ctx) :
    (t.afterCall c.op).lookup dir name = some pni.cookie := by
  obtain ⟨ctx₀, op, r⟩ := c
  obtain rfl : r = .create 0 pni ctx := hr
  cases op with
  | create opc pni₀ pcn vaType =>
      obtain ⟨htype, hdir, hname⟩ := hop
      simp only [Answers, if_pos htype] at ha
      simp only [afterCall, Operation.changes, if_pos htype]
      exact lookup_made ⟨opc, pcn.name⟩ hnew hdir hname ha
  | mkdir opc pni₀ pcn => exact lookup_made ⟨opc, pcn.name⟩ hnew hop.1 hop.2 ha
  | statvfs | readdir | lookup | getattr | write | read | setattr | remove | reclaim =>
      exact False.elim hop

end FileTree

section Driver

variable {e : Puffs} {junk : Nat → Junk} {s : Store} {r : Outcome} {d : DriverConfig}
variable {rootGen testGen : Word64} {dir : Word} {name : List Byte} {pni pni' : Newinfo}
variable {ctx : Context} {pcn : Cn}

/-- A node that a call of such a session has made under a name that is new as it is stored is
found by a later LOOKUP of that name, whatever else was called in between, as long as the name was
not removed and its directory not reclaimed. -/
theorem driver_name (before between : List SessionCall) (made found : SessionCall)
    (hboot : Store.boot rootGen testGen = some s)
    (hkept : KeptAlong e junk ⟨⟨s, .dispatch⟩, 0⟩ (before ++ made :: (between ++ [found])))
    (hallow : FileTree.booted.AllowsCalls (before ++ made :: (between ++ [found])))
    (hd : DriverSession (link e junk) (started s r)
      ((before ++ made :: (between ++ [found])).map (SessionCall.run e)) d)
    (hnew : (before.foldl (fun t c => t.afterCall c.op) FileTree.booted).lookup dir name = none)
    (hmakes : made.op.Makes dir name) (hmade : made.result = .create 0 pni ctx)
    (hbetween : ∀ c ∈ between, ¬ c.op.Drops dir name)
    (hfound : found.op = .lookup dir pni' pcn) (hdots : ¬ pcn.isDotDot = true)
    (hname : CString.ofArray pcn.name = name) :
    ∃ pni'', found.result = .lookup 0 pni'' ∧ pni''.cookie = pni.cookie := by
  obtain ⟨hanswer, hrest⟩ := (answersCalls_of_driver _ hboot hkept hallow hd).1.append
  have hbound := FileTree.lookup_afterMade hnew hmakes hanswer hmade
  have hlater := hrest.append.1
  obtain ⟨ctx', op, res⟩ := found
  obtain rfl : op = .lookup dir pni' pcn := hfound
  have hlookup := FileTree.lookup_foldl hbound hbetween
  simp only [FileTree.Answers, if_neg hdots, hname, hlookup] at hlater
  obtain ⟨pni'', hres, hcookie, _⟩ := hlater
  exact ⟨pni'', hres, hcookie⟩

/-- A file is made in the root directory and looked up after a STATVFS. -/
theorem driver_name_created : ∃ (s : Store) (out out' : Outcome) (d : DriverConfig)
    (pni : Newinfo), Store.boot 0 0 = some s ∧
    DriverSession (link .zero fun _ => .zero) (started s .mounted)
      [(nodeCreate .zero [] 1 ⟨0, 0, 0, 0⟩ oneLetter vreg, out), (fsStatvfs .zero, out'),
        (nodeLookup .zero 1 ⟨0, 0, 0, 0⟩ oneLetter, .lookup 0 pni)] d ∧
    pni.cookie = 3 := by
  obtain ⟨s, out, out', out'', h, hs, hserial⟩ := served_created
  have hallow := booted_allows out out' out''
  have hkept : KeptAlong .zero (fun _ => .zero) ⟨⟨s, .dispatch⟩, 0⟩
      (createdCalls out out' out'') := keptAlong_of_zero chunkErr_zero _ _
  obtain ⟨d, hd⟩ := driverSession_of_serial (r := .mounted) hs (hkept.allowed _) hserial
  obtain ⟨ctx, hctx⟩ : ∃ ctx, out = .create 0 ⟨3, 0, 0, 0⟩ ctx :=
    (answersCalls_of_driver _ hs hkept hallow hd).1.1
  have hnew : FileTree.booted.lookup 1 [97] = none := by decide +kernel
  have hname : FileTree.stored oneLetter.name = [97] := by decide +kernel
  have hbetween : ∀ c ∈ [(⟨[], .statvfs, out'⟩ : SessionCall)], ¬ c.op.Drops 1 [97] := by
    intro c hc
    rw [List.mem_singleton.mp hc]
    exact id
  obtain ⟨pni, hpni, hcookie⟩ := driver_name [] [⟨[], .statvfs, out'⟩] _ _ hs hkept hallow hd hnew
    ⟨Or.inl rfl, rfl, hname⟩ hctx hbetween rfl (by decide) (by decide +kernel)
  subst hpni
  exact ⟨s, out, out', d, pni, hs, hd, hcookie⟩

end Driver

end WiiJoybus
