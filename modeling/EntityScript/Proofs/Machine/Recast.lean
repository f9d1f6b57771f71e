import EntityScript.Proofs.Machine.Registers

/-!
# Runs from other registers

Two runs that begin alike may be under different bounds, and on top of different faults that were
noted before. Nothing of this can be told inside of a run, unless one of the bounds is met that are
not the same for both: `recast_step` says so of one step and `Ends.recast` of a whole run. What is
asked of the host is the same as well, since it is part of what an instant holds.
-/

namespace EntityScript

/-- A fault of a bound of the run, and not of what the code does. -/
def Fault.OfBound : Fault → Prop
  | .stackOverflow _ | .dispatchDepthExceeded _ | .stepLimitExceeded _ => True
  | _ => False

instance (fault : Fault) : Decidable fault.OfBound := by
  unfold Fault.OfBound
  split <;> infer_instance

/-- Every bound is at most the other. To have no bound on the instructions is more than to have
one. -/
structure Limits.AtMost (l l' : Limits) : Prop where
  dispatchDepth : l.dispatchDepth ≤ l'.dispatchDepth
  stackSize : l.stackSize ≤ l'.stackSize
  steps : ∀ n', l'.steps = some n' → ∃ n, l.steps = some n ∧ n ≤ n'

/-- Bounds are at most themselves. -/
theorem Limits.AtMost.refl (l : Limits) : l.AtMost l :=
  ⟨Nat.le_refl _, Nat.le_refl _, fun n h => ⟨n, h, Nat.le_refl n⟩⟩

/-- A fault of a bound that is not the same for another run. -/
def Fault.Apart (l l' : Limits) (fault : Fault) : Prop := l ≠ l' ∧ fault.OfBound

/-- The same registers under other bounds, on top of faults that were noted before. -/
def Registers.recast (g : Registers) (limits : Limits) (old : Array FaultReport) : Registers :=
  { g with limits, faults := old ++ g.faults }

/-- What a run leaves behind, with its registers recast. -/
def Left.recast {σ α : Type} (left : Left σ α) (limits : Limits) (old : Array FaultReport) :
    Left σ α :=
  { left with registers := left.registers.recast limits old }

/-- An instant with its registers recast. -/
def Instant.recast {σ : Type} (s : Instant σ) (limits : Limits) (old : Array FaultReport) :
    Instant σ :=
  { s with registers := s.registers.recast limits old }

/-- What an instruction comes to, with the registers recast. -/
def Turn.recast {σ : Type} (limits : Limits) (old : Array FaultReport) : Turn σ → Turn σ
  | .goes s => .goes (s.recast limits old)
  | .leaves fault s => .leaves fault (s.recast limits old)

/-- What an instant comes to, with the registers recast. -/
def Prospect.recast {σ : Type} (limits : Limits) (old : Array FaultReport) :
    Prospect σ → Prospect σ
  | .goes s => .goes (s.recast limits old)
  | .ends left => .ends (left.recast limits old)

variable {l l' : Limits} {old : Array FaultReport}

/-- The second work does the same as the first, unless this meets a bound that is not the same. -/
def InPlace.Unless (l l' : Limits) {α : Type} (w w' : InPlace α) : Prop :=
  ∀ f, w' f = w f ∨ ∃ fault f', w f = .error fault f' ∧ fault.Apart l l'

namespace InPlace

variable {i : Invocation}

/-- Putting a value on the stack differs only where the room differs. -/
theorem unless_put (hle : l.AtMost l') (base : ℕ) (chunk : Chunk) (v : Value) :
    Unless l l' ((Operands.shared ⟨l, base, chunk⟩).put v)
      ((Operands.shared ⟨l', base, chunk⟩).put v) := by
  intro f
  unfold Operands.shared
  dsimp only
  by_cases hsame : l = l'
  · exact .inl (by rw [hsame])
  by_cases hfull : l.stackSize ≤ f.stack.size
  · rw [if_pos hfull]
    exact .inr ⟨_, f, rfl, hsame, trivial⟩
  · have hroom : ¬ l'.stackSize ≤ f.stack.size := by
      have := hle.stackSize
      omega
    rw [if_neg hfull, if_neg hroom]
    exact .inl rfl

/-- Whatever an instruction does with its operands differs only where the room differs. -/
theorem alike_unless (hle : l.AtMost l') (base : ℕ) (chunk : Chunk) :
    (Operands.shared ⟨l, base, chunk⟩).Alike (Unless l l')
      (Operands.shared ⟨l', base, chunk⟩) where
  done a f := .inl rfl
  lift x f := .inl rfl
  bind {α β w w' next next'} first rest f := by
    simp only [bind, EStateM.bind]
    obtain hsame | ⟨fault, f', herror, hapart⟩ := first f
    · rw [hsame]
      cases w f with
      | ok a f' => exact rest a f'
      | error fault f' => exact .inl rfl
    · rw [herror]
      exact .inr ⟨fault, f', rfl, hapart⟩
  read name f := .inl rfl
  assign name v f := .inl rfl
  enter state f := .inl rfl
  take f := .inl rfl
  top f := .inl rfl
  put := unless_put hle base chunk

/-- An instruction works the same, unless it meets a bound that is not the same. -/
theorem unless_work (hle : l.AtMost l') (base : ℕ) (chunk : Chunk) (x : Instruction) :
    Unless l l' ((Operands.shared ⟨l, base, chunk⟩).work ⟨l, base, chunk⟩ x)
      ((Operands.shared ⟨l', base, chunk⟩).work ⟨l', base, chunk⟩ x) :=
  (alike_unless hle base chunk).work rfl x

end InPlace

namespace Registers

variable {g : Registers}

/-- Noting a fault does not depend on the bounds and on the faults noted before. -/
theorem recast_note {α : Type} (g : Registers) (result : Except FaultReport α) :
    (g.recast l' old).note result = (g.note result).recast l' old := by
  cases result with
  | ok a => rfl
  | error report =>
    unfold note recast
    dsimp only
    rw [Array.append_push]

/-- An instruction is counted the same, unless there were too many for a bound that is not the
same. -/
theorem recast_count (hle : g.limits.AtMost l') (old : Array FaultReport) :
    (g.recast l' old).count = (g.count.1, g.count.2.recast l' old) ∨
      ∃ fault, g.count.1 = .error fault ∧ fault.Apart g.limits l' := by
  by_cases hsame : g.limits = l'
  · left
    unfold count recast
    rw [← hsame]
    dsimp only
    split
    · split <;> rfl
    · rfl
  unfold count recast
  dsimp only
  cases hsteps : g.limits.steps with
  | none =>
    cases hsteps' : l'.steps with
    | none => exact .inl rfl
    | some n' =>
      obtain ⟨n, hn, -⟩ := hle.steps n' hsteps'
      cases hsteps.symm.trans hn
  | some n =>
    dsimp only
    by_cases hlt : n < g.steps + 1
    · rw [if_pos hlt]
      exact .inr ⟨_, rfl, hsame, trivial⟩
    rw [if_neg hlt]
    cases hsteps' : l'.steps with
    | none => exact .inl rfl
    | some n' =>
      obtain ⟨k, hk, hle'⟩ := hle.steps n' hsteps'
      cases hsteps.symm.trans hk
      dsimp only
      rw [if_neg (by omega)]
      exact .inl rfl

end Registers

variable {σ : Type}

/-- A handler ends because it meets a bound that is not the same for another run. -/
def Turn.Meets (l l' : Limits) (t : Turn σ) : Prop :=
  ∃ fault s, t = .leaves (some fault) s ∧ fault.Apart l l'

variable [Host σ]

/-- How a waiting handler goes on does not depend on the bounds and on the faults noted before. -/
theorem Halted.recast_resume {α : Type} (w : Halted) (below : List Halted)
    (result : Except FaultReport α) (c : Context) (g : Registers) (host : Witnessed σ) :
    w.resume below result c (g.recast l' old) host
      = (w.resume below result c g host).recast l' old := by
  unfold resume
  rw [Registers.recast_note]
  split <;> rfl

namespace Instant

variable {s s' : Instant σ}

/-- Calling a handler does not depend on the bounds and on the faults noted before. -/
theorem recast_call (s : Instant σ) (event : Event) (c : Context)
    (kept : Option (Context × EntityId)) :
    (s.recast l' old).call event c kept = (s.call event c kept).recast l' old := by
  unfold call
  dsimp only
  split
  · exact Halted.recast_resume ..
  · rfl

/-- Delivering an event is the same under looser bounds, unless it meets a bound. -/
theorem recast_deliver (hle : s.registers.limits.AtMost l') (old : Array FaultReport) (next : ℕ)
    (event : Event) :
    (s.recast l' old).deliver next event = (s.deliver next event).recast l' old ∨
      (s.deliver next event).Meets s.registers.limits l' := by
  unfold deliver
  cases event.target with
  | none => exact .inl rfl
  | some target =>
  have hhost : (s.recast l' old).host = s.host := rfl
  have hlimits : (s.recast l' old).registers.limits = l' := rfl
  have hdepth : (s.recast l' old).registers.depth = s.registers.depth := rfl
  have hcontext : (s.recast l' old).context = s.context := rfl
  dsimp only
  rw [hhost, hlimits, hdepth, hcontext]
  cases s.host.resolve target with
  | mk resolved host =>
  cases resolved with
  | none => exact .inl rfl
  | some id =>
  dsimp only
  by_cases hfull : s.registers.limits.dispatchDepth ≤ s.registers.depth
  · by_cases hsame : s.registers.limits = l'
    · left
      rw [hsame] at hfull ⊢
      rw [if_pos hfull, if_pos hfull]
      rfl
    · rw [if_pos hfull]
      exact .inr ⟨_, _, rfl, hsame, trivial⟩
  have hroom : ¬ l'.dispatchDepth ≤ s.registers.depth := by
    have := hle.dispatchDepth
    omega
  rw [if_neg hfull, if_neg hroom]
  left
  split
  · exact congrArg Turn.goes (recast_call { s.goOn next with host } event s.context none)
  cases host.take id with
  | mk lent host =>
  cases lent with
  | some c =>
    exact congrArg Turn.goes
      (recast_call { s.goOn next with host } event c (some (s.context, id)))
  | none =>
    dsimp only
    cases host.hasScript id with
    | mk scripted host => cases scripted <;> rfl

/-- Performing an instruction is the same under looser bounds, unless it meets a bound. -/
theorem recast_obey (hle : s.registers.limits.AtMost l') (old : Array FaultReport)
    (fetched : Fetched) :
    (s.recast l' old).obey fetched = (s.obey fetched).recast l' old ∨
      (s.obey fetched).Meets s.registers.limits l' := by
  cases fetched with
  | truncated op => exact .inl rfl
  | unknown byte => exact .inl rfl
  | instruction x =>
  have hwork := InPlace.unless_work hle s.registers.base s.active.chunk x
    ⟨s.registers.stack, s.context⟩
  unfold obey
  dsimp only
  obtain hsame | ⟨fault, f, herror, hapart⟩ := hwork
  · have hrecast : (Operands.shared (s.recast l' old).invocation).work
        (s.recast l' old).invocation x
        ⟨(s.recast l' old).registers.stack, (s.recast l' old).context⟩ = _ := hsame
    rw [hrecast]
    unfold invocation
    cases (Operands.shared ⟨s.registers.limits, s.registers.base, s.active.chunk⟩).work
      ⟨s.registers.limits, s.registers.base, s.active.chunk⟩ x
      ⟨s.registers.stack, s.context⟩ with
    | error fault f => exact .inl rfl
    | ok flow f =>
      cases flow with
      | finish => exact .inl rfl
      | forward distance => exact .inl rfl
      | fire event => exact recast_deliver (s := s.withFrame f) hle old _ event
  · unfold invocation
    rw [herror]
    exact .inr ⟨fault, _, rfl, hapart⟩

/-- The next instruction is the same under looser bounds, unless it meets a bound. -/
theorem recast_act (hle : s.registers.limits.AtMost l') (old : Array FaultReport) :
    (s.recast l' old).act = s.act.recast l' old ∨ s.act.Meets s.registers.limits l' := by
  unfold act
  by_cases hin : s.active.offset < s.active.chunk.size
  · have hin' : (s.recast l' old).active.offset < (s.recast l' old).active.chunk.size := hin
    have hlimits : s.registers.count.2.limits = s.registers.limits := by
      rw [Registers.count_snd]
    have hcount : (s.recast l' old).registers.count = (s.registers.recast l' old).count := rfl
    rw [dif_pos hin, dif_pos hin', hcount]
    obtain hsame | ⟨fault, herror, hapart⟩ := Registers.recast_count hle old
    · rw [hsame]
      generalize s.registers.count = counted at hlimits ⊢
      obtain ⟨fault | _, g⟩ := counted
      · exact .inl rfl
      · dsimp only at hlimits
        have hobey := recast_obey (s := { s with registers := g }) (hlimits ▸ hle) old
          (s.active.chunk.fetch s.active.offset hin)
        rw [← hlimits]
        exact hobey
    · generalize s.registers.count = counted at herror ⊢
      obtain ⟨result, g⟩ := counted
      dsimp only at herror
      rw [herror]
      exact .inr ⟨fault, _, rfl, hapart⟩
  · rw [dif_neg hin, dif_neg]
    · exact .inl rfl
    · exact hin

/-- The end of a handler does not depend on the bounds and on the faults noted before. -/
theorem recast_leave (s : Instant σ) (fault : Option Fault) :
    (s.recast l' old).leave fault = (s.leave fault).recast l' old := by
  have hwaiting : (s.recast l' old).waiting = s.waiting := rfl
  have hregisters : (s.recast l' old).registers.leave (s.recast l' old).active.callerBase
      = (s.registers.leave s.active.callerBase).recast l' old := rfl
  unfold leave
  dsimp only
  rw [hwaiting, hregisters]
  cases s.waiting with
  | nil => rfl
  | cons w below => exact congrArg Prospect.goes (Halted.recast_resume ..)

/-- Under other bounds a step does the same, unless the handler ends because it meets a bound that
is not the same. -/
theorem recast_step (hle : s.registers.limits.AtMost l') (old : Array FaultReport) :
    (s.recast l' old).step = s.step.recast l' old ∨ s.act.Meets s.registers.limits l' := by
  obtain hact | hmeets := recast_act hle old
  · left
    unfold step
    rw [hact]
    cases s.act with
    | goes s' => rfl
    | leaves fault s' => exact recast_leave s' fault
  · exact .inr hmeets

/-- On top of other faults an instruction does the same. -/
theorem recast_act_self (s : Instant σ) (old : Array FaultReport) :
    (s.recast s.registers.limits old).act = s.act.recast s.registers.limits old := by
  obtain hsame | ⟨_, _, _, hne, _⟩ := recast_act (s := s) (.refl _) old
  · exact hsame
  · exact absurd rfl hne

/-- On top of other faults a step does the same. -/
theorem recast_step_self (s : Instant σ) (old : Array FaultReport) :
    (s.recast s.registers.limits old).step = s.step.recast s.registers.limits old := by
  obtain hsame | ⟨_, _, _, hne, _⟩ := recast_step (s := s) (.refl _) old
  · exact hsame
  · exact absurd rfl hne

/-- The bounds stay as they are: a step under the bounds that it has anyway leaves them behind. -/
theorem Next.limits_eq (h : s.Next s') : s'.registers.limits = s.registers.limits := by
  have hself : s.recast s.registers.limits #[] = s := by
    unfold recast Registers.recast
    rw [Array.empty_append]
  have hsame := recast_step_self s #[]
  rw [hself, h] at hsame
  exact congrArg (·.registers.limits) (Prospect.goes.inj hsame)

/-- The bounds are the same as long as a run goes on. -/
theorem Reaches.limits_eq (h : s.Reaches s') : s'.registers.limits = s.registers.limits := by
  induction h with
  | refl => rfl
  | tail _ hnext ih => exact (Next.limits_eq hnext).trans ih

/-- At no instant of a run a handler ends because it meets a bound that is not the same under other
bounds. -/
def Clear (s : Instant σ) (l' : Limits) : Prop :=
  ∀ s', s.Reaches s' → ¬ s'.act.Meets s.registers.limits l'

/-- Under its own bounds a run is clear. -/
theorem clear_self (s : Instant σ) : s.Clear s.registers.limits :=
  fun _ _ ⟨_, _, _, hne, _⟩ => hne rfl

/-- Where no bound is met, every step of a run is the same under looser bounds. -/
theorem Reaches.recast_step (h : s.Reaches s') (hle : s.registers.limits.AtMost l')
    (hclear : s.Clear l') (old : Array FaultReport) :
    (s'.recast l' old).step = s'.step.recast l' old := by
  have hlimits := h.limits_eq
  obtain hsame | hmeets := Instant.recast_step (s := s') (hlimits ▸ hle) old
  · exact hsame
  · rw [hlimits] at hmeets
    exact absurd hmeets (hclear s' h)

/-- Where no bound is met, a run under looser bounds reaches what the run reaches. -/
theorem Reaches.recast (h : s.Reaches s') (hle : s.registers.limits.AtMost l')
    (hclear : s.Clear l') (old : Array FaultReport) :
    (s.recast l' old).Reaches (s'.recast l' old) := by
  induction h with
  | refl => exact .refl
  | tail hreaches hnext ih =>
    refine ih.tail ?_
    rw [Next, Reaches.recast_step hreaches hle hclear old, hnext]
    rfl

/-- From other registers a run leaves the same behind, unless it meets a bound that is not the
same. -/
theorem Ends.recast {left : Left σ Unit} (h : s.Ends left) (hle : s.registers.limits.AtMost l')
    (hclear : s.Clear l') (old : Array FaultReport) :
    (s.recast l' old).Ends (left.recast l' old) := by
  obtain ⟨s', hreaches, hends⟩ := h
  refine ⟨s'.recast l' old, hreaches.recast hle hclear old, ?_⟩
  rw [hreaches.recast_step hle hclear old, hends]
  rfl

end Instant

end EntityScript
