import EntityScript.Machine.Dispatch
import EntityScript.Proofs.Machine.InPlace

/-!
# One instruction after another

Running a handler answers what becomes of all its instructions together. Here they are told apart:
`step` is one of them, in place on the frame and on what the run shares, and `execute_passes` says
that running a handler is to perform instructions without a fault up to some offset and to stop
there. What is to be shown of a handler can be shown of a step, and then along the way that it
passes.
-/

namespace EntityScript

/-- Noting a fault leaves the host as it is. -/
theorem Run.note_host {σ α : Type} (r : Run σ) (result : Except FaultReport α) :
    (r.note result).host = r.host := by
  cases result <;> rfl

namespace Invocation

variable {σ : Type}

/-- Beginning an instruction only counts it. -/
theorem beginStep_eq {i : Invocation} {r r' : Run σ} {result : Except Fault Unit}
    (h : i.beginStep r = (result, r')) : r' = { r with steps := r.steps + 1 } := by
  unfold beginStep at h
  dsimp only at h
  split at h
  · split at h <;> cases h <;> rfl
  · cases h
    rfl

/-- What became of a handler, by the fault of its answer. -/
def verdict (i : Invocation) : Option (ℕ × Fault) → Except FaultReport Unit
  | none => .ok ()
  | some (offset, fault) => .error ⟨i.chunk.name, offset, i.chunk.lineAt offset, fault⟩

variable [Host σ]

/-- Running code is executing it from its first byte with nothing on the stack. -/
theorem run_eq (i : Invocation) (nested : Option (Dispatcher σ)) (c : Context)
    (r : Run σ) : i.run nested c r = ⟨i.verdict (i.execute nested 0 ⟨#[], c⟩ r).1,
      (i.execute nested 0 ⟨#[], c⟩ r).2.1, (i.execute nested 0 ⟨#[], c⟩ r).2.2⟩ := by
  unfold run
  split
  · rename_i heq
    rw [heq]
    rfl
  · rename_i heq
    rw [heq]
    rfl

/-- One instruction of a handler, in place. It answers where to go on, if not nowhere. -/
def step (i : Invocation) (nested : Option (Dispatcher σ)) (offset : ℕ)
    (h : offset < i.chunk.size) : EStateM Fault (Frame × Run σ) (Option ℕ) := fun s =>
  match i.chunk.fetch offset h with
  | .truncated _ => .error .truncatedInstruction s
  | .unknown byte => .error (.unknownOpcode byte) s
  | .instruction x =>
    match InPlace.work i x s.1 with
    | .error fault f => .error fault (f, s.2)
    | .ok .finish f => .ok none (f, s.2)
    | .ok (.forward distance) f => .ok (some (offset + x.size + distance)) (f, s.2)
    | .ok (.fire event) f =>
      match i.deliver nested event f s.2 with
      | (.error fault, s) => .error fault s
      | (.ok (), s) => .ok (some (offset + x.size)) s

/-- A handler runs one instruction after another. -/
theorem execute_eq (i : Invocation) (nested : Option (Dispatcher σ)) (offset : ℕ) (f : Frame)
    (r : Run σ) : i.execute nested offset f r =
      if h : offset < i.chunk.size then
        match i.beginStep r with
        | (.error fault, r) => (some (offset, fault), f.context, r)
        | (.ok (), r) =>
          match i.step nested offset h (f, r) with
          | .error fault s => (some (offset, fault), s.1.context, s.2)
          | .ok none s => (none, s.1.context, s.2)
          | .ok (some next) s => i.execute nested next s.1 s.2
      else (none, f.context, r) := by
  rw [execute]
  dsimp only
  by_cases hin : offset < i.chunk.size
  · rw [dif_pos hin, dif_pos hin]
    cases i.beginStep r with
    | mk begun r =>
    cases begun with
    | error fault => rfl
    | ok u =>
    dsimp only
    unfold step
    cases i.chunk.fetch offset hin with
    | truncated op => rfl
    | unknown byte => rfl
    | instruction x =>
    have hcareful := InPlace.work_careful i x f
    dsimp only
    rw [← InPlace.outcome_work, InPlace.outcome]
    cases hwork : InPlace.work i x f with
    | error fault f' =>
      -- The frame is given up as a whole here, and in place only the operands differ.
      rw [hwork] at hcareful
      dsimp only at hcareful ⊢
      rw [hcareful]
    | ok flow f' =>
      cases flow with
      | finish => rfl
      | forward distance => rfl
      | fire event =>
        dsimp only
        cases i.deliver nested event f' r with
        | mk delivered s =>
          cases delivered <;> rfl
  · rw [dif_neg hin, dif_neg hin]

variable {i : Invocation} {nested : Option (Dispatcher σ)}

/-- All that an instruction at some offset can come to. -/
inductive Comes (i : Invocation) (nested : Option (Dispatcher σ)) (offset : ℕ) (s : Frame × Run σ) :
    EStateM.Result Fault (Frame × Run σ) (Option ℕ) → Prop
  /-- It faults, and at most operands are gone. -/
  | faults {fault : Fault} {f : Frame} (same : f.context = s.1.context) :
    Comes i nested offset s (.error fault (f, s.2))
  /-- It works on its frame, and the handler goes on behind it or not at all. -/
  | works {next : Option ℕ} {f : Frame} (worked : s.1.context.Worked f.context)
    (ahead : ∀ n, next = some n → offset < n) : Comes i nested offset s (.ok next (f, s.2))
  /-- It fires an event that cannot be delivered. -/
  | fails {event : Event} {f : Frame} {fault : Fault} {s' : Frame × Run σ}
    (same : f.context = s.1.context)
    (delivered : i.deliver nested event f s.2 = (.error fault, s')) :
    Comes i nested offset s (.error fault s')
  /-- It fires an event that is delivered, and the handler goes on behind it. -/
  | fires {event : Event} {f : Frame} {next : ℕ} {s' : Frame × Run σ}
    (same : f.context = s.1.context) (delivered : i.deliver nested event f s.2 = (.ok (), s'))
    (ahead : offset < next) : Comes i nested offset s (.ok (some next) s')

/-- A step is one of the things that an instruction can come to. -/
theorem comes_step (i : Invocation) (nested : Option (Dispatcher σ)) {offset : ℕ}
    (h : offset < i.chunk.size) (s : Frame × Run σ) :
    i.Comes nested offset s (i.step nested offset h s) := by
  unfold step
  cases i.chunk.fetch offset h with
  | truncated op => exact .faults rfl
  | unknown byte => exact .faults rfl
  | instruction x =>
  have hpos := x.size_pos
  have hcareful := InPlace.work_careful i x s.1
  dsimp only
  cases hwork : InPlace.work i x s.1 with
  | error fault f =>
    rw [hwork] at hcareful
    exact .faults hcareful
  | ok flow f =>
  rw [hwork] at hcareful
  cases flow with
  | finish => exact .works hcareful fun _ h => by cases h
  | forward distance =>
    refine .works hcareful fun n hn => ?_
    cases hn
    omega
  | fire event =>
    have hperform : i.perform s.1 x = .ok (.fire event, f) := by
      rw [← InPlace.outcome_work, InPlace.outcome, hwork]
    have hsame := perform_same hperform fun _ h => by cases h
    dsimp only
    generalize hdelivered : i.deliver nested event f s.2 = delivery
    obtain ⟨fault | _, s'⟩ := delivery
    · exact .fails hsame hdelivered
    · exact .fires hsame hdelivered (by omega)

/-- A step goes on further behind. -/
theorem step_lt {offset next : ℕ} {h : offset < i.chunk.size} {s s' : Frame × Run σ}
    (hstep : i.step nested offset h s = .ok (some next) s') : offset < next := by
  have hcomes := i.comes_step nested h s
  rw [hstep] at hcomes
  cases hcomes with
  | works worked ahead => exact ahead next rfl
  | fires same delivered ahead => exact ahead

/-- From a state at one offset on, instructions are performed without a fault up to a state at
another. -/
inductive Passes (i : Invocation) (nested : Option (Dispatcher σ)) :
    ℕ → Frame × Run σ → ℕ → Frame × Run σ → Prop
  | here (offset : ℕ) (s : Frame × Run σ) : Passes i nested offset s offset s
  | onward {offset next last : ℕ} {s s' s'' : Frame × Run σ} {r : Run σ}
    (inside : offset < i.chunk.size) (begun : i.beginStep s.2 = (.ok (), r))
    (step : i.step nested offset inside (s.1, r) = .ok (some next) s')
    (rest : Passes i nested next s' last s'') : Passes i nested offset s last s''

namespace Passes

variable {offset last : ℕ} {s s' s'' : Frame × Run σ}

/-- Passing instructions leads to no earlier offset. -/
theorem le (h : i.Passes nested offset s last s') : offset ≤ last := by
  induction h with
  | here => exact Nat.le_refl _
  | onward inside begun step rest ih => exact Nat.le_trans (Nat.le_of_lt (step_lt step)) ih

/-- There is at most one state that a handler comes to at an offset. -/
theorem unique (h : i.Passes nested offset s last s') (h' : i.Passes nested offset s last s'') :
    s' = s'' := by
  induction h with
  | here =>
    cases h' with
    | here => rfl
    | onward inside begun step rest => exact absurd rest.le (Nat.not_le_of_lt (step_lt step))
  | onward inside begun step rest ih =>
    cases h' with
    | here => exact absurd rest.le (Nat.not_le_of_lt (step_lt step))
    | onward inside' begun' step' rest' =>
      cases begun.symm.trans begun'
      cases step.symm.trans step'
      exact ih rest'

end Passes

/-- What becomes of a handler at the last instruction that it comes to, in such a state. -/
inductive Stops (i : Invocation) (nested : Option (Dispatcher σ)) (last : ℕ) (s : Frame × Run σ) :
    Option (ℕ × Fault) × Context × Run σ → Prop
  /-- There is no more code. -/
  | off (outside : ¬ last < i.chunk.size) : Stops i nested last s (none, s.1.context, s.2)
  /-- There were too many instructions. -/
  | full {fault : Fault} {r : Run σ} (inside : last < i.chunk.size)
    (begun : i.beginStep s.2 = (.error fault, r)) :
    Stops i nested last s (some (last, fault), s.1.context, r)
  | faults {fault : Fault} {r : Run σ} {s' : Frame × Run σ} (inside : last < i.chunk.size)
    (begun : i.beginStep s.2 = (.ok (), r))
    (step : i.step nested last inside (s.1, r) = .error fault s') :
    Stops i nested last s (some (last, fault), s'.1.context, s'.2)
  | returns {r : Run σ} {s' : Frame × Run σ} (inside : last < i.chunk.size)
    (begun : i.beginStep s.2 = (.ok (), r))
    (step : i.step nested last inside (s.1, r) = .ok none s') :
    Stops i nested last s (none, s'.1.context, s'.2)

/-- Running a handler is to pass some instructions and to stop. The induction is on the code that is
left. -/
theorem execute_passes (i : Invocation) (nested : Option (Dispatcher σ)) (offset : ℕ)
    (s : Frame × Run σ) : ∃ last s', i.Passes nested offset s last s' ∧
      i.Stops nested last s' (i.execute nested offset s.1 s.2) := by
  induction hleft : i.chunk.size - offset using Nat.strongRecOn generalizing offset s with
  | _ left ih =>
  obtain rfl := hleft
  rw [execute_eq]
  split
  · rename_i hin
    split
    · rename_i hbegun
      exact ⟨offset, s, .here offset s, .full hin hbegun⟩
    · rename_i r hbegun
      split
      · rename_i hstep
        exact ⟨offset, s, .here offset s, .faults hin hbegun hstep⟩
      · rename_i hstep
        exact ⟨offset, s, .here offset s, .returns hin hbegun hstep⟩
      · rename_i next s' hstep
        have hlt := step_lt hstep
        obtain ⟨last, s'', hpasses, hstops⟩ :=
          ih (i.chunk.size - next) (by omega) next s' rfl
        exact ⟨last, s'', .onward hin hbegun hstep hpasses, hstops⟩
  · rename_i hout
    exact ⟨offset, s, .here offset s, .off hout⟩

end Invocation

end EntityScript
