import EntityScript.Machine.Dispatch
import Mathlib.Data.Nat.Notation
import Mathlib.Data.List.Infix

/-!
# Runs that are alike

Two runs are alike if their hosts are equal and they have noted the same faults of the same
handlers, whatever steps they took and wherever the faults were raised. Two ways to handle events
are alike if they take alike runs to alike runs, unless the first meets one of the bounds that the
second may not have: the bound of the stack and that of the depth.

A handler cannot tell alike dispatchers from each other: `Invocation.execute_like`. Faults are never
taken back, so that a bound that was met by a nested handler shows in the end.
-/

namespace EntityScript

/-- What a report says apart from the place: which handler, and what was wrong. -/
def FaultReport.cause (x : FaultReport) : String × Fault := (x.chunk, x.fault)

/-- A fault that a bound raises which trees do not have. -/
def Fault.Limit : Fault → Prop
  | .stackOverflow _ | .dispatchDepthExceeded _ => True
  | _ => False

variable {σ : Type}

namespace Run

variable {r r' r'' : Run σ}

/-- The faults noted before are still noted. -/
def Grows (r r' : Run σ) : Prop := r.faults.toList <+: r'.faults.toList

/-- No fault is lost where none is noted. -/
theorem Grows.of_eq (h : r'.faults = r.faults) : r.Grows r' := by
  rw [Grows, h]

/-- No fault is lost in two parts of a run. -/
theorem Grows.trans (h₁ : r.Grows r') (h₂ : r'.Grows r'') : r.Grows r'' :=
  List.IsPrefix.trans h₁ h₂

/-- Noting a fault loses none of those noted before. -/
theorem Grows.note {α : Type} (h : r.Grows r') (result : Except FaultReport α) :
    r.Grows (r'.note result) := by
  cases result with
  | ok v => exact h
  | error report =>
    refine h.trans ?_
    rw [Grows, Run.note, Array.toList_push]
    exact List.prefix_append ..

/-- A bound was met since then. -/
def Hit (r r' : Run σ) : Prop := ∃ x ∈ r'.faults.toList.drop r.faults.size, x.fault.Limit

/-- A bound that was met remains met. -/
theorem Hit.mono (h : r.Hit r') (hg : r'.Grows r'') : r.Hit r'' := by
  obtain ⟨x, hx, hlimit⟩ := h
  exact ⟨x, (List.IsPrefix.drop hg _).subset hx, hlimit⟩

/-- A bound that is met in a part of a run is met in all of it. -/
theorem Hit.of_grows (hg : r.Grows r') (h : r'.Hit r'') : r.Hit r'' := by
  obtain ⟨x, hx, hlimit⟩ := h
  have hle : r.faults.size ≤ r'.faults.size := List.IsPrefix.length_le hg
  have hsplit : r'.faults.size = r.faults.size + (r'.faults.size - r.faults.size) := by omega
  rw [hsplit, ← List.drop_drop] at hx
  exact ⟨x, List.mem_of_mem_drop hx, hlimit⟩

/-- The hosts are equal, and the noted faults are the same. -/
structure Like (r r' : Run σ) : Prop where
  host : r.host = r'.host
  causes : r.faults.toList.map FaultReport.cause = r'.faults.toList.map FaultReport.cause

/-- A run is like itself. -/
theorem Like.refl (r : Run σ) : r.Like r := ⟨rfl, rfl⟩

end Run

namespace Ended

variable {α : Type}

/-- A bound was met, by the handler or by one nested in it. -/
def Limited (r : Run σ) (e : Ended σ α) : Prop :=
  (∃ report, e.result = .error report ∧ report.fault.Limit) ∨ r.Hit e.run

/-- The same became of two handlers. -/
structure Like (e e' : Ended σ α) : Prop where
  result : e.result.mapError FaultReport.cause = e'.result.mapError FaultReport.cause
  context : e.context = e'.context
  run : e.run.Like e'.run

end Ended

/-- What running code comes to: where it faulted if it did, the context, and what all share. -/
abbrev Answer (σ : Type) := Option (ℕ × Fault) × Context × Run σ

namespace Answer

/-- A bound was met, by the code or by a handler nested in it. -/
def Limited (r : Run σ) (a : Answer σ) : Prop :=
  (∃ offset fault, a.1 = some (offset, fault) ∧ fault.Limit) ∨ r.Hit a.2.2

/-- Running the same code came to the same. -/
structure Like (a a' : Answer σ) : Prop where
  fault : a.1 = a'.1
  context : a.2.1 = a'.2.1
  run : a.2.2.Like a'.2.2

/-- A bound that was met since a later run was met since an earlier one. -/
theorem Limited.of_grows {r r' : Run σ} {a : Answer σ} (hg : r.Grows r') (h : a.Limited r') :
    a.Limited r :=
  h.imp_right fun hhit => hhit.of_grows hg

end Answer

namespace Dispatcher

/-- No fault that was noted is lost. -/
def Grows (d : Dispatcher σ) : Prop :=
  ∀ base c event args (r : Run σ), r.Grows (d base c event args r).run

/-- The first handles events as the second does, unless it meets a bound. -/
def Like (d d' : Dispatcher σ) : Prop :=
  ∀ base c event args (r r' : Run σ), r.Like r' → (d base c event args r).Limited r ∨
    (d base c event args r).Like (d' base c event args r')

end Dispatcher

/-- What the first handles, the second handles as well, and alike. -/
def NestedLike (nested nested' : Option (Dispatcher σ)) : Prop :=
  ∀ d, nested = some d → d.Grows ∧ ∃ d', nested' = some d' ∧ d.Like d'

/-- Noting alike results keeps runs alike. -/
theorem Ended.Like.note {α : Type} {e e' : Ended σ α} (h : e.Like e') :
    (e.run.note e.result).Like (e'.run.note e'.result) := by
  have hresult := h.result
  cases hr : e.result with
  | ok v =>
    cases hr' : e'.result with
    | ok v' => exact h.run
    | error report' =>
      rw [hr, hr'] at hresult
      cases hresult
  | error report =>
    cases hr' : e'.result with
    | ok v' =>
      rw [hr, hr'] at hresult
      cases hresult
    | error report' =>
      rw [hr, hr'] at hresult
      have hcause : report.cause = report'.cause := Except.error.inj hresult
      refine ⟨h.run.host, ?_⟩
      rw [Run.note, Run.note, Array.toList_push, Array.toList_push, List.map_append,
        List.map_append, h.run.causes, List.map_singleton, List.map_singleton, hcause]

/-- A bound that a nested handler meets is noted. -/
theorem Ended.Limited.note {α : Type} {r : Run σ} {e : Ended σ α} (h : e.Limited r)
    (hg : r.Grows e.run) : r.Hit (e.run.note e.result) := by
  rcases h with ⟨report, hresult, hlimit⟩ | hhit
  · refine ⟨report, ?_, hlimit⟩
    have hle : r.faults.size ≤ e.run.faults.toList.length := List.IsPrefix.length_le hg
    rw [hresult, Run.note, Array.toList_push, List.drop_append_of_le_length hle]
    exact List.mem_append_right _ (List.mem_singleton_self report)
  · exact hhit.mono ((Run.Grows.of_eq rfl).note _)

/-- A handler that met a bound. -/
theorem Ended.Limited.handled {r : Run σ} {e : Ended σ Unit} (h : e.Limited r)
    (before : Table String Value) : Ended.Limited r
      ⟨e.result.map fun _ => DispatchOutcome.handled, e.context.restoreArguments before,
        e.run⟩ := by
  rcases h with ⟨report, hresult, hlimit⟩ | hhit
  · exact .inl ⟨report, by rw [hresult]; rfl, hlimit⟩
  · exact .inr hhit

/-- The same became of two handlers, and what was bound before them is bound again. -/
theorem Ended.Like.handled {e e' : Ended σ Unit} (h : e.Like e') (before : Table String Value) :
    Ended.Like
      ⟨e.result.map fun _ => DispatchOutcome.handled, e.context.restoreArguments before,
        e.run⟩
      ⟨e'.result.map fun _ => DispatchOutcome.handled, e'.context.restoreArguments before,
        e'.run⟩ := by
  have hswap : ∀ x : Except FaultReport Unit,
      (x.map fun _ => DispatchOutcome.handled).mapError FaultReport.cause
        = (x.mapError FaultReport.cause).map fun _ => DispatchOutcome.handled := by
    rintro (_ | _) <;> rfl
  exact ⟨by rw [hswap, h.result, ← hswap], by rw [h.context], h.run⟩

namespace Invocation

variable {i : Invocation} {nested nested' : Option (Dispatcher σ)}

/-- A nested handler loses no fault. -/
theorem nest_grows {d : Dispatcher σ} (hd : d.Grows) (event : Event) (stack : Array Value)
    (c : Context) (r : Run σ) : r.Grows (i.nest d event stack c r).2 :=
  (hd ..).note _

/-- A nested event meets a bound, or two dispatchers that are alike handle it alike. -/
theorem nest_like {d d' : Dispatcher σ} (hg : d.Grows) (hd : d.Like d') (event : Event)
    (stack : Array Value) (c : Context) {r r' : Run σ} (hr : r.Like r') :
    r.Hit (i.nest d event stack c r).2 ∨
      (i.nest d event stack c r).1 = (i.nest d' event stack c r').1 ∧
        (i.nest d event stack c r).2.Like (i.nest d' event stack c r').2 := by
  rcases hd (i.base + stack.size) c event.name event.args r r' hr with hlimited | hlike
  · exact .inl (hlimited.note (hg ..))
  · exact .inr ⟨hlike.context, hlike.note⟩

/-- Counting an instruction loses no fault. -/
theorem beginStep_grows (i : Invocation) (r : Run σ) : r.Grows (i.beginStep r).2 := by
  unfold beginStep
  dsimp only
  split
  · split <;> exact .of_eq rfl
  · exact .of_eq rfl

variable [Host σ]

/-- Delivering an event loses no fault. -/
theorem deliver_grows (hnested : ∀ d, nested = some d → d.Grows) (event : Event) (f : Frame)
    (r : Run σ) : r.Grows (i.deliver nested event f r).2.2 := by
  have hrefl : r.Grows r := .of_eq rfl
  unfold deliver
  split
  · exact .of_eq rfl
  · unfold deliverTo
    split
    · exact hrefl
    · cases nested with
      | none => exact hrefl
      | some d =>
        have hd := hnested d rfl
        dsimp only
        split
        · exact nest_grows hd event f.stack f.context r
        · split
          · rename_i c host _
            exact nest_grows hd event f.stack c { r with host }
          · split <;> exact .of_eq rfl

/-- An event is delivered as if the nested handlers were those that they are like. -/
theorem deliver_like (hnested : NestedLike nested nested') (event : Event) (f : Frame)
    {r r' : Run σ} (hr : r.Like r') :
    (∃ fault, (i.deliver nested event f r).1 = .error fault ∧ fault.Limit) ∨
      r.Hit (i.deliver nested event f r).2.2 ∨
      (i.deliver nested event f r).1 = (i.deliver nested' event f r').1 ∧
        (i.deliver nested event f r).2.1 = (i.deliver nested' event f r').2.1 ∧
        (i.deliver nested event f r).2.2.Like (i.deliver nested' event f r').2.2 := by
  unfold deliver
  cases event.target with
  | none => exact .inr (.inr ⟨rfl, rfl, by rw [hr.host], hr.causes⟩)
  | some target =>
    dsimp only
    unfold deliverTo
    rw [← hr.host]
    cases Host.resolve r.host target with
    | none => exact .inr (.inr ⟨rfl, rfl, hr⟩)
    | some id =>
      cases nested with
      | none => exact .inl ⟨_, rfl, trivial⟩
      | some d =>
        obtain ⟨hg, d', rfl, hd⟩ := hnested d rfl
        dsimp only
        by_cases howner : f.context.owner = some id
        · rw [if_pos howner, if_pos howner]
          rcases nest_like (i := i) hg hd event f.stack f.context hr with hhit | ⟨hcontext, hrun⟩
          · exact .inr (.inl hhit)
          · exact .inr (.inr ⟨rfl, by rw [hcontext], hrun⟩)
        · rw [if_neg howner, if_neg howner]
          rcases Host.take r.host id with ⟨_ | c, host⟩
          · dsimp only
            split
            · exact .inr (.inr ⟨rfl, rfl, rfl, hr.causes⟩)
            · exact .inr (.inr ⟨rfl, rfl, rfl, hr.causes⟩)
          · have hhost : Run.Like { r with host } { r' with host } := ⟨rfl, hr.causes⟩
            rcases nest_like (i := i) hg hd event f.stack c hhost with hhit | ⟨hcontext, hrun⟩
            · exact .inr (.inl hhit)
            · refine .inr (.inr ⟨rfl, rfl, ?_, hrun.causes⟩)
              dsimp only
              rw [hcontext, hrun.host]

/-- Running a handler takes back no fault that was noted. -/
theorem execute_grows (hnested : ∀ d, nested = some d → d.Grows) (left : ℕ) :
    ∀ offset f (r : Run σ), left = i.chunk.size - offset →
      r.Grows (i.execute nested offset f r).2.2 := by
  induction left using Nat.strong_induction_on with
  | _ left ih =>
    rintro offset f r rfl
    rw [execute]
    split
    · rename_i hlt
      have hbegun := beginStep_grows i r
      dsimp only
      split
      · rename_i heq
        rwa [heq] at hbegun
      · rename_i r₁ heq
        rw [heq] at hbegun
        split
        · exact hbegun
        · exact hbegun
        · rename_i instr _
          have hpos := instr.size_pos
          split
          · exact hbegun
          · exact hbegun
          · rename_i distance f₁ _
            exact hbegun.trans (ih _ (by omega) _ f₁ r₁ rfl)
          · rename_i event f₁ _
            have hdelivered := deliver_grows (i := i) hnested event f₁ r₁
            split
            · rename_i heq'
              rw [heq'] at hdelivered
              exact hbegun.trans hdelivered
            · rename_i f₂ r₂ heq'
              rw [heq'] at hdelivered
              exact (hbegun.trans hdelivered).trans (ih _ (by omega) _ f₂ r₂ rfl)
    · exact .of_eq rfl

/-- Running code loses no fault. -/
theorem run_grows (hnested : ∀ d, nested = some d → d.Grows) (c : Context) (r : Run σ) :
    r.Grows (i.run nested c r).run := by
  have hexecute := execute_grows (i := i) hnested _ 0 ⟨#[], c⟩ r rfl
  unfold run
  split
  · rename_i heq
    rwa [heq] at hexecute
  · rename_i heq
    rwa [heq] at hexecute

/-- A handler cannot tell nested handlers from those that they are like. -/
theorem execute_like (hsteps : i.limits.steps = none) (hnested : NestedLike nested nested')
    (left : ℕ) : ∀ offset f (r r' : Run σ), left = i.chunk.size - offset → r.Like r' →
      Answer.Limited r (i.execute nested offset f r) ∨
        Answer.Like (i.execute nested offset f r) (i.execute nested' offset f r') := by
  induction left using Nat.strong_induction_on with
  | _ left ih =>
    rintro offset f r r' rfl hr
    have hgrows : ∀ d, nested = some d → d.Grows := fun d hd => (hnested d hd).1
    have hbegin : ∀ r : Run σ, i.beginStep r = (.ok (), { r with steps := r.steps + 1 }) := by
      intro r
      simp only [beginStep, hsteps]
    have hbegun : Run.Like { r with steps := r.steps + 1 } { r' with steps := r'.steps + 1 } :=
      ⟨hr.host, hr.causes⟩
    have hstep : r.Grows { r with steps := r.steps + 1 } := .of_eq rfl
    rw [execute, execute]
    by_cases hlt : offset < i.chunk.size
    · rw [dif_pos hlt, dif_pos hlt, hbegin, hbegin]
      dsimp only
      cases i.chunk.fetch offset hlt with
      | truncated _ => exact .inr ⟨rfl, rfl, hbegun⟩
      | unknown _ => exact .inr ⟨rfl, rfl, hbegun⟩
      | instruction instr =>
        have hpos := instr.size_pos
        dsimp only
        rcases i.perform f instr with fault | ⟨distance | event | _, f₁⟩
        · exact .inr ⟨rfl, rfl, hbegun⟩
        · dsimp only
          refine (ih _ ?_ _ f₁ _ _ rfl hbegun).imp_left (.of_grows hstep)
          omega
        · dsimp only
          have hdelivered := deliver_grows (i := i) hgrows event f₁ { r with steps := r.steps + 1 }
          have hlike := deliver_like (i := i) hnested event f₁ hbegun
          generalize i.deliver nested event f₁ { r with steps := r.steps + 1 } = x at *
          generalize i.deliver nested' event f₁ { r' with steps := r'.steps + 1 } = x' at *
          obtain ⟨fault | _, f₂, r₂⟩ := x
          -- Once a nested handler has met a bound nothing more has to be alike.
          · rcases hlike with ⟨_, heq, hlimit⟩ | hhit | ⟨hresult, hframe, hrun⟩
            · cases heq
              exact .inl (.inl ⟨_, _, rfl, hlimit⟩)
            · exact .inl (.inr (hhit.of_grows hstep))
            · obtain ⟨_, _, r₂'⟩ := x'
              cases hresult
              cases hframe
              exact .inr ⟨rfl, rfl, hrun⟩
          · rcases hlike with ⟨_, heq, -⟩ | hhit | ⟨hresult, hframe, hrun⟩
            · cases heq
            · refine .inl (.inr ((hhit.of_grows hstep).mono ?_))
              exact execute_grows hgrows _ _ f₂ r₂ rfl
            · obtain ⟨_, _, r₂'⟩ := x'
              cases hresult
              cases hframe
              refine (ih _ ?_ _ f₂ r₂ r₂' rfl hrun).imp_left (.of_grows (hstep.trans hdelivered))
              omega
        · exact .inr ⟨rfl, rfl, hbegun⟩
    · rw [dif_neg hlt, dif_neg hlt]
      exact .inr ⟨rfl, rfl, hr⟩

/-- What running code comes to, as what running a handler comes to. -/
theorem run_like (hsteps : i.limits.steps = none) (hnested : NestedLike nested nested')
    (c : Context) {r r' : Run σ} (hr : r.Like r') :
    (i.run nested c r).Limited r ∨ (i.run nested c r).Like (i.run nested' c r') := by
  have hexecute := execute_like (i := i) hsteps hnested _ 0 ⟨#[], c⟩ r r' rfl hr
  unfold run
  generalize i.execute nested 0 ⟨#[], c⟩ r = a at *
  generalize i.execute nested' 0 ⟨#[], c⟩ r' = a' at *
  obtain ⟨_ | ⟨offset, fault⟩, c₁, r₁⟩ := a
  · rcases hexecute with (⟨_, _, heq, -⟩ | hhit) | ⟨hfault, hcontext, hrun⟩
    · cases heq
    · exact .inl (.inr hhit)
    · obtain ⟨_, _, _⟩ := a'
      cases hfault
      cases hcontext
      exact .inr ⟨rfl, rfl, hrun⟩
  · rcases hexecute with (⟨_, _, heq, hlimit⟩ | hhit) | ⟨hfault, hcontext, hrun⟩
    · cases heq
      exact .inl (.inl ⟨_, rfl, hlimit⟩)
    · exact .inl (.inr hhit)
    · obtain ⟨_, _, _⟩ := a'
      cases hfault
      cases hcontext
      exact .inr ⟨rfl, rfl, hrun⟩

end Invocation

section Dispatch

variable [Host σ]

/-- Dispatching loses no fault, if nested events lose none. -/
theorem dispatchWith_grows (limits : Limits) {nested : Option (Dispatcher σ)}
    (hnested : ∀ d, nested = some d → d.Grows) : Dispatcher.Grows (dispatchWith limits nested) := by
  intro base c event args r
  unfold dispatchWith
  split
  · exact .of_eq rfl
  · exact Invocation.run_grows hnested _ r

/-- An event is handled as if the nested handlers were those that they are like. -/
theorem dispatchWith_like {limits : Limits} (hsteps : limits.steps = none)
    {nested nested' : Option (Dispatcher σ)} (hnested : NestedLike nested nested') :
    Dispatcher.Like (dispatchWith limits nested) (dispatchWith limits nested') := by
  intro base c event args r r' hr
  unfold dispatchWith
  split
  · exact .inr ⟨rfl, rfl, hr⟩
  · rename_i chunk _
    dsimp only
    exact (Invocation.run_like (i := ⟨limits, base, chunk⟩) hsteps hnested
      (c.bindArguments args) hr).imp (·.handled c.bound) (·.handled c.bound)

end Dispatch

end EntityScript
