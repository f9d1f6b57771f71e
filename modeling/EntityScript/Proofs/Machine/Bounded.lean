import EntityScript.Proofs.Machine.Registers
import Mathlib.Data.List.Chain

/-!
# Bounds that hold

The bounds of a run are checked where a value is put on the stack, where a handler is called and
where an instruction begins, and all handlers share what is counted. Here it is said of whole runs
that nothing gets past these checks: at every instant the one stack holds no more values than it
may, no more handlers are active than may be, and over all handlers together no more instructions
are executed than the budget allows.
-/

namespace EntityScript

/-- The work never puts more on the stack than there is room for. -/
def InPlace.Fits (room : ℕ) {α : Type} (w : InPlace α) : Prop :=
  ∀ f : Frame, f.stack.size ≤ room →
    match w f with
    | .ok _ f' | .error _ f' => f'.stack.size ≤ room

namespace InPlace

variable {i : Invocation} {room : ℕ}

/-- Taking an operand needs no room. -/
theorem fits_take : Fits room (Operands.shared i).take := by
  intro f h
  unfold Operands.shared
  dsimp only
  by_cases hbase : f.stack.size ≤ i.base
  · rw [if_pos hbase]
    exact h
  rw [if_neg hbase]
  cases f.stack.back? with
  | none => exact h
  | some v =>
    dsimp only
    rw [Array.size_pop]
    omega

/-- Looking at an operand needs no room. -/
theorem fits_top : Fits room (Operands.shared i).top := by
  intro f h
  unfold Operands.shared
  dsimp only
  by_cases hbase : f.stack.size ≤ i.base
  · rw [if_pos hbase]
    exact h
  rw [if_neg hbase]
  cases f.stack.back? <;> exact h

/-- A value is put on the stack only if there is room for it. -/
theorem fits_put (v : Value) : Fits i.limits.stackSize ((Operands.shared i).put v) := by
  intro f h
  unfold Operands.shared
  dsimp only
  by_cases hfull : i.limits.stackSize ≤ f.stack.size
  · rw [if_pos hfull]
    exact h
  · rw [if_neg hfull]
    dsimp only
    rw [Array.size_push]
    omega

/-- Whatever an instruction does with its operands, it keeps to the room on the stack. -/
theorem alike_fits (i : Invocation) :
    (Operands.shared i).Alike (fun _ w => Fits i.limits.stackSize w) (Operands.shared i) where
  done a f h := h
  lift x f h := by cases x <;> exact h
  bind {α β _ w' _ next'} first rest f h := by
    have hfirst := first f h
    simp only [bind, EStateM.bind]
    cases hw : w' f with
    | ok a f' =>
      rw [hw] at hfirst
      exact rest a f' hfirst
    | error fault f' =>
      rw [hw] at hfirst
      exact hfirst
  read name f h := h
  assign name v f h := h
  enter state f h := by
    unfold enter
    cases f.context.changeState state <;> exact h
  take := fits_take
  top := fits_top
  put := fits_put

/-- No instruction puts more on the stack than there is room for. -/
theorem fits_work (i : Invocation) (x : Instruction) :
    Fits i.limits.stackSize ((Operands.shared i).work i x) :=
  (alike_fits i).work rfl x

end InPlace

variable {σ : Type}

/-- What an instruction comes to has a property, whether its handler ends or not. -/
def Turn.Holds (P : Instant σ → Prop) : Turn σ → Prop
  | .goes s | .leaves _ s => P s

/-- What an instruction comes to has every property that follows from one it has. -/
theorem Turn.Holds.imp {P Q : Instant σ → Prop} (himp : ∀ s, P s → Q s) {t : Turn σ}
    (h : t.Holds P) : t.Holds Q := by
  cases t with
  | goes s | leaves _ s => exact himp s h

/-- Registers keep to such bounds while so many handlers wait and so many instructions were begun.
-/
structure Registers.Within (g : Registers) (limits : Limits) (waiting steps : ℕ) : Prop where
  under : g.limits = limits
  stack : g.stack.size ≤ limits.stackSize
  depth : g.depth = waiting + 1
  active : waiting + 1 ≤ max 1 limits.dispatchDepth
  steps : g.steps = steps

variable {limits : Limits}

/-- Noting the fault of a nested handler keeps registers within their bounds. -/
theorem Registers.Within.note {g : Registers} {waiting steps : ℕ}
    (h : g.Within limits waiting steps) {α : Type} (result : Except FaultReport α) :
    (g.note result).Within limits waiting steps := by
  cases result <;> exact ⟨h.under, h.stack, h.depth, h.active, h.steps⟩

namespace Instant

/-- The registers keep to such bounds when so many instructions were begun. -/
def Bounded (limits : Limits) (steps : ℕ) (s : Instant σ) : Prop :=
  s.registers.Within limits s.waiting.length steps

variable [Host σ] {s s' : Instant σ} {steps : ℕ}

omit [Host σ] in
/-- The first instant of a run keeps to the bounds. -/
theorem bounded_start {g : Registers} {chunk : Chunk} {before : Option (Table String Value)}
    {c : Context} {host : σ} (hlimits : g.limits = limits) (hstack : g.stack = #[])
    (hdepth : g.depth = 0) : (g.start chunk before c host).Bounded limits 0 where
  under := hlimits
  stack := by
    change g.stack.size ≤ limits.stackSize
    rw [hstack]
    exact Nat.zero_le _
  depth := congrArg (· + 1) hdepth
  active := Nat.le_max_left ..
  steps := if_pos hdepth

/-- When a waiting handler goes on, registers are within their bounds and one handler less is
active. -/
theorem Bounded.resume {g : Registers} {below : List Halted}
    (h : g.Within limits below.length steps) {α : Type} (w : Halted)
    (result : Except FaultReport α) (c : Context) (host : Witnessed σ) :
    (w.resume below result c g host).Bounded limits steps := by
  unfold Bounded
  rw [Halted.registers_resume, Halted.waiting_resume]
  exact h.note result

/-- A call begins without operands, and there is room for one more handler. -/
theorem Bounded.call (h : s.Bounded limits steps)
    (hroom : s.registers.depth < s.registers.limits.dispatchDepth) (event : Event) (c : Context)
    (kept : Option (Context × EntityId)) : (s.call event c kept).Bounded limits steps := by
  unfold Instant.call
  dsimp only
  split
  · exact Bounded.resume h _ _ _ _
  · have hactive : s.registers.depth ≠ 0 := by
      rw [h.depth]
      exact Nat.succ_ne_zero _
    have hdeeper : s.waiting.length + 2 ≤ limits.dispatchDepth := by
      rw [h.depth, h.under] at hroom
      exact hroom
    exact ⟨h.under, h.stack, congrArg (· + 1) h.depth, Nat.le_trans hdeeper (Nat.le_max_right ..),
      (if_neg hactive).trans h.steps⟩

/-- Delivering an event begins a handler only where one more may be active. -/
theorem Bounded.deliver (h : s.Bounded limits steps) (next : ℕ) (event : Event) :
    (s.deliver next event).Holds (Bounded limits steps) := by
  unfold Instant.deliver
  split
  · exact h
  split
  · exact h
  rename_i host _
  split
  · exact h
  rename_i hroom
  split
  · exact Bounded.call (s := { s.goOn next with host }) h (Nat.lt_of_not_le hroom) event _ none
  split
  · rename_i c host _
    exact Bounded.call (s := { s.goOn next with host }) h (Nat.lt_of_not_le hroom) event c _
  · split <;> exact h

/-- Performing an instruction keeps registers within their bounds. -/
theorem Bounded.obey (h : s.Bounded limits steps) (fetched : Fetched) :
    (s.obey fetched).Holds (Bounded limits steps) := by
  cases fetched with
  | truncated op => exact h
  | unknown byte => exact h
  | instruction x =>
    have hlimits : s.invocation.limits = limits := h.under
    have hfits := InPlace.fits_work s.invocation x ⟨s.registers.stack, s.context⟩
    rw [hlimits] at hfits
    replace hfits := hfits h.stack
    have hframe {f : Frame} (hroom : f.stack.size ≤ limits.stackSize) :
        (s.withFrame f).Bounded limits steps := ⟨h.under, hroom, h.depth, h.active, h.steps⟩
    unfold Instant.obey
    dsimp only
    generalize (Operands.shared s.invocation).work s.invocation x
      ⟨s.registers.stack, s.context⟩ = worked at hfits ⊢
    cases worked with
    | error fault f => exact hframe hfits
    | ok flow f =>
      cases flow with
      | finish => exact hframe hfits
      | forward distance => exact hframe hfits
      | fire event => exact (hframe hfits).deliver _ event

/-- An instruction keeps to the bounds. It is counted, and running off the end of the code is not.
-/
theorem Bounded.act (h : s.Bounded limits steps) : s.act.Holds
    (Bounded limits (steps + if s.active.offset < s.active.chunk.size then 1 else 0)) := by
  unfold Instant.act
  by_cases hin : s.active.offset < s.active.chunk.size
  · rw [dif_pos hin, if_pos hin]
    have hcounted : { s with registers := s.registers.count.2 }.Bounded limits (steps + 1) := by
      rw [Registers.count_snd]
      exact ⟨h.under, h.stack, h.depth, h.active, congrArg (· + 1) h.steps⟩
    generalize s.registers.count = counted at hcounted ⊢
    obtain ⟨fault | _, registers⟩ := counted
    · exact hcounted
    · exact hcounted.obey _
  · rw [dif_neg hin, if_neg hin]
    exact h

/-- The end of a handler keeps registers within their bounds. -/
theorem Bounded.leave (h : s.Bounded limits steps) {fault : Option Fault}
    (hgoes : s.leave fault = .goes s') : s'.Bounded limits steps := by
  unfold Instant.leave at hgoes
  dsimp only at hgoes
  cases hwaiting : s.waiting with
  | nil =>
    rw [hwaiting] at hgoes
    cases hgoes
  | cons w below =>
    rw [hwaiting] at hgoes
    cases hgoes
    have hlength : s.waiting.length = below.length + 1 := by rw [hwaiting, List.length_cons]
    have hdepth := h.depth
    have hactive := h.active
    rw [hlength] at hdepth hactive
    have hleft : (s.registers.leave s.active.callerBase).Within limits below.length steps := by
      refine ⟨h.under, Nat.le_trans ?_ h.stack, ?_, Nat.le_trans (Nat.le_succ _) hactive, h.steps⟩
      · change (s.registers.stack.take s.registers.base).size ≤ s.registers.stack.size
        rw [Array.take_eq_extract, Array.size_extract]
        omega
      · change s.registers.depth - 1 = below.length + 1
        rw [hdepth]
        rfl
    exact Bounded.resume hleft _ _ _ _

/-- One step keeps to the bounds. -/
theorem Next.bounded (hnext : s.Next s') (h : s.Bounded limits steps) :
    s'.Bounded limits (steps + if s.active.offset < s.active.chunk.size then 1 else 0) := by
  have hact := h.act
  unfold Next step at hnext
  generalize s.act = turn at hact hnext
  cases turn with
  | goes s'' =>
    cases hnext
    exact hact
  | leaves fault s'' => exact Bounded.leave hact hnext

/-- From bounded registers a run only reaches bounded ones. -/
theorem Reaches.bounded (hreaches : s.Reaches s') (h : s.Bounded limits steps) :
    ∃ steps', s'.Bounded limits steps' := by
  induction hreaches with
  | refl => exact ⟨steps, h⟩
  | tail _ hnext ih =>
    obtain ⟨steps', h'⟩ := ih
    exact ⟨_, hnext.bounded h'⟩

/-- An instruction is executed next: there is one, and it is within the budget. -/
def executes (s : Instant σ) : Bool :=
  decide (s.active.offset < s.active.chunk.size) && s.registers.count.1.isOk

omit [Host σ] in
/-- An instruction is executed only while something is left of the budget. -/
theorem lt_of_executes {n : ℕ} (hlimit : limits.steps = some n)
    (h : s.Bounded limits steps) (hexecutes : s.executes = true) :
    s.active.offset < s.active.chunk.size ∧ steps < n := by
  obtain ⟨hin, hcount⟩ := Bool.and_eq_true_iff.1 hexecutes
  rw [← h.steps]
  refine ⟨of_decide_eq_true hin, ?_⟩
  unfold Registers.count at hcount
  dsimp only at hcount
  rw [h.under, hlimit] at hcount
  dsimp only at hcount
  split at hcount
  · cases hcount
  · rename_i hwithin
    exact Nat.not_lt.1 hwithin

/-- From an instant on no more instructions are executed than are left of the budget. The induction
is on the instants that follow. -/
theorem countP_executes_le {n : ℕ} (hlimit : limits.steps = some n)
    (h : s.Bounded limits steps) (rest : List (Instant σ)) (hchain : (s :: rest).IsChain Next) :
    (s :: rest).countP executes ≤ n - steps := by
  induction rest generalizing s steps with
  | nil =>
    by_cases hexecutes : s.executes = true
    · have hlt := (lt_of_executes hlimit h hexecutes).2
      rw [List.countP_cons_of_pos hexecutes, List.countP_nil]
      omega
    · rw [List.countP_cons_of_neg hexecutes]
      exact Nat.zero_le _
  | cons s' rest ih =>
    obtain ⟨hnext, hrest⟩ := List.isChain_cons_cons.1 hchain
    have hlater := ih (hnext.bounded h) hrest
    by_cases hexecutes : s.executes = true
    · obtain ⟨hin, hlt⟩ := lt_of_executes hlimit h hexecutes
      rw [if_pos hin] at hlater
      rw [List.countP_cons_of_pos hexecutes]
      omega
    · rw [List.countP_cons_of_neg hexecutes]
      omega

end Instant

end EntityScript
