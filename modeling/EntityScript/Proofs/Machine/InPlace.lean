import EntityScript.Machine.Perform
import Mathlib.Data.Nat.Notation

/-!
# Instructions performed in place

Performing an instruction answers a changed frame or a fault, so that a fault seems to undo what
came before it. Here an instruction works on one frame in place, step by step, and a fault leaves
the frame as it happens to be. `outcome_work` says that both come to the same answers, and
`work_careful` what becomes of the context: an instruction that faults has not touched it, and one
that does not has at most assigned one variable or changed to a state of the script. Operands that
were taken before a fault are lost.
-/

namespace EntityScript

/-- Work on a frame in place. -/
abbrev InPlace (α : Type) := EStateM Fault Frame α

/-- What an instruction may do to a context. -/
inductive Context.Worked (c : Context) : Context → Prop
  | same : Worked c c
  | assigned (name : String) (v : Value) : Worked c (c.set name v)
  | changed {state : String} (known : c.definition.script.hasState state = true) :
    Worked c { c with state }

namespace Context.Worked

variable {c c' : Context}

/-- No instruction changes the owner of a context. -/
theorem owner (h : c.Worked c') : c'.owner = c.owner := by
  cases h <;> rfl

/-- No instruction changes the definition of a context. -/
theorem definition (h : c.Worked c') : c'.definition = c.definition := by
  cases h <;> rfl

end Context.Worked

namespace InPlace

variable {α β : Type}

/-- Takes the topmost operand. -/
def take : InPlace Value := fun f =>
  match f.stack.back? with
  | some v => .ok v { f with stack := f.stack.pop }
  | none => .error .stackUnderflow f

/-- The topmost operand. -/
def top : InPlace Value := fun f =>
  match f.stack.back? with
  | some v => .ok v f
  | none => .error .stackUnderflow f

/-- Takes a text that is wanted for some use. -/
def takeText (use : Use) : InPlace String := do
  let v ← take
  liftExcept (v.textFor use)

/-- Takes the arguments of an event one after another. -/
def takeArguments (taken : List (String × Value)) : ℕ → InPlace (List (String × Value))
  | 0 => pure taken
  | count + 1 => do
    let v ← take
    let name ← takeText .argumentName
    takeArguments ((name, v) :: taken) count

/-- Puts a value on the stack, if there is room for it. -/
def put (i : Invocation) (v : Value) : InPlace Unit := fun f =>
  if i.limits.stackSize ≤ i.base + f.stack.size then
    .error (.stackOverflow i.limits.stackSize) f
  else .ok () { f with stack := f.stack.push v }

/-- Takes an event off the stack. -/
def takeEvent (i : Invocation) (index flags argc : UInt8) : InPlace Event := do
  let name ← liftExcept (i.name index)
  let entries ← takeArguments [] argc.toNat
  if Instruction.isTargeted flags then
    let target ← takeText .targetName
    return ⟨name, some target, .ofList entries⟩
  else return ⟨name, none, .ofList entries⟩

/-- What a variable holds. -/
def read (name : String) : InPlace Value := fun f => .ok (f.context.read name) f

/-- Assigns a value to a variable. -/
def assign (name : String) (v : Value) : InPlace Unit := fun f =>
  .ok () { f with context := f.context.set name v }

/-- Changes to another state of the script. -/
def enter (state : String) : InPlace Unit := fun f =>
  match f.context.changeState state with
  | .ok context => .ok () { f with context }
  | .error fault => .error fault f

/-- Works off an instruction, apart from delivering an event. -/
def work (i : Invocation) : Instruction → InPlace Flow
  | .constant index => do
    put i (← liftExcept (i.constant index))
    return .forward 0
  | .binary op => do
    let right ← take
    let left ← take
    put i (← liftExcept (op.apply left right))
    return .forward 0
  | .negate => do
    let v ← take
    put i (← liftExcept v.negate)
    return .forward 0
  | .not => do
    let v ← take
    let b ← liftExcept (v.truth .complement)
    put i (.bool !b)
    return .forward 0
  | .getVariable index => do
    let name ← liftExcept (i.name index)
    put i (← read name)
    return .forward 0
  | .setVariable index => do
    let name ← liftExcept (i.name index)
    assign name (← top)
    return .forward 0
  | .getComponent index => do
    let name ← liftExcept (i.name index)
    let v ← take
    put i (← liftExcept (v.component name))
    return .forward 0
  | .pop => do
    let _ ← take
    return .forward 0
  | .fireEvent index flags argc => return .fire (← takeEvent i index flags argc)
  | .changeState index => do
    enter (← liftExcept (i.name index))
    return .forward 0
  | .jump distance => return .forward distance.toNat
  | .jumpIfFalse distance => do
    let v ← top
    let b ← liftExcept (v.truth .condition)
    return .forward (if b then 0 else distance.toNat)
  | .ret => return .finish

/-- The answer of some work. What a fault leaves of the frame is dropped. -/
def outcome (w : InPlace α) (f : Frame) : Except Fault (α × Frame) :=
  match w f with
  | .ok a f => .ok (a, f)
  | .error fault _ => .error fault

/-- Answering leaves the frame as it is. -/
@[simp] theorem outcome_pure (a : α) (f : Frame) : outcome (pure a) f = pure (a, f) := rfl

/-- Work in two parts has the outcome of one after the other. -/
@[simp] theorem outcome_bind (w : InPlace α) (next : α → InPlace β) (f : Frame) :
    outcome (w >>= next) f = outcome w f >>= fun x => outcome (next x.1) x.2 := by
  simp only [outcome, bind, EStateM.bind, Except.bind]
  cases w f <;> rfl

/-- Changing the answer of work changes the answer of its outcome. -/
@[simp] theorem outcome_map (g : α → β) (w : InPlace α) (f : Frame) :
    outcome (g <$> w) f = (fun x => (g x.1, x.2)) <$> outcome w f := by
  rw [map_eq_pure_bind, outcome_bind, map_eq_pure_bind]
  rfl

/-- Raising what was answered elsewhere leaves the frame as it is. -/
@[simp] theorem outcome_liftExcept (x : Except Fault α) (f : Frame) :
    outcome (liftExcept x) f = x >>= fun a => pure (a, f) := by
  cases x <;> rfl

/-- Taking an operand in place has the outcome of popping it. -/
@[simp] theorem outcome_take (f : Frame) : outcome take f = f.pop := by
  unfold outcome take Frame.pop
  cases f.stack.back? <;> rfl

/-- Looking at an operand in place has the outcome of looking at it. -/
@[simp] theorem outcome_top (f : Frame) : outcome top f = f.top >>= fun v => pure (v, f) := by
  unfold outcome top Frame.top
  cases f.stack.back? <;> rfl

/-- Taking a text in place has the outcome of popping it. -/
@[simp] theorem outcome_takeText (use : Use) (f : Frame) :
    outcome (takeText use) f = f.popText use := by
  simp [takeText, Frame.popText]

/-- Taking arguments in place has the outcome of popping them. -/
@[simp] theorem outcome_takeArguments (taken : List (String × Value)) (count : ℕ) (f : Frame) :
    outcome (takeArguments taken count) f = f.popArguments taken count := by
  induction count generalizing taken f with
  | zero => rfl
  | succ count ih => simp [takeArguments, Frame.popArguments, ih]

/-- Putting a value in place has the outcome of pushing it. -/
@[simp] theorem outcome_put (i : Invocation) (v : Value) (f : Frame) :
    outcome (put i v) f = i.push f v >>= fun f => pure ((), f) := by
  unfold outcome put Invocation.push
  by_cases h : i.limits.stackSize ≤ i.base + f.stack.size
  · rw [if_pos h, if_pos h]
    rfl
  · rw [if_neg h, if_neg h]
    rfl

/-- Taking an event in place has the outcome of popping it. -/
@[simp] theorem outcome_takeEvent (i : Invocation) (index flags argc : UInt8) (f : Frame) :
    outcome (takeEvent i index flags argc) f = i.popEvent f index flags argc := by
  simp only [takeEvent, Invocation.popEvent, outcome_bind, outcome_liftExcept, bind_assoc,
    pure_bind, outcome_takeArguments]
  split <;> simp

/-- Reading in place has the outcome of reading the variable. -/
@[simp] theorem outcome_read (name : String) (f : Frame) :
    outcome (read name) f = pure (f.context.read name, f) := rfl

/-- Assigning in place has the outcome of setting the variable. -/
@[simp] theorem outcome_assign (name : String) (v : Value) (f : Frame) :
    outcome (assign name v) f = pure ((), { f with context := f.context.set name v }) := rfl

/-- Entering a state in place has the outcome of changing to it. -/
@[simp] theorem outcome_enter (state : String) (f : Frame) : outcome (enter state) f =
    f.context.changeState state >>= fun context => pure ((), { f with context }) := by
  unfold outcome enter
  cases f.context.changeState state <;> rfl

/-- Working an instruction off in place answers what performing it does. -/
theorem outcome_work (i : Invocation) (f : Frame) (x : Instruction) :
    outcome (work i x) f = i.perform f x := by
  cases x <;> simp [work, Invocation.perform]

/-- Work that leaves the context alone. -/
def Quiet (w : InPlace α) : Prop := ∀ f,
  match w f with
  | .ok _ f' => f'.context = f.context
  | .error _ f' => f'.context = f.context

/-- Work that leaves the context alone if it comes to a fault. -/
def Careful (w : InPlace α) : Prop := ∀ f,
  match w f with
  | .ok _ f' => f.context.Worked f'.context
  | .error _ f' => f'.context = f.context

/-- Work that leaves the context alone leaves it alone when it faults. -/
theorem Quiet.careful {w : InPlace α} (h : Quiet w) : Careful w := by
  intro f
  have hf := h f
  split
  · rename_i heq
    rw [heq] at hf
    exact hf ▸ .same
  · rename_i heq
    rw [heq] at hf
    exact hf

/-- Answering leaves the context alone. -/
theorem quiet_pure (a : α) : Quiet (pure a) := fun _ => rfl

/-- Raising what was answered elsewhere leaves the context alone. -/
theorem quiet_liftExcept (x : Except Fault α) : Quiet (liftExcept x) := by
  intro f
  cases x <;> rfl

/-- Work in two parts leaves the context alone if both do. -/
theorem Quiet.bind {w : InPlace α} {next : α → InPlace β} (h : Quiet w)
    (hnext : ∀ a, Quiet (next a)) : Quiet (w >>= next) := by
  intro f
  have hf := h f
  simp only [Bind.bind, EStateM.bind]
  cases heq : w f with
  | error fault f' => simpa only [heq] using hf
  | ok a f' =>
    rw [heq] at hf
    have hf' := hnext a f'
    rw [hf] at hf'
    exact hf'

/-- The context may be touched by the last part only. -/
theorem Quiet.bind_careful {w : InPlace α} {next : α → InPlace β} (h : Quiet w)
    (hnext : ∀ a, Careful (next a)) : Careful (w >>= next) := by
  intro f
  have hf := h f
  simp only [Bind.bind, EStateM.bind]
  cases heq : w f with
  | error fault f' => simpa only [heq] using hf
  | ok a f' =>
    rw [heq] at hf
    have hf' := hnext a f'
    rw [hf] at hf'
    exact hf'

/-- Taking an operand leaves the context alone. -/
theorem quiet_take : Quiet take := by
  intro f
  unfold take
  cases f.stack.back? <;> rfl

/-- Looking at an operand leaves the context alone. -/
theorem quiet_top : Quiet top := by
  intro f
  unfold top
  cases f.stack.back? <;> rfl

/-- Taking a text leaves the context alone. -/
theorem quiet_takeText (use : Use) : Quiet (takeText use) :=
  quiet_take.bind fun _ => quiet_liftExcept _

/-- Taking arguments leaves the context alone. -/
theorem quiet_takeArguments (taken : List (String × Value)) (count : ℕ) :
    Quiet (takeArguments taken count) := by
  induction count generalizing taken with
  | zero => exact quiet_pure taken
  | succ count ih =>
    exact quiet_take.bind fun v => (quiet_takeText _).bind fun name => ih ((name, v) :: taken)

/-- Putting a value on the stack leaves the context alone. -/
theorem quiet_put (i : Invocation) (v : Value) : Quiet (put i v) := by
  intro f
  unfold put
  by_cases h : i.limits.stackSize ≤ i.base + f.stack.size
  · rw [if_pos h]
  · rw [if_neg h]

/-- Taking an event leaves the context alone. -/
theorem quiet_takeEvent (i : Invocation) (index flags argc : UInt8) :
    Quiet (takeEvent i index flags argc) := by
  refine (quiet_liftExcept _).bind fun name => (quiet_takeArguments _ _).bind fun entries => ?_
  split
  · exact (quiet_takeText _).bind fun target => quiet_pure _
  · exact quiet_pure _

/-- The last part of most instructions. -/
theorem quiet_put_forward (i : Invocation) (v : Value) (distance : ℕ) :
    Quiet (do put i v; return Flow.forward distance) :=
  (quiet_put i v).bind fun _ => quiet_pure _

/-- Only assigning and changing the state touch the context. -/
theorem quiet_work (i : Invocation) {x : Instruction} (hassign : ∀ index, x ≠ .setVariable index)
    (hchange : ∀ index, x ≠ .changeState index) : Quiet (work i x) := by
  cases x with
  | constant index => exact (quiet_liftExcept _).bind fun v => quiet_put_forward i v 0
  | binary op =>
    exact quiet_take.bind fun right => quiet_take.bind fun left =>
      (quiet_liftExcept _).bind fun v => quiet_put_forward i v 0
  | negate =>
    exact quiet_take.bind fun v => (quiet_liftExcept _).bind fun v => quiet_put_forward i v 0
  | not =>
    exact quiet_take.bind fun v => (quiet_liftExcept _).bind fun b => quiet_put_forward i _ 0
  | getVariable index =>
    have hread (name : String) : Quiet (read name) := fun _ => rfl
    exact (quiet_liftExcept _).bind fun name => (hread name).bind fun v =>
      quiet_put_forward i v 0
  | getComponent index =>
    exact (quiet_liftExcept _).bind fun name => quiet_take.bind fun v =>
      (quiet_liftExcept _).bind fun v => quiet_put_forward i v 0
  | pop => exact quiet_take.bind fun _ => quiet_pure _
  | fireEvent index flags argc =>
    exact (quiet_takeEvent i index flags argc).bind fun event => quiet_pure _
  | jumpIfFalse distance =>
    exact quiet_top.bind fun v => (quiet_liftExcept _).bind fun b => quiet_pure _
  | jump distance | ret => exact quiet_pure _
  | setVariable index => exact absurd rfl (hassign index)
  | changeState index => exact absurd rfl (hchange index)

/-- An instruction that faults leaves the context alone. -/
theorem work_careful (i : Invocation) (x : Instruction) : Careful (work i x) := by
  cases x with
  | setVariable index =>
    exact (quiet_liftExcept _).bind_careful fun name => quiet_top.bind_careful fun v f =>
      .assigned name v
  | changeState index =>
    refine (quiet_liftExcept _).bind_careful fun state f => ?_
    simp only [bind, EStateM.bind, enter, Context.changeState]
    by_cases hknown : f.context.definition.script.hasState state = true
    · simp only [if_pos hknown]
      exact .changed hknown
    · simp only [if_neg hknown]
  | _ => exact (quiet_work i (fun _ h => by cases h) fun _ h => by cases h).careful

/-- Work that leaves the context alone answers with the same context. -/
theorem Quiet.same {w : InPlace α} {f f' : Frame} {a : α} (h : Quiet w)
    (hw : outcome w f = .ok (a, f')) : f'.context = f.context := by
  have hf := h f
  unfold outcome at hw
  split at hw
  · rename_i heq
    rw [heq] at hf
    cases hw
    exact hf
  · cases hw

/-- Whatever is done to the context without a fault is done as an instruction may. -/
theorem Careful.worked {w : InPlace α} {f f' : Frame} {a : α} (h : Careful w)
    (hw : outcome w f = .ok (a, f')) : f.context.Worked f'.context := by
  have hf := h f
  unfold outcome at hw
  split at hw
  · rename_i heq
    rw [heq] at hf
    cases hw
    exact hf
  · cases hw

end InPlace

namespace Invocation

variable {i : Invocation} {f f' : Frame} {x : Instruction} {flow : Flow}

/-- What performing an instruction does to the context. -/
theorem perform_worked (h : i.perform f x = .ok (flow, f')) : f.context.Worked f'.context :=
  (InPlace.work_careful i x).worked ((InPlace.outcome_work i f x).trans h)

/-- Firing an event and ending a handler leave the context alone. -/
theorem perform_same (h : i.perform f x = .ok (flow, f')) (hflow : ∀ d, flow ≠ .forward d) :
    f'.context = f.context := by
  have hw := (InPlace.outcome_work i f x).trans h
  cases x with
  | setVariable index =>
    simp only [perform, bind, Except.bind] at h
    split at h <;> try cases h
    split at h <;> cases h
    exact absurd rfl (hflow 0)
  | changeState index =>
    simp only [perform, bind, Except.bind] at h
    split at h <;> try cases h
    split at h <;> cases h
    exact absurd rfl (hflow 0)
  | _ => exact (InPlace.quiet_work i (fun _ h => by cases h) fun _ h => by cases h).same hw

end Invocation

end EntityScript
