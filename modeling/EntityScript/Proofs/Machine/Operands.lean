import EntityScript.Proofs.Machine.InPlace

/-!
# Operands on a common stack

Instructions reach operands in three ways: they take the topmost one, look at it, or put a value on
top. Handlers that are active at once may have a stack each, or share one on which the operands of
each lie above those of its callers. On the common stack a handler must not reach below its base,
and the room that is left is measured by the whole stack.

What an instruction makes of its operands does not depend on any of this, so `Operands.work` is
said once for both. `Alike.work` compares two ways to reach operands: whatever holds between them,
and is kept by doing one thing after another, holds between the instructions that use them. By this
`over_work` shows that an instruction on the common stack does what it does on a stack of its
handler, over the operands that lie below.
-/

namespace EntityScript

/-- How an instruction reaches the operands of its handler. -/
structure Operands where
  /-- Takes the topmost operand. -/
  take : InPlace Value
  /-- The topmost operand. -/
  top : InPlace Value
  /-- Puts a value on top, if there is room for it. -/
  put : Value → InPlace Unit

namespace Operands

/-- The operands of a handler with a stack of its own. -/
def own (i : Invocation) : Operands := ⟨InPlace.take, InPlace.top, InPlace.put i⟩

/-- The operands of a handler on the stack that it shares with all others. -/
def shared (i : Invocation) : Operands where
  take f :=
    if f.stack.size ≤ i.base then .error .stackUnderflow f
    else
      match f.stack.back? with
      | some v => .ok v { f with stack := f.stack.pop }
      | none => .error .stackUnderflow f
  top f :=
    if f.stack.size ≤ i.base then .error .stackUnderflow f
    else
      match f.stack.back? with
      | some v => .ok v f
      | none => .error .stackUnderflow f
  put v f :=
    if i.limits.stackSize ≤ f.stack.size then .error (.stackOverflow i.limits.stackSize) f
    else .ok () { f with stack := f.stack.push v }

variable (o : Operands)

/-- Takes a text that is wanted for some use. -/
def takeText (use : Use) : InPlace String := do
  let v ← o.take
  liftExcept (v.textFor use)

/-- Takes the arguments of an event one after another. -/
def takeArguments (taken : List (String × Value)) : ℕ → InPlace (List (String × Value))
  | 0 => pure taken
  | count + 1 => do
    let v ← o.take
    let name ← o.takeText .argumentName
    takeArguments ((name, v) :: taken) count

/-- Takes an event off the stack. -/
def takeEvent (i : Invocation) (index flags argc : UInt8) : InPlace Event := do
  let name ← liftExcept (i.name index)
  let entries ← o.takeArguments [] argc.toNat
  if Instruction.isTargeted flags then
    let target ← o.takeText .targetName
    return ⟨name, some target, .ofList entries⟩
  else return ⟨name, none, .ofList entries⟩

/-- Works off an instruction, apart from delivering an event. -/
def work (i : Invocation) : Instruction → InPlace Flow
  | .constant index => do
    o.put (← liftExcept (i.constant index))
    return .forward 0
  | .binary op => do
    let right ← o.take
    let left ← o.take
    o.put (← liftExcept (op.apply left right))
    return .forward 0
  | .negate => do
    let v ← o.take
    o.put (← liftExcept v.negate)
    return .forward 0
  | .not => do
    let v ← o.take
    let b ← liftExcept (v.truth .complement)
    o.put (.bool !b)
    return .forward 0
  | .getVariable index => do
    let name ← liftExcept (i.name index)
    o.put (← InPlace.read name)
    return .forward 0
  | .setVariable index => do
    let name ← liftExcept (i.name index)
    InPlace.assign name (← o.top)
    return .forward 0
  | .getComponent index => do
    let name ← liftExcept (i.name index)
    let v ← o.take
    o.put (← liftExcept (v.component name))
    return .forward 0
  | .pop => do
    let _ ← o.take
    return .forward 0
  | .fireEvent index flags argc => return .fire (← o.takeEvent i index flags argc)
  | .changeState index => do
    InPlace.enter (← liftExcept (i.name index))
    return .forward 0
  | .jump distance => return .forward distance.toNat
  | .jumpIfFalse distance => do
    let v ← o.top
    let b ← liftExcept (v.truth .condition)
    return .forward (if b then 0 else distance.toNat)
  | .ret => return .finish

variable {o} {o' : Operands}

/-- Arguments are taken from a stack of one's own as from a frame. -/
theorem takeArguments_own (i : Invocation) (taken : List (String × Value)) (count : ℕ) :
    (own i).takeArguments taken count = InPlace.takeArguments taken count := by
  induction count generalizing taken with
  | zero => rfl
  | succ count ih =>
    rw [takeArguments, InPlace.takeArguments]
    simp only [ih]
    rfl

/-- On a stack of its own an instruction works as it does in place. -/
theorem work_own (i : Invocation) (x : Instruction) : (own i).work i x = InPlace.work i x := by
  cases x with
  | fireEvent index flags argc =>
    simp only [work, InPlace.work, takeEvent, InPlace.takeEvent, takeArguments_own]
    rfl
  | _ => rfl

/-- Two ways to reach operands are alike, in a sense that also fits what does not touch operands and
is kept by doing one thing after another. -/
structure Alike (R : ∀ {α : Type}, InPlace α → InPlace α → Prop) (o o' : Operands) : Prop where
  done {α : Type} (a : α) : R (pure a : InPlace α) (pure a)
  lift {α : Type} (x : Except Fault α) : R (liftExcept x : InPlace α) (liftExcept x)
  bind {α β : Type} {w w' : InPlace α} {next next' : α → InPlace β} (first : R w w')
    (rest : ∀ a, R (next a) (next' a)) : R (w >>= next) (w' >>= next')
  read (name : String) : R (InPlace.read name) (InPlace.read name)
  assign (name : String) (v : Value) : R (InPlace.assign name v) (InPlace.assign name v)
  enter (state : String) : R (InPlace.enter state) (InPlace.enter state)
  take : R o.take o'.take
  top : R o.top o'.top
  put (v : Value) : R (o.put v) (o'.put v)

namespace Alike

variable {R : ∀ {α : Type}, InPlace α → InPlace α → Prop}

/-- A text is taken alike where operands are reached alike. -/
theorem takeText (h : Alike R o o') (use : Use) : R (o.takeText use) (o'.takeText use) :=
  h.bind h.take fun _ => h.lift _

/-- Arguments are taken alike where operands are reached alike. -/
theorem takeArguments (h : Alike R o o') (taken : List (String × Value)) (count : ℕ) :
    R (o.takeArguments taken count) (o'.takeArguments taken count) := by
  induction count generalizing taken with
  | zero => exact h.done taken
  | succ count ih =>
    exact h.bind h.take fun v => h.bind (h.takeText _) fun name => ih ((name, v) :: taken)

/-- The last part of most instructions. -/
theorem put_forward (h : Alike R o o') (v : Value) (distance : ℕ) :
    R (do o.put v; return Flow.forward distance) (do o'.put v; return Flow.forward distance) :=
  h.bind (h.put v) fun _ => h.done _

section Code

variable {i i' : Invocation} (h : Alike R o o') (hchunk : i'.chunk = i.chunk)

include h hchunk

/-- A constant is found alike where the code is the same. -/
theorem constant (index : UInt8) :
    R (liftExcept (i.constant index)) (liftExcept (i'.constant index)) := by
  have hconstant : i'.constant index = i.constant index := by
    unfold Invocation.constant
    rw [hchunk]
  rw [hconstant]
  exact h.lift _

/-- A name is found alike where the code is the same. -/
theorem name (index : UInt8) : R (liftExcept (i.name index)) (liftExcept (i'.name index)) := by
  have hname : i'.name index = i.name index := by
    unfold Invocation.name Invocation.constant
    rw [hchunk]
  rw [hname]
  exact h.lift _

/-- An event is taken alike where operands are reached alike. -/
theorem takeEvent (index flags argc : UInt8) :
    R (o.takeEvent i index flags argc) (o'.takeEvent i' index flags argc) := by
  apply h.bind (h.name hchunk index)
  intro name
  apply h.bind (h.takeArguments [] _)
  intro entries
  split
  · exact h.bind (h.takeText _) fun target => h.done _
  · exact h.done _

/-- Instructions of the same code do alike what they do to operands. -/
theorem work (x : Instruction) : R (o.work i x) (o'.work i' x) := by
  cases x with
  | constant index => exact h.bind (h.constant hchunk index) fun v => h.put_forward v 0
  | binary op =>
    exact h.bind h.take fun right => h.bind h.take fun left => h.bind (h.lift _) fun v =>
      h.put_forward v 0
  | negate => exact h.bind h.take fun v => h.bind (h.lift _) fun v => h.put_forward v 0
  | not => exact h.bind h.take fun v => h.bind (h.lift _) fun b => h.put_forward _ 0
  | getVariable index =>
    exact h.bind (h.name hchunk index) fun name => h.bind (h.read name) fun v =>
      h.put_forward v 0
  | setVariable index =>
    exact h.bind (h.name hchunk index) fun name => h.bind h.top fun v =>
      h.bind (h.assign name v) fun _ => h.done _
  | getComponent index =>
    exact h.bind (h.name hchunk index) fun name => h.bind h.take fun v =>
      h.bind (h.lift _) fun v => h.put_forward v 0
  | pop => exact h.bind h.take fun _ => h.done _
  | fireEvent index flags argc =>
    exact h.bind (h.takeEvent hchunk index flags argc) fun event => h.done _
  | changeState index =>
    exact h.bind (h.name hchunk index) fun state => h.bind (h.enter state) fun _ => h.done _
  | jump distance => exact h.done _
  | jumpIfFalse distance => exact h.bind h.top fun v => h.bind (h.lift _) fun b => h.done _
  | ret => exact h.done _

end Code

end Alike

end Operands

/-- A frame on top of other operands. -/
def Frame.over (f : Frame) (below : Array Value) : Frame := ⟨below ++ f.stack, f.context⟩

namespace InPlace

variable {α : Type}

/-- What some work comes to, on top of other operands. -/
def raise (below : Array Value) : EStateM.Result Fault Frame α → EStateM.Result Fault Frame α
  | .ok a f => .ok a (f.over below)
  | .error fault f => .error fault (f.over below)

/-- The second work does on top of other operands what the first does without them. -/
def Over (below : Array Value) {α : Type} (w w' : InPlace α) : Prop :=
  ∀ f : Frame, w' (f.over below) = raise below (w f)

variable {below : Array Value} {i : Invocation}

/-- Taking an operand does not reach below the base of the handler. -/
theorem over_take (h : i.base = below.size) : Over below take (Operands.shared i).take := by
  intro f
  unfold Operands.shared take Frame.over
  dsimp only
  rw [h, Array.size_append]
  obtain ⟨⟨stack⟩, c⟩ := f
  obtain rfl | ⟨rest, v, rfl⟩ := stack.eq_nil_or_concat
  · simp [raise, Frame.over]
  · simp [raise, Frame.over]

/-- Looking at an operand does not reach below the base of the handler. -/
theorem over_top (h : i.base = below.size) : Over below top (Operands.shared i).top := by
  intro f
  unfold Operands.shared top Frame.over
  dsimp only
  rw [h, Array.size_append]
  obtain ⟨⟨stack⟩, c⟩ := f
  obtain rfl | ⟨rest, v, rfl⟩ := stack.eq_nil_or_concat
  · simp [raise, Frame.over]
  · simp [raise, Frame.over]

/-- A value is put on top of other operands as on a stack of its own, in the room that they leave.
-/
theorem over_put (h : i.base = below.size) (v : Value) :
    Over below (put i v) ((Operands.shared i).put v) := by
  intro f
  unfold Operands.shared put Frame.over
  dsimp only
  rw [Array.size_append, h]
  by_cases hfull : i.limits.stackSize ≤ below.size + f.stack.size
  · rw [if_pos hfull, if_pos hfull]
    rfl
  · rw [if_neg hfull, if_neg hfull, ← Array.append_push]
    rfl

/-- The operands of a handler lie on top of all others as on a stack of its own. -/
theorem alike_over (h : i.base = below.size) :
    (Operands.own i).Alike (Over below) (Operands.shared i) where
  done a f := rfl
  lift x f := by cases x <;> rfl
  bind {α β w w' next next'} first rest f := by
    simp only [bind, EStateM.bind]
    rw [first f]
    cases w f with
    | ok a f' => exact rest a f'
    | error fault f' => rfl
  read name f := rfl
  assign name v f := rfl
  enter state f := by
    unfold enter Frame.over
    dsimp only
    cases f.context.changeState state <;> rfl
  take := over_take h
  top := over_top h
  put := over_put h

/-- On the common stack an instruction does what it does on a stack of its handler, and leaves the
operands alone that lie below. -/
theorem over_work (h : i.base = below.size) (x : Instruction) :
    Over below (work i x) ((Operands.shared i).work i x) := by
  rw [← Operands.work_own]
  exact (alike_over h).work rfl x

end InPlace

end EntityScript
