import EntityScript.Bytecode.Chunk
import EntityScript.Machine.Apply
import EntityScript.Machine.Context

/-!
# Performing one instruction

What an instruction does to its own frame: the operand stack of the running handler and the
context of its entity. An instruction either faults and changes nothing, or answers the changed
frame and how to go on. Firing an event is prepared here, which takes its name, target and
arguments off the stack; delivering it needs a host and is left to the caller.
-/

namespace EntityScript

/-- The bounds of a run. -/
structure Limits where
  /-- How many handlers may be active at once, the outermost one among them. -/
  dispatchDepth : Nat := 64
  /-- How many values all operand stacks together may hold. -/
  stackSize : Nat := 1024
  /-- How many instructions an outermost handler may take, with all that it causes. -/
  steps : Option Nat := none
  deriving DecidableEq, Repr, Inhabited

/-- What stays the same while a handler runs. -/
structure Invocation where
  /-- The bounds of the run. -/
  limits : Limits
  /-- How many values lie on the operand stacks of the handlers below. -/
  base : Nat
  /-- The code of the handler. -/
  chunk : Chunk

/-- What the instructions of a handler work on. -/
structure Frame where
  /-- The operands of the handler, the topmost last. -/
  stack : Array Value
  /-- The entity that handles the event. -/
  context : Context

/-- An event on its way. -/
structure Event where
  name : String
  /-- The name of the entity it is meant for, if it is meant for one. -/
  target : Option String
  args : Arguments

/-- How to go on after an instruction. -/
inductive Flow where
  /-- So many bytes behind the instruction. -/
  | forward (distance : Nat)
  /-- Behind the instruction, once an event is delivered. -/
  | fire (event : Event)
  /-- Not at all. -/
  | finish

namespace Frame

/-- Takes the topmost operand. -/
def pop (f : Frame) : Except Fault (Value × Frame) :=
  match f.stack.back? with
  | some v => .ok (v, { f with stack := f.stack.pop })
  | none => .error .stackUnderflow

/-- The topmost operand. -/
def top (f : Frame) : Except Fault Value :=
  match f.stack.back? with
  | some v => .ok v
  | none => .error .stackUnderflow

/-- Takes a text that is wanted for some use. -/
def popText (f : Frame) (use : Use) : Except Fault (String × Frame) := do
  let (v, f) ← f.pop
  let s ← v.textFor use
  pure (s, f)

/-- Takes the arguments of an event, each a name with a value above it, and puts them before those
taken already. -/
def popArguments (f : Frame) (taken : List (String × Value)) :
    Nat → Except Fault (List (String × Value) × Frame)
  | 0 => pure (taken, f)
  | count + 1 => do
    let (v, f) ← f.pop
    let (name, f) ← f.popText .argumentName
    f.popArguments ((name, v) :: taken) count

end Frame

namespace Invocation

/-- Puts a value on the stack, if there is room for it. -/
def push (i : Invocation) (f : Frame) (v : Value) : Except Fault Frame :=
  if i.limits.stackSize ≤ i.base + f.stack.size then .error (.stackOverflow i.limits.stackSize)
  else .ok { f with stack := f.stack.push v }

/-- The constant under an index. -/
def constant (i : Invocation) (index : UInt8) : Except Fault Value :=
  match i.chunk.constant? index with
  | some v => .ok v
  | none => .error (.badConstant index)

/-- The name under an index. -/
def name (i : Invocation) (index : UInt8) : Except Fault String := do
  match (← i.constant index).string? with
  | some s => pure s
  | none => throw (.badConstant index)

/-- Takes an event off the stack: its arguments, and below them its target if it has one. Of two
arguments with one name the later counts. -/
def popEvent (i : Invocation) (f : Frame) (index flags argc : UInt8) :
    Except Fault (Event × Frame) := do
  let name ← i.name index
  let (entries, f) ← f.popArguments [] argc.toNat
  let args := Table.ofList entries
  if Instruction.isTargeted flags then
    let (target, f) ← f.popText .targetName
    pure (⟨name, some target, args⟩, f)
  else pure (⟨name, none, args⟩, f)

/-- Performs an instruction, apart from delivering an event. -/
def perform (i : Invocation) (f : Frame) : Instruction → Except Fault (Flow × Frame)
  | .constant index => do
    let v ← i.constant index
    return (.forward 0, ← i.push f v)
  | .binary op => do
    let (right, f) ← f.pop
    let (left, f) ← f.pop
    let v ← op.apply left right
    return (.forward 0, ← i.push f v)
  | .negate => do
    let (v, f) ← f.pop
    let v ← v.negate
    return (.forward 0, ← i.push f v)
  | .not => do
    let (v, f) ← f.pop
    let b ← v.truth .complement
    return (.forward 0, ← i.push f (.bool !b))
  | .getVariable index => do
    let name ← i.name index
    return (.forward 0, ← i.push f (f.context.read name))
  | .setVariable index => do
    let name ← i.name index
    let v ← f.top
    return (.forward 0, { f with context := f.context.set name v })
  | .getComponent index => do
    let name ← i.name index
    let (v, f) ← f.pop
    let v ← v.component name
    return (.forward 0, ← i.push f v)
  | .pop => do
    let (_, f) ← f.pop
    return (.forward 0, f)
  | .fireEvent index flags argc => do
    let (event, f) ← i.popEvent f index flags argc
    return (.fire event, f)
  | .changeState index => do
    let state ← i.name index
    let context ← f.context.changeState state
    return (.forward 0, { f with context })
  | .jump distance => return (.forward distance.toNat, f)
  | .jumpIfFalse distance => do
    let v ← f.top
    let b ← v.truth .condition
    return (.forward (if b then 0 else distance.toNat), f)
  | .ret => return (.finish, f)

end Invocation

end EntityScript
