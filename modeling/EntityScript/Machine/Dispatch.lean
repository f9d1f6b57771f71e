import EntityScript.Machine.Host
import EntityScript.Machine.Perform
import EntityScript.Machine.Report

/-!
# Running handlers

A handler runs its instructions until it returns, runs off the end of its code, or faults. Jumps
lead forward only, so every handler ends: `execute` goes by the code that is left. An event with
a target is handled on the spot, depth first, by the entity it is meant for; the depth that is
still allowed makes the nesting end as well.

The fault of a nested handler stays with it. It is noted, and the handler that fired the event
goes on. `dispatch` and `runChunk` answer the fault of the outermost handler, and the machine
keeps the noted ones until they are asked for; nothing else is left over from one run to the
next.
-/

namespace EntityScript

/-- Whether an event was handled. -/
inductive DispatchOutcome where
  /-- A handler ran to its end. -/
  | handled
  /-- The state of the entity has no handler for the event. -/
  | noHandler
  deriving DecidableEq, Repr

/-- What all handlers of a run share. -/
structure Run (σ : Type) where
  /-- How many instructions were begun. -/
  steps : Nat
  /-- The faults of nested handlers, in the order they happened. -/
  faults : Array FaultReport
  /-- What lies outside the entities that are handling events. -/
  host : σ

/-- What became of a handler, with the context of its entity and what it shares. -/
structure Ended (σ α : Type) where
  result : Except FaultReport α
  context : Context
  run : Run σ

/-- A way to have an event handled by a context, above so many values of the handlers below. -/
abbrev Dispatcher (σ : Type) :=
  (base : Nat) → Context → String → Arguments → Run σ → Ended σ DispatchOutcome

/-- Notes the fault of a nested handler. -/
def Run.note {σ α : Type} (r : Run σ) : Except FaultReport α → Run σ
  | .ok _ => r
  | .error report => { r with faults := r.faults.push report }

namespace Invocation

variable {σ : Type} [Host σ]

/-- Has an event handled by a context, and notes the fault if there is one. -/
def nest (i : Invocation) (dispatch : Dispatcher σ) (event : Event) (stack : Array Value)
    (c : Context) (r : Run σ) : Context × Run σ :=
  let ended := dispatch (i.base + stack.size) c event.name event.args r
  (ended.context, ended.run.note ended.result)

/-- Delivers an event to the entity of a name: to the running entity itself, or to one whose context
the host lends. An entity without a script drops the event. -/
def deliverTo (i : Invocation) (nested : Option (Dispatcher σ)) (event : Event) (target : String)
    (f : Frame) (r : Run σ) : Except Fault Unit × Frame × Run σ :=
  match Host.resolve r.host target with
  | none => (.error (.unresolvedTarget target), f, r)
  | some id =>
    match nested with
    | none => (.error (.dispatchDepthExceeded i.limits.dispatchDepth), f, r)
    | some dispatch =>
      if f.context.owner = some id then
        let (context, r) := i.nest dispatch event f.stack f.context r
        (.ok (), { f with context }, r)
      else
        match Host.take r.host id with
        | (some c, host) =>
          let (c, r) := i.nest dispatch event f.stack c { r with host }
          (.ok (), f, { r with host := Host.giveBack r.host id c })
        | (none, host) =>
          if Host.hasScript host id then
            (.error (.reentrantDispatch target), f, { r with host })
          else (.ok (), f, { r with host })

/-- Delivers an event, to its target or to the host. -/
def deliver (i : Invocation) (nested : Option (Dispatcher σ)) (event : Event) (f : Frame)
    (r : Run σ) : Except Fault Unit × Frame × Run σ :=
  match event.target with
  | none => (.ok (), f, { r with host := Host.fire r.host event.name event.args })
  | some target => i.deliverTo nested event target f r

/-- Begins an instruction, unless there were too many. -/
def beginStep (i : Invocation) (r : Run σ) : Except Fault Unit × Run σ :=
  let r := { r with steps := r.steps + 1 }
  match i.limits.steps with
  | some limit => if limit < r.steps then (.error (.stepLimitExceeded limit), r) else (.ok (), r)
  | none => (.ok (), r)

/-- Runs a handler from an offset on, and answers where it faulted if it did. An instruction that
faults leaves the context as it was before. -/
def execute (i : Invocation) (nested : Option (Dispatcher σ)) (offset : Nat) (f : Frame)
    (r : Run σ) : Option (Nat × Fault) × Context × Run σ :=
  let before := f.context
  if h : offset < i.chunk.size then
    match i.beginStep r with
    | (.error fault, r) => (some (offset, fault), before, r)
    | (.ok (), r) =>
      match i.chunk.fetch offset h with
      | .truncated _ => (some (offset, .truncatedInstruction), before, r)
      | .unknown byte => (some (offset, .unknownOpcode byte), before, r)
      | .instruction instr =>
        have := instr.size_pos
        match i.perform f instr with
        | .error fault => (some (offset, fault), before, r)
        | .ok (.finish, f) => (none, f.context, r)
        | .ok (.forward distance, f) => i.execute nested (offset + instr.size + distance) f r
        | .ok (.fire event, f) =>
          match i.deliver nested event f r with
          | (.error fault, f, r) => (some (offset, fault), f.context, r)
          | (.ok (), f, r) => i.execute nested (offset + instr.size) f r
  else (none, before, r)
termination_by i.chunk.size - offset

/-- Runs a handler on a context from its first instruction to its end. -/
def run (i : Invocation) (nested : Option (Dispatcher σ)) (c : Context) (r : Run σ) :
    Ended σ Unit :=
  match i.execute nested 0 ⟨#[], c⟩ r with
  | (none, c, r) => ⟨.ok (), c, r⟩
  | (some (offset, fault), c, r) =>
    ⟨.error ⟨i.chunk.name, offset, i.chunk.lineAt offset, fault⟩, c, r⟩

end Invocation

section Dispatch

variable {σ : Type} [Host σ]

/-- Has an event handled by a context. The arguments are bound while the handler runs. -/
def dispatchWith (limits : Limits) (nested : Option (Dispatcher σ)) : Dispatcher σ :=
  fun base c event args r =>
    match c.definition.script.handler? c.state event with
    | none => ⟨.ok .noHandler, c, r⟩
    | some chunk =>
      let before := c.bound
      let ended := Invocation.run ⟨limits, base, chunk⟩ nested (c.bindArguments args) r
      ⟨ended.result.map fun _ => .handled, ended.context.restoreArguments before, ended.run⟩

/-- How nested events are handled while so many more handlers may be active. The handling of events
nested more deeply is not looked at before there is such an event. -/
def nestedDispatcher (limits : Limits) : Nat → Option (Dispatcher σ)
  | 0 => none
  | depth + 1 => some fun base c event args r =>
    dispatchWith limits (nestedDispatcher limits depth) base c event args r

/-- How the events of an outermost handler are handled. -/
def outermostDispatcher (limits : Limits) : Option (Dispatcher σ) :=
  nestedDispatcher limits (limits.dispatchDepth - 1)

end Dispatch

/-- What is kept between runs: the bounds, and the faults of nested handlers not asked for yet. -/
structure Machine where
  /-- The bounds of every run. -/
  limits : Limits
  /-- The faults of nested handlers, in the order they happened. -/
  faults : Array FaultReport
  deriving DecidableEq, Repr

/-- What became of a run, with all that it changed. -/
structure Outcome (σ α : Type) where
  result : Except FaultReport α
  context : Context
  machine : Machine
  host : σ

namespace Machine

variable {σ : Type} [Host σ]

/-- A machine that has not run yet. -/
def new (limits : Limits) : Machine := ⟨limits, #[]⟩

/-- Forgets the faults of nested handlers, and answers them. -/
def takeFaults (m : Machine) : List FaultReport × Machine :=
  (m.faults.toList, { m with faults := #[] })

/-- What an outermost run begins with. -/
def begin (m : Machine) (host : σ) : Run σ := ⟨0, m.faults, host⟩

/-- The machine and host after a run. -/
def finish {α : Type} (m : Machine) (e : Ended σ α) : Outcome σ α :=
  ⟨e.result, e.context, { m with faults := e.run.faults }, e.run.host⟩

/-- Has an event handled by a context. -/
def dispatch (m : Machine) (c : Context) (event : String) (args : Arguments) (host : σ) :
    Outcome σ DispatchOutcome :=
  m.finish (dispatchWith m.limits (outermostDispatcher m.limits) 0 c event args (m.begin host))

/-- Runs code on a context. -/
def runChunk (m : Machine) (chunk : Chunk) (c : Context) (host : σ) : Outcome σ Unit :=
  m.finish (Invocation.run ⟨m.limits, 0, chunk⟩ (outermostDispatcher m.limits) c (m.begin host))

end Machine

/-- Has an event handled once, by a machine with the usual bounds. The faults of nested handlers are
lost. -/
def dispatchOnce {σ : Type} [Host σ] (c : Context) (event : String) (args : Arguments)
    (host : σ) : Outcome σ DispatchOutcome :=
  (Machine.new {}).dispatch c event args host

end EntityScript
