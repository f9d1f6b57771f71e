import EntityScript.Machine.Dispatch

/-!
# Queues of events

Events that arrive while a host is busy are queued and handled in the order they arrived. A fault
ends only its own handler; the next event is handled all the same. Draining answers all faults in
the order they happened, nested ones included.
-/

namespace EntityScript

/-- An event waiting for an entity. -/
structure QueuedEvent where
  target : EntityId
  event : String
  args : Arguments
  deriving DecidableEq

/-- Events in the order they arrived. -/
structure EventQueue where
  events : Array QueuedEvent
  deriving DecidableEq

/-- A machine, a host, and the faults answered so far. -/
structure Drained (σ : Type) where
  faults : Array FaultReport
  machine : Machine
  host : σ

namespace EventQueue

/-- The queue without events. -/
def empty : EventQueue := ⟨#[]⟩

/-- How many events wait. -/
def size (q : EventQueue) : Nat := q.events.size

/-- Whether no event waits. -/
def isEmpty (q : EventQueue) : Bool := q.events.isEmpty

/-- Adds an event behind those that wait. -/
def push (q : EventQueue) (target : EntityId) (event : String) (args : Arguments) : EventQueue :=
  ⟨q.events.push ⟨target, event, args⟩⟩

variable {σ : Type} [Host σ]

/-- Handles one event, or drops it if the host has no context for it. -/
def handle (d : Drained σ) (e : QueuedEvent) : Drained σ :=
  match Host.take d.host e.target with
  | (none, host) => { d with host }
  | (some c, host) =>
    let outcome := d.machine.dispatch c e.event e.args host
    let (nested, machine) := outcome.machine.takeFaults
    let faults := d.faults ++ nested
    { machine
      host := Host.giveBack outcome.host e.target outcome.context
      faults := match outcome.result with
        | .ok _ => faults
        | .error report => faults.push report }

/-- Handles all events that wait, oldest first, and answers what is left of the queue: nothing. -/
def drain (q : EventQueue) (m : Machine) (host : σ) : Drained σ × EventQueue :=
  (q.events.foldl handle ⟨#[], m, host⟩, .empty)

end EventQueue

end EntityScript
