import EntityScript.Machine.Host

/-!
# Worlds

A host that holds all its entities itself: their names, their contexts, and the events they fired
for everyone. The context of an entity is either here or lent out, never both.
-/

namespace EntityScript

/-- A host that holds its entities. -/
structure World where
  /-- The entities by name. Of two entities with one name the later has it. -/
  names : Table String EntityId
  /-- The contexts that are not lent out. -/
  contexts : Table EntityId Context
  /-- The entities whose contexts are lent out. -/
  lent : Table EntityId Unit
  /-- The events fired without a target, in the order they were fired. -/
  fired : Array (String × Arguments)
  /-- How many entities there are. Their numbers count from 1. -/
  population : Nat

namespace World

/-- The world without entities. -/
def empty : World := ⟨.empty, .empty, .empty, #[], 0⟩

/-- Adds an entity, and answers its number. -/
def spawn (w : World) (name : String) : EntityId × World :=
  let id := w.population + 1
  (id, { w with names := w.names.insert name id, population := id })

/-- Adds an entity with a context that may depend on its number. -/
def spawnWith (w : World) (name : String) (context : EntityId → Context) : EntityId × World :=
  let (id, w) := w.spawn name
  (id, { w with contexts := w.contexts.insert id (context id) })

/-- Takes an event without a target. -/
def fire (w : World) (event : String) (args : Arguments) : World :=
  { w with fired := w.fired.push (event, args) }

/-- Lends out the context of an entity. -/
def take (w : World) (id : EntityId) : Option Context × World :=
  match w.contexts.get? id with
  | none => (none, w)
  | some c => (some c, { w with contexts := w.contexts.erase id, lent := w.lent.insert id () })

/-- Takes a lent context back. -/
def giveBack (w : World) (id : EntityId) (c : Context) : World :=
  { w with contexts := w.contexts.insert id c, lent := w.lent.erase id }

/-- Whether an entity has a context, lent out or not. -/
def hasScript (w : World) (id : EntityId) : Bool := w.contexts.contains id || w.lent.contains id

/-- A world lends out the contexts of its entities, one at a time to each. -/
instance : Host World where
  fire := fire
  resolve w name := w.names.get? name
  take := take
  giveBack := giveBack
  hasScript := hasScript

/-- Works on the context of an entity while it is lent out, and takes it back. No answer means that
there is none to lend. -/
def borrow {α : Type} (w : World) (id : EntityId) (work : Context → World → α × Context × World) :
    Option α × World :=
  match w.take id with
  | (none, w) => (none, w)
  | (some c, w) =>
    let (a, c, w) := work c w
    (some a, w.giveBack id c)

/-- The events fired without a target so far; the world forgets them. -/
def takeFired (w : World) : List (String × Arguments) × World :=
  (w.fired.toList, { w with fired := #[] })

end World

end EntityScript
