import EntityScript.Machine.Host

/-!
# The host of the command line

A host with one entity that knows itself by the name of its script. Events fired for everyone are
printed.
-/

namespace EntityScript.Console

/-- The only entity. -/
def entity : EntityId := 1

/-- A host with one entity. -/
structure SoleHost where
  /-- The name of the entity. -/
  name : String
  /-- Its context, unless that is lent out. -/
  context : Option Context
  /-- What was printed so far. -/
  printed : String

/-- The line that shows an event. -/
def eventLine (event : String) (args : Arguments) : String :=
  let shown := args.entries.map fun (k, v) => k ++ "=" ++ v.text
  if shown.isEmpty then "FireEvent " ++ event ++ "\n"
  else "FireEvent " ++ event ++ "(" ++ ", ".intercalate shown ++ ")\n"

/-- The host of the console keeps the one context, and prints what is fired. -/
instance : Host SoleHost where
  fire h event args := { h with printed := h.printed ++ eventLine event args }
  resolve h name := if name = h.name then some entity else none
  take h id := if id = entity then (h.context, { h with context := none }) else (none, h)
  giveBack h id c := if id = entity then { h with context := some c } else h
  hasScript _ id := id = entity

end EntityScript.Console
