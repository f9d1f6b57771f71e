import EntityScript.Machine.Context

/-!
# Hosts

What a handler reaches outside its own entity. A host takes the events fired without a target,
knows entities by name, and lends out their contexts: while a context is lent, its entity handles
an event and cannot be lent a second time.
-/

namespace EntityScript

/-- The operations of a host whose state is a `σ`. -/
class Host (σ : Type) where
  /-- Takes an event without a target. -/
  fire : σ → String → Arguments → σ
  /-- The entity of a name. -/
  resolve : σ → String → Option EntityId
  /-- Lends out the context of an entity, if the entity has one and it is not lent already. -/
  take : σ → EntityId → Option Context × σ
  /-- Takes a lent context back. -/
  giveBack : σ → EntityId → Context → σ
  /-- Whether an entity has a context, lent out or not. -/
  hasScript : σ → EntityId → Bool

/-- A host without entities that drops every event. -/
structure EmptyHost where
  deriving DecidableEq, Repr, Inhabited

/-- The host without entities lends no context. -/
instance : Host EmptyHost where
  fire h _ _ := h
  resolve _ _ := none
  take h _ := (none, h)
  giveBack h _ _ := h
  hasScript _ _ := false

end EntityScript
