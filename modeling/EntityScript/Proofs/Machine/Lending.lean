import EntityScript.Proofs.Machine.InPlace
import EntityScript.World

/-!
# Lending contexts

What hosts are meant to do with the contexts that they lend: a context that is lent out is gone
until it is given back, and nothing but lending and giving back moves one. `Lender` has these
laws, and worlds keep them.

`Custody` is the account of all contexts while some of them are in hand. Every entity that had a
context before has it in exactly one place, in the host or in hand, and no other entity has one;
the entities whose contexts are lent out are those from before and those whose contexts are in
hand. Each operation of a host keeps the account.
-/

namespace EntityScript

/-- The context of an entity some time later: state and variables may have changed. -/
structure Context.Continues (c c' : Context) : Prop where
  definition : c'.definition = c.definition
  owner : c'.owner = c.owner

namespace Context.Continues

variable {c c' c'' : Context}

/-- A context that is left as it is goes on. -/
theorem refl (c : Context) : c.Continues c := ⟨rfl, rfl⟩

/-- Going on is done in steps. -/
theorem trans (h : c.Continues c') (h' : c'.Continues c'') : c.Continues c'' :=
  ⟨h'.definition.trans h.definition, h'.owner.trans h.owner⟩

/-- A context goes on when an instruction works on it. -/
theorem of_worked (h : c.Worked c') : c.Continues c' := ⟨h.definition, h.owner⟩

/-- A context goes on when arguments are bound. -/
theorem bindArguments (c : Context) (args : Arguments) : c.Continues (c.bindArguments args) :=
  ⟨rfl, rfl⟩

/-- A context goes on when what was bound before is restored. -/
theorem restoreArguments (c : Context) (before : Table String Value) :
    c.Continues (c.restoreArguments before) :=
  ⟨rfl, rfl⟩

end Context.Continues

/-- A host that keeps the contexts of entities and lends them out. -/
class Lender (σ : Type) [Host σ] where
  /-- The context of an entity, unless it has none or it is lent out. -/
  context? : σ → EntityId → Option Context
  /-- Whether the context of an entity is lent out. -/
  isLent : σ → EntityId → Bool
  context?_fire (host : σ) (event : String) (args : Arguments) (id : EntityId) :
    context? (Host.fire host event args) id = context? host id
  isLent_fire (host : σ) (event : String) (args : Arguments) (id : EntityId) :
    isLent (Host.fire host event args) id = isLent host id
  /-- A context that is not there is not lent, and the host stays as it is. -/
  take_of_none {host : σ} {id : EntityId} : context? host id = none →
    Host.take host id = (none, host)
  take_of_some {host : σ} {id : EntityId} {c : Context} : context? host id = some c →
    (Host.take host id).1 = some c
  context?_take {host : σ} {id : EntityId} {c : Context} : context? host id = some c →
    ∀ id', context? (Host.take host id).2 id' = if id' = id then none else context? host id'
  isLent_take {host : σ} {id : EntityId} {c : Context} : context? host id = some c →
    ∀ id', isLent (Host.take host id).2 id' = if id' = id then true else isLent host id'
  /-- Only contexts that were lent out are given back. -/
  context?_giveBack {host : σ} {id : EntityId} : isLent host id = true →
    ∀ c id', context? (Host.giveBack host id c) id' = if id' = id then some c else context? host id'
  isLent_giveBack {host : σ} {id : EntityId} : isLent host id = true →
    ∀ c id', isLent (Host.giveBack host id c) id' = if id' = id then false else isLent host id'
  hasScript_eq (host : σ) (id : EntityId) :
    Host.hasScript host id = ((context? host id).isSome || isLent host id)

open Lender

/-- Inserting adds its key to a table and no other. -/
theorem Table.contains_insert {κ α : Type} [Ord κ] [Std.TransOrd κ] [Std.LawfulEqOrd κ]
    [DecidableEq κ] (t : Table κ α) (k k' : κ) (v : α) :
    (t.insert k v).contains k' = if k' = k then true else t.contains k' := by
  unfold contains
  split
  · rename_i h
    rw [h, get?_insert_self]
    rfl
  · rename_i h
    rw [get?_insert_of_ne t h]

/-- Erasing takes its key from a table and no other. -/
theorem Table.contains_erase {κ α : Type} [Ord κ] [Std.TransOrd κ] [Std.LawfulEqOrd κ]
    [DecidableEq κ] (t : Table κ α) (k k' : κ) :
    (t.erase k).contains k' = if k' = k then false else t.contains k' := by
  unfold contains
  split
  · rename_i h
    rw [h, get?_erase_self]
    rfl
  · rename_i h
    rw [get?_erase_of_ne t h]

/-- A world lends out a context that it holds, and notes it as lent. -/
theorem World.take_of_get? {w : World} {id : EntityId} {c : Context}
    (h : w.contexts.get? id = some c) : Host.take w id
      = (some c, { w with contexts := w.contexts.erase id, lent := w.lent.insert id () }) := by
  change w.take id = _
  rw [take, h]

/-- A world keeps the contexts of its entities in one table, and notes which are lent out. -/
instance : Lender World where
  context? w id := w.contexts.get? id
  isLent w id := w.lent.contains id
  context?_fire _ _ _ _ := rfl
  isLent_fire _ _ _ _ := rfl
  take_of_none {w id} h := by
    change w.take id = _
    rw [World.take, h]
  take_of_some h := by rw [World.take_of_get? h]
  context?_take {w id} _ h id' := by
    rw [World.take_of_get? h]
    split
    · rename_i heq
      rw [heq]
      exact w.contexts.get?_erase_self id
    · rename_i hne
      exact w.contexts.get?_erase_of_ne hne
  isLent_take {w id} _ h id' := by
    rw [World.take_of_get? h]
    exact w.lent.contains_insert id id' ()
  context?_giveBack {w id} _ c id' := by
    split
    · rename_i heq
      rw [heq]
      exact w.contexts.get?_insert_self id c
    · rename_i hne
      exact w.contexts.get?_insert_of_ne hne c
  isLent_giveBack {w id} _ _ id' := w.lent.contains_erase id id'
  hasScript_eq _ _ := rfl

variable {σ : Type} [Host σ] [Lender σ]

namespace Lender

variable {host host' : σ} {id : EntityId} {c : Context}

/-- What is lent was there. -/
theorem here_of_taken (h : Host.take host id = (some c, host')) :
    context? host id = some c := by
  cases hhere : context? host id with
  | none =>
    rw [take_of_none hhere] at h
    cases h
  | some c' => rw [← take_of_some hhere, h]

/-- What is not lent was not there, and the host is left as it is. -/
theorem away_of_refused (h : Host.take host id = (none, host')) :
    context? host id = none ∧ host' = host := by
  cases hhere : context? host id with
  | none =>
    rw [take_of_none hhere] at h
    exact ⟨rfl, (Prod.mk.inj h).2.symm⟩
  | some c =>
    have hsome := take_of_some hhere
    rw [h] at hsome
    cases hsome

end Lender

/-- No context is both in the host and lent out, and every context belongs to its entity or to
none. -/
structure Tidy (w : σ) : Prop where
  apart : ∀ id, (context? w id).isSome → isLent w id = false
  owners : ∀ id c, context? w id = some c → c.owner = none ∨ c.owner = some id

/-- In how many places the context of an entity is. -/
def places (host : σ) (hand : List (EntityId × Context)) (id : EntityId) : ℕ :=
  (context? host id).toList.length + (hand.map Prod.fst).count id

/-- Where all contexts are that were in a host at first: in the host as it is by now, and in
hand. -/
structure Custody (w host : σ) (hand : List (EntityId × Context)) : Prop where
  /-- Every entity that had a context has it in one place, and no other entity has one. -/
  placed : ∀ id, places host hand id = if (context? w id).isSome then 1 else 0
  lent : ∀ id, isLent host id = true ↔ isLent w id = true ∨ id ∈ hand.map Prod.fst
  /-- The contexts are those of the same entities. -/
  continues : ∀ id c, context? host id = some c ∨ (id, c) ∈ hand →
    ∃ c₀, context? w id = some c₀ ∧ c₀.Continues c

namespace Custody

variable {w host : σ} {hand : List (EntityId × Context)} {id : EntityId} {c c' : Context}

/-- At first every context is in the host. -/
theorem refl (w : σ) : Custody w w [] where
  placed id := by
    unfold places
    cases context? w id <;> rfl
  lent id := by simp
  continues id c h := by
    obtain h | h := h
    · exact ⟨c, h, .refl c⟩
    · exact absurd h List.not_mem_nil

/-- A context in hand had been in the host at first, so it had not been lent out. -/
theorem not_lent (h : Custody w host hand) (htidy : Tidy w) (hmem : (id, c) ∈ hand) :
    isLent w id = false := by
  obtain ⟨c₀, hc₀, -⟩ := h.continues id c (.inr hmem)
  exact htidy.apart id (by rw [hc₀]; rfl)

/-- A context in hand is not in the host, and not in hand twice. -/
theorem not_here (h : Custody w host ((id, c) :: hand)) :
    context? host id = none ∧ id ∉ hand.map Prod.fst := by
  have hplaced := h.placed id
  unfold places at hplaced
  rw [List.map_cons, List.count_cons_self] at hplaced
  have hle : (if (context? w id).isSome then 1 else 0) ≤ 1 := by split <;> decide
  have hcount : (hand.map Prod.fst).count id = 0 := by omega
  refine ⟨?_, List.count_eq_zero.1 hcount⟩
  cases hhost : context? host id with
  | none => rfl
  | some c' =>
    rw [hhost] at hplaced
    change 1 + _ = _ at hplaced
    omega

/-- A context in hand belongs to its entity or to none. -/
theorem owner (h : Custody w host hand) (htidy : Tidy w) (hmem : (id, c) ∈ hand) :
    c.owner = none ∨ c.owner = some id := by
  obtain ⟨c₀, hc₀, hcontinues⟩ := h.continues id c (.inr hmem)
  rw [hcontinues.owner]
  exact htidy.owners id c₀ hc₀

/-- A context in hand is worked on. -/
theorem work (h : Custody w host ((id, c) :: hand)) (hc : c.Continues c') :
    Custody w host ((id, c') :: hand) where
  placed := h.placed
  lent := h.lent
  continues id' c'' h' := by
    obtain h' | h' := h'
    · exact h.continues id' c'' (.inl h')
    · obtain heq | hmem := List.mem_cons.1 h'
      · cases heq
        obtain ⟨c₀, hc₀, hcontinues⟩ := h.continues id c (.inr List.mem_cons_self)
        exact ⟨c₀, hc₀, hcontinues.trans hc⟩
      · exact h.continues id' c'' (.inr (List.mem_cons_of_mem _ hmem))

/-- Firing an event leaves every context where it is. -/
theorem fire (h : Custody w host hand) (event : String) (args : Arguments) :
    Custody w (Host.fire host event args) hand where
  placed id := by
    unfold places
    rw [context?_fire]
    exact h.placed id
  lent id := by
    rw [isLent_fire]
    exact h.lent id
  continues id c h' := by
    rw [context?_fire] at h'
    exact h.continues id c h'

/-- A context that is lent comes from the host into hand. -/
theorem take {host' : σ} (h : Custody w host hand)
    (htaken : Host.take host id = (some c, host')) : Custody w host' ((id, c) :: hand) := by
  have hhere := here_of_taken htaken
  have hhost' : host' = (Host.take host id).2 := by rw [htaken]
  have hcontext := context?_take hhere
  have hlent := isLent_take hhere
  rw [← hhost'] at hcontext hlent
  have hplaces (id' : EntityId) : places host' ((id, c) :: hand) id' = places host hand id' := by
    unfold places
    rw [hcontext, List.map_cons]
    by_cases heq : id' = id
    · rw [heq, if_pos rfl, hhere, List.count_cons_self]
      exact (Nat.zero_add _).trans (Nat.add_comm _ 1)
    · rw [if_neg heq, List.count_cons_of_ne (Ne.symm heq)]
  refine ⟨fun id' => (hplaces id').trans (h.placed id'), fun id' => ?_, fun id' c' h' => ?_⟩
  · rw [hlent, List.map_cons, List.mem_cons]
    by_cases heq : id' = id
    · rw [if_pos heq]
      exact iff_of_true rfl (.inr (.inl heq))
    · rw [if_neg heq, h.lent id']
      simp [heq]
  · obtain h' | h' := h'
    · rw [hcontext] at h'
      split at h'
      · cases h'
      · exact h.continues id' c' (.inl h')
    · obtain heq | hmem := List.mem_cons.1 h'
      · cases heq
        exact h.continues id c (.inl hhere)
      · exact h.continues id' c' (.inr hmem)

/-- A context that is given back goes from hand into the host. -/
theorem giveBack (h : Custody w host ((id, c) :: hand)) (htidy : Tidy w) :
    Custody w (Host.giveBack host id c) hand := by
  have hlentHere : isLent host id = true := (h.lent id).2 (.inr List.mem_cons_self)
  have hcontext := context?_giveBack hlentHere c
  have hlent := isLent_giveBack hlentHere c
  obtain ⟨haway, honce⟩ := h.not_here
  have hplaces (id' : EntityId) :
      places (Host.giveBack host id c) hand id' = places host ((id, c) :: hand) id' := by
    unfold places
    rw [hcontext, List.map_cons]
    by_cases heq : id' = id
    · rw [heq, if_pos rfl, haway, List.count_cons_self]
      exact (Nat.add_comm 1 _).trans (Nat.zero_add _).symm
    · rw [if_neg heq, List.count_cons_of_ne (Ne.symm heq)]
  refine ⟨fun id' => (hplaces id').trans (h.placed id'), fun id' => ?_, fun id' c' h' => ?_⟩
  · rw [hlent]
    by_cases heq : id' = id
    · -- It was in the host at first, so nobody else had been lent it, and it was in hand once.
      rw [if_pos heq, heq, h.not_lent htidy List.mem_cons_self]
      exact iff_of_false Bool.false_ne_true fun h' => h'.elim Bool.false_ne_true honce
    · rw [if_neg heq, h.lent id', List.map_cons, List.mem_cons]
      simp [heq]
  · obtain h' | h' := h'
    · rw [hcontext] at h'
      split at h'
      · rename_i heq
        cases h'
        rw [heq]
        exact h.continues id c (.inr List.mem_cons_self)
      · exact h.continues id' c' (.inl h')
    · exact h.continues id' c' (.inr (List.mem_cons_of_mem _ h'))

end Custody

/-- The same entities have contexts as before and the same ones are lent out, and the contexts are
those of the same entities. -/
structure Settled (w host : σ) : Prop where
  present : ∀ id, (context? host id).isSome = (context? w id).isSome
  lent : ∀ id, isLent host id = isLent w id
  continues : ∀ id c, context? host id = some c →
    ∃ c₀, context? w id = some c₀ ∧ c₀.Continues c

namespace Settled

variable {w host host' : σ}

/-- A host as it was is settled. -/
theorem refl (w : σ) : Settled w w := ⟨fun _ => rfl, fun _ => rfl, fun _ c h => ⟨c, h, .refl c⟩⟩

/-- Settling is done in steps. -/
theorem trans (h : Settled w host) (h' : Settled host host') : Settled w host' where
  present id := (h'.present id).trans (h.present id)
  lent id := (h'.lent id).trans (h.lent id)
  continues id c hc := by
    obtain ⟨c', hc', hcontinues'⟩ := h'.continues id c hc
    obtain ⟨c₀, hc₀, hcontinues⟩ := h.continues id c' hc'
    exact ⟨c₀, hc₀, hcontinues.trans hcontinues'⟩

/-- A settled host is tidy if it was tidy before. -/
theorem tidy (h : Settled w host) (htidy : Tidy w) : Tidy host where
  apart id hid := by
    rw [h.lent]
    rw [h.present] at hid
    exact htidy.apart id hid
  owners id c hc := by
    obtain ⟨c₀, hc₀, hcontinues⟩ := h.continues id c hc
    rw [hcontinues.owner]
    exact htidy.owners id c₀ hc₀

/-- With nothing in hand, everything is where it was. -/
theorem of_custody (h : Custody w host []) : Settled w host where
  present id := by
    have hplaced := h.placed id
    unfold places at hplaced
    cases hhost : context? host id <;> cases hw : context? w id
    · rfl
    · simp [hhost, hw] at hplaced
    · simp [hhost, hw] at hplaced
    · rfl
  lent id := Bool.eq_iff_iff.2 ((h.lent id).trans (or_iff_left List.not_mem_nil))
  continues id c hc := h.continues id c (.inl hc)

end Settled

end EntityScript
