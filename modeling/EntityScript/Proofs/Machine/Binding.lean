import EntityScript.Machine.Context
import EntityScript.Proofs.Table

/-!
# Binding arguments

What happens to the variables of a context when the arguments of an event are bound and when those
bound before come back. Variables fall into two kinds by their names, and each operation touches
one kind only: `get?_rebindArguments` says so of any entries with reserved names, and the rest
follows. In particular `bound_restoreArguments` says that what is restored is bound again exactly,
whatever was bound or assigned in the meantime.
-/

namespace EntityScript

namespace Arguments

/-- Two arguments are never bound under the same name. -/
theorem reservedName_injective {a b : String} (h : reservedName a = reservedName b) : a = b := by
  have hlist := congrArg String.toList h
  unfold reservedName at hlist
  rw [String.toList_append, String.toList_append] at hlist
  exact String.toList_inj.1 (List.append_cancel_left hlist)

/-- The variables of different arguments are different. -/
theorem pairwise_bindings (args : Arguments) : args.bindings.Pairwise fun a b => a.1 ≠ b.1 := by
  refine List.pairwise_map.2 ((Table.pairwise_ne_of_ascending args.ascending).imp ?_)
  intro a b hne heq
  exact hne (reservedName_injective heq)

/-- The arguments of an event are bound under their reserved names, and nothing else is. -/
theorem mem_bindings_iff {args : Arguments} {x : String} {v : Value} :
    (x, v) ∈ args.bindings ↔
      ∃ name, x = reservedName name ∧ args.get? name = some v := by
  unfold bindings
  rw [List.mem_map]
  constructor
  · rintro ⟨⟨name, v'⟩, hmem, heq⟩
    cases heq
    exact ⟨name, rfl, Table.mem_entries_iff.1 hmem⟩
  · rintro ⟨name, rfl, hget⟩
    exact ⟨(name, v), Table.mem_entries_iff.2 hget, rfl⟩

end Arguments

namespace Context

/-- Variables with a name that is not reserved are the same in two contexts. -/
def SameApart (c c' : Context) : Prop :=
  ∀ x, Arguments.isReserved x = false → c'.get? x = c.get? x

/-- A context that is left as it is has all its variables. -/
theorem SameApart.refl (c : Context) : c.SameApart c := fun _ _ => rfl

/-- Binding touches reserved names only, and of these nothing is left of what was bound before. -/
theorem get?_rebindArguments (c : Context) {entries : List (String × Value)}
    (hdistinct : entries.Pairwise fun a b => a.1 ≠ b.1)
    (hreserved : ∀ e ∈ entries, Arguments.isReserved e.1 = true) (x : String) :
    (c.rebindArguments entries).get? x =
      if Arguments.isReserved x then Table.find x entries else c.get? x := by
  unfold rebindArguments get?
  dsimp only
  rw [Table.get?_insertAll hdistinct, Table.get?_filter]
  by_cases hx : Arguments.isReserved x = true
  · simp [hx]
  · have hnone : Table.find x entries = none := by
      by_contra hsome
      obtain ⟨v, hv⟩ := Option.ne_none_iff_exists'.1 hsome
      exact hx (hreserved _ (Table.mem_of_find hv))
    simp [hx, hnone]

/-- What is bound in a context are its variables with reserved names. -/
theorem get?_bound (c : Context) (x : String) :
    c.bound.get? x = if Arguments.isReserved x then c.get? x else none :=
  Table.get?_filter c.bindings Arguments.isReserved x

/-- Only reserved names are bound. -/
theorem isReserved_of_mem_bound {c : Context} {e : String × Value} (h : e ∈ c.bound.entries) :
    Arguments.isReserved e.1 = true := by
  have hget := Table.mem_entries_iff.1 h
  rw [get?_bound] at hget
  by_contra hx
  rw [if_neg hx] at hget
  cases hget

/-- After restoring, reserved names have what was bound before, and all others what they have now.
-/
theorem get?_restoreArguments (c c₀ : Context) (x : String) :
    (c.restoreArguments c₀.bound).get? x =
      if Arguments.isReserved x then c₀.get? x else c.get? x := by
  unfold restoreArguments
  rw [get?_rebindArguments c (Table.pairwise_ne_of_ascending c₀.bound.ascending)
    fun _ => isReserved_of_mem_bound]
  change (if _ then c₀.bound.get? x else _) = _
  rw [get?_bound]
  split <;> rfl

/-- What is bound again is what was bound then, whatever is bound now. -/
theorem bound_restoreArguments (c c₀ : Context) :
    (c.restoreArguments c₀.bound).bound = c₀.bound := by
  apply Table.ext_get?
  intro x
  rw [get?_bound, get?_bound, get?_restoreArguments]
  split <;> rfl

/-- Restoring what was bound leaves all other variables alone. -/
theorem sameApart_restoreArguments (c c₀ : Context) :
    c.SameApart (c.restoreArguments c₀.bound) := by
  intro x hx
  rw [get?_restoreArguments, hx]
  rfl

/-- The arguments bound in a context are those of an event and no others. -/
def Binds (c : Context) (args : Arguments) : Prop := ∀ x v, c.bound.get? x = some v ↔
  ∃ name, x = Arguments.reservedName name ∧ args.get? name = some v

/-- After binding, reserved names have the arguments of the event, and all others what they had. -/
theorem get?_bindArguments (c : Context) (args : Arguments) (x : String) :
    (c.bindArguments args).get? x =
      if Arguments.isReserved x then Table.find x args.bindings else c.get? x := by
  refine c.get?_rebindArguments args.pairwise_bindings ?_ x
  intro e he
  obtain ⟨name, hname, -⟩ := Arguments.mem_bindings_iff.1 he
  rw [hname]
  exact Arguments.isReserved_reservedName name

/-- Binding the arguments of an event binds these and no others. -/
theorem binds_bindArguments (c : Context) (args : Arguments) :
    (c.bindArguments args).Binds args := by
  intro x v
  rw [get?_bound, get?_bindArguments, ← Arguments.mem_bindings_iff,
    ← Table.find_eq_some_iff args.pairwise_bindings]
  by_cases hx : Arguments.isReserved x = true
  · rw [if_pos hx, if_pos hx]
  · rw [if_neg hx]
    refine iff_of_false (fun h => by cases h) fun h => ?_
    obtain ⟨name, rfl, -⟩ := Arguments.mem_bindings_iff.1 (Table.mem_of_find h)
    exact hx (Arguments.isReserved_reservedName name)

/-- Binding arguments leaves all other variables alone. -/
theorem sameApart_bindArguments (c : Context) (args : Arguments) :
    c.SameApart (c.bindArguments args) := by
  intro x hx
  rw [get?_bindArguments, hx]
  rfl

end Context

end EntityScript
