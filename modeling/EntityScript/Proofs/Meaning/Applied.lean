import EntityScript.Proofs.Meaning.Evaluation

/-!
# Operators and the values they are applied to

An evaluation applies operators to values, one after another. `Expression.applied` lists them in
that order, each with the place of its instruction in the code of the expression, and leaves out
those behind a fault. What an operator may be applied to is a table of types, apart from what
applying it comes to; `Application.fault?_eq_none_iff` says that the two are the same.

A logical operator is applied to its left operand only, by which it decides. Its right operand is
evaluated or not, and nothing is applied to its value: `Expression.yields_of_eval` says which values
are truth values, and that of a logical operator may be any value of its right operand.
-/

namespace EntityScript

open Grammar

/-- The types of the operands that an operator takes. -/
def Operator.operands : Operator → List (ValueType × ValueType)
  | add => [(.number, .number), (.vec2, .vec2), (.string, .string)]
  | subtract => [(.number, .number), (.vec2, .vec2)]
  | multiply => [(.number, .number), (.vec2, .number), (.number, .vec2)]
  | divide => [(.number, .number), (.vec2, .number)]
  | equal | notEqual => [(.number, .number), (.vec2, .vec2), (.bool, .bool), (.string, .string)]
  | greater | greaterEqual | less | lessEqual => [(.number, .number)]

/-- An operator that answers whether something is so. -/
def Operator.Compares : Operator → Prop
  | add | subtract | multiply | divide => False
  | equal | notEqual | greater | greaterEqual | less | lessEqual => True

/-- A number is a zero as a divisor if it is zero of either sign. -/
theorem Number.isZero_iff (n : Number) : n.isZero = true ↔ n = .zero ∨ n = -.zero := by
  have hlt := n.bits.toNat_lt
  have hzero : n = .zero ↔ n.bits.toNat = 0 := by
    rw [← UInt64.toNat_zero, UInt64.toNat_inj]
    exact ⟨fun h => congrArg bits h, fun h => congrArg mk h⟩
  have hnegative : n = -.zero ↔ n.bits.toNat = 2 ^ 63 := by
    have hbits : signBit.toNat = 2 ^ 63 := rfl
    rw [← hbits, UInt64.toNat_inj]
    exact ⟨fun h => congrArg bits h, fun h => congrArg mk h⟩
  rw [hzero, hnegative]
  change (n.bits.toNat % 2 ^ 63 == 0) = true ↔ _
  rw [beq_iff_eq]
  omega

/-- An operator and the values that it is applied to. -/
inductive Application where
  | binary (op : Operator) (left right : Value)
  | negate (v : Value)
  | not (v : Value)
  /-- A logical operator decides by its left operand. -/
  | decide (v : Value)
  | component (v : Value) (name : String)

/-- The fault of what faulted. -/
def refusal? {α : Type} : Except Fault α → Option Fault
  | .ok _ => none
  | .error fault => some fault

namespace Application

/-- The operator takes values of these types. -/
def Typed : Application → Prop
  | binary op left right => (left.type, right.type) ∈ op.operands
  | negate v => v.type = .number ∨ v.type = .vec2
  | not v | decide v => v.type = .bool
  | component v name => v.type = .vec2 ∧ (name = "x" ∨ name = "y")

/-- The operator divides, and the divisor is zero of either sign. -/
def DividesByZero : Application → Prop
  | binary .divide _ right => right = .number .zero ∨ right = .number (-.zero)
  | _ => False

/-- The operator takes these values. -/
def Allowed (a : Application) : Prop := a.Typed ∧ ¬ a.DividesByZero

/-- The fault of applying the operator, if there is one. -/
def fault? : Application → Option Fault
  | binary op left right => refusal? (op.apply left right)
  | negate v => refusal? v.negate
  | not v => refusal? (v.truth .complement)
  | decide v => refusal? (v.truth .condition)
  | component v name => refusal? (v.component name)

/-- Division is refused unless its operands are of a type that divides and the divisor is not zero.
-/
theorem fault?_divide_iff (left right : Value) :
    refusal? (Operator.divide.apply left right) = none ↔
      (left.type, right.type) ∈ Operator.divide.operands ∧
        ¬ (right = .number .zero ∨ right = .number (-.zero)) := by
  have hzero (n : Number) : (Value.number n = .number .zero ∨ Value.number n = .number (-.zero)) ↔
      n.isZero = true := by
    rw [Number.isZero_iff, Value.number.injEq, Value.number.injEq]
  cases right with
  | number n =>
    rw [hzero]
    cases left <;> cases hn : n.isZero <;>
      simp [Operator.apply, Operator.operands, Value.type, refusal?, hn]
  | vec2 | bool | string =>
    cases left <;> simp [Operator.apply, Operator.operands, Value.type, refusal?]

/-- Applying an operator faults exactly if it does not take the values. -/
theorem fault?_eq_none_iff (a : Application) : a.fault? = none ↔ a.Allowed := by
  cases a with
  | binary op left right =>
    by_cases hdivide : op = .divide
    · subst hdivide
      exact fault?_divide_iff left right
    · have hnot : ¬ (binary op left right).DividesByZero := by
        unfold DividesByZero
        cases op <;> first | exact id | exact absurd rfl hdivide
      rw [Allowed, and_iff_left hnot]
      cases op <;> cases left <;> cases right <;>
        simp_all [fault?, refusal?, Typed, Operator.apply, Operator.operands, Value.type]
  | negate v =>
    cases v <;> simp [fault?, refusal?, Allowed, Typed, DividesByZero, Value.negate, Value.type]
  | not v | decide v =>
    cases v <;> simp [fault?, refusal?, Allowed, Typed, DividesByZero, Value.truth, Value.type]
  | component v name =>
    cases v with
    | vec2 x y =>
      by_cases hx : name = "x" <;> by_cases hy : name = "y" <;>
        simp [fault?, refusal?, Allowed, Typed, DividesByZero, Value.component, Value.type, hx, hy]
    | number | bool | string =>
      simp [fault?, refusal?, Allowed, Typed, DividesByZero, Value.component, Value.type]

end Application

/-- What there is behind an evaluation: nothing if it faulted. -/
def Evaluated.behind {α β : Type} (x : Evaluated α) (next : α → Context → List β) : List β :=
  match x with
  | (.ok a, c) => next a c
  | (.error _, _) => []

/-- What there is behind a decision: nothing if there was no truth value to decide by. -/
def Value.decided {β : Type} (v : Value) (next : Bool → List β) : List β :=
  match v with
  | .bool b => next b
  | .number _ | .vec2 _ _ | .string _ => []

namespace Grammar.Expression

/-- The operators that evaluating an expression applies, in their order, each with the place of its
instruction if the code of the expression begins at some place. -/
def applied : Expression → ℕ → Context → List (ℕ × Application)
  | literal _, _, _ | var _, _, _ => []
  | assign _ e, offset, c => e.applied offset c
  | negate e, offset, c => e.applied offset c ++
    (e.eval c).behind fun v _ => [(offset + codeSize e.code, .negate v)]
  | not e, offset, c => e.applied offset c ++
    (e.eval c).behind fun v _ => [(offset + codeSize e.code, .not v)]
  | binary op left right, offset, c => left.applied offset c ++
    (left.eval c).behind fun v c => right.applied (offset + codeSize left.code) c ++
      (right.eval c).behind fun w _ =>
        [(offset + codeSize left.code + codeSize right.code, .binary op v w)]
  | and left right, offset, c => left.applied offset c ++
    (left.eval c).behind fun v c => (offset + codeSize left.code, .decide v) ::
      v.decided fun b => if b then right.applied (offset + codeSize left.code + 4) c else []
  | or left right, offset, c => left.applied offset c ++
    (left.eval c).behind fun v c => (offset + codeSize left.code, .decide v) ::
      v.decided fun b => if b then [] else right.applied (offset + codeSize left.code + 7) c
  | component e name, offset, c => e.applied offset c ++
    (e.eval c).behind fun v _ => [(offset + codeSize e.code, .component v name)]

/-- There is nothing behind an evaluation if nothing comes behind any. -/
theorem behind_nil {α β : Type} (x : Evaluated α) : (x.behind fun _ _ => ([] : List β)) = [] := by
  obtain ⟨fault | a, c⟩ := x <;> rfl

/-- What is behind an evaluation has a property if all has it that could be there. -/
theorem forall_mem_behind {α β : Type} {x : Evaluated α} {next : α → Context → List β}
    {P : β → Prop} (h : ∀ a c, ∀ b ∈ next a c, P b) : ∀ b ∈ x.behind next, P b := by
  obtain ⟨fault | a, c⟩ := x
  · exact fun b hb => nomatch hb
  · exact h a c

/-- What holds of both decisions holds of the one that is made. -/
theorem forall_mem_decided {β : Type} {v : Value} {next : Bool → List β} {P : β → Prop}
    (h : ∀ truth, ∀ b ∈ next truth, P b) : ∀ b ∈ v.decided next, P b := by
  cases v with
  | bool truth => exact h truth
  | number | vec2 | string => exact fun b hb => nomatch hb

/-- All operators of an expression stand behind the place where its code begins. -/
theorem le_of_mem_applied (e : Expression) :
    ∀ offset c, ∀ x ∈ e.applied offset c, offset ≤ x.1 := by
  have hlast {offset place : ℕ} {a : Application} (h : offset ≤ place) :
      ∀ x ∈ [(place, a)], offset ≤ x.1 := by
    intro x hx
    rw [List.mem_singleton.1 hx]
    exact h
  induction e with
  | literal | var => exact fun offset c x hx => nomatch hx
  | assign name e ih => exact ih
  | negate e ih | not e ih | component e name ih =>
    intro offset c
    exact List.forall_mem_append.2 ⟨ih offset c,
      forall_mem_behind fun v c => hlast (Nat.le_add_right ..)⟩
  | binary op left right ihl ihr =>
    intro offset c
    refine List.forall_mem_append.2 ⟨ihl offset c, forall_mem_behind fun v c => ?_⟩
    refine List.forall_mem_append.2 ⟨fun x hx => ?_, forall_mem_behind fun w c => hlast (by omega)⟩
    exact Nat.le_trans (Nat.le_add_right ..) (ihr _ c x hx)
  | and left right ihl ihr =>
    intro offset c
    refine List.forall_mem_append.2 ⟨ihl offset c, forall_mem_behind fun v c => ?_⟩
    refine List.forall_mem_cons.2 ⟨Nat.le_add_right .., forall_mem_decided fun b => ?_⟩
    cases b with
    | true => exact fun x hx => Nat.le_trans (by omega) (ihr _ c x hx)
    | false => exact fun x hx => absurd hx List.not_mem_nil
  | or left right ihl ihr =>
    intro offset c
    refine List.forall_mem_append.2 ⟨ihl offset c, forall_mem_behind fun v c => ?_⟩
    refine List.forall_mem_cons.2 ⟨Nat.le_add_right .., forall_mem_decided fun b => ?_⟩
    cases b with
    | true => exact fun x hx => absurd hx List.not_mem_nil
    | false => exact fun x hx => Nat.le_trans (by omega) (ihr _ c x hx)

/-- What is known of the value of an expression from its last operator: comparisons and complements
are truth values. A logical operator decides by a truth value, and its value is that or the value
of its right operand. -/
def Yields (c : Context) (v : Value) (c' : Context) : Expression → Prop
  | binary op _ _ => op.Compares → v.type = .bool
  | not _ => v.type = .bool
  | and left right => ∃ b c₁, left.eval c = (.ok (.bool b), c₁) ∧
    if b then right.eval c₁ = (.ok v, c') else v = .bool false ∧ c' = c₁
  | or left right => ∃ b c₁, left.eval c = (.ok (.bool b), c₁) ∧
    if b then v = .bool true ∧ c' = c₁ else right.eval c₁ = (.ok v, c')
  | literal _ | var _ | assign _ _ | negate _ | component _ _ => True

end Grammar.Expression

/-- A comparison answers a truth value. -/
theorem Operator.type_of_apply {op : Operator} {left right v : Value} (hop : op.Compares)
    (h : op.apply left right = .ok v) : v.type = .bool := by
  unfold apply at h
  split at h <;> first
    | exact hop.elim
    | (cases h; rfl)
    | (split at h <;> first | (cases h; rfl) | cases h)
    | cases h

/-- A decision that is made was made by a truth value. -/
theorem Evaluated.decide_eq_ok {v : Value} {c c' : Context} {next : Bool → Evaluated Value}
    {w : Value} (h : Evaluated.decide v c next = (.ok w, c')) :
    ∃ b, v = .bool b ∧ next b = (.ok w, c') := by
  cases v with
  | bool b => exact ⟨b, rfl, h⟩
  | number | vec2 | string => cases h

/-- The value of an expression is known from its last operator. -/
theorem Grammar.Expression.yields_of_eval {e : Expression} {c c' : Context} {v : Value}
    (h : e.eval c = (.ok v, c')) : e.Yields c v c' := by
  cases e with
  | literal | var | assign | negate | component => trivial
  | binary op left right =>
    intro hop
    obtain ⟨a, c₁, -, h⟩ := Evaluated.andThen_eq_ok.1 h
    obtain ⟨b, c₂, -, h⟩ := Evaluated.andThen_eq_ok.1 h
    exact op.type_of_apply hop (Prod.mk.inj h).1
  | not e =>
    obtain ⟨a, c₁, -, h⟩ := Evaluated.andThen_eq_ok.1 h
    cases a with
    | bool b =>
      cases h
      rfl
    | number | vec2 | string => cases h
  | and left right =>
    obtain ⟨a, c₁, hleft, h⟩ := Evaluated.andThen_eq_ok.1 h
    obtain ⟨b, rfl, h⟩ := Evaluated.decide_eq_ok h
    refine ⟨b, c₁, hleft, ?_⟩
    cases b with
    | true => exact h
    | false =>
      cases h
      exact ⟨rfl, rfl⟩
  | or left right =>
    obtain ⟨a, c₁, hleft, h⟩ := Evaluated.andThen_eq_ok.1 h
    obtain ⟨b, rfl, h⟩ := Evaluated.decide_eq_ok h
    refine ⟨b, c₁, hleft, ?_⟩
    cases b with
    | false => exact h
    | true =>
      cases h
      exact ⟨rfl, rfl⟩

namespace Grammar.Statement

/-- The arguments of an event, each with the place where its code begins. -/
def argumentExpressions : List (String × Expression) → ℕ → List (ℕ × Expression)
  | [], _ => []
  | x :: rest, offset =>
    (offset + 2, x.2) :: argumentExpressions rest (offset + 2 + codeSize x.2.code)

/-- The expressions of a statement, each with the place where its code begins if the code of the
statement begins at some place. -/
def expressions : Statement → ℕ → List (ℕ × Expression)
  | skip, _ | declare _ _ none, _ | change _, _ => []
  | seq first rest, offset =>
    first.expressions offset ++ rest.expressions (offset + codeSize first.code)
  | declare _ _ (some e), offset | evaluate e, offset => [(offset, e)]
  | branch condition whenTrue whenFalse, offset =>
    (offset, condition) :: (whenTrue.expressions (offset + codeSize condition.code + 4) ++
      whenFalse.expressions (offset + codeSize condition.code + 4 + codeSize whenTrue.code + 4))
  | fire _ none args, offset => argumentExpressions args offset
  | fire _ (some _) args, offset => argumentExpressions args (offset + 2)

end Grammar.Statement

end EntityScript
