import EntityScript.Machine.Dispatch
import EntityScript.Proofs.Grammar.Assembly

/-!
# The meaning of trees

What expressions, statements and handlers do, told by their trees: operands are evaluated from left
to right, the logical operators evaluate their right operand only if the left one does not decide,
and statements run in their order. There is no code here, and no operand stack.

Handling an event is told in the same way. An entity whose script has a tree evaluates the body of
its handler; `directly` does so however deeply events are nested, up to a depth that is given. A
script that was not compiled has no tree, and what its entities do is what its code does.
-/

namespace EntityScript

open Grammar

/-- What evaluating comes to: an answer or a fault, and the context as it is left. -/
abbrev Evaluated (α : Type) := Except Fault α × Context

namespace Evaluated

variable {α β : Type}

/-- Goes on with an answer. A fault ends the evaluation. -/
def andThen (x : Evaluated α) (next : α → Context → Evaluated β) : Evaluated β :=
  match x with
  | (.ok a, c) => next a c
  | (.error fault, c) => (.error fault, c)

/-- An answer with what follows comes from an answer and what followed it. -/
theorem andThen_eq_ok {x : Evaluated α} {next : α → Context → Evaluated β} {b : β} {c : Context} :
    x.andThen next = (.ok b, c) ↔ ∃ a c', x = (.ok a, c') ∧ next a c' = (.ok b, c) := by
  obtain ⟨_ | a, c'⟩ := x <;> simp [andThen]

/-- Goes on by the truth value of a value. -/
def decide (v : Value) (c : Context) (next : Bool → Evaluated β) : Evaluated β :=
  match v.truth .condition with
  | .ok b => next b
  | .error fault => (.error fault, c)

end Evaluated

namespace Grammar

/-- The value of an expression. -/
def Expression.eval : Expression → Context → Evaluated Value
  | literal l, c => (.ok l.value, c)
  | var name, c => (.ok (c.read name), c)
  | assign name e, c => (e.eval c).andThen fun v c => (.ok v, c.set name v)
  | negate e, c => (e.eval c).andThen fun v c => (v.negate, c)
  | not e, c => (e.eval c).andThen fun v c =>
    ((v.truth .complement).map fun b => .bool !b, c)
  | binary op left right, c => (left.eval c).andThen fun v c =>
    (right.eval c).andThen fun w c => (op.apply v w, c)
  | and left right, c => (left.eval c).andThen fun v c =>
    .decide v c fun b => if b then right.eval c else (.ok v, c)
  | or left right, c => (left.eval c).andThen fun v c =>
    .decide v c fun b => if b then (.ok v, c) else right.eval c
  | component e name, c => (e.eval c).andThen fun v c => (v.component name, c)

/-- The arguments of an event, from left to right. -/
def Statement.evalArguments :
    List (String × Expression) → Context → Evaluated (List (String × Value))
  | [], c => (.ok [], c)
  | x :: rest, c => (x.2.eval c).andThen fun v c =>
    (evalArguments rest c).andThen fun entries c => (.ok ((x.1, v) :: entries), c)

end Grammar

/-- What statements come to: whether they faulted, the context, and what all handlers share. -/
abbrev Performed (σ : Type) := Except Fault Unit × Context × Run σ

variable {σ : Type}

/-- Goes on with the answer of an evaluation, which leaves alone what all handlers share. -/
def Evaluated.perform {α : Type} (x : Evaluated α) (r : Run σ)
    (next : α → Context → Performed σ) : Performed σ :=
  match x with
  | (.ok a, c) => next a c
  | (.error fault, c) => (.error fault, c, r)

/-- Goes on with what follows, unless there was a fault. -/
def Performed.andThen (x : Performed σ) (next : Context → Run σ → Performed σ) : Performed σ :=
  match x with
  | (.ok (), c, r) => next c r
  | (.error fault, c, r) => (.error fault, c, r)

/-- Statements with nothing behind them come to what they come to. -/
@[simp] theorem Performed.andThen_ok (x : Performed σ) :
    (x.andThen fun c r => (.ok (), c, r)) = x := by
  obtain ⟨_ | _, _, _⟩ := x <;> rfl

/-- Goes on by the truth value of a value. -/
def Performed.decide (v : Value) (c : Context) (r : Run σ) (next : Bool → Performed σ) :
    Performed σ :=
  match v.truth .condition with
  | .ok b => next b
  | .error fault => (.error fault, c, r)

/-- Performs a statement, where it is given how an event is delivered. -/
def Grammar.Statement.eval (deliver : Event → Context → Run σ → Performed σ) :
    Statement → Context → Run σ → Performed σ
  | skip, c, r => (.ok (), c, r)
  | seq first rest, c, r => (first.eval deliver c r).andThen (rest.eval deliver)
  | declare name type none, c, r => (.ok (), c.set name (unset type), r)
  | declare name _ (some e), c, r =>
    (e.eval c).perform r fun v c => (.ok (), c.set name v, r)
  | branch condition whenTrue whenFalse, c, r =>
    (condition.eval c).perform r fun v c => .decide v c r fun b =>
      if b then whenTrue.eval deliver c r else whenFalse.eval deliver c r
  | fire event target args, c, r =>
    (evalArguments args c).perform r fun entries c =>
      deliver ⟨event, target.map Target.text, .ofList entries⟩ c r
  | change state, c, r =>
    match c.changeState state with
    | .ok c => (.ok (), c, r)
    | .error fault => (.error fault, c, r)
  | evaluate e, c, r => (e.eval c).perform r fun _ c => (.ok (), c, r)

variable [Host σ]

/-- Delivers an event: to the host if it has no target, and otherwise to the entity of that name,
whose handler runs before the event counts as delivered. Its fault is noted and stays with it. -/
def deliverDirectly (limits : Limits) (nested : Option (Dispatcher σ)) (base : ℕ) (event : Event)
    (c : Context) (r : Run σ) : Performed σ :=
  match event.target with
  | none => (.ok (), c, { r with host := Host.fire r.host event.name event.args })
  | some target =>
    match Host.resolve r.host target with
    | none => (.error (.unresolvedTarget target), c, r)
    | some id =>
      match nested with
      | none => (.error (.dispatchDepthExceeded limits.dispatchDepth), c, r)
      | some dispatch =>
        if c.owner = some id then
          let ended := dispatch base c event.name event.args r
          (.ok (), ended.context, ended.run.note ended.result)
        else
          match Host.take r.host id with
          | (some other, host) =>
            let ended := dispatch base other event.name event.args { r with host }
            let run := ended.run.note ended.result
            (.ok (), c, { run with host := Host.giveBack run.host id ended.context })
          | (none, host) =>
            if Host.hasScript host id then
              (.error (.reentrantDispatch target), c, { r with host })
            else (.ok (), c, { r with host })

/-- The handler of an event in a state. -/
def Grammar.File.handler? (f : File) (state event : String) : Option Handler :=
  (f.handlers.find? fun x => x.1 == state && x.2.event == event).map (·.2)

/-- What becomes of a handler of a name whose body was performed. A tree has no places. -/
def Performed.ended (name : String) (p : Performed σ) : Ended σ Unit :=
  ⟨p.1.mapError fun fault => ⟨name, 0, 0, fault⟩, p.2.1, p.2.2⟩

/-- Handles an event by the tree of the script that the context runs, if the script has a tree. The
arguments are bound while the body runs. -/
def handleDirectly (trees : Script → Option File) (limits : Limits)
    (nested : Option (Dispatcher σ)) : Dispatcher σ := fun base c event args r =>
  match trees c.definition.script with
  | none => dispatchWith limits nested base c event args r
  | some f =>
    match f.handler? c.state event with
    | none => ⟨.ok .noHandler, c, r⟩
    | some handler =>
      let before := c.bound
      let ended := (handler.body.eval (deliverDirectly limits nested base)
        (c.bindArguments args) r).ended (c.state ++ "." ++ event)
      ⟨ended.result.map fun _ => .handled, ended.context.restoreArguments before, ended.run⟩

/-- How events are handled if they may be nested so deeply. -/
def directly (trees : Script → Option File) (limits : Limits) : ℕ → Option (Dispatcher σ)
  | 0 => none
  | depth + 1 => some (handleDirectly trees limits (directly trees limits depth))

end EntityScript
