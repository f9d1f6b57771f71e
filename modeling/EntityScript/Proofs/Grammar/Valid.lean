import EntityScript.Proofs.Grammar.Assembly

/-!
# Valid sources

What a source has to keep to beyond its grammar: nothing is declared twice, everything that is named
is declared, and no handler outgrows the operands of its instructions.
-/

namespace EntityScript.Grammar

namespace File

/-- All annotations of variables in a source, in their order. -/
def annotations (f : File) : List (String × ValueType) :=
  f.handlers.flatMap (·.2.body.annotations)

/-- All states that handlers of a source change to, in their order. -/
def targets (f : File) : List String := f.handlers.flatMap (·.2.body.targets)

end File

/-- A source keeps to the rules that its grammar does not express. -/
structure Valid (f : File) : Prop where
  /-- There is a state. -/
  inhabited : f.states ≠ []
  /-- No state is declared twice. -/
  states : (f.states.map (·.name)).Nodup
  /-- No state handles an event twice. -/
  handlers : (f.handlers.map fun x => (x.1, x.2.event)).Nodup
  /-- Handlers only change to states that are declared. -/
  targets : ∀ t ∈ f.targets, t ∈ f.states.map (·.name)
  /-- Texts have known escapes, components and types exist, and no variable is called `args`. -/
  legal : ∀ x ∈ f.handlers, x.2.body.Legal
  /-- No variable is annotated with two types. -/
  types : ∀ name type type', (name, type) ∈ f.annotations → (name, type') ∈ f.annotations →
    type = type'
  /-- A handler has as many different constants as one byte can name. -/
  constants : ∀ x ∈ f.handlers, x.2.body.constants.dedup.length ≤ Chunk.maxConstants
  /-- An event has as many arguments as one byte can count. -/
  arguments : ∀ x ∈ f.handlers, ∀ event targeted count,
    Symbolic.fireEvent event targeted count ∈ x.2.body.code → count ≤ 255
  /-- A jump leads as far as two bytes can say. -/
  jumps : ∀ x ∈ f.handlers, ∀ distance, Symbolic.jump distance ∈ x.2.body.code ∨
    Symbolic.jumpIfFalse distance ∈ x.2.body.code → distance ≤ 65535

/-- Instructions fit if their counts and their distances do. -/
theorem forall_fits_iff (code : List Symbolic) : (∀ i ∈ code, i.Fits) ↔
    (∀ event targeted count, Symbolic.fireEvent event targeted count ∈ code → count ≤ 255) ∧
      ∀ distance, Symbolic.jump distance ∈ code ∨ Symbolic.jumpIfFalse distance ∈ code →
        distance ≤ 65535 := by
  constructor
  · intro h
    refine ⟨fun event targeted count hi => h _ hi, ?_⟩
    rintro distance (hi | hi)
    · exact h _ hi
    · exact h _ hi
  · rintro ⟨hcount, hdistance⟩ i hi
    cases i with
    | fireEvent event targeted count => exact hcount event targeted count hi
    | jump distance => exact hdistance distance (.inl hi)
    | jumpIfFalse distance => exact hdistance distance (.inr hi)
    | constant | binary | negate | not | getVariable | setVariable | getComponent | pop
    | changeState | ret => trivial

end EntityScript.Grammar
