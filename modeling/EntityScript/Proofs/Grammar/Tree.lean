import EntityScript.Arguments
import EntityScript.Compile.Literal
import EntityScript.Operator
import Mathlib.Data.Nat.Notation

/-!
# Syntax trees

What a source says, apart from its layout and its parentheses. The grammar spells trees as tokens,
the compiler writes code for them, and direct evaluation says what they mean; none of the three
is defined through another.

A tree keeps the texts of its literals and the names of its annotations as they are written, also
where they stand for nothing. `Expression.Legal` and `Statement.Legal` say which trees a script may
consist of.
-/

namespace EntityScript.Grammar

open Compile

/-- Every backslash of a text begins an escape that stands for a character. -/
inductive Escaped : List Char → Prop where
  | nil : Escaped []
  | plain {c : Char} {cs : List Char} (free : c ≠ '\\') (rest : Escaped cs) : Escaped (c :: cs)
  | escape {c : Char} {cs : List Char} (known : c ∈ ['n', 't', 'r', '\\', '"'])
      (rest : Escaped cs) : Escaped ('\\' :: c :: cs)

/-- What stands between the quotes of a string token. -/
def unquoted (lexeme : String) : List Char := lexeme.toList.tail.dropLast

/-- Five characters stand for something behind a backslash. -/
theorem isSome_escaped?_iff (c : Char) :
    (escaped? c).isSome = true ↔ c ∈ ['n', 't', 'r', '\\', '"'] := by
  unfold escaped?
  split <;> simp_all

/-- A text can be unescaped just if every backslash in it begins a known escape. -/
theorem unescapeOnto_ok_iff (out : String) (cs : List Char) :
    (∃ s, unescapeOnto out cs = .ok s) ↔ Escaped cs := by
  fun_induction unescapeOnto out cs with
  | case1 out => exact ⟨fun _ => .nil, fun _ => ⟨out, rfl⟩⟩
  | case2 out =>
    constructor
    · rintro ⟨s, h⟩
      cases h
    · intro h
      cases h with
      | plain free _ => exact absurd rfl free
  | case3 out c rest e he ih =>
    have hknown : c ∈ ['n', 't', 'r', '\\', '"'] := (isSome_escaped?_iff c).1 (by rw [he]; rfl)
    rw [ih]
    constructor
    · exact .escape hknown
    · intro h
      cases h with
      | plain free _ => exact absurd rfl free
      | escape _ rest => exact rest
  | case4 out c rest he =>
    constructor
    · rintro ⟨s, h⟩
      cases h
    · intro h
      cases h with
      | plain free _ => exact absurd rfl free
      | escape known _ =>
        have := (isSome_escaped?_iff c).2 known
        rw [he] at this
        cases this
  | case5 out c rest hfree₁ hfree₂ ih =>
    have hfree : c ≠ '\\' := by
      rintro rfl
      cases rest with
      | nil => exact hfree₁ rfl rfl
      | cons d rest => exact hfree₂ d rest rfl rfl
    rw [ih]
    constructor
    · exact .plain hfree
    · intro h
      cases h with
      | plain _ rest => exact rest
      | escape _ _ => exact absurd rfl hfree

/-- A string token stands for a text exactly if its escapes do for characters. -/
theorem readText_ok_iff (lexeme : String) :
    (∃ s, readText lexeme = .ok s) ↔ Escaped (unquoted lexeme) :=
  unescapeOnto_ok_iff "" _

/-- A literal, by the text of its token. -/
inductive Literal where
  | number (lexeme : String)
  | vector (lexeme : String)
  /-- A vector whose first number is negated by a minus sign directly before the vector. -/
  | negatedVector (lexeme : String)
  | text (lexeme : String)
  | truth (b : Bool)
  deriving DecidableEq, Repr

namespace Literal

/-- The value that a literal stands for, or why it stands for none. -/
def read : Literal → Except Problem Value
  | number lexeme => readNumber lexeme
  | vector lexeme => (readVector lexeme).map fun v => .vec2 v.1 v.2
  | negatedVector lexeme => (readVector lexeme).map fun v => .vec2 (-v.1) v.2
  | text lexeme => (readText lexeme).map .string
  | truth b => .ok (.bool b)

/-- Whether a literal stands for a value. -/
def Readable (l : Literal) : Prop := ∃ v, l.read = .ok v

/-- The value of a literal that stands for one. -/
def value (l : Literal) : Value :=
  match l.read with
  | .ok v => v
  | .error _ => default

/-- A literal that can be read reads as its value. -/
theorem read_eq_value {l : Literal} (h : l.Readable) : l.read = .ok l.value := by
  obtain ⟨v, hv⟩ := h
  simp only [value, hv]

/-- A text has no escapes but those that stand for characters. -/
def Legal : Literal → Prop
  | text lexeme => Escaped (unquoted lexeme)
  | number _ | vector _ | negatedVector _ | truth _ => True

/-- A text can be read just if its escapes are known. -/
theorem readable_text_iff (lexeme : String) :
    (text lexeme).Readable ↔ Escaped (unquoted lexeme) := by
  rw [← readText_ok_iff]
  constructor
  · rintro ⟨v, hv⟩
    cases hread : readText lexeme with
    | ok s => exact ⟨s, rfl⟩
    | error problem =>
      rw [read, hread] at hv
      cases hv
  · rintro ⟨s, hs⟩
    exact ⟨.string s, by rw [read, hs]; rfl⟩

/-- A literal that can be read is legal. -/
theorem Readable.legal {l : Literal} (h : l.Readable) : l.Legal := by
  cases l with
  | text lexeme => exact (readable_text_iff lexeme).1 h
  | number | vector | negatedVector | truth => trivial

end Literal

/-- An expression. Variables go by the names under which they are stored, so an argument of the
event has its reserved name. -/
inductive Expression where
  | literal (l : Literal)
  | var (name : String)
  | assign (name : String) (value : Expression)
  | negate (operand : Expression)
  | not (operand : Expression)
  | binary (op : Operator) (left right : Expression)
  | and (left right : Expression)
  | or (left right : Expression)
  | component (operand : Expression) (name : String)
  deriving DecidableEq, Repr

/-- The entity that an event is meant for, by a name or by the text of a string token. -/
inductive Target where
  | named (name : String)
  | quoted (lexeme : String)
  deriving DecidableEq, Repr

namespace Target

/-- The name that a target stands for, or why it stands for none. -/
def read : Target → Except Problem String
  | named name => .ok name
  | quoted lexeme => readText lexeme

/-- Whether a target stands for a name. -/
def Readable (t : Target) : Prop := ∃ name, t.read = .ok name

/-- The name of a target that stands for one. -/
def text (t : Target) : String :=
  match t.read with
  | .ok name => name
  | .error _ => ""

/-- A target that can be read reads as its name. -/
theorem read_eq_text {t : Target} (h : t.Readable) : t.read = .ok t.text := by
  obtain ⟨name, hname⟩ := h
  simp only [text, hname]

/-- A quoted name has no escapes but those that stand for characters. -/
def Legal : Target → Prop
  | named _ => True
  | quoted lexeme => Escaped (unquoted lexeme)

/-- Targets can be read just if they are legal. -/
theorem readable_iff_legal (t : Target) : t.Readable ↔ t.Legal := by
  cases t with
  | named name => exact ⟨fun _ => trivial, fun _ => ⟨name, rfl⟩⟩
  | quoted lexeme => exact readText_ok_iff lexeme

end Target

/-- A statement, or the statements of a block in their order. -/
inductive Statement where
  /-- The block without statements, and the branch that is left out. -/
  | skip
  | seq (first rest : Statement)
  | declare (name : String) (type : Option String) (init : Option Expression)
  | branch (condition : Expression) (whenTrue whenFalse : Statement)
  | fire (event : String) (target : Option Target) (args : List (String × Expression))
  | change (state : String)
  | evaluate (e : Expression)
  deriving Repr

/-- What a handler does when an event arrives. -/
structure Handler where
  event : String
  body : Statement
  deriving Repr

/-- A state with its handlers. -/
structure State where
  name : String
  handlers : List Handler
  deriving Repr

/-- The handlers of a state, each with the name of the state. -/
def State.entries (s : State) : List (String × Handler) := s.handlers.map fun h => (s.name, h)

/-- What a source declares. -/
inductive Declaration where
  | state (s : State)
  | machine (name : Option String) (states : List State)
  deriving Repr

/-- A whole source. -/
abbrev File := List Declaration

namespace Declaration

/-- The states that a declaration declares. -/
def states : Declaration → List State
  | state s => [s]
  | machine _ states => states

end Declaration

namespace File

/-- All states of a source, in their order. -/
def states (f : File) : List State := f.flatMap Declaration.states

/-- All handlers of a source with the names of their states, in their order. -/
def handlers (f : File) : List (String × Handler) := f.states.flatMap State.entries

end File

/-- Every text of the expression has known escapes and every component is one that vectors have. -/
def Expression.Legal : Expression → Prop
  | literal l => l.Legal
  | var _ => True
  | assign _ e | negate e | not e => e.Legal
  | binary _ a b | and a b | or a b => a.Legal ∧ b.Legal
  | component e name => e.Legal ∧ (name = "x" ∨ name = "y")

/-- The type of an annotation that is there and names one. -/
def annotatedType (type : Option String) : Option ValueType := type.bind ValueType.ofName?

namespace Statement

/-- Every expression and target of the statement is legal, every annotation names a type, and no
variable has the name that arguments are read by. -/
def Legal : Statement → Prop
  | skip => True
  | seq first rest => first.Legal ∧ rest.Legal
  | declare name type init =>
    name ≠ "args" ∧ (∀ t, type = some t → (ValueType.ofName? t).isSome) ∧
      ∀ e, init = some e → e.Legal
  | branch condition whenTrue whenFalse =>
    condition.Legal ∧ whenTrue.Legal ∧ whenFalse.Legal
  | fire _ target args => (∀ t, target = some t → t.Legal) ∧ ∀ a ∈ args, a.2.Legal
  | change _ => True
  | evaluate e => e.Legal

/-- The annotations of a statement, in their order. -/
def annotations : Statement → List (String × ValueType)
  | skip => []
  | seq first rest => first.annotations ++ rest.annotations
  | declare name type _ => ((annotatedType type).map fun t => (name, t)).toList
  | branch _ whenTrue whenFalse => whenTrue.annotations ++ whenFalse.annotations
  | fire _ _ _ | change _ | evaluate _ => []

/-- The states that a statement changes to, in their order. -/
def targets : Statement → List String
  | skip => []
  | seq first rest => first.targets ++ rest.targets
  | branch _ whenTrue whenFalse => whenTrue.targets ++ whenFalse.targets
  | change state => [state]
  | declare _ _ _ | fire _ _ _ | evaluate _ => []

end Statement

end EntityScript.Grammar
