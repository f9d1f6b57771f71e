import EntityScript.Number

/-!
# Values of the script language

Numbers, vectors of two numbers, truth values and texts. Values are what constants, variables and
event arguments hold, and nothing converts one into another by itself.

Two notions of equality meet here. Constants are the same if they are indistinguishable, which
is equality of `Value`; the language compares by `Value.equals`, for which numbers compare as
numbers do.
-/

namespace EntityScript

/-- A value of the script language. -/
inductive Value where
  | number (n : Number)
  | vec2 (x y : Number)
  | bool (b : Bool)
  | string (s : String)
  deriving DecidableEq, Repr, Inhabited

/-- The types of values. -/
inductive ValueType where
  | number | vec2 | bool | string
  deriving DecidableEq, Repr, Inhabited

namespace ValueType

/-- The type that an annotation in a script names. -/
def ofName? : String → Option ValueType
  | "Number" => some number
  | "Vec2" => some vec2
  | "Bool" => some bool
  | "String" => some string
  | _ => none

/-- How messages name the type. -/
def name : ValueType → String
  | number => "number"
  | vec2 => "vec2"
  | bool => "bool"
  | string => "string"

/-- What a variable of the type holds before anything is assigned to it. -/
def unset : ValueType → Value
  | number => .number .zero
  | vec2 => .vec2 .zero .zero
  | bool => .bool false
  | string => .string ""

end ValueType

namespace Value

/-- The type of a value. -/
def type : Value → ValueType
  | number _ => .number
  | vec2 _ _ => .vec2
  | bool _ => .bool
  | string _ => .string

/-- The value that a variable of a type begins with is of that type. -/
@[simp] theorem type_unset (t : ValueType) : t.unset.type = t := by cases t <;> rfl

/-- The text of a text value. -/
def string? : Value → Option String
  | string s => some s
  | _ => none

/-- Equality of the language: by type, and numbers as numbers. -/
def equals : Value → Value → Bool
  | number a, number b => a.equals b
  | vec2 ax ay, vec2 bx byy => ax.equals bx && ay.equals byy
  | bool a, bool b => a == b
  | string a, string b => a == b
  | _, _ => false

/-- The value as a script writes it. -/
def text : Value → String
  | number n => n.text
  | vec2 x y => x.text ++ "," ++ y.text
  | bool b => if b then "true" else "false"
  | string s => "\"" ++ s ++ "\""

end Value

end EntityScript
