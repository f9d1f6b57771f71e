import EntityScript.Machine.Fault

/-!
# Applying operators

What each operator makes of the values of its operands. Operators never convert a value: operands
of types that an operator does not take are a fault, and so is a zero of either sign as a
divisor.
-/

namespace EntityScript

/-- Applies an operator to the values of its left and right operand. -/
def Operator.apply (op : Operator) (left right : Value) : Except Fault Value :=
  let mismatch : Except Fault Value := .error (.typeMismatch op left.type right.type)
  match op, left, right with
  | add, .number a, .number b => .ok (.number (a + b))
  | add, .vec2 ax ay, .vec2 bx byy => .ok (.vec2 (ax + bx) (ay + byy))
  | add, .string a, .string b => .ok (.string (a ++ b))
  | subtract, .number a, .number b => .ok (.number (a - b))
  | subtract, .vec2 ax ay, .vec2 bx byy => .ok (.vec2 (ax - bx) (ay - byy))
  | multiply, .number a, .number b => .ok (.number (a * b))
  | multiply, .vec2 x y, .number k => .ok (.vec2 (x * k) (y * k))
  | multiply, .number k, .vec2 x y => .ok (.vec2 (x * k) (y * k))
  | divide, .number a, .number b =>
    if b.isZero then .error .divisionByZero else .ok (.number (a / b))
  | divide, .vec2 x y, .number k =>
    if k.isZero then .error .divisionByZero else .ok (.vec2 (x / k) (y / k))
  | equal, a, b => if a.type = b.type then .ok (.bool (a.equals b)) else mismatch
  | notEqual, a, b => if a.type = b.type then .ok (.bool (!a.equals b)) else mismatch
  | greater, .number a, .number b => .ok (.bool (b.below a))
  | greaterEqual, .number a, .number b => .ok (.bool (b.atMost a))
  | less, .number a, .number b => .ok (.bool (a.below b))
  | lessEqual, .number a, .number b => .ok (.bool (a.atMost b))
  | _, _, _ => mismatch

/-- The value with the other sign. -/
def Value.negate : Value → Except Fault Value
  | .number n => .ok (.number (-n))
  | .vec2 x y => .ok (.vec2 (-x) (-y))
  | v => .error (.unaryTypeMismatch .negation v.type)

/-- The truth value of a value that is wanted for some use. -/
def Value.truth (use : Use) : Value → Except Fault Bool
  | .bool b => .ok b
  | v => .error (.unaryTypeMismatch use v.type)

/-- The text of a value that is wanted for some use. -/
def Value.textFor (use : Use) : Value → Except Fault String
  | .string s => .ok s
  | v => .error (.unaryTypeMismatch use v.type)

/-- A component of a vector. -/
def Value.component (name : String) : Value → Except Fault Value
  | .vec2 x y =>
    if name = "x" then .ok (.number x)
    else if name = "y" then .ok (.number y)
    else .error (.notAComponent name .vec2)
  | v => .error (.notAComponent name v.type)

end EntityScript
