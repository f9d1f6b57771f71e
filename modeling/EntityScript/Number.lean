import EntityScript.Number.Rounding
import EntityScript.Number.Shortest

/-!
# Numbers of the script language

A number is a double, kept as its bit pattern so that two numbers are equal as constants exactly
if no operation and no encoding can tell them apart: zero and negative zero differ, and so do
two patterns that are not a number. Arithmetic and comparison are those of doubles.

A number is written with the fewest decimal digits that read back to it, and never with an
exponent.
-/

namespace EntityScript

/-- A double, as its bit pattern. -/
structure Number where
  /-- Sign, exponent and fraction in 64 bits. -/
  bits : UInt64
  deriving DecidableEq, Repr, Inhabited

namespace Number

/-- The bit that holds the sign. -/
def signBit : UInt64 := 0x8000000000000000

/-- The number with the given pattern without a sign, negated if asked for. -/
def ofPattern (negative : Bool) (pattern : Nat) : Number :=
  ⟨if negative then signBit ||| pattern.toUInt64 else pattern.toUInt64⟩

/-- Zero, without a sign. -/
def zero : Number := ⟨0⟩

/-- Whether the sign bit is set. -/
def isNegative (n : Number) : Bool := n.bits &&& signBit != 0

/-- The pattern of the number without its sign. -/
def pattern (n : Number) : Nat := n.bits.toNat % signBit.toNat

/-- Whether it is zero of either sign. -/
def isZero (n : Number) : Bool := n.pattern == 0

/-- Whether it is neither infinite nor not a number. -/
def isFinite (n : Number) : Bool := n.pattern < infinityPattern

/-- The number as the machine computes with it. -/
def toFloat (n : Number) : Float := Float.ofBits n.bits

/-- The number of a machine double. -/
def ofFloat (x : Float) : Number := ⟨x.toBits⟩

/-- A whole number, rounded. -/
def ofNat (n : Nat) : Number := ofPattern false (nearest ⟨n, 0⟩)

/-- The sum, rounded. -/
def add (a b : Number) : Number := ofFloat (a.toFloat + b.toFloat)

/-- The difference, rounded. -/
def sub (a b : Number) : Number := ofFloat (a.toFloat - b.toFloat)

/-- The product, rounded. -/
def mul (a b : Number) : Number := ofFloat (a.toFloat * b.toFloat)

/-- The quotient, rounded. -/
def div (a b : Number) : Number := ofFloat (a.toFloat / b.toFloat)

/-- The number with the other sign. -/
def neg (n : Number) : Number := ⟨n.bits ^^^ signBit⟩

/-- Numerical equality: zeros of both signs are equal, and what is not a number equals nothing. -/
def equals (a b : Number) : Bool := a.toFloat == b.toFloat

/-- Whether the first number is below the second. -/
def below (a b : Number) : Bool := a.toFloat < b.toFloat

/-- Whether the first number is at most the second. -/
def atMost (a b : Number) : Bool := a.toFloat ≤ b.toFloat

instance : Add Number := ⟨add⟩
instance : Sub Number := ⟨sub⟩
instance : Mul Number := ⟨mul⟩
instance : Div Number := ⟨div⟩
instance : Neg Number := ⟨neg⟩

/-- Changing the sign of a number twice gives the number back. -/
theorem neg_neg (n : Number) : - -n = n := by
  show Number.mk ((n.bits ^^^ signBit) ^^^ signBit) = n
  rw [UInt64.xor_assoc, UInt64.xor_self, UInt64.xor_zero]

/-- The text of a number without its sign, from its pattern. -/
def patternText (pattern : Nat) : String :=
  let fraction := pattern % twoTo 52
  let exponent : Nat := pattern / twoTo 52
  if infinityPattern < pattern then "NaN"
  else if pattern = infinityPattern then "inf"
  else if pattern = 0 then "0"
  else if exponent = 0 then (shortest fraction leastExponent).positional
  else (shortest (twoTo 52 + fraction) ((exponent : Int) - 1 + leastExponent)).positional

/-- The fewest digits that read back to the number, never with an exponent. What is not a number
has no sign. -/
def text (n : Number) : String :=
  if n.isNegative && n.pattern ≤ infinityPattern then "-" ++ patternText n.pattern
  else patternText n.pattern

/-- The pattern without a sign that a text without a sign stands for. The names of the values that
are not finite are read in upper and lower case. -/
def readPattern (cs : List Char) : Option Nat :=
  let word := String.ofList (cs.map Char.toLower)
  if word = "inf" || word = "infinity" then some infinityPattern
  else if word = "nan" then some 0x7FF8000000000000
  else (Decimal.read? cs).map nearest

/-- Reads a number: a sign or none, and a decimal or the name of a value that is not finite. -/
def read? (s : String) : Option Number :=
  match s.toList with
  | '-' :: cs => (readPattern cs).map (ofPattern true)
  | '+' :: cs => (readPattern cs).map (ofPattern false)
  | cs => (readPattern cs).map (ofPattern false)

end Number

end EntityScript
