/-!
# Decimal numerals

A decimal is a whole number of units of a power of ten. It is written positionally, without an
exponent however long that makes it. Reading also accepts an exponent, and a point with digits
on only one side of it.
-/

namespace EntityScript

/-- A power of two. -/
def twoTo (n : Nat) : Nat := Nat.pow 2 n

/-- A power of ten. -/
def tenTo (n : Nat) : Nat := Nat.pow 10 n

/-- The number `digits · 10 ^ exponent`. -/
structure Decimal where
  /-- How many units there are. -/
  digits : Nat
  /-- The power of ten that is the unit. -/
  exponent : Int
  deriving DecidableEq, Repr

namespace Decimal

/-- The digits of a numeral and a point before the last `places` of them, with at least one digit
before the point. -/
def withPoint (places : Nat) (ds : List Char) : List Char :=
  let padded := List.replicate (places + 1 - ds.length) '0' ++ ds
  let whole := padded.length - places
  padded.take whole ++ '.' :: padded.drop whole

/-- The numeral with all its zeros, and a point only if the unit is smaller than one. -/
def positional (d : Decimal) : String :=
  let ds := Nat.toDigits 10 d.digits
  match d.exponent with
  | .ofNat zeros => String.ofList (ds ++ List.replicate zeros '0')
  | .negSucc n => String.ofList (withPoint (n + 1) ds)

/-- The whole number that a run of digits writes, read on from `n`. -/
def wholeFrom (n : Nat) (ds : List Char) : Nat :=
  ds.foldl (fun n d => n * 10 + (d.toNat - '0'.toNat)) n

/-- The whole number that a run of digits writes. -/
def whole (ds : List Char) : Nat := wholeFrom 0 ds

/-- The exponent that a numeral ends with: nothing, or a mark, a sign or none, and digits. -/
def readExponent : List Char → Option Int
  | [] => some 0
  | mark :: rest =>
    if mark == 'e' || mark == 'E' then
      let (negative, ds) := match rest with
        | '-' :: ds => (true, ds)
        | '+' :: ds => (false, ds)
        | ds => (false, ds)
      if ds.isEmpty || !ds.all Char.isDigit then none
      else some (if negative then -(whole ds : Int) else whole ds)
    else none

/-- Reads a numeral without a sign: digits, a point among or beside them or none, and an exponent
or none. -/
def read? (cs : List Char) : Option Decimal :=
  let before := cs.takeWhile Char.isDigit
  let rest := cs.dropWhile Char.isDigit
  let (after, rest) := match rest with
    | '.' :: rest => (rest.takeWhile Char.isDigit, rest.dropWhile Char.isDigit)
    | rest => ([], rest)
  if before.isEmpty && after.isEmpty then none
  else (readExponent rest).map fun e => ⟨whole (before ++ after), e - after.length⟩

end Decimal

end EntityScript
