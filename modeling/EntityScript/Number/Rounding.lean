import EntityScript.Decimal

/-!
# Rounding to a double

A double of either sign is, up to its sign, `m · 2 ^ q` with `m < 2 ^ 53` and `-1074 ≤ q`. Its
pattern without the sign counts the doubles below it, which makes the pattern of `m · 2 ^ q`
one sum: `(q + 1074) · 2 ^ 52 + m`. It holds also where rounding carries into the next power of
two.
-/

namespace EntityScript.Number

/-- The pattern of positive infinity, and the number of finite doubles that are not negative. -/
def infinityPattern : Nat := 0x7FF0000000000000

/-- The exponent of the smallest double. -/
def leastExponent : Int := -1074

/-- The quotient of two numbers to the nearest whole number, a tie to the even one. -/
def roundedQuotient (num den : Nat) : Nat :=
  let q := num / den
  let r := num % den
  if 2 * r < den then q
  else if den < 2 * r then q + 1
  else q + q % 2

/-- The quotient `num / (den · 2 ^ q)` as a pair of whole numbers. -/
def overPowerOfTwo (num den : Nat) (q : Int) : Nat × Nat :=
  (num * twoTo (-q).toNat, den * twoTo q.toNat)

/-- The exponent of the unit to which a quotient is rounded: the quotient has at most 53 bits in
this unit, and the unit is the smallest such that a double can have. -/
def unitExponent (num den : Nat) : Int :=
  let estimate := max leastExponent ((Nat.log2 num : Int) - Nat.log2 den - 53)
  let (n, d) := overPowerOfTwo num den estimate
  if n / d < twoTo 53 then estimate else estimate + 1

/-- The pattern of the double nearest to a positive quotient, or of infinity beyond the largest. -/
def nearestToQuotient (num den : Nat) : Nat :=
  let q := unitExponent num den
  let (n, d) := overPowerOfTwo num den q
  min infinityPattern ((q - leastExponent).toNat * twoTo 52 + roundedQuotient n d)

/-- The pattern of the double nearest to a decimal, a tie to the even pattern. Ten is more than the
third power of two, so a large exponent alone shows that a decimal is at least `2 ^ 1024` or less
than half of the smallest double; the powers of ten are then not computed. -/
def nearest (d : Decimal) : Nat :=
  let magnitude := (Nat.log2 d.digits : Int) + 3 * d.exponent
  if d.digits = 0 then 0
  else if 0 ≤ d.exponent ∧ 1024 ≤ magnitude then infinityPattern
  else if d.exponent < 0 ∧ magnitude < -1076 then 0
  else nearestToQuotient (d.digits * tenTo d.exponent.toNat) (tenTo (-d.exponent).toNat)

end EntityScript.Number
