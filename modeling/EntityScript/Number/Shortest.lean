import EntityScript.Decimal

/-!
# The shortest decimal of a double

The reals that round to the double `m · 2 ^ q` form an interval around it, with its ends if `m`
is even. Among the decimals of the interval those with the largest unit are the shortest. They
are found by testing the two neighbours of the double among the multiples of each power of ten,
the largest power first; if both lie in the interval the nearer is taken, and the upper of two
equally near ones.
-/

namespace EntityScript.Number

/-- An interval of reals around a double in quarters of its unit `2 ^ q`. -/
structure Neighbourhood where
  /-- The double, in quarters of its unit. -/
  value : Nat
  /-- The lower end. -/
  low : Nat
  /-- The upper end. -/
  high : Nat
  /-- Whether the ends belong to it. -/
  closed : Bool
  /-- The exponent of a quarter of the unit. -/
  exponent : Int
  deriving DecidableEq, Repr

/-- The reals that round to `m · 2 ^ q`. Below a power of two the doubles lie twice as close,
except among the smallest. -/
def Neighbourhood.ofDouble (m : Nat) (q : Int) : Neighbourhood where
  value := 4 * m
  low := if m = twoTo 52 ∧ -1074 < q then 4 * m - 1 else 4 * m - 2
  high := 4 * m + 2
  closed := m % 2 == 0
  exponent := q - 2

namespace Neighbourhood

/-- Whether the first number is below the second, or equal to it where ends count. -/
def notAbove (i : Neighbourhood) (a b : Nat) : Bool := if i.closed then a ≤ b else a < b

/-- The multiple of `10 ^ s` in the interval that is nearest to the double, if there is one. -/
def multipleAt (i : Neighbourhood) (s : Int) : Option Decimal :=
  let point := tenTo s.toNat * twoTo (-i.exponent).toNat
  let quarter := twoTo i.exponent.toNat * tenTo (-s).toNat
  let below := i.value * quarter / point
  let inside (c : Nat) : Bool :=
    0 < c && i.notAbove (i.low * quarter) (c * point) && i.notAbove (c * point) (i.high * quarter)
  let upperIsNearer := (2 * below + 1) * point ≤ 2 * (i.value * quarter)
  if inside (below + 1) && (upperIsNearer || !inside below) then some ⟨below + 1, s⟩
  else if inside below then some ⟨below, s⟩
  else none

/-- The powers of ten to try for a double with `bits` binary digits before its unit: from one
above the double down to one that divides it. -/
def powers (m : Nat) (q : Int) : List Int :=
  let top := ((Nat.log2 m : Int) + q + 1) * 1233 / 4096 + 1
  let bottom := min q 0
  (List.range ((top - bottom).toNat + 1)).map fun (k : Nat) => top - k

end Neighbourhood

/-- The shortest decimal that rounds to the positive double `m · 2 ^ q`. -/
def shortest (m : Nat) (q : Int) : Decimal :=
  let i := Neighbourhood.ofDouble m q
  ((Neighbourhood.powers m q).findSome? i.multipleAt).getD ⟨0, 0⟩

end EntityScript.Number
