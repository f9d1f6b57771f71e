import EntityScript.Number
import Mathlib.Algebra.Order.Field.Power
import Mathlib.Algebra.Order.Field.Rat
import Mathlib.Tactic.Linarith
import Mathlib.Tactic.NormNum
import Mathlib.Tactic.Positivity
import Mathlib.Tactic.Ring

/-!
# Rounding into a neighbourhood

A double is `m · 2 ^ q` with `m` below `2 ^ 53`, and with `m` at least `2 ^ 52` unless `q` is least
(`Double`). Rounding takes every number in the neighbourhood of a double to the pattern of this
double: `nearest_of_contains`.

A number between `2 ^ (52 + q)` and `2 ^ (53 + q)` is rounded to units of `2 ^ q`. That is the unit
of the double as well, unless the double is a power of two and the number lies below it. Then the
unit is half as large, and the number is rounded up to the power of two.
-/

namespace EntityScript.Number

/-- A power of two by shifting is a power of two. -/
theorem twoTo_eq (n : ℕ) : twoTo n = 2 ^ n := rfl

/-- A power of ten is a power of ten. -/
theorem tenTo_eq (n : ℕ) : tenTo n = 10 ^ n := rfl

/-- A quotient is rounded to a whole number that is no further away than a half, and to an even one
if it is as far. -/
theorem roundedQuotient_eq {num den m : ℕ} (hlow : 2 * m * den ≤ 2 * num + den)
    (hhigh : 2 * num ≤ 2 * m * den + den) (hden : 0 < den)
    (htie : m % 2 = 0 ∨ 2 * m * den < 2 * num + den ∧ 2 * num < 2 * m * den + den) :
    roundedQuotient num den = m := by
  have hsplit : num = den * (num / den) + num % den := (Nat.div_add_mod num den).symm
  have hlt : num % den < den := Nat.mod_lt num hden
  unfold roundedQuotient
  dsimp only
  generalize num / den = q at *
  generalize num % den = r at *
  subst hsplit
  -- The quotient lies between `q` and `q + 1`, so these are the only candidates.
  have hle : q ≤ m := by
    by_contra hgt
    have : den * (m + 1) ≤ den * q := Nat.mul_le_mul_left den (by omega)
    nlinarith
  have hge : m ≤ q + 1 := by
    by_contra hgt
    have : den * (q + 2) ≤ den * m := Nat.mul_le_mul_left den (by omega)
    nlinarith
  obtain rfl | rfl : m = q ∨ m = q + 1 := by omega
  · have hhalf : 2 * r ≤ den := by nlinarith
    split
    · rfl
    · rw [if_neg (by omega)]
      have heven : m % 2 = 0 := htie.resolve_right fun h => by nlinarith [h.2]
      omega
  · have hhalf : den ≤ 2 * r := by nlinarith
    rw [if_neg (by omega)]
    split
    · rfl
    · have heven : (q + 1) % 2 = 0 := htie.resolve_right fun h => by nlinarith [h.1]
      omega

/-- The opposite of a natural number is cut off at zero. -/
theorem toNat_natCast_neg (k : ℕ) : (-(k : ℤ)).toNat = 0 := by omega

/-- The quotient in units of a power of two. -/
theorem cast_overPowerOfTwo (num den : ℕ) (q : ℤ) :
    ((overPowerOfTwo num den q).1 : ℚ) / (overPowerOfTwo num den q).2
      = (num : ℚ) / den / 2 ^ q := by
  obtain ⟨k, rfl | rfl⟩ := q.eq_nat_or_neg
  · simp only [overPowerOfTwo, toNat_natCast_neg, Int.toNat_natCast, twoTo_eq, pow_zero, mul_one,
      zpow_natCast]
    push_cast
    rw [div_div]
  · simp only [overPowerOfTwo, toNat_natCast_neg, Int.neg_neg, Int.toNat_natCast, twoTo_eq,
      pow_zero, mul_one, zpow_neg, zpow_natCast, div_inv_eq_mul]
    push_cast
    rw [mul_div_right_comm]

/-- A fraction over a power of two keeps a positive denominator. -/
theorem overPowerOfTwo_pos (num : ℕ) {den : ℕ} (hden : 0 < den) (q : ℤ) :
    0 < (overPowerOfTwo num den q).2 :=
  Nat.mul_pos hden (Nat.pow_pos (by decide))

/-- Powers of two are positive. -/
theorem two_zpow_pos (q : ℤ) : (0 : ℚ) < 2 ^ q := zpow_pos (by norm_num) q

/-- Powers of two grow with their exponents. -/
theorem two_zpow_le {p q : ℤ} (h : p ≤ q) : (2 : ℚ) ^ p ≤ 2 ^ q :=
  zpow_le_zpow_right₀ (by norm_num) h

/-- Powers of two multiply by adding their exponents. -/
theorem two_zpow_add (p q : ℤ) : (2 : ℚ) ^ (p + q) = 2 ^ p * 2 ^ q := zpow_add₀ (by norm_num) p q

/-- A smaller power of two has a smaller exponent. -/
theorem lt_of_two_zpow_lt {p q : ℤ} (h : (2 : ℚ) ^ p < 2 ^ q) : p < q :=
  (zpow_lt_zpow_iff_right₀ (by norm_num)).1 h

/-- A number lies between the powers of two that its logarithm names. -/
theorem zpow_log2_le {n : ℕ} (hn : 0 < n) :
    (2 : ℚ) ^ (Nat.log2 n : ℤ) ≤ n ∧ (n : ℚ) < 2 ^ ((Nat.log2 n : ℤ) + 1) := by
  have hlow : 2 ^ Nat.log2 n ≤ n := Nat.log2_self_le (Nat.ne_of_gt hn)
  have hhigh : n < 2 ^ (Nat.log2 n + 1) := Nat.lt_log2_self
  exact ⟨by exact_mod_cast hlow, by exact_mod_cast hhigh⟩

/-- A quotient lies between the powers of two that the logarithms of its parts name. -/
theorem div_bounds {num den : ℕ} (hnum : 0 < num) (hden : 0 < den) :
    (2 : ℚ) ^ ((Nat.log2 num : ℤ) - Nat.log2 den - 1) < (num : ℚ) / den ∧
      (num : ℚ) / den < 2 ^ ((Nat.log2 num : ℤ) - Nat.log2 den + 1) := by
  have hpos : (0 : ℚ) < den := by exact_mod_cast hden
  obtain ⟨hnlow, hnhigh⟩ := zpow_log2_le hnum
  obtain ⟨hdlow, hdhigh⟩ := zpow_log2_le hden
  generalize (Nat.log2 num : ℤ) = a at *
  generalize (Nat.log2 den : ℤ) = b at *
  constructor
  · rw [lt_div_iff₀ hpos]
    calc (2 : ℚ) ^ (a - b - 1) * den < 2 ^ (a - b - 1) * 2 ^ (b + 1) :=
          mul_lt_mul_of_pos_left hdhigh (two_zpow_pos _)
      _ = 2 ^ a := by rw [← two_zpow_add]; congr 1; ring
      _ ≤ num := hnlow
  · rw [div_lt_iff₀ hpos]
    calc (num : ℚ) < 2 ^ (a + 1) := hnhigh
      _ = 2 ^ (a - b + 1) * 2 ^ b := by rw [← two_zpow_add]; congr 1; ring
      _ ≤ 2 ^ (a - b + 1) * den := mul_le_mul_of_nonneg_left hdlow (two_zpow_pos _).le

/-- The unit of a quotient is the least of all units, or the quotient has 53 bits in it. It never
has more. -/
theorem unitExponent_spec {num den : ℕ} (hnum : 0 < num) (hden : 0 < den) :
    leastExponent ≤ unitExponent num den ∧
      (num : ℚ) / den < 2 ^ (53 + unitExponent num den) ∧
      (unitExponent num den = leastExponent ∨
        (2 : ℚ) ^ (52 + unitExponent num den) ≤ (num : ℚ) / den) := by
  obtain ⟨hlow, hhigh⟩ := div_bounds hnum hden
  unfold unitExponent
  dsimp only
  generalize hestimate : max leastExponent ((Nat.log2 num : ℤ) - Nat.log2 den - 53) = estimate
  have hfits : (overPowerOfTwo num den estimate).1 / (overPowerOfTwo num den estimate).2
      < twoTo 53 ↔ (num : ℚ) / den < 2 ^ (53 + estimate) := by
    have hpos := overPowerOfTwo_pos num hden estimate
    have hq : (0 : ℚ) < (overPowerOfTwo num den estimate).2 := by exact_mod_cast hpos
    have hcast := cast_overPowerOfTwo num den estimate
    rw [Nat.div_lt_iff_lt_mul hpos, two_zpow_add, ← div_lt_iff₀ (two_zpow_pos _), ← hcast,
      div_lt_iff₀ hq, twoTo_eq]
    exact_mod_cast Iff.rfl
  split
  · rename_i hlt
    refine ⟨by omega, hfits.1 hlt, ?_⟩
    by_cases hleast : estimate = leastExponent
    · exact .inl hleast
    · exact .inr ((two_zpow_le (by omega)).trans hlow.le)
  · rename_i hge
    refine ⟨by omega, hhigh.trans_le (two_zpow_le (by omega)), .inr ?_⟩
    have hmany : (2 : ℚ) ^ (53 + estimate) ≤ (num : ℚ) / den :=
      le_of_not_gt fun h => hge (hfits.2 h)
    rwa [show (52 : ℤ) + (estimate + 1) = 53 + estimate by ring]

/-- The number `m · 2 ^ q` is a positive double, and `q` is the exponent of its unit. -/
structure Double (m : ℕ) (q : ℤ) : Prop where
  pos : 0 < m
  bits : m < 2 ^ 53
  least : leastExponent ≤ q
  most : q ≤ 971
  normal : q = leastExponent ∨ 2 ^ 52 ≤ m

/-- The pattern of a double. -/
def doublePattern (m : ℕ) (q : ℤ) : ℕ := (q - leastExponent).toNat * 2 ^ 52 + m

namespace Neighbourhood

/-- A number lies in an interval, if the ends do not belong to it between them. -/
def Contains (i : Neighbourhood) (v : ℚ) : Prop :=
  (i.low * 2 ^ i.exponent < v ∨ i.closed = true ∧ i.low * 2 ^ i.exponent ≤ v) ∧
    (v < i.high * 2 ^ i.exponent ∨ i.closed = true ∧ v ≤ i.high * 2 ^ i.exponent)

/-- What lies in the neighbourhood of a double is at most half a unit away from it, and at most a
quarter below it if the doubles below lie twice as close. Half a unit away are only numbers in the
neighbourhood of an even double. -/
theorem Contains.bounds {m : ℕ} {q : ℤ} {v : ℚ} (h : (ofDouble m q).Contains v) (hm : 0 < m) :
    ((m : ℚ) - 1 / 2) * 2 ^ q ≤ v ∧ v ≤ ((m : ℚ) + 1 / 2) * 2 ^ q ∧
      (m % 2 = 0 ∨ ((m : ℚ) - 1 / 2) * 2 ^ q < v ∧ v < ((m : ℚ) + 1 / 2) * 2 ^ q) ∧
      (m = 2 ^ 52 → leastExponent < q → ((m : ℚ) - 1 / 4) * 2 ^ q ≤ v) := by
  have hquarter : (2 : ℚ) ^ q = 4 * 2 ^ (ofDouble m q).exponent := by
    rw [show q = 2 + (q - 2) by ring, two_zpow_add]
    norm_num [ofDouble]
  have hpos := two_zpow_pos (ofDouble m q).exponent
  have hhigh : ((m : ℚ) + 1 / 2) * 2 ^ q = (ofDouble m q).high * 2 ^ (ofDouble m q).exponent := by
    rw [hquarter]
    simp only [ofDouble]
    push_cast
    ring
  have hlow : ((m : ℚ) - 1 / 2) * 2 ^ q ≤ (ofDouble m q).low * 2 ^ (ofDouble m q).exponent := by
    have hle : 4 * m ≤ (ofDouble m q).low + 2 := by
      simp only [ofDouble]
      split <;> omega
    have hcast : (4 : ℚ) * m ≤ (ofDouble m q).low + 2 := by exact_mod_cast hle
    rw [hquarter]
    nlinarith
  -- Below a power of two doubles lie twice as close, so the lower end is half as far away.
  have hclose : m = 2 ^ 52 → leastExponent < q →
      ((m : ℚ) - 1 / 4) * 2 ^ q = (ofDouble m q).low * 2 ^ (ofDouble m q).exponent := by
    intro hpower hunit
    have heq : (ofDouble m q).low + 1 = 4 * m := by
      simp only [ofDouble]
      rw [if_pos ⟨hpower, hunit⟩]
      omega
    have hcast : ((ofDouble m q).low : ℚ) + 1 = 4 * m := by exact_mod_cast heq
    rw [hquarter, eq_sub_of_add_eq hcast]
    ring
  have hodd : (ofDouble m q).closed = true → m % 2 = 0 := by simp [ofDouble]
  obtain ⟨hfrom, hto⟩ := h
  have hfrom' := hfrom.elim le_of_lt And.right
  have hto' := hto.elim le_of_lt And.right
  refine ⟨hlow.trans hfrom', hhigh ▸ hto', ?_, fun hpower hunit => hclose hpower hunit ▸ hfrom'⟩
  rw [hhigh]
  by_cases heven : m % 2 = 0
  · exact .inl heven
  · exact .inr ⟨hlow.trans_lt (hfrom.resolve_right fun h => heven (hodd h.1)),
      hto.resolve_right fun h => heven (hodd h.1)⟩

end Neighbourhood

variable {m : ℕ} {q : ℤ}

/-- Rounding to units of a power of two. -/
theorem roundedQuotient_overPowerOfTwo (num : ℕ) {den k : ℕ} (hden : 0 < den) (u : ℤ)
    (hlow : ((k : ℚ) - 1 / 2) * 2 ^ u ≤ num / den) (hhigh : (num : ℚ) / den ≤ (k + 1 / 2) * 2 ^ u)
    (htie : k % 2 = 0 ∨
      ((k : ℚ) - 1 / 2) * 2 ^ u < num / den ∧ (num : ℚ) / den < (k + 1 / 2) * 2 ^ u) :
    roundedQuotient (overPowerOfTwo num den u).1 (overPowerOfTwo num den u).2 = k := by
  have hpos := overPowerOfTwo_pos num hden u
  have hcast := cast_overPowerOfTwo num den u
  have hunit := two_zpow_pos u
  generalize (overPowerOfTwo num den u).1 = a at *
  generalize (overPowerOfTwo num den u).2 = b at *
  have hb : (0 : ℚ) < b := by exact_mod_cast hpos
  rw [eq_div_iff hunit.ne'] at hcast
  rw [← hcast] at hlow hhigh htie
  rw [mul_le_mul_iff_left₀ hunit] at hlow hhigh
  rw [mul_lt_mul_iff_left₀ hunit, mul_lt_mul_iff_left₀ hunit] at htie
  rw [le_div_iff₀ hb] at hlow
  rw [div_le_iff₀ hb] at hhigh
  rw [lt_div_iff₀ hb, div_lt_iff₀ hb] at htie
  refine roundedQuotient_eq ?_ ?_ hpos (htie.imp_right fun h => ⟨?_, ?_⟩)
  · have : (2 * k * b : ℚ) ≤ 2 * a + b := by linarith
    exact_mod_cast this
  · have : (2 * a : ℚ) ≤ 2 * k * b + b := by linarith
    exact_mod_cast this
  · have : (2 * k * b : ℚ) < 2 * a + b := by linarith [h.1]
    exact_mod_cast this
  · have : (2 * a : ℚ) < 2 * k * b + b := by linarith [h.2]
    exact_mod_cast this

/-- The pattern of a double is below that of infinity. -/
theorem Double.pattern_lt (h : Double m q) : doublePattern m q < infinityPattern := by
  obtain ⟨-, hbits, hleast, hmost, -⟩ := h
  unfold doublePattern infinityPattern leastExponent at *
  omega

/-- A number in the neighbourhood of a double is rounded to the unit of the double, or else to half
of it, just below a power of two that is the double. -/
theorem Double.unit_cases (h : Double m q) {v : ℚ} (hv : (Neighbourhood.ofDouble m q).Contains v)
    {u : ℤ} (hleast : leastExponent ≤ u) (hless : v < 2 ^ (53 + u))
    (hmore : u = leastExponent ∨ (2 : ℚ) ^ (52 + u) ≤ v) :
    u = q ∨ m = 2 ^ 52 ∧ u = q - 1 ∧ v < 2 ^ (52 : ℤ) * 2 ^ q := by
  obtain ⟨hlow, hhigh, -, hclose⟩ := hv.bounds h.pos
  have hunit := two_zpow_pos q
  have hle : u ≤ q := by
    obtain rfl | hmore := hmore
    · exact h.least
    · have hbits : (m : ℚ) + 1 ≤ 2 ^ (53 : ℤ) := by exact_mod_cast h.bits
      have hlt : (2 : ℚ) ^ (52 + u) < 2 ^ (53 + q) := by
        rw [two_zpow_add 53 q]
        nlinarith
      have := lt_of_two_zpow_lt hlt
      omega
  obtain rfl | hlt := hle.eq_or_lt
  · exact .inl rfl
  · have hbelow : v < 2 ^ (52 : ℤ) * 2 ^ q := by
      rw [← two_zpow_add]
      exact hless.trans_le (two_zpow_le (by omega))
    have hpower : m = 2 ^ 52 := by
      have hnormal : 2 ^ 52 ≤ m := h.normal.resolve_left (by omega)
      by_contra hne
      have hgt : (2 : ℚ) ^ (52 : ℤ) + 1 ≤ m := by
        have : 2 ^ 52 + 1 ≤ m := by omega
        exact_mod_cast this
      nlinarith
    refine .inr ⟨hpower, ?_, hbelow⟩
    have hlt : (2 : ℚ) ^ (51 + q) < 2 ^ (53 + u) := by
      refine lt_of_lt_of_le ?_ ((hclose hpower (by omega)).trans hless.le)
      rw [hpower, two_zpow_add]
      norm_num
      nlinarith
    have := lt_of_two_zpow_lt hlt
    omega

/-- A number in the neighbourhood of a double is rounded to the double. Just below a power of two it
is rounded up to the next power of the unit, which has the same pattern. -/
theorem nearestToQuotient_eq (h : Double m q) {num den : ℕ} (hnum : 0 < num) (hden : 0 < den)
    (hv : (Neighbourhood.ofDouble m q).Contains ((num : ℚ) / den)) :
    nearestToQuotient num den = doublePattern m q := by
  obtain ⟨hlow, hhigh, htie, hclose⟩ := hv.bounds h.pos
  obtain ⟨hleast, hless, hmore⟩ := unitExponent_spec hnum hden
  have hunits := h.unit_cases hv hleast hless hmore
  unfold nearestToQuotient
  dsimp only
  generalize unitExponent num den = u at *
  obtain rfl | ⟨hpower, rfl, hbelow⟩ := hunits
  · rw [roundedQuotient_overPowerOfTwo num hden u hlow hhigh htie]
    exact min_eq_right h.pattern_lt.le
  · have hquarter := hclose hpower (by omega)
    have htwice : (2 : ℚ) ^ q = 2 * 2 ^ (q - 1) := by
      rw [show q = 1 + (q - 1) by ring, two_zpow_add]
      norm_num
    have hround := roundedQuotient_overPowerOfTwo num (k := 2 ^ 53) hden (q - 1)
      (by rw [hpower, htwice] at hquarter; norm_num at hquarter ⊢; linarith)
      (by rw [htwice] at hbelow; norm_num at hbelow ⊢; linarith [two_zpow_pos (q - 1)])
      (.inl (by decide))
    have hpattern : (q - 1 - leastExponent).toNat * twoTo 52 + 2 ^ 53 = doublePattern m q := by
      rw [twoTo_eq, hpower, doublePattern]
      omega
    rw [hround, hpattern]
    exact min_eq_right h.pattern_lt.le

/-- The number that a decimal stands for. -/
def decimalValue (d : Decimal) : ℚ := d.digits * 10 ^ d.exponent

/-- A decimal stands for a fraction of natural numbers. -/
theorem decimalValue_eq_div (d : Decimal) : decimalValue d
    = ((d.digits * tenTo d.exponent.toNat : ℕ) : ℚ) / (tenTo (-d.exponent).toNat : ℕ) := by
  obtain ⟨n, e⟩ := d
  obtain ⟨k, rfl | rfl⟩ := e.eq_nat_or_neg
  · simp [decimalValue, tenTo_eq]
  · simp [decimalValue, tenTo_eq, div_eq_mul_inv]

/-- Ten is more than the third power of two. -/
theorem eight_zpow_le {e : ℤ} (he : 0 ≤ e) : (2 : ℚ) ^ (3 * e) ≤ 10 ^ e := by
  rw [zpow_mul]
  exact zpow_le_zpow_left₀ he (by norm_num) (by norm_num)

/-- A power of ten that is at most one is at most the power of eight with its exponent. -/
theorem ten_zpow_le {e : ℤ} (he : e ≤ 0) : (10 : ℚ) ^ e ≤ 2 ^ (3 * e) := by
  have h := eight_zpow_le (e := -e) (by omega)
  have hten : (10 : ℚ) ^ e = (10 ^ (-e))⁻¹ := by rw [zpow_neg, inv_inv]
  have htwo : (2 : ℚ) ^ (3 * e) = (2 ^ (3 * -e))⁻¹ := by
    rw [show 3 * -e = -(3 * e) by ring, zpow_neg, inv_inv]
  rw [hten, htwo]
  exact inv_anti₀ (two_zpow_pos _) h

/-- Numbers in the neighbourhood of a double are at least half of the smallest double, and less than
what rounds to infinity. -/
theorem Double.bounds (h : Double m q) {v : ℚ} (hv : (Neighbourhood.ofDouble m q).Contains v) :
    (2 : ℚ) ^ (-1075 : ℤ) ≤ v ∧ v < 2 ^ (1024 : ℤ) := by
  obtain ⟨hlow, hhigh, -, -⟩ := hv.bounds h.pos
  have hunit := two_zpow_pos q
  constructor
  · have hone : (1 : ℚ) ≤ m := by exact_mod_cast h.pos
    have hleast : (2 : ℚ) ^ (-1074 : ℤ) ≤ 2 ^ q := two_zpow_le h.least
    have htwice : (2 : ℚ) ^ (-1074 : ℤ) = 2 * 2 ^ (-1075 : ℤ) := by
      rw [show (-1074 : ℤ) = 1 + -1075 by norm_num, two_zpow_add]
      norm_num
    nlinarith
  · have hbits : (m : ℚ) + 1 ≤ 2 ^ (53 : ℤ) := by exact_mod_cast h.bits
    calc v ≤ (m + 1 / 2) * 2 ^ q := hhigh
      _ < 2 ^ (53 : ℤ) * 2 ^ q := mul_lt_mul_of_pos_right (by linarith) hunit
      _ = 2 ^ (53 + q) := (two_zpow_add 53 q).symm
      _ ≤ 2 ^ (1024 : ℤ) := two_zpow_le (by have := h.most; omega)

/-- A decimal lies between the powers of two that the logarithm of its digits and three times its
exponent name, each on the side on which the sign of the exponent puts it. -/
theorem decimalValue_bounds {d : Decimal} (hpos : 0 < d.digits) :
    (0 ≤ d.exponent → (2 : ℚ) ^ ((Nat.log2 d.digits : ℤ) + 3 * d.exponent) ≤ decimalValue d) ∧
    (d.exponent < 0 →
      decimalValue d < 2 ^ ((Nat.log2 d.digits : ℤ) + 1 + 3 * d.exponent)) := by
  obtain ⟨hfrom, hto⟩ := zpow_log2_le hpos
  constructor
  · intro hnonneg
    rw [two_zpow_add, decimalValue]
    exact mul_le_mul hfrom (eight_zpow_le hnonneg) (two_zpow_pos _).le (Nat.cast_nonneg _)
  · intro hneg
    rw [two_zpow_add, decimalValue]
    have hten : (0 : ℚ) < 10 ^ d.exponent := zpow_pos (by norm_num) _
    exact mul_lt_mul hto (ten_zpow_le hneg.le) hten (two_zpow_pos _).le

/-- A decimal in the neighbourhood of a double is rounded to the double. -/
theorem nearest_of_contains (h : Double m q) {d : Decimal}
    (hv : (Neighbourhood.ofDouble m q).Contains (decimalValue d)) :
    nearest d = doublePattern m q := by
  obtain ⟨hhalf, hmost⟩ := h.bounds hv
  have hpos : 0 < d.digits := by
    refine Nat.pos_of_ne_zero fun hzero => ?_
    rw [decimalValue, hzero, Nat.cast_zero, zero_mul] at hhalf
    exact absurd hhalf (not_le.2 (two_zpow_pos _))
  obtain ⟨hmore, hless⟩ := decimalValue_bounds hpos
  unfold nearest
  dsimp only
  rw [if_neg (Nat.ne_of_gt hpos), if_neg, if_neg]
  · rw [decimalValue_eq_div] at hv
    exact nearestToQuotient_eq h (Nat.mul_pos hpos (Nat.pow_pos (by decide)))
      (Nat.pow_pos (by decide)) hv
  · rintro ⟨hneg, hsmall⟩
    have := lt_of_two_zpow_lt (hhalf.trans_lt (hless hneg))
    omega
  · rintro ⟨hnonneg, hlarge⟩
    have := lt_of_two_zpow_lt ((hmore hnonneg).trans_lt hmost)
    omega

end EntityScript.Number
