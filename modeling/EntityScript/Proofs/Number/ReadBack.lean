import EntityScript.Proofs.Number.Rounded
import EntityScript.Proofs.Token.Scanned
import Mathlib.Data.Nat.Bitwise

/-!
# Numbers are read back as they are printed

The digits that a number is printed with stand for a decimal in its neighbourhood, because every
candidate is tested for that before it is taken, and the last power of ten to be tried always has
one: the double itself is a multiple of it. Reading rounds the decimal to the double again, so that
finite numbers come back bit for bit, zeros of both signs among them.
-/

namespace EntityScript.Number

/-- A power with an integer exponent is a quotient of powers with natural ones. -/
theorem pow_toNat {b : ℚ} (hb : b ≠ 0) (n : ℤ) : b ^ n.toNat = b ^ n * b ^ (-n).toNat := by
  obtain ⟨k, rfl | rfl⟩ := n.eq_nat_or_neg
  · simp
  · simp [hb]

namespace Neighbourhood

variable {i : Neighbourhood} {s : ℤ}

/-- Numbers of quarters and multiples of a power of ten are compared as whole numbers. -/
theorem compare_multiple (x s : ℤ) (n c : ℕ) :
    (n * (twoTo x.toNat * tenTo (-s).toNat) < c * (tenTo s.toNat * twoTo (-x).toNat) ↔
      (n : ℚ) * 2 ^ x < c * 10 ^ s) ∧
    (c * (tenTo s.toNat * twoTo (-x).toNat) < n * (twoTo x.toNat * tenTo (-s).toNat) ↔
      (c : ℚ) * 10 ^ s < n * 2 ^ x) := by
  have hscale : (0 : ℚ) < 2 ^ (-x).toNat * 10 ^ (-s).toNat := by positivity
  have hn : ((n * (twoTo x.toNat * tenTo (-s).toNat) : ℕ) : ℚ)
      = n * 2 ^ x * (2 ^ (-x).toNat * 10 ^ (-s).toNat) := by
    rw [twoTo_eq, tenTo_eq]
    push_cast
    rw [pow_toNat (by norm_num) x]
    ring
  have hc : ((c * (tenTo s.toNat * twoTo (-x).toNat) : ℕ) : ℚ)
      = c * 10 ^ s * (2 ^ (-x).toNat * 10 ^ (-s).toNat) := by
    rw [twoTo_eq, tenTo_eq]
    push_cast
    rw [pow_toNat (by norm_num) s]
    ring
  constructor
  · rw [← Nat.cast_lt (α := ℚ), hn, hc, mul_lt_mul_iff_left₀ hscale]
  · rw [← Nat.cast_lt (α := ℚ), hn, hc, mul_lt_mul_iff_left₀ hscale]

/-- Only decimals in the interval are answered. -/
theorem contains_of_multipleAt {d : Decimal} (h : i.multipleAt s = some d) :
    i.Contains (decimalValue d) := by
  have hinside : ∀ c : ℕ,
      (0 < c && i.notAbove (i.low * (twoTo i.exponent.toNat * tenTo (-s).toNat))
          (c * (tenTo s.toNat * twoTo (-i.exponent).toNat))
        && i.notAbove (c * (tenTo s.toNat * twoTo (-i.exponent).toNat))
          (i.high * (twoTo i.exponent.toNat * tenTo (-s).toNat))) = true →
      i.Contains (decimalValue ⟨c, s⟩) := by
    intro c hc
    obtain ⟨hlow, hlow'⟩ := compare_multiple i.exponent s i.low c
    obtain ⟨hhigh, hhigh'⟩ := compare_multiple i.exponent s i.high c
    simp only [Bool.and_eq_true, notAbove] at hc
    obtain ⟨⟨-, hfrom⟩, hto⟩ := hc
    refine ⟨?_, ?_⟩
    · split at hfrom
      · rename_i hclosed
        refine .inr ⟨hclosed, not_lt.1 fun hlt => ?_⟩
        exact absurd (of_decide_eq_true hfrom) (Nat.not_le.2 (hlow'.2 hlt))
      · exact .inl (hlow.1 (of_decide_eq_true hfrom))
    · split at hto
      · rename_i hclosed
        refine .inr ⟨hclosed, not_lt.1 fun hlt => ?_⟩
        exact absurd (of_decide_eq_true hto) (Nat.not_le.2 (hhigh.2 hlt))
      · exact .inl (hhigh'.1 (of_decide_eq_true hto))
  unfold multipleAt at h
  dsimp only at h
  split at h
  · rename_i hupper
    cases h
    exact hinside _ (Bool.and_eq_true_iff.1 hupper).1
  · split at h
    · rename_i hlower
      cases h
      exact hinside _ hlower
    · cases h

/-- What is less than an end of the interval is not above it. -/
theorem notAbove_of_lt {a b : ℕ} (h : a < b) : i.notAbove a b = true := by
  unfold notAbove
  split
  · exact decide_eq_true h.le
  · exact decide_eq_true h

/-- An interval around a multiple of a power of ten has one to answer. -/
theorem isSome_multipleAt_of_dvd (hlow : i.low < i.value) (hhigh : i.value < i.high)
    (hdvd : tenTo s.toNat * twoTo (-i.exponent).toNat ∣
      i.value * (twoTo i.exponent.toNat * tenTo (-s).toNat)) : (i.multipleAt s).isSome := by
  unfold multipleAt
  dsimp only
  have hquarter : 0 < twoTo i.exponent.toNat * tenTo (-s).toNat :=
    Nat.mul_pos (Nat.pow_pos (by decide)) (Nat.pow_pos (by decide))
  have hpoint : 0 < tenTo s.toNat * twoTo (-i.exponent).toNat :=
    Nat.mul_pos (Nat.pow_pos (by decide)) (Nat.pow_pos (by decide))
  generalize twoTo i.exponent.toNat * tenTo (-s).toNat = quarter at *
  generalize tenTo s.toNat * twoTo (-i.exponent).toNat = point at *
  have hvalue : 0 < i.value * quarter := Nat.mul_pos (by omega) hquarter
  have hbelow : 0 < i.value * quarter / point :=
    Nat.div_pos (Nat.le_of_dvd hvalue hdvd) hpoint
  have hinside : (decide (0 < i.value * quarter / point)
      && i.notAbove (i.low * quarter) (i.value * quarter / point * point)
      && i.notAbove (i.value * quarter / point * point) (i.high * quarter)) = true := by
    rw [Nat.div_mul_cancel hdvd, notAbove_of_lt (Nat.mul_lt_mul_of_pos_right hlow hquarter),
      notAbove_of_lt (Nat.mul_lt_mul_of_pos_right hhigh hquarter), decide_eq_true hbelow]
    rfl
  split
  · rfl
  · rfl

variable {m : ℕ} {q : ℤ}

/-- A double is a multiple of the last power of ten that is tried. -/
theorem dvd_ofDouble (m : ℕ) (q : ℤ) :
    tenTo (min q 0).toNat * twoTo (-(ofDouble m q).exponent).toNat ∣
      (ofDouble m q).value * (twoTo (ofDouble m q).exponent.toNat * tenTo (-min q 0).toNat) := by
  have hone : tenTo (min q 0).toNat = 1 := by
    rw [show (min q 0).toNat = 0 by omega]
    rfl
  obtain hneg | hsmall | hlarge : q < 0 ∨ (0 ≤ q ∧ q < 2) ∨ 2 ≤ q := by omega
  · -- A tenth is half of a fifth.
    have hten : tenTo (-min q 0).toNat = 2 ^ (-q).toNat * 5 ^ (-q).toNat := by
      rw [show min q 0 = q by omega, tenTo_eq, ← Nat.mul_pow]
    have htwo : twoTo (-(ofDouble m q).exponent).toNat = 4 * 2 ^ (-q).toNat := by
      rw [ofDouble, show (-(q - 2)).toNat = 2 + (-q).toNat by omega, twoTo_eq, Nat.pow_add]
    rw [hone, hten, htwo, ofDouble, Nat.one_mul]
    exact ⟨m * (twoTo (q - 2).toNat * 5 ^ (-q).toNat), by ring⟩
  · have htwo : twoTo (-(ofDouble m q).exponent).toNat ∣ 4 := by
      obtain rfl | rfl : q = 0 ∨ q = 1 := by omega
      · exact ⟨1, rfl⟩
      · exact ⟨2, rfl⟩
    rw [hone, Nat.one_mul]
    exact (htwo.mul_right m).mul_right _
  · have htwo : twoTo (-(ofDouble m q).exponent).toNat = 1 := by
      rw [ofDouble, show (-(q - 2)).toNat = 0 by omega]
      rfl
    rw [hone, htwo]
    exact Nat.one_dvd _

/-- The interval of a double has a multiple of the power of ten whose exponent is that of its unit,
or zero. -/
theorem isSome_multipleAt (h : Double m q) :
    ((ofDouble m q).multipleAt (min q 0)).isSome := by
  have hpos := h.pos
  refine isSome_multipleAt_of_dvd ?_ (Nat.lt_add_of_pos_right (by decide)) (dvd_ofDouble m q)
  simp only [ofDouble]
  split <;> omega

/-- The powers of ten that are tried come down to that one. -/
theorem mem_powers (m : ℕ) (q : ℤ) : min q 0 ∈ powers m q := by
  have htop : min q 0 ≤ ((Nat.log2 m : ℤ) + q + 1) * 1233 / 4096 + 1 := by omega
  unfold powers
  dsimp only
  refine List.mem_map.2 ⟨_, List.mem_range.2 (Nat.lt_succ_self _), ?_⟩
  omega

end Neighbourhood

/-- The shortest decimal of a double rounds to the double. -/
theorem contains_shortest {m : ℕ} {q : ℤ} (h : Double m q) :
    (Neighbourhood.ofDouble m q).Contains (decimalValue (shortest m q)) := by
  have hsome : ((Neighbourhood.powers m q).findSome?
      (Neighbourhood.ofDouble m q).multipleAt).isSome :=
    List.findSome?_isSome_iff.2
      ⟨min q 0, Neighbourhood.mem_powers m q, Neighbourhood.isSome_multipleAt h⟩
  obtain ⟨d, hd⟩ := Option.isSome_iff_exists.1 hsome
  obtain ⟨s, -, hs⟩ := List.exists_of_findSome?_eq_some hd
  have hshortest : shortest m q = d := by
    unfold shortest
    dsimp only
    rw [hd, Option.getD_some]
  rw [hshortest]
  exact Neighbourhood.contains_of_multipleAt hs

/-- Digits are read as a whole number by their decimal places. -/
theorem whole_eq_ofDigitChars (ds : List Char) : Decimal.whole ds = Nat.ofDigitChars 10 ds 0 := by
  have hstep : ∀ n, Decimal.wholeFrom n ds = Nat.ofDigitChars 10 ds n := by
    induction ds with
    | nil => exact fun _ => Nat.ofDigitChars_nil.symm
    | cons c ds ih =>
      intro n
      rw [Nat.ofDigitChars_cons, Nat.mul_comm, ← ih]
      rfl
  exact hstep 0

/-- A zero is a digit, however often it is repeated. -/
theorem isDigit_of_mem_replicate {n : ℕ} {c : Char} (h : c ∈ List.replicate n '0') :
    c.isDigit = true := by
  rw [List.eq_of_mem_replicate h]
  rfl

/-- The text of a decimal is a numeral, which is read as a decimal of the same value. -/
theorem read?_positional (d : Decimal) : Token.Numeral d.positional.toList ∧
    ∃ e, Decimal.read? d.positional.toList = some e ∧ decimalValue e = decimalValue d := by
  obtain ⟨n, e⟩ := d
  have hdigits : ∀ c ∈ Nat.toDigits 10 n, c.isDigit = true := fun c hc =>
    Nat.isDigit_of_mem_toDigits (by decide) (by decide) hc
  have hnonempty : Nat.toDigits 10 n ≠ [] := Nat.toDigits_ne_nil
  cases e with
  | ofNat zeros =>
    have hall : ∀ c ∈ Nat.toDigits 10 n ++ List.replicate zeros '0', c.isDigit = true :=
      fun c hc => (List.mem_append.1 hc).elim (hdigits c) isDigit_of_mem_replicate
    have hne : Nat.toDigits 10 n ++ List.replicate zeros '0' ≠ [] := by simp [hnonempty]
    rw [Decimal.positional, String.toList_ofList]
    refine ⟨.whole hall hne, _, Token.read?_whole hall hne, ?_⟩
    rw [whole_eq_ofDigitChars, Nat.ofDigitChars_append, Nat.ofDigitChars_ten_toDigits,
      Nat.ofDigitChars_replicate_zero, decimalValue, decimalValue]
    push_cast
    rw [Int.ofNat_eq_natCast, zpow_natCast, mul_one, mul_comm]
  | negSucc n' =>
    rw [Decimal.positional, String.toList_ofList, Decimal.withPoint]
    dsimp only
    -- Zeros in front make the digits more than the places behind the point.
    generalize hpadded : List.replicate (n' + 1 + 1 - (Nat.toDigits 10 n).length) '0'
      ++ Nat.toDigits 10 n = padded
    have hall : ∀ c ∈ padded, c.isDigit = true := by
      subst hpadded
      exact fun c hc => (List.mem_append.1 hc).elim isDigit_of_mem_replicate (hdigits c)
    have hlength : n' + 1 < padded.length := by
      rw [← hpadded, List.length_append, List.length_replicate]
      omega
    have hvalue : Decimal.whole padded = n := by
      rw [whole_eq_ofDigitChars, ← hpadded, Nat.ofDigitChars_append,
        Nat.ofDigitChars_replicate_zero, Nat.mul_zero, Nat.ofDigitChars_ten_toDigits]
    have hbefore : padded.take (padded.length - (n' + 1)) ≠ [] :=
      List.ne_nil_of_length_pos (by rw [List.length_take]; omega)
    have hplaces : (padded.drop (padded.length - (n' + 1))).length = n' + 1 := by
      rw [List.length_drop]
      omega
    have htaken := fun c hc => hall c (List.mem_of_mem_take (i := padded.length - (n' + 1)) hc)
    have hdropped := fun c hc => hall c (List.mem_of_mem_drop (i := padded.length - (n' + 1)) hc)
    refine ⟨.decimal htaken hbefore hdropped (List.ne_nil_of_length_pos (by omega)), _,
      Token.read?_point htaken hbefore hdropped, ?_⟩
    rw [List.take_append_drop, hvalue, hplaces]
    rfl

/-- A pattern below that of infinity is that of zero or of one double. -/
theorem exists_double {p : ℕ} (h : p < infinityPattern) (hp : p ≠ 0) :
    ∃ m q, Double m q ∧ doublePattern m q = p ∧ patternText p = (shortest m q).positional := by
  have hsplit : p = 2 ^ 52 * (p / twoTo 52) + p % twoTo 52 := (Nat.div_add_mod p _).symm
  have hfraction : p % twoTo 52 < 2 ^ 52 := Nat.mod_lt _ (by decide)
  have hpositional : patternText p = if p / twoTo 52 = 0
      then (shortest (p % twoTo 52) leastExponent).positional
      else (shortest (twoTo 52 + p % twoTo 52)
        (((p / twoTo 52 : ℕ) : ℤ) - 1 + leastExponent)).positional := by
    unfold patternText
    dsimp only
    rw [if_neg (by omega), if_neg (by omega), if_neg hp]
  rw [hpositional, twoTo_eq] at *
  generalize p % 2 ^ 52 = fraction at *
  generalize p / 2 ^ 52 = exponent at *
  have hexponent : exponent < 2047 := by
    unfold infinityPattern at h
    omega
  obtain rfl | hne := Nat.eq_zero_or_pos exponent
  · refine ⟨fraction, leastExponent, ⟨by omega, by omega, by decide, by decide, .inl rfl⟩, ?_, rfl⟩
    unfold doublePattern
    omega
  · refine ⟨2 ^ 52 + fraction, (exponent : ℤ) - 1 + leastExponent,
      ⟨by omega, by omega, by omega, ?_, .inr (by omega)⟩, ?_, if_neg (by omega)⟩
    · unfold leastExponent
      omega
    · unfold doublePattern
      omega

/-- A digit is the same in lower case. -/
theorem toLower_of_isDigit {c : Char} (h : c.isDigit = true) : c.toLower = c := by
  unfold Char.toLower
  rw [dif_neg]
  intro hupper
  have hdigit := (Bool.and_eq_true_iff.1 h).2
  exact absurd (UInt32.le_trans hupper.1 (of_decide_eq_true hdigit)) (by decide)

/-- No name of a value that is not finite begins with a digit. -/
theorem readPattern_of_numeral {cs : List Char} (h : Token.Numeral cs) :
    readPattern cs = (Decimal.read? cs).map nearest := by
  obtain ⟨c, rest, rfl, hc⟩ := h.exists_cons
  have hname : ∀ d ds, d.isDigit = false →
      String.ofList ((c :: rest).map Char.toLower) ≠ String.ofList (d :: ds) := by
    intro d ds hd heq
    have hhead := (List.cons.inj (String.ofList_injective heq)).1
    rw [toLower_of_isDigit hc] at hhead
    rw [hhead, hd] at hc
    cases hc
  unfold readPattern
  dsimp only
  rw [if_neg, if_neg]
  · exact hname 'n' _ rfl
  · rw [Bool.or_eq_true, decide_eq_true_eq, decide_eq_true_eq]
    exact not_or.2 ⟨hname 'i' _ rfl, hname 'i' _ rfl⟩

/-- The text of a finite number without its sign is a numeral, which is read as the number. -/
theorem readPattern_patternText {p : ℕ} (h : p < infinityPattern) :
    Token.Numeral (patternText p).toList ∧ readPattern (patternText p).toList = some p := by
  obtain rfl | hp := eq_or_ne p 0
  · exact ⟨.whole (List.forall_mem_singleton.2 rfl) (List.cons_ne_nil '0' []), by decide +kernel⟩
  · obtain ⟨m, q, hdouble, rfl, htext⟩ := exists_double h hp
    obtain ⟨hnumeral, d, hread, hvalue⟩ := read?_positional (shortest m q)
    have hcontains := contains_shortest hdouble
    rw [← hvalue] at hcontains
    rw [htext]
    refine ⟨hnumeral, ?_⟩
    rw [readPattern_of_numeral hnumeral, hread, Option.map_some,
      nearest_of_contains hdouble hcontains]

/-- The bit of the sign is the highest one. -/
theorem toNat_signBit : signBit.toNat = 2 ^ 63 := rfl

/-- A number is negative just if its highest bit is set. -/
theorem isNegative_iff (n : Number) : n.isNegative = true ↔ 2 ^ 63 ≤ n.bits.toNat := by
  have hlt := n.bits.toNat_lt
  have htop : n.bits.toNat.testBit 63 = true ↔ 2 ^ 63 ≤ n.bits.toNat := by
    rw [Nat.testBit_eq_decide_div_mod_eq, decide_eq_true_eq]
    omega
  rw [← htop, isNegative, bne_iff_ne, ne_eq, ← UInt64.toNat_inj, UInt64.toNat_and, toNat_signBit,
    Nat.and_two_pow, UInt64.toNat_zero]
  cases n.bits.toNat.testBit 63 <;> decide

/-- A sign and a pattern make a number, and every number is made of both. -/
theorem toNat_ofPattern {p : ℕ} (h : p < 2 ^ 63) (negative : Bool) :
    (ofPattern negative p).bits.toNat = if negative then 2 ^ 63 + p else p := by
  have hpattern : p.toUInt64.toNat = p := Nat.mod_eq_of_lt (by omega)
  cases negative with
  | false => exact hpattern
  | true =>
    have hsum := Nat.two_pow_add_eq_or_of_lt h 1
    rw [Nat.mul_one] at hsum
    rw [ofPattern, if_pos rfl, if_pos rfl, UInt64.toNat_or, hpattern, toNat_signBit, hsum]

/-- Without its sign a number is a pattern of 63 bits. -/
theorem pattern_lt (n : Number) : n.pattern < 2 ^ 63 := Nat.mod_lt _ (by decide)

/-- A number is made of its sign and its pattern. -/
theorem ofPattern_pattern (n : Number) : ofPattern n.isNegative n.pattern = n := by
  have hlt := n.bits.toNat_lt
  have hbits : (ofPattern n.isNegative n.pattern).bits = n.bits := by
    rw [← UInt64.toNat_inj, toNat_ofPattern n.pattern_lt, pattern, toNat_signBit]
    split
    · have := n.isNegative_iff.1 ‹_›
      omega
    · have := mt n.isNegative_iff.2 ‹_›
      omega
  exact congrArg mk hbits

/-- A pattern with the other sign is the number of the opposite sign. -/
theorem neg_ofPattern {p : ℕ} (h : p < 2 ^ 63) : -ofPattern false p = ofPattern true p := by
  have hbits : (ofPattern false p).bits ^^^ signBit = (ofPattern true p).bits := by
    have hsum := Nat.two_pow_add_eq_or_of_lt h 1
    rw [Nat.mul_one] at hsum
    rw [← UInt64.toNat_inj, UInt64.toNat_xor, toNat_ofPattern h, toNat_ofPattern h, toNat_signBit,
      if_pos rfl, if_neg Bool.false_ne_true, hsum]
    refine Nat.eq_of_testBit_eq fun i => ?_
    rw [Nat.testBit_xor, Nat.testBit_or, Nat.testBit_two_pow]
    by_cases hi : 63 = i
    · rw [← hi, Nat.testBit_lt_two_pow h]
      rfl
    · rw [decide_eq_false hi, Bool.xor_false, Bool.false_or]
  exact congrArg mk hbits

/-- A finite number is printed as a numeral, behind a minus sign if it is negative. -/
theorem text_of_isFinite {n : Number} (h : n.isFinite = true) :
    n.text = (if n.isNegative then "-" else "") ++ patternText n.pattern := by
  have hle : n.pattern ≤ infinityPattern := (of_decide_eq_true h).le
  unfold text
  rw [decide_eq_true hle, Bool.and_true]
  split
  · rfl
  · exact String.empty_append.symm

/-- The text of a finite pattern is a numeral. -/
theorem numeral_patternText {n : Number} (h : n.isFinite = true) :
    Token.Numeral (patternText n.pattern).toList :=
  (readPattern_patternText (of_decide_eq_true h)).1

/-- The text of a finite pattern is read back as that pattern. -/
theorem read?_patternText {n : Number} (h : n.isFinite = true) :
    read? (patternText n.pattern) = some (ofPattern false n.pattern) := by
  obtain ⟨hnumeral, hread⟩ := readPattern_patternText (of_decide_eq_true h)
  obtain ⟨c, rest, hcs, hc⟩ := hnumeral.exists_cons
  rw [hcs] at hread
  unfold read?
  rw [hcs]
  split
  · cases ‹c :: rest = _›
    cases hc
  · cases ‹c :: rest = _›
    cases hc
  · rw [hread, Option.map_some]

/-- Finite numbers are read back as they are printed, bit for bit. -/
theorem read?_text {n : Number} (h : n.isFinite = true) : read? n.text = some n := by
  have hread := (readPattern_patternText (of_decide_eq_true h)).2
  have hsigned := n.ofPattern_pattern
  rw [text_of_isFinite h]
  cases hnegative : n.isNegative with
  | false =>
    rw [hnegative] at hsigned
    rw [if_neg Bool.false_ne_true, String.empty_append, read?_patternText h, hsigned]
  | true =>
    rw [hnegative] at hsigned
    rw [if_pos rfl, read?, String.toList_append]
    exact (congrArg (Option.map (ofPattern true)) hread).trans (congrArg some hsigned)

end EntityScript.Number
