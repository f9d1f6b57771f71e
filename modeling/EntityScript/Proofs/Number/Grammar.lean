import EntityScript.Proofs.Token.Scanned
import Mathlib.Logic.Basic

/-!
# The grammar of numbers

A number is written as a sign or none in front of digits, with a point among or beside them or
without, and with an exponent or without. In the place of the digits the name of a value that is not
finite may stand, in upper or lower case. Reading accepts exactly these texts (`isSome_read?_iff`).
The numerals that a scanner finds in a source are among them.
-/

namespace EntityScript.Number

/-- A text without a sign, or with one in front of it. -/
inductive Signed (Body : List Char → Prop) : List Char → Prop where
  | bare {cs : List Char} (body : Body cs) : Signed Body cs
  | plus {cs : List Char} (body : Body cs) : Signed Body ('+' :: cs)
  | minus {cs : List Char} (body : Body cs) : Signed Body ('-' :: cs)

/-- At least one digit. -/
def Digits (cs : List Char) : Prop := cs ≠ [] ∧ ∀ c ∈ cs, c.isDigit = true

/-- An exponent, or none. -/
inductive ExponentText : List Char → Prop where
  | absent : ExponentText []
  | marked {mark : Char} {cs : List Char} (letter : mark = 'e' ∨ mark = 'E')
      (digits : Signed Digits cs) : ExponentText (mark :: cs)

/-- Digits with a point among or beside them, or without, and with an exponent or without. -/
inductive DecimalText : List Char → Prop where
  | whole {w e : List Char} (digits : Digits w) (exponent : ExponentText e) : DecimalText (w ++ e)
  | point {w f e : List Char} (before : ∀ c ∈ w, c.isDigit = true)
      (after : ∀ c ∈ f, c.isDigit = true) (nonempty : w ≠ [] ∨ f ≠ [])
      (exponent : ExponentText e) : DecimalText (w ++ '.' :: (f ++ e))

/-- The name of a value that is not finite, in lower case. -/
def IsName (word : List Char) : Prop :=
  word = "inf".toList ∨ word = "infinity".toList ∨ word = "nan".toList

/-- A number without its sign. -/
def MagnitudeText (cs : List Char) : Prop := IsName (cs.map Char.toLower) ∨ DecimalText cs

/-- The text of a number. -/
def NumberText (s : String) : Prop := Signed MagnitudeText s.toList

/-- What reads as an exponent is written as one, and the other way round. -/
theorem isSome_readExponent_iff (cs : List Char) :
    (Decimal.readExponent cs).isSome = true ↔ ExponentText cs := by
  cases cs with
  | nil => exact ⟨fun _ => .absent, fun _ => rfl⟩
  | cons mark rest =>
    have hdigits : ∀ ds : List Char,
        (ds.isEmpty || !ds.all Char.isDigit) = false ↔ Digits ds := by
      intro ds
      simp [Digits, List.isEmpty_eq_false_iff]
    unfold Decimal.readExponent
    constructor
    · intro h
      dsimp only at h
      split at h
      · rename_i hmark
        refine .marked (by simpa using hmark) ?_
        split at h
        all_goals
          dsimp only at h
          split at h
          · cases h
          · rename_i hds
            first
              | exact .minus ((hdigits _).1 (Bool.eq_false_iff.2 hds))
              | exact .plus ((hdigits _).1 (Bool.eq_false_iff.2 hds))
              | exact .bare ((hdigits _).1 (Bool.eq_false_iff.2 hds))
      · cases h
    · intro h
      cases h with
      | marked letter digits =>
        dsimp only
        rw [if_pos (by simpa using letter)]
        cases digits with
        | plus body | minus body => simp [(hdigits _).2 body]
        | bare body =>
          split
          · exact absurd (body.2 '-' List.mem_cons_self) (by decide)
          · exact absurd (body.2 '+' List.mem_cons_self) (by decide)
          · simp [(hdigits _).2 body]

/-- Neither a digit nor a point begins an exponent. -/
theorem ExponentText.head {e : List Char} (h : ExponentText e) {c : Char}
    (hc : e.head? = some c) : c.isDigit = false ∧ c ≠ '.' := by
  cases h with
  | absent => cases hc
  | marked letter _ =>
    obtain rfl := Option.some.inj hc
    obtain rfl | rfl := letter <;> decide

/-- What reads as a decimal is written as one, and the other way round. -/
theorem isSome_readDecimal_iff (cs : List Char) :
    (Decimal.read? cs).isSome = true ↔ DecimalText cs := by
  constructor
  · intro h
    have hsplit : cs = cs.takeWhile Char.isDigit ++ cs.dropWhile Char.isDigit :=
      List.takeWhile_append_dropWhile.symm
    have hbefore : ∀ c ∈ cs.takeWhile Char.isDigit, c.isDigit = true :=
      fun c hc => Token.mem_takeWhile hc
    unfold Decimal.read? at h
    dsimp only at h
    rw [hsplit]
    split at h
    · rename_i rest hrest
      have hfraction : rest = rest.takeWhile Char.isDigit ++ rest.dropWhile Char.isDigit :=
        List.takeWhile_append_dropWhile.symm
      dsimp only at h
      split at h
      · cases h
      · rename_i hsome
        rw [Option.isSome_map] at h
        rw [hrest, hfraction]
        refine .point hbefore (fun c hc => Token.mem_takeWhile hc) ?_
          ((isSome_readExponent_iff _).1 h)
        simpa [imp_iff_not_or] using hsome
    · dsimp only at h
      split at h
      · cases h
      · rename_i hsome
        rw [Option.isSome_map] at h
        exact .whole ⟨by simpa using hsome, hbefore⟩ ((isSome_readExponent_iff _).1 h)
  · intro h
    cases h with
    | @whole w e digits exponent =>
      have htake := Token.takeWhile_of_all digits.2 fun c hc => (exponent.head hc).1
      have hdrop := Token.dropWhile_of_all digits.2 fun c hc => (exponent.head hc).1
      have hread := (isSome_readExponent_iff e).2 exponent
      unfold Decimal.read?
      dsimp only
      rw [htake, hdrop]
      split
      · exact absurd rfl (exponent.head rfl).2
      · dsimp only
        rw [if_neg (by simp [digits.1]), Option.isSome_map]
        exact hread
    | @point w f e before after nonempty exponent =>
      have hpoint : ∀ c, ('.' :: (f ++ e)).head? = some c → c.isDigit = false := by
        rintro c hc
        cases hc
        rfl
      have htake := Token.takeWhile_of_all after fun c hc => (exponent.head hc).1
      have hdrop := Token.dropWhile_of_all after fun c hc => (exponent.head hc).1
      have hread := (isSome_readExponent_iff e).2 exponent
      unfold Decimal.read?
      dsimp only
      rw [Token.takeWhile_of_all before hpoint, Token.dropWhile_of_all before hpoint]
      simp only [htake, hdrop]
      rw [if_neg (by simpa [imp_iff_not_or] using nonempty), Option.isSome_map]
      exact hread

/-- What reads as a magnitude is written as one, and the other way round. -/
theorem isSome_readPattern_iff (cs : List Char) :
    (readPattern cs).isSome = true ↔ MagnitudeText cs := by
  have hword : ∀ s : String, String.ofList (cs.map Char.toLower) = s ↔
      cs.map Char.toLower = s.toList := fun s =>
    ⟨fun h => by rw [← h, String.toList_ofList], fun h => by rw [h, String.ofList_toList]⟩
  unfold readPattern MagnitudeText IsName
  dsimp only
  simp only [← hword, Bool.or_eq_true, decide_eq_true_eq]
  split
  · rename_i h
    exact ⟨fun _ => .inl (h.imp_right .inl), fun _ => rfl⟩
  · split
    · rename_i h
      exact ⟨fun _ => .inl (.inr (.inr h)), fun _ => rfl⟩
    · rename_i hinf hnan
      rw [Option.isSome_map, isSome_readDecimal_iff]
      refine ⟨.inr, fun h => h.resolve_left ?_⟩
      rintro (h | h | h)
      · exact hinf (.inl h)
      · exact hinf (.inr h)
      · exact hnan h

/-- A number without its sign does not begin with one. -/
theorem MagnitudeText.head {cs : List Char} (h : MagnitudeText cs) {c : Char}
    (hc : cs.head? = some c) : c ≠ '+' ∧ c ≠ '-' := by
  obtain ⟨rest, rfl⟩ : ∃ rest, cs = c :: rest := by
    cases cs with
    | nil => cases hc
    | cons d rest => exact ⟨rest, by rw [Option.some.inj hc]⟩
  have hdigit : ∀ {d : Char}, d.isDigit = true → d ≠ '+' ∧ d ≠ '-' := by
    rintro d hd
    constructor <;> rintro rfl <;> cases hd
  obtain hname | hdecimal := h
  · constructor <;> rintro rfl <;> obtain h | h | h := hname <;> simp at h
  · generalize hcs : c :: rest = cs at hdecimal
    cases hdecimal with
    | @whole w e digits exponent =>
      obtain ⟨d, w, rfl⟩ := List.exists_cons_of_ne_nil digits.1
      rw [(List.cons.inj hcs).1]
      exact hdigit (digits.2 d List.mem_cons_self)
    | @point w f e before after nonempty exponent =>
      cases w with
      | nil =>
        rw [(List.cons.inj hcs).1]
        decide
      | cons d w =>
        rw [(List.cons.inj hcs).1]
        exact hdigit (before d List.mem_cons_self)

/-- Numbers are read off exactly the texts of the grammar. -/
theorem isSome_read?_iff (s : String) : (read? s).isSome = true ↔ NumberText s := by
  unfold read? NumberText
  split
  · rename_i cs heq
    rw [Option.isSome_map, isSome_readPattern_iff, heq]
    refine ⟨.minus, fun h => ?_⟩
    cases h with
    | bare body => exact absurd rfl (body.head rfl).2
    | minus body => exact body
  · rename_i cs heq
    rw [Option.isSome_map, isSome_readPattern_iff, heq]
    refine ⟨.plus, fun h => ?_⟩
    cases h with
    | bare body => exact absurd rfl (body.head rfl).1
    | plus body => exact body
  · rename_i hminus hplus
    rw [Option.isSome_map, isSome_readPattern_iff]
    refine ⟨.bare, fun h => ?_⟩
    generalize hcs : s.toList = cs at h hminus hplus ⊢
    cases h with
    | bare body => exact body
    | plus _ => exact absurd rfl (hplus _)
    | minus _ => exact absurd rfl (hminus _)

end EntityScript.Number

namespace EntityScript.Token

open Number

/-- Numerals are texts of numbers, also behind a minus sign. -/
theorem Numeral.decimalText {cs : List Char} (h : Numeral cs) : DecimalText cs := by
  cases h with
  | whole digits nonempty => simpa using DecimalText.whole ⟨nonempty, digits⟩ .absent
  | decimal digits nonempty fraction places =>
    simpa using DecimalText.point digits fraction (.inl nonempty) .absent

/-- A numeral is a number, with a minus sign or without. -/
theorem Numeral.numberText {cs : List Char} (h : Numeral cs) :
    NumberText (String.ofList cs) ∧ NumberText (String.ofList ('-' :: cs)) := by
  unfold NumberText
  rw [String.toList_ofList, String.toList_ofList]
  exact ⟨.bare (.inr h.decimalText), .minus (.inr h.decimalText)⟩

end EntityScript.Token
