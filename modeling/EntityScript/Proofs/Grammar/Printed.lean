import EntityScript.Machine.Apply
import EntityScript.Proofs.Grammar.Quoted
import EntityScript.Proofs.Grammar.Rendering
import EntityScript.Proofs.Number.ReadBack
import EntityScript.Proofs.Token.Adjoined

/-!
# Values as expressions

A value is printed as one token, behind a minus sign if its number or the first number of its vector
is negative. The minus sign of a number is an operator, and that of a vector belongs to its first
number, so that in both cases only this number is negated; the second number of a vector has its
sign within the token.

A text is printed with its characters as they are. So it is the text of a string token only if no
character would have to be escaped: `Value.Printable`.
-/

namespace EntityScript

open Grammar Compile

namespace Value

/-- The numbers of the value are finite, and its text needs no escape. -/
def Printable : Value → Prop
  | number n => n.isFinite = true
  | vec2 x y => x.isFinite = true ∧ y.isFinite = true
  | bool _ => True
  | string s => ∀ c ∈ s.toList, c ∉ ['"', '\n', '\\']

instance : DecidablePred Printable
  | number n => inferInstanceAs (Decidable (n.isFinite = true))
  | vec2 x y => inferInstanceAs (Decidable (x.isFinite = true ∧ y.isFinite = true))
  | bool _ => .isTrue trivial
  | string s => List.decidableBAll (fun c => c ∉ ['"', '\n', '\\']) s.toList

/-- Whether a minus sign stands in front of the token of the value. -/
def isNegative : Value → Bool
  | number n | vec2 n _ => n.isNegative
  | bool _ | string _ => false

/-- The text of the value, apart from a minus sign in front of it. -/
def magnitude : Value → String
  | number n => Number.patternText n.pattern
  | vec2 x y => Number.patternText x.pattern ++ "," ++ y.text
  | bool b => if b then "true" else "false"
  | string s => Token.between s.toList

/-- The kind of the token. -/
def kind : Value → Token.Kind
  | number _ => .number
  | vec2 _ _ => .vec2
  | bool b => if b then .trueWord else .falseWord
  | string _ => .string

/-- The tokens of the value as it is printed, on the first line. -/
def tokens (v : Value) : List Token :=
  (if v.isNegative then [mark .minus] else []) ++ [⟨v.kind, v.magnitude, 1⟩]

/-- What a source says that has the value as it is printed. -/
def expression (v : Value) : Expression :=
  match v with
  | number n =>
    if n.isNegative then .negate (.literal (.number v.magnitude))
    else .literal (.number v.magnitude)
  | vec2 x _ =>
    .literal (if x.isNegative then .negatedVector v.magnitude else .vector v.magnitude)
  | bool b => .literal (.truth b)
  | string _ => .literal (.text v.magnitude)

variable {v : Value}

/-- A printable value is printed as its sign and its magnitude. -/
theorem text_eq (h : v.Printable) :
    v.text = (if v.isNegative then "-" else "") ++ v.magnitude := by
  cases v with
  | number n => exact Number.text_of_isFinite h
  | vec2 x y =>
    rw [text, Number.text_of_isFinite h.1, String.append_assoc, String.append_assoc, magnitude,
      String.append_assoc]
    rfl
  | bool b => exact String.empty_append.symm
  | string s =>
    rw [magnitude, Token.between_eq_append, String.ofList_toList]
    exact String.empty_append.symm

/-- A text without quotes, line ends and backslashes can stand between quotes. -/
theorem enclosed_of_plain {cs : List Char} (h : ∀ c ∈ cs, c ∉ ['"', '\n', '\\']) :
    Token.Enclosed cs := by
  induction cs with
  | nil => exact .nil
  | cons c cs ih =>
    obtain ⟨hc, hcs⟩ := List.forall_mem_cons.1 h
    exact .plain hc (ih hcs)

/-- A text without quotes, line ends and backslashes stands for itself. -/
theorem decodes_of_plain {cs : List Char} (h : ∀ c ∈ cs, c ∉ ['"', '\n', '\\']) :
    Decodes cs cs := by
  induction cs with
  | nil => exact .nil
  | cons c cs ih =>
    obtain ⟨hc, hcs⟩ := List.forall_mem_cons.1 h
    exact .plain (fun heq => hc (by simp [heq])) (ih hcs)

/-- No digit is a blank. -/
theorem isBlank_of_isDigit {c : Char} (h : c.isDigit = true) : Token.isBlank c = false := by
  refine Bool.eq_false_iff.2 fun hblank => ?_
  rw [(Token.parts_of_isBlank hblank).digit] at h
  cases h

/-- A vector has its two numbers on both sides of a comma. -/
theorem toList_magnitude (x y : Number) : (vec2 x y).magnitude.toList
    = (Number.patternText x.pattern).toList ++ ',' :: y.text.toList := by
  rw [magnitude, String.append_assoc, String.toList_append, String.toList_append]
  rfl

/-- A printed number is a numeral, or one behind a minus sign. -/
theorem text_cases {n : Number} (h : n.isFinite = true) : ∃ w, Token.Numeral w ∧
    (n.text.toList = w ∨ n.text.toList = '-' :: w) := by
  refine ⟨_, Number.numeral_patternText h, ?_⟩
  rw [Number.text_of_isFinite h, String.toList_append]
  split
  · exact .inr rfl
  · exact .inl rfl

/-- The token of a value with a minus sign in front of it begins with a digit. -/
theorem magnitude_of_isNegative (h : v.Printable) (hnegative : v.isNegative = true) :
    ∃ c w, v.magnitude.toList = c :: w ∧ c.isDigit = true := by
  cases v with
  | number n => exact (Number.numeral_patternText h).exists_cons
  | vec2 x y =>
    obtain ⟨c, w, htext, hc⟩ := (Number.numeral_patternText h.1).exists_cons
    exact ⟨c, _, by rw [toList_magnitude, htext, List.cons_append], hc⟩
  | bool b => cases hnegative
  | string s => cases hnegative

/-- The token needs no blank in front of a semicolon. -/
theorem stands_token (h : v.Printable) : Token.Stands ';' ⟨v.kind, v.magnitude, 1⟩ := by
  have hparts : Token.Parts ';' := ⟨by decide, by decide, by decide, by decide, by decide⟩
  cases v with
  | number n =>
    have hnumeral := Number.numeral_patternText h
    obtain ⟨c, w, htext, hc⟩ := hnumeral.exists_cons
    refine ⟨c, w, htext, isBlank_of_isDigit hc, fun r => ?_⟩
    rw [Token.measure_of_isDigit hc, ← List.cons_append, ← htext,
      hnumeral.measureNumber_append hparts, htext]
    rfl
  | vec2 x y =>
    have hx := Number.numeral_patternText h.1
    obtain ⟨second, hy, hsecond⟩ := text_cases h.2
    obtain ⟨c, w, htext, hc⟩ := hx.exists_cons
    have hmagnitude : (vec2 x y).magnitude.toList = c :: (w ++ ',' :: y.text.toList) := by
      rw [toList_magnitude, htext, List.cons_append]
    refine ⟨c, _, hmagnitude, isBlank_of_isDigit hc, fun r => ?_⟩
    rw [Token.measure_of_isDigit hc, ← List.cons_append, ← List.cons_append, ← htext,
      hx.measureVector_append hy (hsecond.imp (congrArg _) (congrArg _)) hparts, htext]
    rfl
  | bool b => cases b <;> exact ⟨_, _, rfl, rfl, fun r => rfl⟩
  | string s =>
    refine ⟨'"', s.toList ++ ['"'], Token.toList_between _, rfl, fun r => ?_⟩
    have hmeasure := (enclosed_of_plain h).measure_quote (';' :: r)
    rw [Token.toList_between] at hmeasure
    rw [List.append_assoc]
    exact hmeasure

/-- The tokens of a value that is printed in front of a semicolon, and those that come then. -/
theorem row_text (h : v.Printable) {cs : List Char} {ts : List Token}
    (hrest : Token.Row (';' :: cs) ts) :
    Token.Row (v.text.toList ++ ';' :: cs) (v.tokens ++ ts) := by
  have hkind : v.kind ≠ .eof := by
    cases v with
    | bool b => cases b <;> nofun
    | number | vec2 | string => nofun
  have htoken := Token.Row.token (stands_token h) (by decide) hkind rfl hrest
  rw [text_eq h, tokens]
  cases hnegative : v.isNegative with
  | false => exact htoken
  | true =>
    obtain ⟨c, w, htext, hc⟩ := magnitude_of_isNegative h hnegative
    have hslash : c ≠ '/' := by
      rintro rfl
      cases hc
    rw [htext] at htoken
    have hminus : Token.Stands c (mark .minus) := ⟨'-', [], rfl, rfl, fun r => rfl⟩
    have hrow := Token.Row.token hminus hslash nofun rfl htoken
    rw [if_pos rfl, if_pos rfl, String.toList_append, htext]
    exact hrow

/-- The number without its sign. -/
theorem ofPattern_of_not_isNegative {n : Number} (h : n.isNegative = false) :
    Number.ofPattern false n.pattern = n := by
  have hself := n.ofPattern_pattern
  rwa [h] at hself

/-- A negative number is the one that its numeral stands for, negated. -/
theorem neg_ofPattern_of_isNegative {n : Number} (h : n.isNegative = true) :
    -Number.ofPattern false n.pattern = n := by
  have hself := n.ofPattern_pattern
  rw [h] at hself
  rw [Number.neg_ofPattern n.pattern_lt, hself]

/-- The tokens spell the expression. -/
theorem phrase_tokens (v : Value) : Phrase .assignment v.expression v.tokens := by
  cases v with
  | number n =>
    unfold expression tokens isNegative
    dsimp only
    split
    · exact .negate (by decide) rfl nofun (.number (t := ⟨.number, _, 1⟩) rfl)
    · exact .number (t := ⟨.number, _, 1⟩) rfl
  | vec2 x y =>
    unfold expression tokens isNegative
    dsimp only
    split
    · exact .negatedVector (m := mark .minus) (t := ⟨.vec2, _, 1⟩) rfl rfl
    · exact .vector (t := ⟨.vec2, _, 1⟩) rfl
  | bool b =>
    cases b
    · exact .no rfl
    · exact .yes rfl
  | string s => exact .text (t := ⟨.string, _, 1⟩) rfl

/-- A literal that reads as a value is legal and has that value. -/
theorem value_of_read {l : Literal} (h : l.read = .ok v) : l.Legal ∧ l.value = v :=
  ⟨Literal.Readable.legal ⟨v, h⟩, by rw [Literal.value, h]⟩

/-- The expression is a literal that stands for the value, or the negation of one that stands for
the value without its sign. -/
theorem expression_cases (h : v.Printable) : ∃ l : Literal, l.Legal ∧
    (v.expression = .literal l ∧ l.value = v ∨
      v.expression = .negate (.literal l) ∧ l.value.negate = .ok v) := by
  cases v with
  | number n =>
    have hread : (Literal.number (number n).magnitude).read
        = .ok (number (.ofPattern false n.pattern)) := by
      rw [Literal.read, readNumber, magnitude, Number.read?_patternText h]
    obtain ⟨hlegal, hvalue⟩ := value_of_read hread
    refine ⟨_, hlegal, ?_⟩
    rw [hvalue, expression]
    cases hnegative : n.isNegative with
    | true =>
      refine .inr ⟨rfl, ?_⟩
      rw [negate, neg_ofPattern_of_isNegative hnegative]
    | false => exact .inl ⟨rfl, congrArg number (ofPattern_of_not_isNegative hnegative)⟩
  | vec2 x y =>
    have hmagnitude : (vec2 x y).magnitude
        = String.ofList ((Number.patternText x.pattern).toList ++ ',' :: y.text.toList) :=
      String.toList_inj.1 (by rw [toList_magnitude, String.toList_ofList])
    have hvector : readVector (vec2 x y).magnitude = .ok (.ofPattern false x.pattern, y) := by
      rw [hmagnitude]
      exact Token.readVector_eq (Number.numeral_patternText h.1).comma_not_mem
        (by rw [String.ofList_toList, Number.read?_patternText h.1])
        (by rw [String.ofList_toList, Number.read?_text h.2])
    have hread : (if x.isNegative then Literal.negatedVector (vec2 x y).magnitude
        else .vector (vec2 x y).magnitude).read = .ok (vec2 x y) := by
      cases hnegative : x.isNegative with
      | true =>
        rw [if_pos rfl, Literal.read, hvector, Except.map]
        dsimp only
        rw [neg_ofPattern_of_isNegative hnegative]
      | false =>
        rw [if_neg Bool.false_ne_true, Literal.read, hvector, Except.map]
        dsimp only
        rw [ofPattern_of_not_isNegative hnegative]
    obtain ⟨hlegal, hvalue⟩ := value_of_read hread
    exact ⟨_, hlegal, .inl ⟨rfl, hvalue⟩⟩
  | bool b => exact ⟨.truth b, trivial, .inl ⟨rfl, rfl⟩⟩
  | string s =>
    have htext : readText (string s).magnitude = .ok s := by
      rw [readText_eq_ok_iff, magnitude, unquoted_between]
      exact decodes_of_plain h
    have hread : (Literal.text (string s).magnitude).read = .ok (string s) := by
      rw [Literal.read, htext]
      rfl
    obtain ⟨hlegal, hvalue⟩ := value_of_read hread
    exact ⟨_, hlegal, .inl ⟨rfl, hvalue⟩⟩

end Value

end EntityScript
