import EntityScript.Proofs.Grammar.Spelling
import EntityScript.Proofs.Token.Separated

/-!
# Writing expressions down

Two ways to write an expression tree as tokens. `Expression.terse` puts parentheses only where the
levels call for them, or where a vector would come directly behind a minus sign and lose it to the
sign; `Expression.full` puts them around every subexpression. Both spell the tree, and no
spelling of it has fewer parentheses than the terse one.
-/

namespace EntityScript.Grammar

open Compile (Level operatorLevel)

/-- The token of a kind that is spelled in one way only, on the first line. -/
def mark (kind : Token.Kind) : Token := ⟨kind, kind.describe, 1⟩

/-- The token of a word, on the first line. -/
def word (text : String) : Token := ⟨.identifier, text, 1⟩

/-- Tokens in parentheses. -/
def parenthesized (ts : List Token) : List Token :=
  mark .leftParen :: (ts ++ [mark .rightParen])

/-- Tokens in parentheses, unless they may stand without. -/
def enclosedUnless (fits : Bool) (ts : List Token) : List Token :=
  if fits then ts else parenthesized ts

/-- The tokens of a literal. -/
def Literal.tokens : Literal → List Token
  | number lexeme => [⟨.number, lexeme, 1⟩]
  | vector lexeme => [⟨.vec2, lexeme, 1⟩]
  | negatedVector lexeme => [mark .minus, ⟨.vec2, lexeme, 1⟩]
  | text lexeme => [⟨.string, lexeme, 1⟩]
  | truth true => [mark .trueWord]
  | truth false => [mark .falseWord]

/-- Whether a literal would lose a minus sign in front of it to its own value. -/
def Literal.takesMinus : Literal → Bool
  | vector _ => true
  | number _ | negatedVector _ | text _ | truth _ => false

/-- The tokens of a variable, or of an argument if it has a reserved name. -/
def nameTokens (name : String) : List Token :=
  if Arguments.isReserved name then
    [word "args", mark .dot,
      word (String.ofList (name.toList.drop Arguments.reserved.toList.length))]
  else [word name]

namespace Expression

/-- The tokens of an expression of a level with as few parentheses as possible. `afterMinus` says
whether a minus sign stands directly in front. -/
def terse : Expression → Level → Bool → List Token
  | literal l, _, afterMinus => enclosedUnless (!(afterMinus && l.takesMinus)) l.tokens
  | var name, _, _ => nameTokens name
  | assign name e, level, _ =>
    enclosedUnless (level = .assignment)
      (nameTokens name ++ mark .equal :: e.terse .assignment false)
  | negate e, level, _ => enclosedUnless (level ≤ .unary) (mark .minus :: e.terse .unary true)
  | not e, level, _ => enclosedUnless (level ≤ .unary) (mark .bang :: e.terse .unary false)
  | binary op a b, level, afterMinus =>
    let fits := decide (level ≤ operatorLevel op)
    enclosedUnless fits (a.terse (operatorLevel op) (fits && afterMinus)
      ++ mark (operatorKind op) :: b.terse (tighter (operatorLevel op)) false)
  | and a b, level, afterMinus =>
    let fits := decide (level ≤ .and)
    enclosedUnless fits
      (a.terse .equality (fits && afterMinus) ++ mark .andAnd :: b.terse .and false)
  | or a b, level, afterMinus =>
    let fits := decide (level ≤ .or)
    enclosedUnless fits
      (a.terse .and (fits && afterMinus) ++ mark .orOr :: b.terse .or false)
  | component e name, _, afterMinus => e.terse .call afterMinus ++ [mark .dot, word name]

/-- The tokens of an expression with parentheses around every subexpression. -/
def full : Expression → List Token
  | literal l => parenthesized l.tokens
  | var name => parenthesized (nameTokens name)
  | assign name e => parenthesized (nameTokens name ++ mark .equal :: e.full)
  | negate e => parenthesized (mark .minus :: e.full)
  | not e => parenthesized (mark .bang :: e.full)
  | binary op a b => parenthesized (a.full ++ mark (operatorKind op) :: b.full)
  | and a b => parenthesized (a.full ++ mark .andAnd :: b.full)
  | or a b => parenthesized (a.full ++ mark .orOr :: b.full)
  | component e name => parenthesized (e.full ++ [mark .dot, word name])

end Expression

/-- A token is written as it is read. -/
def Written (t : Token) : Prop := Token.words t.lexeme = [t]

instance : DecidablePred Written := fun t =>
  inferInstanceAs (Decidable (Token.words t.lexeme = [t]))

/-- A name is a word other than `args`, or such a word behind `args.`. -/
def WritableName (name : String) : Prop :=
  name ≠ "args" ∧ ∀ t ∈ nameTokens name, t.kind = .identifier → Written t

instance : DecidablePred WritableName := fun name =>
  inferInstanceAs (Decidable (name ≠ "args" ∧ ∀ t ∈ nameTokens name, t.kind = .identifier →
    Written t))

namespace Expression

/-- Every literal and every name of the expression is the text of a token of its kind. -/
def Writable : Expression → Prop
  | literal l => (∀ t ∈ l.tokens, Written t) ∧ l.Legal
  | var name => WritableName name
  | assign name e => WritableName name ∧ e.Writable
  | negate e | not e => e.Writable
  | binary _ a b | and a b | or a b => a.Writable ∧ b.Writable
  | component e name => e.Writable ∧ (name = "x" ∨ name = "y")

/-- An expression whose literals and names can be written is legal. -/
theorem Writable.legal {e : Expression} (h : e.Writable) : e.Legal := by
  induction e with
  | literal l => exact h.2
  | var name => trivial
  | assign name e ih => exact ih h.2
  | negate e ih | not e ih => exact ih h
  | binary op a b iha ihb => exact ⟨iha h.1, ihb h.2⟩
  | and a b iha ihb | or a b iha ihb => exact ⟨iha h.1, ihb h.2⟩
  | component e name ih => exact ⟨ih h.1, h.2⟩

end Expression

/-- The tokens of a name name its variable or argument. -/
theorem name_nameTokens {name : String} (h : name ≠ "args") : Name name (nameTokens name) := by
  unfold nameTokens
  split
  · rename_i hreserved
    have hname : Arguments.reservedName
        (String.ofList (name.toList.drop Arguments.reserved.toList.length)) = name := by
      obtain ⟨rest, hrest⟩ := List.isPrefixOf_iff_prefix.1 hreserved
      refine String.toList_inj.1 ?_
      rw [Arguments.reservedName, String.toList_append, String.toList_ofList, ← hrest,
        List.drop_left]
    generalize String.ofList (name.toList.drop Arguments.reserved.toList.length) = n at hname ⊢
    subst hname
    exact .argument (t := word n) rfl rfl rfl rfl
  · exact .plain (t := word name) rfl h

/-- The tokens of a literal spell it at every level. -/
theorem Literal.phrase (l : Literal) (level : Level) : Phrase level (.literal l) l.tokens := by
  cases l with
  | number lexeme => exact .number (t := ⟨.number, lexeme, 1⟩) rfl
  | vector lexeme => exact .vector (t := ⟨.vec2, lexeme, 1⟩) rfl
  | negatedVector lexeme => exact .negatedVector (t := ⟨.vec2, lexeme, 1⟩) rfl rfl
  | text lexeme => exact .text (t := ⟨.string, lexeme, 1⟩) rfl
  | truth b => cases b with
    | true => exact .yes rfl
    | false => exact .no rfl

/-- An expression in parentheses may stand at every level. -/
theorem Phrase.parenthesized {level : Level} {e : Expression} {ts : List Token}
    (h : Phrase .assignment e ts) : Phrase level e (parenthesized ts) :=
  .group rfl h rfl

/-- Tokens in parentheses do not begin with a vector. -/
theorem not_begins_parenthesized (ts : List Token) : ¬ Begins .vec2 (parenthesized ts) :=
  fun h => by cases h

/-- What is spelled by an enclosed text does not depend on whether parentheses are there, and where
they are there no vector comes first. -/
theorem Phrase.enclosedUnless {level : Level} {e : Expression} {ts : List Token} {fits : Bool}
    (hfits : fits = true → Phrase level e ts) (h : fits = false → Phrase .assignment e ts) :
    Phrase level e (enclosedUnless fits ts) := by
  cases fits with
  | true => exact hfits rfl
  | false => exact (h rfl).parenthesized

/-- Tokens that go without parentheses only where they begin with no vector begin with none. -/
theorem not_begins_enclosedUnless {ts : List Token} {fits : Bool}
    (h : fits = true → ¬ Begins .vec2 ts) : ¬ Begins .vec2 (enclosedUnless fits ts) := by
  cases fits with
  | true => exact h rfl
  | false => exact not_begins_parenthesized ts

/-- An expression has a token. -/
theorem Phrase.ne_nil {level : Level} {e : Expression} {ts : List Token} (h : Phrase level e ts) :
    ts ≠ [] := by
  cases h with
  | var spelled => cases spelled <;> simp
  | _ => simp

/-- What some tokens begin with does not depend on what follows. -/
theorem begins_append {kind : Token.Kind} {ts : List Token} (h : ts ≠ []) (us : List Token) :
    Begins kind (ts ++ us) ↔ Begins kind ts := by
  obtain ⟨t, ts, rfl⟩ := List.exists_cons_of_ne_nil h
  rfl

/-- An operator on two values begins as its left operand does, unless it is enclosed. -/
theorem not_begins_operation {level : Level} {a : Expression} {ts : List Token}
    {fits afterMinus : Bool} (ha : Phrase level a ts)
    (hfree : (fits && afterMinus) = true → ¬ Begins .vec2 ts) (us : List Token)
    (hafter : afterMinus = true) : ¬ Begins .vec2 (enclosedUnless fits (ts ++ us)) := by
  refine not_begins_enclosedUnless fun hfits => ?_
  rw [begins_append ha.ne_nil]
  exact hfree (by rw [hfits, hafter]; rfl)

namespace Expression

/-- The level of assignments is the loosest one. -/
theorem assignment_le (level : Level) : Level.assignment ≤ level := Nat.zero_le level.rank

/-- The terse rendering spells the expression, and behind a minus sign it begins with no vector. -/
theorem phrase_terse {e : Expression} (h : e.Writable) (level : Level) (afterMinus : Bool) :
    Phrase level e (e.terse level afterMinus) ∧
      (afterMinus = true → ¬ Begins .vec2 (e.terse level afterMinus)) := by
  induction e generalizing level afterMinus with
  | literal l =>
    refine ⟨.enclosedUnless (fun _ => l.phrase level) (fun _ => l.phrase _), ?_⟩
    rintro rfl
    refine not_begins_enclosedUnless fun hfits => ?_
    cases l with
    | vector lexeme => cases hfits
    | number | negatedVector | text => exact fun hbegins => by cases hbegins
    | truth b => cases b <;> exact fun hbegins => by cases hbegins
  | var name =>
    refine ⟨.var (name_nameTokens h.1), fun _ hbegins => ?_⟩
    rw [terse] at hbegins
    unfold nameTokens at hbegins
    split at hbegins <;> cases hbegins
  | assign name e ih =>
    have hphrase : Phrase .assignment (.assign name e)
        (nameTokens name ++ mark .equal :: e.terse .assignment false) :=
      .assign (name_nameTokens h.1.1) rfl (ih h.2 _ _).1
    refine ⟨.enclosedUnless (fun hfits => ?_) fun _ => hphrase,
      fun _ => not_begins_enclosedUnless fun _ hbegins => ?_⟩
    · rw [of_decide_eq_true hfits]
      exact hphrase
    · unfold nameTokens at hbegins
      split at hbegins <;> cases hbegins
  | negate e ih =>
    -- A vector in front of the operand would take the minus sign to itself.
    obtain ⟨hphrase, hfree⟩ := ih h .unary true
    exact ⟨.enclosedUnless (fun hfits => .negate (of_decide_eq_true hfits) rfl (hfree rfl) hphrase)
        fun _ => .negate (assignment_le _) rfl (hfree rfl) hphrase,
      fun _ => not_begins_enclosedUnless fun _ hbegins => by cases hbegins⟩
  | not e ih =>
    have hphrase := (ih h .unary false).1
    exact ⟨.enclosedUnless (fun hfits => .not (of_decide_eq_true hfits) rfl hphrase)
        fun _ => .not (assignment_le _) rfl hphrase,
      fun _ => not_begins_enclosedUnless fun _ hbegins => by cases hbegins⟩
  | binary op a b iha ihb =>
    have ha := iha h.1 (operatorLevel op) (decide (level ≤ operatorLevel op) && afterMinus)
    have hb := (ihb h.2 (tighter (operatorLevel op)) false).1
    exact ⟨.enclosedUnless (fun hfits => .binary (of_decide_eq_true hfits) ha.1 rfl hb)
      fun _ => .binary (assignment_le _) ha.1 rfl hb,
      not_begins_operation ha.1 ha.2 _⟩
  | and a b iha ihb =>
    have ha := iha h.1 .equality (decide (level ≤ .and) && afterMinus)
    have hb := (ihb h.2 .and false).1
    exact ⟨.enclosedUnless (fun hfits => .and (of_decide_eq_true hfits) ha.1 rfl hb)
      fun _ => .and (assignment_le _) ha.1 rfl hb,
      not_begins_operation ha.1 ha.2 _⟩
  | or a b iha ihb =>
    have ha := iha h.1 .and (decide (level ≤ .or) && afterMinus)
    have hb := (ihb h.2 .or false).1
    exact ⟨.enclosedUnless (fun hfits => .or (of_decide_eq_true hfits) ha.1 rfl hb)
      fun _ => .or (assignment_le _) ha.1 rfl hb,
      not_begins_operation ha.1 ha.2 _⟩
  | component e name ih =>
    obtain ⟨hphrase, hfree⟩ := ih h.1 .call afterMinus
    refine ⟨.component (t := word name) hphrase rfl rfl, fun hafter => ?_⟩
    rw [terse, begins_append hphrase.ne_nil]
    exact hfree hafter

/-- The full rendering spells the expression at every level. -/
theorem phrase_full {e : Expression} (h : e.Writable) (level : Level) : Phrase level e e.full := by
  induction e generalizing level with
  | literal l => exact (l.phrase _).parenthesized
  | var name => exact (Phrase.var (name_nameTokens h.1)).parenthesized
  | assign name e ih =>
    exact (Phrase.assign (name_nameTokens h.1.1) rfl (ih h.2 _)).parenthesized
  | negate e ih =>
    refine (Phrase.negate (assignment_le _) rfl ?_ (ih h _)).parenthesized
    cases e <;> exact not_begins_parenthesized _
  | not e ih => exact (Phrase.not (assignment_le _) rfl (ih h _)).parenthesized
  | binary op a b iha ihb =>
    exact (Phrase.binary (assignment_le _) (iha h.1 _) rfl (ihb h.2 _)).parenthesized
  | and a b iha ihb =>
    exact (Phrase.and (assignment_le _) (iha h.1 _) rfl (ihb h.2 _)).parenthesized
  | or a b iha ihb =>
    exact (Phrase.or (assignment_le _) (iha h.1 _) rfl (ihb h.2 _)).parenthesized
  | component e name ih =>
    exact (Phrase.component (t := word name) (ih h.1 _) rfl rfl).parenthesized

end Expression

/-- How many tokens are of a kind. -/
def occurrences (kind : Token.Kind) (ts : List Token) : ℕ := ts.countP (·.kind == kind)

/-- No token is of any kind among none. -/
@[simp] theorem occurrences_nil (kind : Token.Kind) : occurrences kind [] = 0 := rfl

/-- The first token counts if it is of the kind. -/
@[simp] theorem occurrences_cons (kind : Token.Kind) (t : Token) (ts : List Token) :
    occurrences kind (t :: ts) = occurrences kind ts + if t.kind == kind then 1 else 0 :=
  List.countP_cons

/-- Tokens of a kind are counted part by part. -/
@[simp] theorem occurrences_append (kind : Token.Kind) (ts us : List Token) :
    occurrences kind (ts ++ us) = occurrences kind ts + occurrences kind us :=
  List.countP_append

/-- Putting parentheses around tokens adds one, unless they may stand without. -/
@[simp] theorem parentheses_enclosedUnless (fits : Bool) (ts : List Token) :
    occurrences .leftParen (enclosedUnless fits ts)
      = occurrences .leftParen ts + if fits then 0 else 1 := by
  cases fits <;> simp [enclosedUnless, parenthesized, mark]

/-- There are no parentheses in a literal. -/
@[simp] theorem parentheses_literal (l : Literal) : occurrences .leftParen l.tokens = 0 := by
  cases l with
  | truth b => cases b <;> rfl
  | number | vector | negatedVector | text => rfl

/-- There are no parentheses in a name. -/
@[simp] theorem parentheses_nameTokens (name : String) :
    occurrences .leftParen (nameTokens name) = 0 := by
  unfold nameTokens
  split <;> rfl

/-- A mark has its kind. -/
@[simp] theorem kind_mark (kind : Token.Kind) : (mark kind).kind = kind := rfl

/-- A word is an identifier. -/
@[simp] theorem kind_word (text : String) : (word text).kind = .identifier := rfl

/-- No operator is written as a parenthesis. -/
theorem operatorKind_ne_leftParen (op : Operator) : (operatorKind op == .leftParen) = false := by
  cases op <;> rfl

/-- An operation in parentheses keeps its left operand away from a minus sign, so that either the
operation or the operand has another pair, but not both. -/
theorem parentheses_operation_le {first : Bool → List Token}
    (hfirst : ∀ afterMinus, occurrences .leftParen (first afterMinus)
      ≤ occurrences .leftParen (first false) + 1) (fits fits' afterMinus : Bool) (us : List Token) :
    occurrences .leftParen (enclosedUnless fits (first (fits && afterMinus) ++ us))
      ≤ occurrences .leftParen (enclosedUnless fits' (first (fits' && false) ++ us)) + 1 := by
  simp only [parentheses_enclosedUnless, occurrences_append, Bool.and_false]
  cases fits with
  | true =>
    have hleft := hfirst afterMinus
    simp only [Bool.true_and, if_true]
    omega
  | false =>
    simp only [Bool.false_and, Bool.false_eq_true, if_false]
    omega

/-- A stricter place costs one pair of parentheses at most. -/
theorem Expression.parentheses_terse_le (e : Expression) (level level' : Level)
    (afterMinus : Bool) :
    occurrences .leftParen (e.terse level afterMinus)
      ≤ occurrences .leftParen (e.terse level' false) + 1 := by
  induction e generalizing level level' afterMinus with
  | literal l =>
    simp only [terse, parentheses_enclosedUnless, parentheses_literal]
    split <;> omega
  | var name => simp [terse]
  | assign name e | negate e | not e =>
    simp only [terse, parentheses_enclosedUnless]
    split <;> split <;> omega
  | binary op a b iha _ =>
    exact parentheses_operation_le (iha (operatorLevel op) (operatorLevel op)) ..
  | and a b iha _ => exact parentheses_operation_le (iha .equality .equality) ..
  | or a b iha _ => exact parentheses_operation_le (iha .and .and) ..
  | component e name ih =>
    have he := ih .call .call afterMinus
    simp only [terse, occurrences_append]
    omega

/-- No spelling of an expression has fewer parentheses than the terse rendering for its level, also
behind a minus sign, if the spelling may stand there. -/
theorem Phrase.parentheses_terse_le {level : Level} {e : Expression} {ts : List Token}
    (h : Phrase level e ts) (afterMinus : Bool) (hfree : afterMinus = true → ¬ Begins .vec2 ts) :
    occurrences .leftParen (e.terse level afterMinus) ≤ occurrences .leftParen ts := by
  induction h generalizing afterMinus with
  | number | negatedVector | text | yes | no =>
    simp [Expression.terse, Literal.takesMinus]
  | vector kind =>
    cases afterMinus with
    | true => exact absurd (congrArg some kind) (hfree rfl)
    | false => simp [Expression.terse]
  | var => simp [Expression.terse]
  | @group level e l r ts opening _ _ ih =>
    -- The spelling has a pair of parentheses here, and a rendering adds at most one to that inside.
    have hinner := ih false nofun
    have hle := e.parentheses_terse_le level .assignment afterMinus
    simp only [occurrences_cons, occurrences_append, opening, beq_self_eq_true, if_true]
    omega
  | component operand _ _ ih =>
    have hoperand := ih afterMinus fun hafter => by
      rw [← begins_append operand.ne_nil]
      exact hfree hafter
    simp only [Expression.terse, occurrences_append]
    simpa [mark] using Nat.le_trans hoperand (Nat.le_add_right _ _)
  | negate loose _ free _ ih =>
    have hoperand := ih true fun _ => free
    simp only [Expression.terse, parentheses_enclosedUnless, loose]
    simpa [mark] using Nat.le_trans hoperand (Nat.le_add_right _ _)
  | not loose _ _ ih =>
    have hoperand := ih false nofun
    simp only [Expression.terse, parentheses_enclosedUnless, loose]
    simpa [mark] using Nat.le_trans hoperand (Nat.le_add_right _ _)
  | @binary level op a b o ts us loose left sign right iha ihb =>
    have ha := iha afterMinus fun hafter => by
      rw [← begins_append left.ne_nil]
      exact hfree hafter
    have hb := ihb false nofun
    simp [Expression.terse, loose, sign, operatorKind_ne_leftParen]
    omega
  | and loose left sign right iha ihb =>
    have ha := iha afterMinus fun hafter => by
      rw [← begins_append left.ne_nil]
      exact hfree hafter
    have hb := ihb false nofun
    simp [Expression.terse, loose, sign]
    omega
  | or loose left sign right iha ihb =>
    have ha := iha afterMinus fun hafter => by
      rw [← begins_append left.ne_nil]
      exact hfree hafter
    have hb := ihb false nofun
    simp [Expression.terse, loose, sign]
    omega
  | assign target sign value ih =>
    have hvalue := ih false nofun
    simp [Expression.terse, sign]
    omega

/-- A token can be laid out with spaces on the first line and is read back. -/
structure Spaced (t : Token) : Prop where
  stands : Token.Stands ' ' t
  kind : t.kind ≠ .eof
  line : t.line = 1

/-- A token that can be laid out with spaces is read back in front of a space, on the first line. -/
theorem Spaced.row {t : Token} (h : Spaced t) :
    Token.Stands ' ' t ∧ t.kind ≠ .eof ∧ t.line = 1 :=
  ⟨h.stands, h.kind, h.line⟩

/-- Tokens that are laid out with spaces are the tokens of the text. -/
theorem words_spaced {ts : List Token} (h : ∀ t ∈ ts, Spaced t) :
    Token.words (Token.laidOut ' ' ts) = ts := by
  rw [Token.words_laidOut (by decide) fun t ht => ⟨(h t ht).stands, (h t ht).kind⟩]
  exact Token.placed_zero fun t ht => (h t ht).line

/-- A token that is written as it is read stands in front of a space. -/
theorem Written.stands {t : Token} (h : Written t) (hkind : t.kind ≠ .error) :
    Token.Stands ' ' t := by
  have hmem : t ∈ Token.words t.lexeme := by
    rw [h]
    exact List.mem_singleton_self t
  exact Token.stands_of_mem_words hmem (by decide) fun herror => absurd herror hkind

/-- Whether tokens of a kind have the same text everywhere. -/
def isMark : Token.Kind → Bool
  | .number | .vec2 | .string | .identifier | .error | .eof => false
  | _ => true

/-- A mark can be laid out with spaces. -/
theorem spaced_mark {kind : Token.Kind} (h : isMark kind = true) : Spaced (mark kind) where
  stands := by
    cases kind <;> first
      | exact absurd h Bool.false_ne_true
      | exact ⟨_, _, rfl, rfl, fun r => rfl⟩
  kind := by
    rintro rfl
    cases h
  line := rfl

/-- Every operator is written as a mark. -/
theorem isMark_operatorKind (op : Operator) : isMark (operatorKind op) = true := by
  cases op <;> rfl

/-- A word that is written as it is read can be laid out with spaces. -/
theorem spaced_word {text : String} (h : Written (word text)) : Spaced (word text) :=
  ⟨h.stands nofun, nofun, rfl⟩

/-- A word that is not reserved is a name. -/
theorem spaced_of_continuesWord {name : String} {c : Char} {w : List Char}
    (htext : name.toList = c :: w) (hstart : Token.startsWord c = true)
    (hword : ∀ x ∈ c :: w, Token.continuesWord x = true)
    (hfree : Token.Kind.keyword? name = none) : Spaced (word name) where
  stands := by
    refine ⟨c, w, htext, ?_, fun r => ?_⟩
    · refine Bool.eq_false_iff.2 fun hblank => ?_
      have hc := hword c List.mem_cons_self
      rw [(Token.parts_of_isBlank hblank).word] at hc
      cases hc
    · rw [Token.measure_of_startsWord hstart, ← List.cons_append,
        Token.measureWord_append (Token.parts_of_isBlank rfl) hword, ← htext,
        String.ofList_toList, hfree, htext]
      rfl
  kind := nofun
  line := rfl

/-- Parentheses around tokens can be laid out with spaces if the tokens can. -/
theorem spaced_parenthesized {ts : List Token} (h : ∀ t ∈ ts, Spaced t) :
    ∀ t ∈ parenthesized ts, Spaced t := by
  intro t ht
  obtain rfl | ht := List.mem_cons.1 ht
  · exact spaced_mark rfl
  · obtain ht | ht := List.mem_append.1 ht
    · exact h t ht
    · obtain rfl := List.mem_singleton.1 ht
      exact spaced_mark rfl

/-- Tokens can be laid out with spaces with or without parentheses around them. -/
theorem spaced_enclosedUnless (fits : Bool) {ts : List Token} (h : ∀ t ∈ ts, Spaced t) :
    ∀ t ∈ enclosedUnless fits ts, Spaced t := by
  cases fits with
  | true => exact h
  | false => exact spaced_parenthesized h

/-- An operation can be laid out with spaces if its operands can. -/
theorem spaced_operation {ts us : List Token} {kind : Token.Kind} (hts : ∀ t ∈ ts, Spaced t)
    (hkind : isMark kind = true) (hus : ∀ t ∈ us, Spaced t) :
    ∀ t ∈ ts ++ mark kind :: us, Spaced t := by
  intro t ht
  obtain ht | ht := List.mem_append.1 ht
  · exact hts t ht
  · obtain rfl | ht := List.mem_cons.1 ht
    · exact spaced_mark hkind
    · exact hus t ht

/-- The tokens of a literal can be laid out with spaces if they are written as they are read. -/
theorem spaced_literal {l : Literal} (h : ∀ t ∈ l.tokens, Written t) :
    ∀ t ∈ l.tokens, Spaced t := by
  intro t ht
  refine ⟨(h t ht).stands ?_, ?_, ?_⟩ <;> cases l with
    | truth b => cases b <;> simp_all [Literal.tokens, mark]
    | negatedVector =>
      simp only [Literal.tokens, List.mem_cons, List.not_mem_nil, or_false] at ht
      obtain rfl | rfl := ht <;> simp [mark]
    | number | vector | text => simp_all [Literal.tokens]

/-- The tokens of a name that can be written can be laid out with spaces. -/
theorem spaced_nameTokens {name : String} (h : WritableName name) :
    ∀ t ∈ nameTokens name, Spaced t := by
  intro t ht
  by_cases hkind : t.kind = .identifier
  · refine ⟨(h.2 t ht hkind).stands (by rw [hkind]; decide), by rw [hkind]; decide, ?_⟩
    unfold nameTokens at ht
    split at ht
    · simp only [List.mem_cons, List.not_mem_nil, or_false] at ht
      obtain rfl | rfl | rfl := ht <;> rfl
    · obtain rfl := List.mem_singleton.1 ht
      rfl
  · unfold nameTokens at ht
    split at ht
    · simp only [List.mem_cons, List.not_mem_nil, or_false] at ht
      obtain rfl | rfl | rfl := ht
      · exact absurd rfl hkind
      · exact spaced_mark rfl
      · exact absurd rfl hkind
    · obtain rfl := List.mem_singleton.1 ht
      exact absurd rfl hkind

/-- The name of a component can be laid out with spaces. -/
theorem spaced_component {name : String} (h : name = "x" ∨ name = "y") : Spaced (word name) where
  stands := by
    obtain rfl | rfl := h <;> exact ⟨_, _, rfl, rfl, fun r => rfl⟩
  kind := nofun
  line := rfl

namespace Expression

/-- The tokens of an expression with few parentheses can be laid out with spaces. -/
theorem Writable.spaced_terse {e : Expression} (h : e.Writable) (level : Level)
    (afterMinus : Bool) : ∀ t ∈ e.terse level afterMinus, Spaced t := by
  induction e generalizing level afterMinus with
  | literal l => exact spaced_enclosedUnless _ (spaced_literal h.1)
  | var name => exact spaced_nameTokens h
  | assign name e ih =>
    exact spaced_enclosedUnless _ (spaced_operation (spaced_nameTokens h.1) rfl (ih h.2 _ _))
  | negate e ih | not e ih =>
    exact spaced_enclosedUnless _ (spaced_operation (List.forall_mem_nil _) rfl (ih h _ _))
  | binary op a b iha ihb =>
    exact spaced_enclosedUnless _
      (spaced_operation (iha h.1 _ _) (isMark_operatorKind op) (ihb h.2 _ _))
  | and a b iha ihb | or a b iha ihb =>
    exact spaced_enclosedUnless _ (spaced_operation (iha h.1 _ _) rfl (ihb h.2 _ _))
  | component e name ih =>
    exact spaced_operation (ih h.1 _ _) rfl (by simpa using spaced_component h.2)

/-- The tokens of an expression with all parentheses can be laid out with spaces. -/
theorem Writable.spaced_full {e : Expression} (h : e.Writable) : ∀ t ∈ e.full, Spaced t := by
  induction e with
  | literal l => exact spaced_parenthesized (spaced_literal h.1)
  | var name => exact spaced_parenthesized (spaced_nameTokens h)
  | assign name e ih =>
    exact spaced_parenthesized (spaced_operation (spaced_nameTokens h.1) rfl (ih h.2))
  | negate e ih | not e ih =>
    exact spaced_parenthesized (spaced_operation (List.forall_mem_nil _) rfl (ih h))
  | binary op a b iha ihb =>
    exact spaced_parenthesized (spaced_operation (iha h.1) (isMark_operatorKind op) (ihb h.2))
  | and a b iha ihb | or a b iha ihb =>
    exact spaced_parenthesized (spaced_operation (iha h.1) rfl (ihb h.2))
  | component e name ih =>
    exact spaced_parenthesized (spaced_operation (ih h.1) rfl (by simpa using spaced_component h.2))

end Expression

/-- The tokens of a source with one state that has one handler. -/
def handlerTokens (state event : String) (body : List Token) : List Token :=
  mark .state :: word state :: mark .leftBrace :: mark .onEvent :: word event :: mark .leftBrace ::
    (body ++ [mark .rightBrace, mark .rightBrace])

/-- The tokens of a source with one handler spell it around the body of that handler. -/
theorem fileSpelling_handlerTokens (state event : String) {body : Statement} {ts : List Token}
    (h : Clause .body body ts) :
    FileSpelling [.state ⟨state, [⟨event, body⟩]⟩] (handlerTokens state event ts) := by
  have hhandlers : HandlerSpelling [⟨event, body⟩]
      (mark .onEvent :: word event :: mark .leftBrace :: (ts ++ [mark .rightBrace])) :=
    .cons (n := word event) rfl rfl rfl h rfl .nil
  have hstate := StateSpelling.mk (w := mark .state) (n := word state) (l := mark .leftBrace)
    (r := mark .rightBrace) rfl rfl rfl hhandlers rfl
  have hfile := FileSpelling.state hstate .nil
  simp only [List.cons_append, List.append_assoc, List.nil_append, List.append_nil] at hfile
  exact hfile

/-- The tokens of a source with one handler can be laid out with spaces if its names and its body
can. -/
theorem spaced_handlerTokens {state event : String} {ts : List Token}
    (hstate : Written (word state)) (hevent : Written (word event)) (h : ∀ t ∈ ts, Spaced t) :
    ∀ t ∈ handlerTokens state event ts, Spaced t := by
  intro t ht
  simp only [handlerTokens, List.mem_cons, List.mem_append, List.not_mem_nil, or_false] at ht
  obtain rfl | rfl | rfl | rfl | rfl | rfl | ht | rfl | rfl := ht
  · exact spaced_mark rfl
  · exact spaced_word hstate
  · exact spaced_mark rfl
  · exact spaced_mark rfl
  · exact spaced_word hevent
  · exact spaced_mark rfl
  · exact h t ht
  · exact spaced_mark rfl
  · exact spaced_mark rfl

end EntityScript.Grammar
