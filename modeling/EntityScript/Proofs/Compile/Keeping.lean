import EntityScript.Proofs.Compile.Recursion

/-!
# What compiling keeps

A property of drafts is kept by compiling if it is kept by the few things that compiling does to a
draft: reading on, reporting, ending a panic and writing. `Draft.Keeping` asks for these few things,
and there is one lemma for each function of the compiler.

Two properties go along with each other. The stricter one, `P`, holds while the token read last is
still the place to report a problem at. Ending a panic only leaves the looser one, `Q`, and then a
token is read, or found missing, before anything else is reported. A property that makes no such
difference is kept as `P` and `Q` alike.
-/

namespace EntityScript.Compile

/-- Whether a problem is a change to a state that is not declared. Such problems are only found once
all declarations are read. -/
def Problem.isUnknownState : Problem → Bool
  | .unknownState _ => true
  | _ => false

/-- What a problem that is found at a token says about it. Problems with literals are found at
literals that cannot be read, and changes to states that are not declared at no token. -/
def Problem.FoundAt (t : Token) : Problem → Prop
  | .badNumber => t.kind = .number ∧ readNumber t.lexeme = .error .badNumber
  | .badVector => t.kind = .vec2 ∧ readVector t.lexeme = .error .badVector
  | .unknownEscape c => t.kind = .string ∧ readText t.lexeme = .error (.unknownEscape c)
  | .danglingBackslash => t.kind = .string ∧ readText t.lexeme = .error .danglingBackslash
  | .unknownState _ => False
  | _ => True

/-- No change to an unknown state is found at a token. -/
theorem Problem.FoundAt.isUnknownState {t : Token} {problem : Problem} (h : problem.FoundAt t) :
    problem.isUnknownState = false := by
  cases problem <;> first | rfl | exact h.elim

/-- What is wrong with an unreadable token may be found at any token. -/
theorem foundAt_ofUnreadable (t u : Token) : (Problem.ofUnreadable t).FoundAt u := by
  unfold Problem.ofUnreadable
  split <;> trivial

/-- Texts are wrong only for their escapes. -/
theorem problem_unescapeOnto {out : String} {cs : List Char} {problem : Problem}
    (h : unescapeOnto out cs = .error problem) :
    problem = .danglingBackslash ∨ ∃ c, problem = .unknownEscape c := by
  fun_induction unescapeOnto out cs with
  | case1 => cases h
  | case2 => cases h; exact .inl rfl
  | case3 _ _ _ _ _ ih => exact ih h
  | case4 => cases h; exact .inr ⟨_, rfl⟩
  | case5 _ _ _ _ _ ih => exact ih h

/-- Whatever is wrong with a literal is found at its token. -/
def FoundAtOnce {α : Type} (t : Token) (v : Except Problem α) : Prop :=
  ∀ problem, v = .error problem → problem.FoundAt t

/-- What is wrong with a literal is still found at its token when its value is changed. -/
theorem FoundAtOnce.map {α β : Type} {t : Token} {v : Except Problem α} (h : FoundAtOnce t v)
    (f : α → β) : FoundAtOnce t (v.map f) := by
  intro problem heq
  cases v with
  | ok a => cases heq
  | error problem =>
    cases heq
    exact h problem rfl

/-- What is wrong with a text is found at its string token. -/
theorem foundAtOnce_readText {t : Token} (hkind : t.kind = .string) :
    FoundAtOnce t (readText t.lexeme) := by
  intro problem h
  obtain rfl | ⟨c, rfl⟩ := problem_unescapeOnto h
  · exact ⟨hkind, h⟩
  · exact ⟨hkind, h⟩

/-- What is wrong with a number is found at its number token. -/
theorem foundAtOnce_readNumber {t : Token} (hkind : t.kind = .number) :
    FoundAtOnce t (readNumber t.lexeme) := by
  intro problem h
  have hproblem : problem = .badNumber := by
    unfold readNumber at h
    split at h <;> cases h
    rfl
  subst hproblem
  exact ⟨hkind, h⟩

/-- What is wrong with a vector is found at its vector token. -/
theorem foundAtOnce_readVector {t : Token} (hkind : t.kind = .vec2) :
    FoundAtOnce t (readVector t.lexeme) := by
  intro problem h
  have hproblem : problem = .badVector := by
    unfold readVector at h
    dsimp only at h
    split at h
    · cases h
      rfl
    · split at h <;> cases h
      rfl
  subst hproblem
  exact ⟨hkind, h⟩

/-- Only a number token begins a number. -/
theorem kind_of_ofKind?_number {kind : Token.Kind} (h : Operand.ofKind? kind = some .number) :
    kind = .number := by
  cases kind <;> cases h
  rfl

/-- Only a vector token begins a vector. -/
theorem kind_of_ofKind?_vector {kind : Token.Kind} (h : Operand.ofKind? kind = some .vector) :
    kind = .vec2 := by
  cases kind <;> cases h
  rfl

/-- Only a string token begins a text. -/
theorem kind_of_ofKind?_text {kind : Token.Kind} (h : Operand.ofKind? kind = some .text) :
    kind = .string := by
  cases kind <;> cases h
  rfl

namespace Draft

/-- What holds while the tokens that cannot be read are skipped holds when they are. -/
theorem settle_of_skip {I : Draft → Prop} (hskip : ∀ (s : Draft) t rest,
      I { s with upcoming := t :: rest } →
        I { s.report t.line (.ofUnreadable t) with upcoming := rest })
    {s : Draft} {tokens : List Token} (h : I { s with upcoming := tokens }) :
    I (s.settle tokens) := by
  induction tokens generalizing s with
  | nil => exact h
  | cons t rest ih =>
    unfold settle
    split
    · exact ih (hskip s t rest h)
    · exact h

/-- What a report leaves alone. -/
theorem exists_report (s : Draft) (line : ℕ) (problem : Problem) : ∃ diagnostics panicking,
    s.report line problem = { s with diagnostics, panicking } := by
  unfold report
  split
  · exact ⟨s.diagnostics, s.panicking, rfl⟩
  · exact ⟨_, _, rfl⟩

/-- What skipping tokens leaves alone. -/
theorem exists_settle (s : Draft) (tokens : List Token) : ∃ upcoming diagnostics panicking,
    s.settle tokens = { s with upcoming, diagnostics, panicking } := by
  induction tokens generalizing s with
  | nil => exact ⟨[], s.diagnostics, s.panicking, rfl⟩
  | cons t rest ih =>
    unfold settle
    split
    · obtain ⟨diagnostics, panicking, heq⟩ := s.exists_report t.line (.ofUnreadable t)
      rw [heq]
      exact ih _
    · exact ⟨t :: rest, s.diagnostics, s.panicking, rfl⟩

/-- What reading a token leaves alone. -/
theorem exists_advance (s : Draft) : ∃ upcoming diagnostics panicking,
    s.advance = { s with previous := s.current, upcoming, diagnostics, panicking } :=
  exists_settle ..

/-- The token read last is the one that came next. -/
theorem previous_advance (s : Draft) : s.advance.previous = s.current := by
  obtain ⟨upcoming, diagnostics, panicking, heq⟩ := s.exists_advance
  rw [heq]

/-- A token that is seen is the one read last after advancing. -/
theorem previous_advance_of_sees {s : Draft} {kind : Token.Kind} (h : s.sees kind = true) :
    s.advance.previous.kind = kind := by
  rw [s.previous_advance]
  exact beq_iff_eq.1 h

/-- The few things that compiling does to a draft keep two properties. Only the stricter one admits
a problem at the token read last. -/
structure Keeping (P Q : Draft → Prop) : Prop where
  loosen {s : Draft} (h : P s) : Q s
  advance {s : Draft} (h : Q s) : P s.advance
  reportMissing {s : Draft} (h : Q s) (wanted : Wanted) : P (s.reportMissing wanted)
  reportPrevious {s : Draft} {problem : Problem} (h : P s)
    (hproblem : problem.FoundAt s.previous) : P (s.reportPrevious problem)
  calm {s : Draft} (h : Q s) : Q { s with panicking := false }
  emit {s : Draft} (h : P s) (i : Instruction) : P (s.emit i)
  pool {s : Draft} (h : P s) (v : Value) : P { s with chunk := (s.chunk.intern v).2 }
  patch {s : Draft} (h : P s) (operand : ℕ) (w : UInt16) :
    P { s with chunk := s.chunk.setWord operand w }
  declare {s : Draft} (h : P s) (declared : Table String ValueType) : P { s with declared }
  noteTarget {s : Draft} (h : P s) : P s.noteTarget

namespace Keeping

variable {P Q : Draft → Prop} (hk : Keeping P Q) {s : Draft}
include hk

/-- Reading on where a problem might be reported as well. -/
theorem advance_strict (h : P s) : P s.advance := hk.advance (hk.loosen h)

/-- Accepting a token keeps the stricter property. -/
theorem accept (h : P s) (kind : Token.Kind) : P (s.accept kind).2 := by
  unfold Draft.accept
  split
  · exact hk.advance_strict h
  · exact h

/-- Expecting a token gains the stricter property: it is read, or found missing. -/
theorem expect (h : Q s) (kind : Token.Kind) (wanted : Wanted) : P (s.expect kind wanted).2 := by
  unfold Draft.expect
  split
  · exact hk.advance h
  · exact hk.reportMissing h wanted

/-- Expecting a token keeps the stricter property. -/
theorem expect_strict (h : P s) (kind : Token.Kind) (wanted : Wanted) :
    P (s.expect kind wanted).2 :=
  hk.expect (hk.loosen h) kind wanted

/-- Skipping the rest of a statement keeps the looser property. -/
theorem skipStatement (h : Q s) : Q s.skipStatement := by
  fun_induction Draft.skipStatement s with
  | case1 | case2 | case3 => exact h
  | case4 s _ _ _ ih => exact ih (hk.loosen (hk.advance h))

/-- Synchronizing keeps the looser property. -/
theorem synchronize (h : Q s) : Q s.synchronize := hk.skipStatement (hk.calm h)

/-- Recovering leaves the looser property. -/
theorem recover (h : P s) : Q s.recover := by
  unfold Draft.recover
  split
  · exact hk.synchronize (hk.loosen h)
  · exact hk.loosen h

/-- Interning a value keeps the stricter property. -/
theorem intern (h : P s) (v : Value) : P (s.intern v).2 := by
  have hpool := hk.pool h v
  unfold Draft.intern
  split <;> rename_i heq <;> rw [heq] at hpool
  · exact hpool
  · exact hk.reportPrevious hpool trivial

/-- Interning a name keeps the stricter property. -/
theorem internName (h : P s) (name : String) : P (s.internName name).2 := hk.intern h _

/-- Writing a constant keeps the stricter property. -/
theorem emitConstant (h : P s) (v : Value) : P (s.emitConstant v) := hk.emit (hk.intern h v) _

/-- Writing a jump keeps the stricter property. -/
theorem emitJump (h : P s) (jump : UInt16 → Instruction) : P (s.emitJump jump).2 := hk.emit h _

/-- Patching a jump keeps the stricter property. -/
theorem patchJump (h : P s) (operand : ℕ) : P (s.patchJump operand) := by
  unfold Draft.patchJump
  dsimp only
  split
  · exact hk.patch h ..
  · exact hk.reportPrevious h trivial

/-- Beginning a branch keeps the stricter property. -/
theorem beginBranch (h : P s) : P s.beginBranch.2 := hk.emit (hk.emitJump h _) _

/-- Switching to the other branch keeps the stricter property. -/
theorem switchBranch (h : P s) (otherwise : ℕ) : P (s.switchBranch otherwise).2 :=
  hk.emit (hk.patchJump (hk.emitJump h .jump) otherwise) _

/-- A literal keeps the stricter property, since what is wrong with it is found at its token. -/
theorem emitLiteral (h : P s) {v : Except Problem Value} (hv : FoundAtOnce s.previous v) :
    P (s.emitLiteral v) := by
  cases v with
  | ok v => exact hk.emitConstant h v
  | error problem => exact hk.reportPrevious h (hv problem rfl)

/-- The name of a variable keeps the stricter property. -/
theorem variableName (h : P s) : P s.variableName.2 := by
  unfold Draft.variableName
  have h₁ := hk.expect_strict h .dot .argsDot
  split
  · split
    · rename_i heq
      rwa [heq] at h₁
    · rename_i s₁ heq
      rw [heq] at h₁
      have h₂ := hk.expect_strict h₁ .identifier .argumentName
      split <;> rename_i heq <;> rwa [heq] at h₂
  · exact h

/-- A component keeps the stricter property. -/
theorem component (h : P s) : P s.component := by
  unfold Draft.component
  have h₁ := hk.expect_strict h .identifier .componentName
  split
  · rename_i heq
    rwa [heq] at h₁
  · rename_i s₁ heq
    rw [heq] at h₁
    dsimp only
    split
    · exact hk.emit (hk.internName h₁ _) _
    · exact hk.reportPrevious h₁ trivial

/-- Refusing an assignment keeps the stricter property. -/
theorem refuseAssignment (h : P s) : P s.refuseAssignment := by
  unfold Draft.refuseAssignment
  have h₁ := hk.accept h .equal
  split <;> rename_i heq <;> rw [heq] at h₁
  · exact hk.reportPrevious h₁ trivial
  · exact h₁

/-- What remains to be done at a level keeps the stricter property. -/
theorem closeAt (h : P s) (level : Level) : P (Draft.closeAt level s) := by
  unfold Draft.closeAt
  split
  · exact hk.refuseAssignment h
  · exact h

/-- The recursion for expressions. An expression begins by reading a token, so it may begin where
the looser property holds. -/
theorem expression_family :
    (∀ level s, Q s → P (Draft.expressionAt level s).1) ∧
    (∀ o b s, P s → Operand.ofKind? s.previous.kind = some o → P (Draft.operand o b s).1) ∧
    (∀ level s, P s → P (Draft.continuations level s).1) ∧
    (∀ c s, P s → P (Draft.continuation c s).1) := by
  refine expression_induction ?expression ?operand ?continuations ?continuation
  case expression =>
    intro level s ihQ ihR h
    cases ho : Operand.ofKind? s.current.kind with
    | none =>
      rw [expressionAt_of_none ho]
      exact hk.reportPrevious (hk.advance h) trivial
    | some o =>
      have hlt : s.advance.left < s.left := left_advance_lt fun heof => by simp [heof] at ho
      rw [expressionAt_of_some ho]
      have h₁ := ihQ o (level = .assignment) hlt (hk.advance h) (by rw [previous_advance, ho])
      exact hk.closeAt (ihR level _ (Nat.lt_of_le_of_lt (Draft.operand ..).2 hlt) h₁) level
  case operand =>
    intro o b s ihP ihR h hkind
    have hinner : ∀ level, P (Draft.expressionAt level s).1 := fun level =>
      ihP level s (Nat.le_refl _) (hk.loosen h)
    cases o with
    | group =>
      rw [operand_group]
      exact hk.expect_strict (hinner _) ..
    | minus =>
      by_cases hsees : s.sees .vec2 = true
      · rw [operand_minus_of_sees b hsees]
        have hvector := foundAtOnce_readVector (previous_advance_of_sees hsees)
        refine ihR _ _ ?_ (hk.emitLiteral (hk.advance_strict h) (hvector.map _))
        simpa using left_advance_lt_of_sees hsees (by decide)
      · rw [operand_minus b hsees]
        exact hk.emit (hinner _) _
    | bang =>
      rw [operand_bang]
      exact hk.emit (hinner _) _
    | number =>
      rw [operand_number]
      exact hk.emitLiteral h (foundAtOnce_readNumber (kind_of_ofKind?_number hkind))
    | vector =>
      rw [operand_vector]
      exact hk.emitLiteral h ((foundAtOnce_readVector (kind_of_ofKind?_vector hkind)).map _)
    | text =>
      rw [operand_text]
      exact hk.emitLiteral h ((foundAtOnce_readText (kind_of_ofKind?_text hkind)).map _)
    | truth value =>
      rw [operand_truth]
      exact hk.emitConstant h _
    | name =>
      rw [operand_name]
      have h₁ := hk.variableName h
      have hle := s.left_variableName_le
      split
      · rename_i heq
        rwa [heq] at h₁
      · rename_i name s₁ heq
        rw [heq] at h₁ hle
        unfold afterName
        have h₂ := hk.internName h₁ name
        have hle₂ : (s₁.internName name).2.left ≤ s.left := by simpa using hle
        dsimp only
        split
        · refine hk.emit (ihP _ _ (Nat.le_trans (left_advance_le _) hle₂) ?_) _
          exact hk.loosen (hk.advance_strict h₂)
        · exact hk.emit h₂ _
  case continuations =>
    intro level s ihS ihR h
    cases hc : Continuation.ofKind? s.current.kind with
    | none => rwa [continuations_of_none hc]
    | some c =>
      by_cases hl : level ≤ c.level
      · have hlt : s.advance.left < s.left := left_advance_lt fun heof => by simp [heof] at hc
        rw [continuations_of_tight hc hl]
        exact ihR level _ (Nat.lt_of_le_of_lt (Draft.continuation ..).2 hlt)
          (ihS c hlt (hk.advance_strict h))
      · rwa [continuations_of_loose hc hl]
  case continuation =>
    intro c s ihP h
    cases c with
    | and =>
      rw [continuation_and]
      exact hk.patchJump (ihP _ _ (by simp) (hk.loosen (hk.beginBranch h))) _
    | or =>
      rw [continuation_or]
      refine hk.patchJump (ihP _ _ (by simp) (hk.loosen ?_)) _
      exact hk.switchBranch (hk.emitJump h .jumpIfFalse) _
    | binary op =>
      rw [continuation_binary]
      exact hk.emit (ihP _ s (Nat.le_refl _) (hk.loosen h)) _
    | component =>
      rw [continuation_component]
      exact hk.component h

/-- An expression of any level gains the stricter property: its first token is read. -/
theorem expressionAt (h : Q s) (level : Level) : P (s.expressionAt level).1 :=
  hk.expression_family.1 level s h

/-- An operand keeps the stricter property from behind its first token on. -/
theorem operand (h : P s) {o : Operand} (ho : Operand.ofKind? s.previous.kind = some o) (b : Bool) :
    P (Draft.operand o b s).1 :=
  hk.expression_family.2.1 o b s h ho

/-- A chain of operators keeps the stricter property. -/
theorem continuations (h : P s) (level : Level) : P (Draft.continuations level s).1 :=
  hk.expression_family.2.2.1 level s h

/-- An operator with what belongs to it keeps the stricter property. -/
theorem continuation (h : P s) (c : Continuation) : P (Draft.continuation c s).1 :=
  hk.expression_family.2.2.2 c s h

/-- An expression gains the stricter property. -/
theorem expression (h : Q s) : P s.expression := hk.expressionAt h _

/-- An expression keeps the stricter property. -/
theorem expression_strict (h : P s) : P s.expression := hk.expression (hk.loosen h)

/-- Noting the annotation of a variable keeps the stricter property. -/
theorem annotate (h : P s) (name : String) : P (s.annotate name).2 := by
  unfold Draft.annotate
  split
  · exact hk.reportPrevious h trivial
  · split
    · exact hk.declare h _
    · split
      · exact h
      · exact hk.reportPrevious h trivial

/-- An annotation keeps the stricter property. -/
theorem annotation (h : P s) (name : String) : P (s.annotation name).2 := by
  unfold Draft.annotation
  have h₁ := hk.accept h .colon
  split
  · rename_i heq
    rwa [heq] at h₁
  · rename_i s₁ heq
    rw [heq] at h₁
    have h₂ := hk.expect_strict h₁ .identifier .typeName
    split
    · rename_i heq
      rwa [heq] at h₂
    · rename_i s₂ heq
      rw [heq] at h₂
      have h₃ := hk.annotate h₂ name
      split <;> rename_i heq <;> rwa [heq] at h₃

/-- What a variable begins with keeps the stricter property. -/
theorem initialValue (h : P s) (type : Option ValueType) : P (s.initialValue type) := by
  unfold Draft.initialValue
  have h₁ := hk.accept h .equal
  split <;> rename_i heq <;> rw [heq] at h₁
  · exact hk.expression_strict h₁
  · exact hk.emitConstant h₁ _

/-- A variable keeps the stricter property from behind its first word on. -/
theorem varTail (h : P s) : P s.varTail := by
  unfold Draft.varTail
  have h₁ := hk.expect_strict h .identifier .variableName
  split
  · rename_i heq
    rwa [heq] at h₁
  · rename_i s₁ heq
    rw [heq] at h₁
    dsimp only
    split
    · exact hk.reportPrevious h₁ trivial
    · have h₂ := hk.annotation h₁ s₁.previous.lexeme
      split
      · rename_i heq
        rwa [heq] at h₂
      · rename_i s₂ heq
        rw [heq] at h₂
        refine hk.expect_strict (hk.emit (hk.emit (hk.internName ?_ _) _) _) ..
        exact hk.initialValue h₂ _

/-- One argument of an event keeps the stricter property. -/
theorem argument (h : P s) (a : EventOperands) : P (Draft.argument a s).2 := by
  unfold Draft.argument
  split
  · rename_i hsees
    have hkind := previous_advance_of_sees (Bool.and_eq_true_iff.1 hsees).1
    have h₁ := hk.advance_strict h
    dsimp only
    split
    · exact hk.emitConstant h₁ _
    · rename_i problem heq
      exact hk.reportPrevious h₁ (foundAtOnce_readText hkind problem heq)
  · have h₁ := hk.accept h .identifier
    split
    · rename_i heq
      rw [heq] at h₁
      exact hk.reportMissing (hk.loosen h₁) _
    · rename_i s₁ heq
      rw [heq] at h₁
      have h₂ := hk.accept h₁ .equal
      dsimp only
      split
      · rename_i heq
        rw [heq] at h₂
        exact hk.expression_strict (hk.emitConstant h₂ _)
      · rename_i heq
        rw [heq] at h₂
        split
        · exact hk.emitConstant h₂ _
        · exact hk.reportMissing (hk.loosen h₂) _

/-- The arguments of an event keep the stricter property. -/
theorem arguments (h : P s) (a : EventOperands) : P (Draft.arguments a s).2 := by
  fun_induction Draft.arguments a s with
  | case1 a s hsees s₁ harg =>
    have h₁ := hk.argument (hk.advance_strict h) a
    rwa [harg] at h₁
  | case2 a s hsees b s₁ harg hlt ih =>
    have h₁ := hk.argument (hk.advance_strict h) a
    rw [harg] at h₁
    exact ih h₁
  | case3 => exact h

/-- The list of arguments keeps the stricter property. -/
theorem argumentList (h : P s) (parenthesized : Bool) :
    P (Draft.argumentList parenthesized s).2 := by
  unfold Draft.argumentList
  split
  · have h₁ := hk.arguments h .none
    split
    · rename_i heq
      rwa [heq] at h₁
    · rename_i s₁ heq
      rw [heq] at h₁
      have h₂ := hk.expect_strict h₁ .rightParen .fireClose
      split <;> rename_i heq <;> rwa [heq] at h₂
  · exact h

/-- Firing an event keeps the stricter property from behind the parenthesis on. -/
theorem fireName (h : P s) (parenthesized : Bool) : P (Draft.fireName parenthesized s) := by
  unfold Draft.fireName
  have h₁ := hk.expect_strict h .identifier .firedEventName
  split
  · rename_i heq
    rwa [heq] at h₁
  · rename_i s₁ heq
    rw [heq] at h₁
    have h₂ := hk.argumentList (hk.internName h₁ s₁.previous.lexeme) parenthesized
    dsimp only
    split
    · rename_i heq
      rwa [heq] at h₂
    · rename_i heq
      rw [heq] at h₂
      split
      · exact hk.emit (hk.expect_strict h₂ ..) _
      · exact hk.reportPrevious h₂ trivial

/-- Firing an event keeps the stricter property from behind its first word on. -/
theorem fireTail (h : P s) : P s.fireTail := hk.fireName (hk.accept h .leftParen) _

/-- The parenthesis that closes the name of a state keeps the stricter property. -/
theorem closeName (h : P s) (parenthesized : Bool) : P (Draft.closeName parenthesized s).2 := by
  unfold Draft.closeName
  split
  · exact hk.expect_strict h ..
  · exact h

/-- A change of state keeps the stricter property from behind the parenthesis on. -/
theorem changeName (h : P s) (parenthesized : Bool) : P (Draft.changeName parenthesized s) := by
  unfold Draft.changeName
  have h₁ := hk.expect_strict h .identifier .targetStateName
  split
  · rename_i heq
    rwa [heq] at h₁
  · rename_i s₁ heq
    rw [heq] at h₁
    have h₂ := hk.closeName (hk.internName (hk.noteTarget h₁) s₁.previous.lexeme) parenthesized
    dsimp only
    split
    · rename_i heq
      rwa [heq] at h₂
    · rename_i heq
      rw [heq] at h₂
      exact hk.emit (hk.expect_strict h₂ ..) _

/-- A change of state keeps the stricter property from behind its first word on. -/
theorem changeTail (h : P s) : P s.changeTail := hk.changeName (hk.accept h .leftParen) _

/-- A statement that is an expression gains the stricter property. -/
theorem expressionStatement (h : Q s) : P s.expressionStatement :=
  hk.emit (hk.expect_strict (hk.expression h) ..) _

/-- The recursion for statements. Statements and the ends of blocks begin by reading a token or by
finding one missing, so they may begin where the looser property holds. -/
theorem statement_family :
    (∀ s, Q s → P (Draft.blockBody s).1) ∧ (∀ s, Q s → P (Draft.statement s).1) ∧
    (∀ s, Q s → P (Draft.ifTail s).1) ∧ (∀ s, P s → P (Draft.elseTail s).1) := by
  refine statement_induction ?block ?statement ?ifTail ?elseTail
  case block =>
    intro s ihQ ihP h
    by_cases hends : endsBlock s.current.kind = true
    · rw [blockBody_of_ends hends]
      exact hk.expect h ..
    · have hlt : s.advance.left < s.left := left_advance_lt fun heof => hends (by rw [heof]; rfl)
      rw [blockBody_of_not_ends hends]
      refine ihP _ ?_ (hk.recover (ihQ hlt h))
      exact Nat.lt_of_le_of_lt (left_recover_le _) (Nat.lt_of_le_of_lt (Draft.statement s).2 hlt)
  case statement =>
    intro s ih h
    by_cases hother : beginsOther s.current.kind = true
    · have hlt : s.advance.left < s.left :=
        left_advance_lt fun heof => by simp [heof, beginsOther] at hother
      obtain ⟨ihP, ihR⟩ := ih hlt
      have h₁ := hk.advance h
      unfold beginsOther at hother
      split at hother
      · rename_i hkind; rw [statement_var hkind]; exact hk.varTail h₁
      · rename_i hkind; rw [statement_if hkind]; exact ihR (hk.loosen h₁)
      · rename_i hkind; rw [statement_fire hkind]; exact hk.fireTail h₁
      · rename_i hkind; rw [statement_change hkind]; exact hk.changeTail h₁
      · rename_i hkind; rw [statement_block hkind]; exact ihP (hk.loosen h₁)
      · simp at hother
    · rw [statement_expression hother]
      exact hk.expressionStatement h
  case ifTail =>
    intro s ih h
    rw [ifTail_eq]
    dsimp only
    have h₁ := hk.loosen (hk.beginBranch (hk.expression h))
    split
    · rename_i hsees
      have hle : s.expression.beginBranch.2.left ≤ s.left := by
        simpa using Nat.le_trans s.left_expression_le s.left_advance_le
      have hlt := Nat.lt_of_lt_of_le (left_advance_lt_of_sees hsees (by decide)) hle
      have h₂ := (ih _ hlt).1 (hk.loosen (hk.advance h₁))
      have hle₂ := (Draft.blockBody s.expression.beginBranch.2.advance).2
      refine hk.patchJump ((ih _ ?_).2 (hk.switchBranch h₂ _)) _
      simpa using Nat.lt_of_le_of_lt hle₂ hlt
    · exact hk.reportMissing h₁ _
  case elseTail =>
    intro s ih h
    rw [elseTail_eq]
    have h₁ := hk.accept h .elseWord
    split
    · rename_i heq
      rwa [heq] at h₁
    · rename_i s₁ heq
      have hlt₁ := @left_accept_lt s .elseWord (by decide) (by rw [heq])
      rw [heq] at h₁ hlt₁
      have hlt : s₁.advance.left < s.left := Nat.lt_of_le_of_lt (left_advance_le _) hlt₁
      have h₂ := hk.loosen (hk.advance_strict h₁)
      split
      · exact (ih _ hlt).2 h₂
      · split
        · exact (ih _ hlt).1 h₂
        · exact hk.reportMissing (hk.loosen h₁) _

/-- A block gains the stricter property: its closing brace is read, or found missing. -/
theorem blockBody (h : Q s) : P s.blockBody.1 := hk.statement_family.1 s h

/-- A conditional statement gains the stricter property from behind its first word on. -/
theorem ifTail (h : Q s) : P s.ifTail.1 := hk.statement_family.2.2.1 s h

/-- The other branch keeps the stricter property, whether there is one or not. -/
theorem elseTail (h : P s) : P s.elseTail.1 := hk.statement_family.2.2.2 s h

/-- The name of an event keeps the stricter property. -/
theorem eventName (h : P s) : P (Outline.eventName s).2 := by
  unfold Outline.eventName
  have h₁ := hk.accept h .identifier
  split <;> rename_i heq <;> rw [heq] at h₁
  · exact h₁
  · exact hk.reportMissing (hk.loosen h₁) _

/-- A handler is compiled into a chunk of its own. -/
theorem handlerChunk (hchunk : ∀ {s : Draft}, P s → ∀ chunk, P { s with chunk }) (h : P s)
    (name : String) : P (Outline.handlerChunk s name).2 := by
  have hbegun := hk.advance_strict (hchunk h (.empty name))
  exact hchunk (hk.emit (hk.blockBody (hk.loosen hbegun)) .ret) _

end Keeping

end Draft

namespace Outline

/-- The few things that compiling does to a draft, and the handlers of a state, keep two
properties. -/
structure Keeping (P Q : Draft → Prop) : Prop extends Draft.Keeping P Q where
  handlerTail {o : Outline} (h : P o.draft) (state : String) : Q (o.handlerTail state).draft

variable {P Q : Draft → Prop}

/-- Whatever compiling keeps was kept on the way from an outline to another. -/
def Onward (o o' : Outline) : Prop := ∀ P : Draft → Prop, Keeping P P → P o.draft → P o'.draft

/-- A handler keeps what does not depend on the chunk under construction and is kept when a second
handler is noted. -/
theorem Keeping.of_write (hk : Draft.Keeping P Q)
    (write : ∀ {s : Draft}, P s → ∀ chunk, P { s with chunk })
    (note : ∀ {s : Draft}, P s → ∀ line state event, P { s with
      diagnostics := s.diagnostics.push ⟨line, .duplicateHandler state event⟩ }) :
    Keeping P Q := by
  refine { hk with handlerTail := ?_ }
  intro o h state
  have h₁ := hk.eventName h
  have h₂ := fun name => hk.handlerChunk write h₁ name
  unfold Outline.handlerTail
  dsimp only
  split
  · split
    · exact hk.loosen (h₂ _)
    · split
      · unfold addHandler
        dsimp only
        split
        · exact hk.loosen (note (h₂ _) _ _ _)
        · exact hk.loosen (h₂ _)
      · exact hk.loosen (h₂ _)
  · exact hk.synchronize (hk.loosen (hk.reportMissing (hk.loosen h₁) _))

namespace Keeping

variable (hk : Keeping P Q) {o : Outline}
include hk

/-- Expecting a token in the outline gains the stricter property. -/
theorem expect (h : Q o.draft) (kind : Token.Kind) (wanted : Wanted) :
    P (o.expect kind wanted).2.draft :=
  hk.toKeeping.expect h kind wanted

/-- Skipping an unwanted token keeps the looser property. -/
theorem skipUnwanted (h : Q o.draft) (wanted : Wanted) : Q (o.skipUnwanted wanted).draft :=
  hk.synchronize (hk.loosen (hk.advance_strict (hk.reportMissing h wanted)))

/-- The handlers of a state keep the looser property. -/
theorem stateBody (h : Q o.draft) (state : String) : Q (o.stateBody state).draft := by
  fun_induction Outline.stateBody o state with
  | case1 => exact h
  | case2 o _ _ ih => exact ih (hk.handlerTail (hk.advance h) state)
  | case3 o _ _ ih => exact ih (hk.skipUnwanted h _)

/-- Declaring a state keeps the stricter property. -/
theorem declareState (h : P o.draft) : P o.declareState.2.draft := by
  unfold Outline.declareState
  dsimp only
  split
  · exact hk.reportPrevious h trivial
  · exact h

/-- Closing a state keeps the looser property. -/
theorem closeState (h : Q o.draft) : Q o.closeState.draft :=
  hk.recover (hk.expect h .rightBrace .stateEnd)

/-- A state leaves the looser property from its opening brace on. -/
theorem stateBrace (h : P o.draft) (state : String) : Q (o.stateBrace state).draft := by
  unfold Outline.stateBrace
  have h₁ := hk.expect (hk.loosen h) .leftBrace .stateBrace
  split <;> rename_i heq <;> rw [heq] at h₁
  · exact hk.synchronize (hk.loosen h₁)
  · exact hk.closeState (hk.stateBody (hk.loosen h₁) _)

/-- A state leaves the looser property from behind its first word on. -/
theorem stateTail (h : P o.draft) : Q o.stateTail.draft := by
  rw [stateTail_eq]
  have h₁ := hk.expect (hk.loosen h) .identifier .stateName
  split <;> rename_i heq <;> rw [heq] at h₁
  · exact hk.synchronize (hk.loosen h₁)
  · exact hk.stateBrace (hk.declareState h₁) _

/-- The states of a machine keep the looser property. -/
theorem machineBody (h : Q o.draft) : Q o.machineBody.draft := by
  fun_induction Outline.machineBody o with
  | case1 => exact h
  | case2 o _ _ ih => exact ih (hk.stateTail (hk.advance h))
  | case3 o _ _ ih => exact ih (hk.skipUnwanted h _)

/-- The name of a machine keeps the stricter property. -/
theorem machineName (h : P o.draft) : P o.machineName.draft := by
  unfold Outline.machineName
  have h₁ := hk.accept h .identifier
  split <;> rename_i heq <;> rw [heq] at h₁ <;> exact h₁

/-- A machine leaves the looser property from behind its first word on. -/
theorem machineTail (h : P o.draft) : Q o.machineTail.draft := by
  unfold Outline.machineTail
  have h₁ := hk.expect (hk.loosen (hk.machineName h)) .leftBrace .machineBrace
  split <;> rename_i heq <;> rw [heq] at h₁
  · exact hk.synchronize (hk.loosen h₁)
  · exact hk.loosen (hk.expect (hk.machineBody (hk.loosen h₁)) ..)

/-- The declarations of a source keep the looser property. -/
theorem declarations (h : Q o.draft) : Q o.declarations.draft := by
  fun_induction Outline.declarations o with
  | case1 => exact h
  | case2 o _ _ ih => exact ih (hk.machineTail (hk.advance h))
  | case3 o _ _ _ ih => exact ih (hk.stateTail (hk.advance h))
  | case4 o _ _ _ ih => exact ih (hk.skipUnwanted h _)

/-- Requiring a state keeps the looser property. -/
theorem requireStates (h : Q o.draft) : Q o.requireStates.draft := by
  unfold Outline.requireStates
  split
  · exact hk.loosen (hk.reportMissing h _)
  · exact h

end Keeping

end Outline

end EntityScript.Compile
