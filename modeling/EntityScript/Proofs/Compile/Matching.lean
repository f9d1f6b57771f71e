import EntityScript.Proofs.Compile.Recursion
import EntityScript.Proofs.Token.Separated

/-!
# Compiling two drafts in step

The compiler sees little of a draft: what the tokens next to its place are, how long the code is,
which index a constant gets, and for statements whether there is a panic and how variables are
annotated. A relation on drafts that agrees about this and is kept by the basic steps is kept by
everything that is compiled, so two related drafts are compiled in step.

`Matching` says so much of a relation as expressions need, and `StatementMatching` adds what
statements need. Each function has one lemma, and the two recursions go by their inductions.
-/

namespace EntityScript.Compile

/-- What is reported as missing does not depend on the place of the token that is there. -/
theorem Problem.missingAt_congr {t u : Token} (wanted : Wanted) (h : u.spelling = t.spelling) :
    Problem.missingAt wanted u = Problem.missingAt wanted t := by
  unfold Problem.missingAt
  rw [Token.kind_eq_of_spelling h, Token.lexeme_eq_of_spelling h]

namespace Draft

variable {R : Draft → Draft → Prop} {s t : Draft} {α : Type}

/-- Equal answers together with related drafts. -/
structure InStep (R : Draft → Draft → Prop) (p q : α × Draft) : Prop where
  answer : q.1 = p.1
  related : R p.2 q.2

/-- What is in step has one answer and related drafts. -/
theorem InStep.exists_eq {p q : α × Draft} (h : InStep R p q) :
    ∃ a s t, p = (a, s) ∧ q = (a, t) ∧ R s t :=
  ⟨p.1, p.2, q.2, rfl, Prod.ext h.answer rfl, h.related⟩

/-- What a relation on drafts must tell and keep for expressions to be compiled in step. -/
structure Matching (R : Draft → Draft → Prop) : Prop where
  current {s t : Draft} (h : R s t) : t.current.spelling = s.current.spelling
  previous {s t : Draft} (h : R s t) : t.previous.spelling = s.previous.spelling
  size {s t : Draft} (h : R s t) : t.chunk.size = s.chunk.size
  advance {s t : Draft} (h : R s t) : R s.advance t.advance
  reportPrevious {s t : Draft} (h : R s t) (problem : Problem) :
    R (s.reportPrevious problem) (t.reportPrevious problem)
  reportMissing {s t : Draft} (h : R s t) (wanted : Wanted) :
    R (s.reportMissing wanted) (t.reportMissing wanted)
  emit {s t : Draft} (h : R s t) (i : Instruction) : R (s.emit i) (t.emit i)
  intern {s t : Draft} (h : R s t) (v : Value) : InStep R (s.intern v) (t.intern v)
  patchJump {s t : Draft} (h : R s t) (operand : ℕ) : R (s.patchJump operand) (t.patchJump operand)

namespace Matching

variable (m : Matching R) (h : R s t)

include m h

/-- Related drafts have next tokens of one kind. -/
theorem kind : t.current.kind = s.current.kind := Token.kind_eq_of_spelling (m.current h)

/-- Related drafts have read the same text last. -/
theorem lexeme : t.previous.lexeme = s.previous.lexeme :=
  Token.lexeme_eq_of_spelling (m.previous h)

/-- Related drafts see the same tokens. -/
theorem sees (kind : Token.Kind) : t.sees kind = s.sees kind := by
  unfold Draft.sees
  rw [m.kind h]

/-- Accepting a token keeps related drafts in step. -/
theorem accept (kind : Token.Kind) : InStep R (s.accept kind) (t.accept kind) := by
  unfold Draft.accept
  rw [m.sees h]
  split
  · exact ⟨rfl, m.advance h⟩
  · exact ⟨rfl, h⟩

/-- Expecting a token keeps related drafts in step. -/
theorem expect (kind : Token.Kind) (wanted : Wanted) :
    InStep R (s.expect kind wanted) (t.expect kind wanted) := by
  unfold Draft.expect
  rw [m.sees h]
  split
  · exact ⟨rfl, m.advance h⟩
  · exact ⟨rfl, m.reportMissing h wanted⟩

/-- Interning a name keeps related drafts in step. -/
theorem internName (name : String) : InStep R (s.internName name) (t.internName name) :=
  m.intern h _

/-- Writing a constant keeps drafts related. -/
theorem emitConstant (v : Value) : R (s.emitConstant v) (t.emitConstant v) := by
  obtain ⟨hindex, hR⟩ := m.intern h v
  unfold Draft.emitConstant
  dsimp only
  rw [hindex]
  exact m.emit hR _

/-- Writing a jump keeps related drafts in step. -/
theorem emitJump (jump : UInt16 → Instruction) : InStep R (s.emitJump jump) (t.emitJump jump) := by
  have hR := m.emit h (jump 0xFFFF)
  refine ⟨?_, hR⟩
  unfold Draft.emitJump
  dsimp only
  rw [m.size hR]

/-- Beginning a branch keeps related drafts in step. -/
theorem beginBranch : InStep R s.beginBranch t.beginBranch :=
  ⟨(m.emitJump h .jumpIfFalse).answer, m.emit (m.emitJump h .jumpIfFalse).related .pop⟩

/-- Switching to the other branch keeps related drafts in step. -/
theorem switchBranch (otherwise : ℕ) :
    InStep R (s.switchBranch otherwise) (t.switchBranch otherwise) :=
  ⟨(m.emitJump h .jump).answer,
    m.emit (m.patchJump (m.emitJump h .jump).related otherwise) .pop⟩

/-- Writing a literal keeps drafts related, readable or not. -/
theorem emitLiteral (v : Except Problem Value) : R (s.emitLiteral v) (t.emitLiteral v) := by
  cases v with
  | ok v => exact m.emitConstant h v
  | error problem => exact m.reportPrevious h problem

/-- The name of a variable keeps related drafts in step. -/
theorem variableName : InStep R s.variableName t.variableName := by
  unfold Draft.variableName
  rw [m.lexeme h]
  split
  · obtain ⟨found, s₁, t₁, hs, ht, hR₁⟩ := (m.expect h .dot .argsDot).exists_eq
    rw [hs, ht]
    cases found with
    | false => exact ⟨rfl, hR₁⟩
    | true =>
      dsimp only
      obtain ⟨found, s₂, t₂, hs, ht, hR₂⟩ := (m.expect hR₁ .identifier .argumentName).exists_eq
      rw [hs, ht]
      cases found with
      | false => exact ⟨rfl, hR₂⟩
      | true => exact ⟨congrArg (fun n => some (Arguments.reservedName n)) (m.lexeme hR₂), hR₂⟩
  · exact ⟨rfl, h⟩

/-- A component keeps drafts related. -/
theorem component : R s.component t.component := by
  unfold Draft.component
  obtain ⟨found, s₁, t₁, hs, ht, hR₁⟩ := (m.expect h .identifier .componentName).exists_eq
  rw [hs, ht]
  cases found with
  | false => exact hR₁
  | true =>
    dsimp only at hR₁ ⊢
    rw [m.lexeme hR₁]
    split
    · obtain ⟨hindex, hR₂⟩ := m.internName hR₁ s₁.previous.lexeme
      rw [hindex]
      exact m.emit hR₂ _
    · exact m.reportPrevious hR₁ _

/-- Refusing an assignment keeps drafts related. -/
theorem refuseAssignment : R s.refuseAssignment t.refuseAssignment := by
  unfold Draft.refuseAssignment
  obtain ⟨found, s₁, t₁, hs, ht, hR₁⟩ := (m.accept h .equal).exists_eq
  rw [hs, ht]
  cases found with
  | false => exact hR₁
  | true => exact m.reportPrevious hR₁ _

/-- What remains to be done at a level keeps drafts related. -/
theorem closeAt (level : Level) : R (Draft.closeAt level s) (Draft.closeAt level t) := by
  unfold Draft.closeAt
  split
  · exact m.refuseAssignment h
  · exact h

omit h in
/-- The recursion for expressions goes in step. -/
theorem expression_family :
    (∀ level s, ∀ t, R s t → R (expressionAt level s).1 (expressionAt level t).1) ∧
    (∀ o b s, ∀ t, R s t → R (operand o b s).1 (operand o b t).1) ∧
    (∀ level s, ∀ t, R s t → R (continuations level s).1 (continuations level t).1) ∧
    (∀ c s, ∀ t, R s t → R (continuation c s).1 (continuation c t).1) := by
  refine expression_induction ?expression ?operand ?continuations ?continuation
  case expression =>
    intro level s ihQ ihR t h
    cases ho : Operand.ofKind? s.current.kind with
    | none =>
      have hR := m.advance h
      rw [expressionAt_of_none ho, expressionAt_of_none ((congrArg _ (m.kind h)).trans ho),
        Problem.missingAt_congr _ (m.previous hR)]
      exact m.reportPrevious hR _
    | some o =>
      have hlt : s.advance.left < s.left := left_advance_lt fun heof => by simp [heof] at ho
      rw [expressionAt_of_some ho, expressionAt_of_some ((congrArg _ (m.kind h)).trans ho)]
      have h₁ := ihQ o (level = .assignment) hlt _ (m.advance h)
      exact m.closeAt (ihR level _ (Nat.lt_of_le_of_lt (operand ..).2 hlt) _ h₁) level
  case operand =>
    intro o b s ihP ihR t h
    cases o with
    | group =>
      rw [operand_group, operand_group]
      exact (m.expect (ihP _ s (Nat.le_refl _) _ h) ..).related
    | minus =>
      by_cases hsees : s.sees .vec2 = true
      · rw [operand_minus_of_sees b hsees, operand_minus_of_sees b ((m.sees h _).trans hsees),
          m.lexeme (m.advance h)]
        refine ihR _ _ ?_ _ (m.emitLiteral (m.advance h) _)
        simpa using left_advance_lt_of_sees hsees (by decide)
      · rw [operand_minus b hsees,
          operand_minus b fun hsees' => hsees ((m.sees h _).symm.trans hsees')]
        exact m.emit (ihP _ s (Nat.le_refl _) _ h) _
    | bang =>
      rw [operand_bang, operand_bang]
      exact m.emit (ihP _ s (Nat.le_refl _) _ h) _
    | number =>
      rw [operand_number, operand_number, m.lexeme h]
      exact m.emitLiteral h _
    | vector =>
      rw [operand_vector, operand_vector, m.lexeme h]
      exact m.emitLiteral h _
    | text =>
      rw [operand_text, operand_text, m.lexeme h]
      exact m.emitLiteral h _
    | truth value =>
      rw [operand_truth, operand_truth]
      exact m.emitConstant h _
    | name =>
      rw [operand_name, operand_name]
      have hle := s.left_variableName_le
      obtain ⟨name, s₁, t₁, hs, ht, hR₁⟩ := (m.variableName h).exists_eq
      rw [hs] at hle
      rw [hs, ht]
      cases name with
      | none => exact hR₁
      | some name =>
        obtain ⟨hindex, hR₂⟩ := m.internName hR₁ name
        have hle₂ : (s₁.internName name).2.left ≤ s.left := by simpa using hle
        dsimp only [afterName]
        rw [hindex, m.sees hR₂]
        split
        · exact m.emit (ihP _ _ (Nat.le_trans (left_advance_le _) hle₂) _ (m.advance hR₂)) _
        · exact m.emit hR₂ _
  case continuations =>
    intro level s ihS ihR t h
    cases hc : Continuation.ofKind? s.current.kind with
    | none =>
      rwa [continuations_of_none hc, continuations_of_none ((congrArg _ (m.kind h)).trans hc)]
    | some c =>
      have hc' := (congrArg _ (m.kind h)).trans hc
      by_cases hl : level ≤ c.level
      · have hlt : s.advance.left < s.left := left_advance_lt fun heof => by simp [heof] at hc
        rw [continuations_of_tight hc hl, continuations_of_tight hc' hl]
        exact ihR level _ (Nat.lt_of_le_of_lt (continuation ..).2 hlt) _
          (ihS c hlt _ (m.advance h))
      · rwa [continuations_of_loose hc hl, continuations_of_loose hc' hl]
  case continuation =>
    intro c s ihP t h
    cases c with
    | and =>
      obtain ⟨hdone, hR⟩ := m.beginBranch h
      rw [continuation_and, continuation_and, hdone]
      exact m.patchJump (ihP _ _ (by simp) _ hR) _
    | or =>
      obtain ⟨hright, hR⟩ := m.emitJump h .jumpIfFalse
      obtain ⟨hdone, hR'⟩ := m.switchBranch hR (s.emitJump .jumpIfFalse).1
      rw [continuation_or, continuation_or]
      dsimp only
      rw [hright, hdone]
      exact m.patchJump (ihP _ _ (by simp) _ hR') _
    | binary op =>
      rw [continuation_binary, continuation_binary]
      exact m.emit (ihP _ s (Nat.le_refl _) _ h) _
    | component =>
      rw [continuation_component, continuation_component]
      exact m.component h

/-- A chain of operators keeps drafts related. -/
theorem continuations (level : Level) :
    R (Draft.continuations level s).1 (Draft.continuations level t).1 :=
  m.expression_family.2.2.1 level s t h

/-- An operator with what belongs to it keeps drafts related. -/
theorem continuation (c : Continuation) :
    R (Draft.continuation c s).1 (Draft.continuation c t).1 :=
  m.expression_family.2.2.2 c s t h

/-- An expression keeps drafts related. -/
theorem expression : R s.expression t.expression :=
  m.expression_family.1 .assignment s t h

end Matching

/-- What a relation on drafts must tell and keep for statements to be compiled in step. -/
structure StatementMatching (R : Draft → Draft → Prop) : Prop extends Matching R where
  panicking {s t : Draft} (h : R s t) : t.panicking = s.panicking
  declared {s t : Draft} (h : R s t) : t.declared = s.declared
  calm {s t : Draft} (h : R s t) : R { s with panicking := false } { t with panicking := false }
  declare {s t : Draft} (h : R s t) (types : Table String ValueType) :
    R { s with declared := types } { t with declared := types }
  noteTarget {s t : Draft} (h : R s t) : R s.noteTarget t.noteTarget

namespace StatementMatching

variable (m : StatementMatching R) (h : R s t)

include m h

/-- Skipping the rest of a statement keeps drafts related. -/
theorem skipStatement : R s.skipStatement t.skipStatement := by
  induction hn : s.left using Nat.strongRecOn generalizing s t with
  | ind n ih =>
    subst hn
    rw [Draft.skipStatement.eq_1 s, Draft.skipStatement.eq_1 t, m.kind h,
      Token.kind_eq_of_spelling (m.previous h)]
    by_cases heof : s.current.kind = .eof
    · rwa [dif_pos heof, dif_pos heof]
    · rw [dif_neg heof, dif_neg heof]
      split
      · exact h
      · split
        · exact h
        · exact ih _ (left_advance_lt heof) (m.advance h) rfl

/-- Synchronizing keeps drafts related. -/
theorem synchronize : R s.synchronize t.synchronize := m.skipStatement (m.calm h)

/-- Recovering keeps drafts related. -/
theorem recover : R s.recover t.recover := by
  unfold Draft.recover
  rw [m.panicking h]
  split
  · exact m.synchronize h
  · exact h

/-- Noting the annotation of a variable keeps related drafts in step. -/
theorem annotate (name : String) : InStep R (s.annotate name) (t.annotate name) := by
  unfold Draft.annotate
  rw [m.lexeme h]
  split
  · exact ⟨rfl, m.reportPrevious h _⟩
  · rw [m.declared h]
    split
    · exact ⟨rfl, m.declare h _⟩
    · split
      · exact ⟨rfl, h⟩
      · exact ⟨rfl, m.reportPrevious h _⟩

/-- An annotation keeps related drafts in step. -/
theorem annotation (name : String) : InStep R (s.annotation name) (t.annotation name) := by
  unfold Draft.annotation
  obtain ⟨found, s₁, t₁, hs, ht, hR₁⟩ := (m.accept h .colon).exists_eq
  rw [hs, ht]
  cases found with
  | false => exact ⟨rfl, hR₁⟩
  | true =>
    dsimp only
    obtain ⟨found, s₂, t₂, hs, ht, hR₂⟩ := (m.expect hR₁ .identifier .typeName).exists_eq
    rw [hs, ht]
    cases found with
    | false => exact ⟨rfl, hR₂⟩
    | true =>
      dsimp only
      obtain ⟨type, s₃, t₃, hs, ht, hR₃⟩ := (m.annotate hR₂ name).exists_eq
      rw [hs, ht]
      cases type <;> exact ⟨rfl, hR₃⟩

/-- What a variable begins with keeps drafts related. -/
theorem initialValue (type : Option ValueType) : R (s.initialValue type) (t.initialValue type) := by
  unfold Draft.initialValue
  obtain ⟨found, s₁, t₁, hs, ht, hR₁⟩ := (m.accept h .equal).exists_eq
  rw [hs, ht]
  cases found with
  | false => exact m.emitConstant hR₁ _
  | true => exact m.expression hR₁

/-- A variable keeps drafts related from behind its first word on. -/
theorem varTail : R s.varTail t.varTail := by
  unfold Draft.varTail
  obtain ⟨found, s₁, t₁, hs, ht, hR₁⟩ := (m.expect h .identifier .variableName).exists_eq
  rw [hs, ht]
  cases found with
  | false => exact hR₁
  | true =>
    dsimp only at hR₁ ⊢
    rw [m.lexeme hR₁]
    split
    · exact m.reportPrevious hR₁ _
    · obtain ⟨type, s₂, t₂, hs, ht, hR₂⟩ := (m.annotation hR₁ s₁.previous.lexeme).exists_eq
      rw [hs, ht]
      cases type with
      | none => exact hR₂
      | some type =>
        obtain ⟨hindex, hR₃⟩ := m.internName (m.initialValue hR₂ type) s₁.previous.lexeme
        dsimp only at hindex hR₃ ⊢
        rw [hindex]
        exact (m.expect (m.emit (m.emit hR₃ _) _) ..).related

/-- One argument of an event keeps related drafts in step. -/
theorem argument (a : EventOperands) : InStep R (Draft.argument a s) (Draft.argument a t) := by
  unfold Draft.argument
  rw [m.sees h]
  split
  · have hR := m.advance h
    dsimp only
    rw [m.lexeme hR]
    split
    · exact ⟨rfl, m.emitConstant hR _⟩
    · exact ⟨rfl, m.reportPrevious hR _⟩
  · obtain ⟨found, s₁, t₁, hs, ht, hR₁⟩ := (m.accept h .identifier).exists_eq
    rw [hs, ht]
    cases found with
    | false => exact ⟨rfl, m.reportMissing hR₁ _⟩
    | true =>
      dsimp only
      rw [m.lexeme hR₁]
      obtain ⟨found, s₂, t₂, hs, ht, hR₂⟩ := (m.accept hR₁ .equal).exists_eq
      rw [hs, ht]
      cases found with
      | true => exact ⟨rfl, m.expression (m.emitConstant hR₂ _)⟩
      | false =>
        dsimp only
        split
        · exact ⟨rfl, m.emitConstant hR₂ _⟩
        · exact ⟨rfl, m.reportMissing hR₂ _⟩

/-- The arguments of an event keep related drafts in step. -/
theorem arguments (a : EventOperands) : InStep R (Draft.arguments a s) (Draft.arguments a t) := by
  induction hn : s.left using Nat.strongRecOn generalizing a s t with
  | ind n ih =>
    subst hn
    rw [Draft.arguments.eq_1 a s, Draft.arguments.eq_1 a t]
    by_cases hcomma : s.sees .comma = true
    · rw [dif_pos hcomma, dif_pos ((m.sees h _).trans hcomma)]
      have h₁ := m.argument (m.advance h) a
      have hlt : (Draft.argument a s.advance).2.left < s.left :=
        Nat.lt_of_le_of_lt (left_argument_le ..) (left_advance_lt_of_sees hcomma (by decide))
      split <;> rename_i heq <;> rw [heq] at h₁ hlt <;> split <;> rename_i heq' <;>
        rw [heq'] at h₁ <;> obtain ⟨hanswer, hR₁⟩ := h₁
      · exact ⟨rfl, hR₁⟩
      · cases hanswer
      · cases hanswer
      · cases hanswer
        exact ih _ hlt hR₁ _ rfl
    · rw [dif_neg hcomma, dif_neg fun hcomma' => hcomma ((m.sees h _).symm.trans hcomma')]
      exact ⟨rfl, h⟩

/-- The list of arguments keeps related drafts in step. -/
theorem argumentList (parenthesized : Bool) :
    InStep R (Draft.argumentList parenthesized s) (Draft.argumentList parenthesized t) := by
  unfold Draft.argumentList
  split
  · obtain ⟨a, s₁, t₁, hs, ht, hR₁⟩ := (m.arguments h .none).exists_eq
    rw [hs, ht]
    cases a with
    | none => exact ⟨rfl, hR₁⟩
    | some a =>
      dsimp only
      obtain ⟨found, s₂, t₂, hs, ht, hR₂⟩ := (m.expect hR₁ .rightParen .fireClose).exists_eq
      rw [hs, ht]
      cases found <;> exact ⟨rfl, hR₂⟩
  · exact ⟨rfl, h⟩

/-- Firing an event keeps drafts related from behind the parenthesis on. -/
theorem fireName (parenthesized : Bool) :
    R (Draft.fireName parenthesized s) (Draft.fireName parenthesized t) := by
  unfold Draft.fireName
  obtain ⟨found, s₁, t₁, hs, ht, hR₁⟩ := (m.expect h .identifier .firedEventName).exists_eq
  rw [hs, ht]
  cases found with
  | false => exact hR₁
  | true =>
    dsimp only at hR₁ ⊢
    rw [m.lexeme hR₁]
    obtain ⟨hindex, hR₂⟩ := m.internName hR₁ s₁.previous.lexeme
    rw [hindex]
    obtain ⟨a, s₃, t₃, hs, ht, hR₃⟩ := (m.argumentList hR₂ parenthesized).exists_eq
    rw [hs, ht]
    cases a with
    | none => exact hR₃
    | some a =>
      dsimp only
      split
      · exact m.emit (m.expect hR₃ ..).related _
      · exact m.reportPrevious hR₃ _

/-- Firing an event keeps drafts related from behind its first word on. -/
theorem fireTail : R s.fireTail t.fireTail := by
  obtain ⟨hparenthesized, hR⟩ := m.accept h .leftParen
  rw [fireTail_eq, fireTail_eq, hparenthesized]
  exact m.fireName hR _

/-- The parenthesis that closes the name of a state keeps related drafts in step. -/
theorem closeName (parenthesized : Bool) :
    InStep R (Draft.closeName parenthesized s) (Draft.closeName parenthesized t) := by
  unfold Draft.closeName
  split
  · exact m.expect h ..
  · exact ⟨rfl, h⟩

/-- A change of state keeps drafts related from behind the parenthesis on. -/
theorem changeName (parenthesized : Bool) :
    R (Draft.changeName parenthesized s) (Draft.changeName parenthesized t) := by
  unfold Draft.changeName
  obtain ⟨found, s₁, t₁, hs, ht, hR₁⟩ := (m.expect h .identifier .targetStateName).exists_eq
  rw [hs, ht]
  cases found with
  | false => exact hR₁
  | true =>
    dsimp only at hR₁ ⊢
    rw [m.lexeme hR₁]
    obtain ⟨hindex, hR₂⟩ := m.internName (m.noteTarget hR₁) s₁.previous.lexeme
    rw [hindex]
    obtain ⟨found, s₃, t₃, hs, ht, hR₃⟩ := (m.closeName hR₂ parenthesized).exists_eq
    rw [hs, ht]
    cases found with
    | false => exact hR₃
    | true => exact m.emit (m.expect hR₃ ..).related _

/-- A change of state keeps drafts related from behind its first word on. -/
theorem changeTail : R s.changeTail t.changeTail := by
  obtain ⟨hparenthesized, hR⟩ := m.accept h .leftParen
  rw [changeTail_eq, changeTail_eq, hparenthesized]
  exact m.changeName hR _

/-- A statement that is an expression keeps drafts related. -/
theorem expressionStatement : R s.expressionStatement t.expressionStatement :=
  m.emit (m.expect (m.expression h) ..).related .pop

omit h in
/-- The recursion for statements goes in step. -/
theorem statement_family :
    (∀ s, ∀ t, R s t → R s.blockBody.1 t.blockBody.1) ∧
    (∀ s, ∀ t, R s t → R s.statement.1 t.statement.1) ∧
    (∀ s, ∀ t, R s t → R s.ifTail.1 t.ifTail.1) ∧
    (∀ s, ∀ t, R s t → R s.elseTail.1 t.elseTail.1) := by
  refine statement_induction ?block ?statement ?ifTail ?elseTail
  case block =>
    intro s ihQ ihP t h
    by_cases hends : endsBlock s.current.kind = true
    · rw [blockBody_of_ends hends, blockBody_of_ends ((congrArg _ (m.kind h)).trans hends)]
      exact (m.expect h ..).related
    · have hlt : s.advance.left < s.left :=
        left_advance_lt fun heof => hends (by rw [heof]; rfl)
      rw [blockBody_of_not_ends hends,
        blockBody_of_not_ends fun hends' => hends ((congrArg _ (m.kind h)).symm.trans hends')]
      refine ihP _ ?_ _ (m.recover (ihQ hlt _ h))
      exact Nat.lt_of_le_of_lt (left_recover_le _) (Nat.lt_of_le_of_lt s.statement.2 hlt)
  case statement =>
    intro s ih t h
    rw [statement_eq, statement_eq, m.kind h]
    split
    · exact m.varTail (m.advance h)
    · rename_i hk
      exact (ih (left_advance_lt (by rw [hk]; decide))).2 _ (m.advance h)
    · exact m.fireTail (m.advance h)
    · exact m.changeTail (m.advance h)
    · rename_i hk
      exact (ih (left_advance_lt (by rw [hk]; decide))).1 _ (m.advance h)
    · exact m.expressionStatement h
  case ifTail =>
    intro s ih t h
    obtain ⟨hotherwise, hR₁⟩ := m.beginBranch (m.expression h)
    rw [ifTail_eq, ifTail_eq]
    dsimp only
    rw [hotherwise, m.sees hR₁]
    split
    · rename_i hbrace
      have hle : s.expression.beginBranch.2.left ≤ s.left := by
        rw [left_beginBranch]
        exact Nat.le_trans s.left_expression_le s.left_advance_le
      have hlt : s.expression.beginBranch.2.advance.left < s.left :=
        Nat.lt_of_lt_of_le (left_advance_lt_of_sees hbrace (by decide)) hle
      have hR₂ := (ih _ hlt).1 _ (m.advance hR₁)
      obtain ⟨hdone, hR₃⟩ := m.switchBranch hR₂ s.expression.beginBranch.1
      rw [hdone]
      refine m.patchJump ((ih _ ?_).2 _ hR₃) _
      rw [left_switchBranch]
      exact Nat.lt_of_le_of_lt (Draft.blockBody _).2 hlt
    · exact m.reportMissing hR₁ _
  case elseTail =>
    intro s ih t h
    rw [elseTail_eq, elseTail_eq]
    have hlt : (s.accept .elseWord).1 = true → (s.accept .elseWord).2.left < s.left :=
      left_accept_lt (by decide)
    obtain ⟨found, s₁, t₁, hs, ht, hR₁⟩ := (m.accept h .elseWord).exists_eq
    rw [hs] at hlt
    rw [hs, ht]
    cases found with
    | false => exact hR₁
    | true =>
      have hlt₁ : s₁.advance.left < s.left := Nat.lt_of_le_of_lt (left_advance_le _) (hlt rfl)
      dsimp only at hR₁ ⊢
      rw [m.sees hR₁, m.sees hR₁]
      split
      · exact (ih _ hlt₁).2 _ (m.advance hR₁)
      · split
        · exact (ih _ hlt₁).1 _ (m.advance hR₁)
        · exact m.reportMissing hR₁ _

/-- A block keeps drafts related from behind its opening brace on. -/
theorem blockBody : R s.blockBody.1 t.blockBody.1 := m.statement_family.1 s t h

/-- A statement keeps drafts related, whatever word it begins with. -/
theorem statement : R s.statement.1 t.statement.1 := m.statement_family.2.1 s t h

end StatementMatching

end Draft

end EntityScript.Compile
