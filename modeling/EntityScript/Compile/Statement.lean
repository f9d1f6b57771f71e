import EntityScript.Compile.Expression

/-!
# Compiling statements

A statement leaves the stack as it found it: the value of an expression statement is dropped. A
block is compiled statement by statement; after a statement with a problem the draft recovers at
the next place where a statement may begin. Blocks end at their closing brace, and also where a
declaration begins or the source ends, so a forgotten brace costs no more than one handler.

`blockBody` and `statement` read at least one token per statement, unless none is left.
-/

namespace EntityScript.Compile.Draft

/-- Annotates a variable with the type whose name was read last. Annotations hold for the whole
script, so a variable has one type everywhere. -/
def annotate (s : Draft) (name : String) : Option ValueType × Draft :=
  match ValueType.ofName? s.previous.lexeme with
  | none => (none, s.reportPrevious (.unknownType s.previous.lexeme))
  | some type =>
    match s.declared.get? name with
    | none => (some type, { s with declared := s.declared.insert name type })
    | some earlier =>
      if earlier = type then (some type, s)
      else (none, s.reportPrevious (.otherType name earlier))

/-- The annotation of a variable, if it has one. `none` stands for an annotation that is wrong. -/
def annotation (s : Draft) (name : String) : Option (Option ValueType) × Draft :=
  match s.accept .colon with
  | (false, s) => (some none, s)
  | (true, s) =>
    match s.expect .identifier .typeName with
    | (false, s) => (none, s)
    | (true, s) =>
      match s.annotate name with
      | (none, s) => (none, s)
      | (some type, s) => (some (some type), s)

/-- What a variable begins with: the value of an expression, or the unset value of its type. -/
def initialValue (s : Draft) (type : Option ValueType) : Draft :=
  match s.accept .equal with
  | (true, s) => s.expression
  | (false, s) => s.emitConstant (type.getD .number).unset

/-- A variable declaration behind its first word. -/
def varTail (s : Draft) : Draft :=
  match s.expect .identifier .variableName with
  | (false, s) => s
  | (true, s) =>
    let name := s.previous.lexeme
    if name = "args" then s.reportPrevious .reservedName
    else
      match s.annotation name with
      | (none, s) => s
      | (some type, s) =>
        let (index, s) := (s.initialValue type).internName name
        (((s.emit (.setVariable index)).emit .pop).expect .semicolon .variableEnd).2

/-- The operands of an event so far. -/
structure EventOperands where
  /-- Whether the event has a target. -/
  targeted : Bool
  /-- How many arguments it has. -/
  count : Nat

/-- The operands before the first one. -/
def EventOperands.none : EventOperands := ⟨false, 0⟩

/-- Whether a target may come next: it comes at most once, and before every argument. -/
def EventOperands.mayTarget (a : EventOperands) : Bool := !a.targeted && a.count == 0

/-- One target or argument behind its comma. No answer means that it is wrong. -/
def argument (a : EventOperands) (s : Draft) : Option EventOperands × Draft :=
  if s.sees .string && a.mayTarget then
    let s := s.advance
    match readText s.previous.lexeme with
    | .ok target => (some { a with targeted := true }, s.emitConstant (.string target))
    | .error problem => (none, s.reportPrevious problem)
  else
    match s.accept .identifier with
    | (false, s) => (none, s.reportMissing .targetOrArgument)
    | (true, s) =>
      let name := s.previous.lexeme
      match s.accept .equal with
      | (true, s) =>
        (some { a with count := a.count + 1 }, (s.emitConstant (.string name)).expression)
      | (false, s) =>
        if a.mayTarget then (some { a with targeted := true }, s.emitConstant (.string name))
        else (none, s.reportMissing .argumentValue)

/-- One argument of an event leaves at most the tokens that were there. -/
theorem left_argument_le (a : EventOperands) (s : Draft) : (argument a s).2.left ≤ s.left := by
  unfold argument
  have h₀ := s.left_advance_le
  split
  · dsimp only
    split <;> simpa using h₀
  · have h₁ := s.left_accept_le .identifier
    split
    · rename_i heq
      simpa [heq] using h₁
    · rename_i s₁ heq
      rw [heq] at h₁
      have h₂ := s₁.left_accept_le .equal
      dsimp only at h₁ ⊢
      split
      · rename_i s₂ heq
        rw [heq] at h₂
        refine Nat.le_trans (left_expression_le _) (Nat.le_trans (left_advance_le _) ?_)
        rw [left_emitConstant]
        exact Nat.le_trans h₂ h₁
      · rename_i heq
        rw [heq] at h₂
        split <;> simpa using Nat.le_trans h₂ h₁

/-- The targets and arguments to come, each behind a comma. No answer means that one is wrong. -/
def arguments (a : EventOperands) (s : Draft) : Option EventOperands × Draft :=
  if h : s.sees .comma then
    match harg : argument a s.advance with
    | (none, s₁) => (none, s₁)
    | (some b, s₁) =>
      have : s₁.left < s.left := by
        have h₁ := left_argument_le a s.advance
        rw [harg] at h₁
        exact Nat.lt_of_le_of_lt h₁ (left_advance_lt_of_sees h (by decide))
      arguments b s₁
  else (some a, s)
termination_by s.left

/-- What stands in parentheses behind an event name, if there are any. -/
def argumentList (parenthesized : Bool) (s : Draft) : Option EventOperands × Draft :=
  if parenthesized then
    match arguments .none s with
    | (none, s) => (none, s)
    | (some a, s) =>
      match s.expect .rightParen .fireClose with
      | (false, s) => (none, s)
      | (true, s) => (some a, s)
  else (some .none, s)

/-- A statement that fires an event, behind its first word. -/
def fireTail (s : Draft) : Draft :=
  let (parenthesized, s) := s.accept .leftParen
  match s.expect .identifier .firedEventName with
  | (false, s) => s
  | (true, s) =>
    let (event, s) := s.internName s.previous.lexeme
    match argumentList parenthesized s with
    | (none, s) => s
    | (some a, s) =>
      if a.count < 256 then
        let flags := if a.targeted then Instruction.targetFlag else 0
        (s.expect .semicolon .fireEnd).2.emit (.fireEvent event flags (UInt8.ofNat a.count))
      else s.reportPrevious .tooManyArguments

/-- Notes that a handler changes to the state whose name was read last. -/
def noteTarget (s : Draft) : Draft :=
  let target := (s.previous.lexeme, s.previous.line)
  { s with targets := s.targets.push target }

/-- The parenthesis that closes a state name, if one was opened. -/
def closeName (parenthesized : Bool) (s : Draft) : Bool × Draft :=
  if parenthesized then s.expect .rightParen .changeClose else (true, s)

/-- A statement that changes the state, behind its first word. -/
def changeTail (s : Draft) : Draft :=
  let (parenthesized, s) := s.accept .leftParen
  match s.expect .identifier .targetStateName with
  | (false, s) => s
  | (true, s) =>
    let (index, s) := s.noteTarget.internName s.previous.lexeme
    match closeName parenthesized s with
    | (false, s) => s
    | (true, s) => (s.expect .semicolon .changeEnd).2.emit (.changeState index)

/-- Noting the annotation of a variable takes no token away. -/
theorem left_annotate (s : Draft) (name : String) : (s.annotate name).2.left = s.left := by
  unfold annotate
  split
  · simp
  · split
    · rfl
    · split
      · rfl
      · simp

/-- An annotation, present or not, leaves at most the tokens that were there. -/
theorem left_annotation_le (s : Draft) (name : String) : (s.annotation name).2.left ≤ s.left := by
  unfold annotation
  have h₁ := s.left_accept_le .colon
  split
  · rename_i heq
    rwa [heq] at h₁
  · rename_i s₁ heq
    rw [heq] at h₁
    have h₂ := s₁.left_expect_le .identifier .typeName
    split
    · rename_i heq
      rw [heq] at h₂
      exact Nat.le_trans h₂ h₁
    · rename_i s₂ heq
      rw [heq] at h₂
      have h₃ := s₂.left_annotate name
      split <;> rename_i heq <;> rw [heq] at h₃ <;>
        exact Nat.le_trans (Nat.le_of_eq h₃) (Nat.le_trans h₂ h₁)

/-- The first value of a variable leaves at most the tokens that were there. -/
theorem left_initialValue_le (s : Draft) (type : Option ValueType) :
    (s.initialValue type).left ≤ s.left := by
  unfold initialValue
  have h := s.left_accept_le .equal
  split
  · rename_i heq
    rw [heq] at h
    exact Nat.le_trans (left_expression_le _) (Nat.le_trans (left_advance_le _) h)
  · rename_i heq
    rw [heq] at h
    simpa using h

/-- What follows `var` leaves at most the tokens that were there. -/
theorem left_varTail_le (s : Draft) : s.varTail.left ≤ s.left := by
  unfold varTail
  have h₁ := s.left_expect_le .identifier .variableName
  split
  · rename_i heq
    rwa [heq] at h₁
  · rename_i s₁ heq
    rw [heq] at h₁
    dsimp only
    split
    · simpa using h₁
    · have h₂ := s₁.left_annotation_le s₁.previous.lexeme
      split
      · rename_i heq
        rw [heq] at h₂
        exact Nat.le_trans h₂ h₁
      · rename_i s₂ heq
        rw [heq] at h₂
        refine Nat.le_trans (left_expect_le ..) ?_
        simp only [left_emit, left_internName]
        exact Nat.le_trans (s₂.left_initialValue_le _) (Nat.le_trans h₂ h₁)

/-- The arguments of an event leave at most the tokens that were there. -/
theorem left_arguments_le (a : EventOperands) (s : Draft) : (arguments a s).2.left ≤ s.left := by
  fun_induction arguments a s with
  | case1 a s h s₁ harg =>
    have h₁ := left_argument_le a s.advance
    rw [harg] at h₁
    exact Nat.le_trans h₁ s.left_advance_le
  | case2 a s h a' s₁ harg hlt ih => exact Nat.le_trans ih (Nat.le_of_lt hlt)
  | case3 => exact Nat.le_refl _

/-- The list of arguments leaves at most the tokens that were there, with parentheses or without. -/
theorem left_argumentList_le (parenthesized : Bool) (s : Draft) :
    (argumentList parenthesized s).2.left ≤ s.left := by
  unfold argumentList
  split
  · have h₁ := left_arguments_le .none s
    split
    · rename_i heq
      rwa [heq] at h₁
    · rename_i s₁ heq
      rw [heq] at h₁
      have h₂ := s₁.left_expect_le .rightParen .fireClose
      split <;> rename_i heq <;> rw [heq] at h₂ <;> exact Nat.le_trans h₂ h₁
  · exact Nat.le_refl _

/-- What follows `FireEvent` leaves at most the tokens that were there. -/
theorem left_fireTail_le (s : Draft) : s.fireTail.left ≤ s.left := by
  unfold fireTail
  dsimp only
  have h₀ := s.left_accept_le .leftParen
  have h₁ := (s.accept .leftParen).2.left_expect_le .identifier .firedEventName
  split
  · rename_i heq
    rw [heq] at h₁
    exact Nat.le_trans h₁ h₀
  · rename_i s₁ heq
    rw [heq] at h₁
    have h₂ := left_argumentList_le (s.accept .leftParen).1 (s₁.internName s₁.previous.lexeme).2
    rw [left_internName] at h₂
    split
    · rename_i heq
      rw [heq] at h₂
      exact Nat.le_trans h₂ (Nat.le_trans h₁ h₀)
    · rename_i heq
      rw [heq] at h₂
      have h₃ := Nat.le_trans h₂ (Nat.le_trans h₁ h₀)
      split
      · rw [left_emit]
        exact Nat.le_trans (left_expect_le ..) h₃
      · simpa using h₃

/-- The parenthesis that closes the name of a state leaves at most the tokens that were there. -/
theorem left_closeName_le (parenthesized : Bool) (s : Draft) :
    (closeName parenthesized s).2.left ≤ s.left := by
  unfold closeName
  split
  · exact left_expect_le ..
  · exact Nat.le_refl _

/-- What follows `ChangeState` leaves at most the tokens that were there. -/
theorem left_changeTail_le (s : Draft) : s.changeTail.left ≤ s.left := by
  unfold changeTail
  dsimp only
  have h₀ := s.left_accept_le .leftParen
  have h₁ := (s.accept .leftParen).2.left_expect_le .identifier .targetStateName
  split
  · rename_i heq
    rw [heq] at h₁
    exact Nat.le_trans h₁ h₀
  · rename_i s₁ heq
    rw [heq] at h₁
    have h₂ := left_closeName_le (s.accept .leftParen).1
      (s₁.noteTarget.internName s₁.previous.lexeme).2
    rw [left_internName] at h₂
    have h₃ : s₁.noteTarget.left = s₁.left := rfl
    split
    · rename_i heq
      rw [heq] at h₂
      exact Nat.le_trans h₂ (Nat.le_trans h₁ h₀)
    · rename_i heq
      rw [heq] at h₂
      rw [left_emit]
      exact Nat.le_trans (left_expect_le ..) (Nat.le_trans h₂ (Nat.le_trans h₁ h₀))

/-- Whether a block ends before a token, with its brace or without. -/
def endsBlock : Token.Kind → Bool
  | .rightBrace | .eof | .onEvent | .state | .stateMachine => true
  | _ => false

/-- An expression and its semicolon. -/
def expressionStatement (s : Draft) : Draft :=
  (s.expression.expect .semicolon .expressionEnd).2.emit .pop

/-- A statement that is an expression takes at least the token that it starts with. -/
theorem left_expressionStatement_le (s : Draft) : s.expressionStatement.left ≤ s.advance.left :=
  Nat.le_trans (left_expect_le ..) (left_expression_le s)

mutual

/-- Compiles statements up to the end of their block. -/
def blockBody (s : Draft) : Within s.left :=
  if h : endsBlock s.current.kind then
    ⟨(s.expect .rightBrace .blockEnd).2, s.left_expect_le ..⟩
  else
    have hlt : s.advance.left < s.left := left_advance_lt fun heof => h (by rw [heof]; rfl)
    let ⟨s₁, h₁⟩ := statement s
    have h₂ : s₁.recover.left < s.left :=
      Nat.lt_of_le_of_lt s₁.left_recover_le (Nat.lt_of_le_of_lt h₁ hlt)
    let ⟨s₃, h₃⟩ := blockBody s₁.recover
    ⟨s₃, Nat.le_trans h₃ (Nat.le_of_lt h₂)⟩
termination_by 2 * s.left + 1

/-- Compiles the statement at the next token. -/
def statement (s : Draft) : Within s.advance.left :=
  match h : s.current.kind with
  | .varWord => ⟨s.advance.varTail, left_varTail_le _⟩
  | .ifWord =>
    have hlt : s.advance.left < s.left := left_advance_lt (by rw [h]; decide)
    ifTail s.advance
  | .fireEvent => ⟨s.advance.fireTail, left_fireTail_le _⟩
  | .changeState => ⟨s.advance.changeTail, left_changeTail_le _⟩
  | .leftBrace =>
    have hlt : s.advance.left < s.left := left_advance_lt (by rw [h]; decide)
    blockBody s.advance
  | _ => ⟨s.expressionStatement, s.left_expressionStatement_le⟩
termination_by 2 * s.left

/-- Compiles a conditional statement behind its first word. -/
def ifTail (s : Draft) : Within s.left :=
  match hthen : s.expression.beginBranch with
  | (otherwise, s₁) =>
    have h₁ : s₁.left ≤ s.left := by
      have := s.expression.left_beginBranch
      rw [hthen] at this
      exact Nat.le_trans (Nat.le_of_eq this)
        (Nat.le_trans s.left_expression_le s.left_advance_le)
    if hbrace : s₁.sees .leftBrace then
      have hlt : s₁.advance.left < s₁.left := left_advance_lt_of_sees hbrace (by decide)
      let ⟨s₂, h₂⟩ := blockBody s₁.advance
      match helse : s₂.switchBranch otherwise with
      | (done, s₃) =>
        have h₃ : s₃.left < s.left := by
          have := s₂.left_switchBranch otherwise
          rw [helse] at this
          exact Nat.lt_of_le_of_lt (Nat.le_trans (Nat.le_of_eq this) h₂)
            (Nat.lt_of_lt_of_le hlt h₁)
        let ⟨s₄, h₄⟩ := elseTail s₃
        ⟨s₄.patchJump done, by simpa using Nat.le_trans h₄ (Nat.le_of_lt h₃)⟩
    else ⟨s₁.reportMissing .conditionBrace, by simpa using h₁⟩
termination_by 2 * s.left

/-- Compiles the other branch of a conditional statement, if there is one. -/
def elseTail (s : Draft) : Within s.left :=
  match helse : s.accept .elseWord with
  | (false, s₁) => ⟨s₁, by simpa [helse] using s.left_accept_le .elseWord⟩
  | (true, s₁) =>
    have h₁ : s₁.left < s.left := by
      simpa [helse] using @left_accept_lt s .elseWord (by decide) (by rw [helse])
    if hif : s₁.sees .ifWord then
      have h₂ : s₁.advance.left < s₁.left := left_advance_lt_of_sees hif (by decide)
      let ⟨s₂, h₃⟩ := ifTail s₁.advance
      ⟨s₂, Nat.le_trans h₃ (Nat.le_of_lt (Nat.lt_trans h₂ h₁))⟩
    else if hbrace : s₁.sees .leftBrace then
      have h₂ : s₁.advance.left < s₁.left := left_advance_lt_of_sees hbrace (by decide)
      let ⟨s₂, h₃⟩ := blockBody s₁.advance
      ⟨s₂, Nat.le_trans h₃ (Nat.le_of_lt (Nat.lt_trans h₂ h₁))⟩
    else ⟨s₁.reportMissing .elseBrace, by simpa using Nat.le_of_lt h₁⟩
termination_by 2 * s.left

end

end EntityScript.Compile.Draft
