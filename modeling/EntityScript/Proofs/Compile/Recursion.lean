import EntityScript.Compile.Source
import Mathlib.Data.Nat.Notation

/-!
# The recursion of the compiler

The functions that compile expressions and statements answer a draft together with the fact that
nothing was read twice. Here are their equations for the draft alone, and the two inductions that
all statements about them go by: on the tokens to come, with one case for each function.
-/

namespace EntityScript.Compile.Draft

/-- What remains to be done at a level once everything that binds tightly enough is compiled. -/
def closeAt (level : Level) (s : Draft) : Draft :=
  if level = .assignment then s.refuseAssignment else s

/-- A variable behind its name: its assignment where one may stand, or else its value. -/
def afterName (b : Bool) (name : String) (s : Draft) : Draft :=
  let (index, s) := s.internName name
  if b ∧ s.sees .equal then s.advance.expression.emit (.setVariable index)
  else s.emit (.getVariable index)

/-- An expression is its first operand, the chain behind it and what remains to be done. -/
theorem expressionAt_eq (level : Level) (s : Draft) : (expressionAt level s).1 =
    match Operand.ofKind? s.current.kind with
    | none => s.advance.reportPrevious (.missingAt .expression s.advance.previous)
    | some o =>
      closeAt level (continuations level (operand o (level = .assignment) s.advance).1).1 := by
  rw [expressionAt]
  split
  · rename_i h
    simp only [h]
  · rename_i o h
    simp only [h]
    unfold closeAt
    split <;> rfl

/-- An operand by the kind of its first token. -/
theorem operand_eq (o : Operand) (b : Bool) (s : Draft) : (operand o b s).1 =
    match o with
    | .group => ((expressionAt .assignment s).1.expect .rightParen .groupClose).2
    | .minus =>
      if s.sees .vec2 = true then (continuations .unary (s.advance.emitLiteral
        ((readVector s.advance.previous.lexeme).map fun v => .vec2 (-v.1) v.2))).1
      else (expressionAt .unary s).1.emit .negate
    | .bang => (expressionAt .unary s).1.emit .not
    | .number => s.emitLiteral (readNumber s.previous.lexeme)
    | .vector => s.emitLiteral ((readVector s.previous.lexeme).map fun v => .vec2 v.1 v.2)
    | .text => s.emitLiteral ((readText s.previous.lexeme).map .string)
    | .truth value => s.emitConstant (.bool value)
    | .name =>
      match s.variableName with
      | (none, s) => s
      | (some name, s) => afterName b name s := by
  cases o with
  | minus =>
    rw [operand]
    dsimp only
    split <;> rfl
  | name =>
    rw [operand]
    dsimp only
    split
    · rename_i h
      simp only [h]
    · rename_i name s₁ h
      simp only [h]
      unfold afterName
      dsimp only
      split <;> rfl
  | group | bang | number | vector | text | truth => rw [operand]

/-- A chain is one operator after another, as long as they bind tightly enough. -/
theorem continuations_eq (level : Level) (s : Draft) : (continuations level s).1 =
    match Continuation.ofKind? s.current.kind with
    | none => s
    | some c =>
      if level ≤ c.level then (continuations level (continuation c s.advance).1).1 else s := by
  rw [continuations]
  split
  · rename_i h
    simp only [h]
  · rename_i c h
    simp only [h]
    split <;> rfl

/-- An operator by its kind, with its jumps around the right operand. -/
theorem continuation_eq (c : Continuation) (s : Draft) : (continuation c s).1 =
    match c with
    | .and => (expressionAt .and s.beginBranch.2).1.patchJump s.beginBranch.1
    | .or =>
      let (right, s) := s.emitJump .jumpIfFalse
      let (done, s) := s.switchBranch right
      (expressionAt .or s).1.patchJump done
    | .binary op => (expressionAt (rightLevel op) s).1.emit (.binary op)
    | .component => s.component := by
  cases c <;> rw [continuation]

/-- What begins no operand is read and reported as a missing expression. -/
theorem expressionAt_of_none {level : Level} {s : Draft}
    (h : Operand.ofKind? s.current.kind = none) :
    (expressionAt level s).1
      = s.advance.reportPrevious (.missingAt .expression s.advance.previous) := by
  rw [expressionAt_eq, h]

/-- An expression goes on from behind the first token of its operand. -/
theorem expressionAt_of_some {level : Level} {s : Draft} {o : Operand}
    (h : Operand.ofKind? s.current.kind = some o) :
    (expressionAt level s).1
      = closeAt level (continuations level (operand o (level = .assignment) s.advance).1).1 := by
  rw [expressionAt_eq, h]

/-- A group is an expression up to the closing parenthesis. -/
theorem operand_group (b : Bool) (s : Draft) :
    (operand .group b s).1 = ((expressionAt .assignment s).1.expect .rightParen .groupClose).2 :=
  operand_eq .group b s

/-- A minus sign in front of a vector changes the sign of the vector. -/
theorem operand_minus_of_sees {s : Draft} (b : Bool) (h : s.sees .vec2 = true) :
    (operand .minus b s).1 = (continuations .unary (s.advance.emitLiteral
      ((readVector s.advance.previous.lexeme).map fun v => .vec2 (-v.1) v.2))).1 :=
  (operand_eq .minus b s).trans (if_pos h)

/-- Any other minus sign is an operation on the operand behind it. -/
theorem operand_minus {s : Draft} (b : Bool) (h : ¬ s.sees .vec2 = true) :
    (operand .minus b s).1 = (expressionAt .unary s).1.emit .negate :=
  (operand_eq .minus b s).trans (if_neg h)

/-- A negation is an operation on the operand behind it. -/
theorem operand_bang (b : Bool) (s : Draft) :
    (operand .bang b s).1 = (expressionAt .unary s).1.emit .not :=
  operand_eq .bang b s

/-- A number is the constant that its token reads as. -/
theorem operand_number (b : Bool) (s : Draft) :
    (operand .number b s).1 = s.emitLiteral (readNumber s.previous.lexeme) :=
  operand_eq .number b s

/-- A vector is the constant that its token reads as. -/
theorem operand_vector (b : Bool) (s : Draft) :
    (operand .vector b s).1
      = s.emitLiteral ((readVector s.previous.lexeme).map fun v => .vec2 v.1 v.2) :=
  operand_eq .vector b s

/-- A text is the constant that its token reads as. -/
theorem operand_text (b : Bool) (s : Draft) :
    (operand .text b s).1 = s.emitLiteral ((readText s.previous.lexeme).map .string) :=
  operand_eq .text b s

/-- A truth value is the constant of its word. -/
theorem operand_truth (b : Bool) (s : Draft) (value : Bool) :
    (operand (.truth value) b s).1 = s.emitConstant (.bool value) :=
  operand_eq (.truth value) b s

/-- A name is a variable, or an assignment to it where one may stand. -/
theorem operand_name (b : Bool) (s : Draft) :
    (operand .name b s).1 =
      match s.variableName with
      | (none, s) => s
      | (some name, s) => afterName b name s :=
  operand_eq .name b s

/-- A token that continues nothing ends the chain. -/
theorem continuations_of_none {level : Level} {s : Draft}
    (h : Continuation.ofKind? s.current.kind = none) : (continuations level s).1 = s := by
  rw [continuations_eq, h]

/-- An operator that binds too loosely ends the chain. -/
theorem continuations_of_loose {level : Level} {s : Draft} {c : Continuation}
    (h : Continuation.ofKind? s.current.kind = some c) (hl : ¬ level ≤ c.level) :
    (continuations level s).1 = s := by
  rw [continuations_eq, h]
  exact if_neg hl

/-- An operator that binds tightly enough goes on with the chain. -/
theorem continuations_of_tight {level : Level} {s : Draft} {c : Continuation}
    (h : Continuation.ofKind? s.current.kind = some c) (hl : level ≤ c.level) :
    (continuations level s).1 = (continuations level (continuation c s.advance).1).1 := by
  rw [continuations_eq, h]
  exact if_pos hl

/-- A conjunction passes over its right operand by one jump. -/
theorem continuation_and (s : Draft) :
    (continuation .and s).1
      = (expressionAt .and s.beginBranch.2).1.patchJump s.beginBranch.1 :=
  continuation_eq .and s

/-- A disjunction passes over its right operand by two jumps. -/
theorem continuation_or (s : Draft) :
    (continuation .or s).1 =
      let (right, s) := s.emitJump .jumpIfFalse
      let (done, s) := s.switchBranch right
      (expressionAt .or s).1.patchJump done :=
  continuation_eq .or s

/-- An operator is written behind its right operand. -/
theorem continuation_binary (op : Operator) (s : Draft) :
    (continuation (.binary op) s).1 = (expressionAt (rightLevel op) s).1.emit (.binary op) :=
  continuation_eq (.binary op) s

/-- A point is followed by a component. -/
theorem continuation_component (s : Draft) : (continuation .component s).1 = s.component :=
  continuation_eq .component s

/-- Induction along the compilation of expressions. The function for an operand or a continuation
goes by the same tokens as those that it calls, so its case comes one step later. -/
theorem expression_induction {P R : Level → Draft → Prop} {Q : Operand → Bool → Draft → Prop}
    {S : Continuation → Draft → Prop}
    (expressionAt : ∀ level s, (∀ o b, s.advance.left < s.left → Q o b s.advance) →
      (∀ l t, t.left < s.left → R l t) → P level s)
    (operand : ∀ o b s, (∀ l t, t.left ≤ s.left → P l t) → (∀ l t, t.left < s.left → R l t) →
      Q o b s)
    (continuations : ∀ level s, (∀ c, s.advance.left < s.left → S c s.advance) →
      (∀ l t, t.left < s.left → R l t) → R level s)
    (continuation : ∀ c s, (∀ l t, t.left ≤ s.left → P l t) → S c s) :
    (∀ level s, P level s) ∧ (∀ o b s, Q o b s) ∧ (∀ level s, R level s) ∧ (∀ c s, S c s) := by
  have main : ∀ n, (∀ level s, 2 * s.left < n → P level s) ∧
      (∀ o b s, 2 * s.left + 1 < n → Q o b s) ∧ (∀ level s, 2 * s.left < n → R level s) ∧
      (∀ c s, 2 * s.left + 1 < n → S c s) := by
    intro n
    induction n with
    | zero => exact ⟨by omega, by omega, by omega, by omega⟩
    | succ n ih =>
      obtain ⟨hP, hQ, hR, hS⟩ := ih
      refine ⟨fun level s h => ?_, fun o b s h => ?_, fun level s h => ?_, fun c s h => ?_⟩
      · exact expressionAt level s (fun o b hlt => hQ o b _ (by omega))
          (fun l t hlt => hR l t (by omega))
      · exact operand o b s (fun l t hle => hP l t (by omega)) (fun l t hlt => hR l t (by omega))
      · exact continuations level s (fun c hlt => hS c _ (by omega))
          (fun l t hlt => hR l t (by omega))
      · exact continuation c s (fun l t hle => hP l t (by omega))
  exact ⟨fun level s => (main _).1 level s (Nat.lt_succ_self _),
    fun o b s => (main _).2.1 o b s (Nat.lt_succ_self _),
    fun level s => (main _).2.2.1 level s (Nat.lt_succ_self _),
    fun c s => (main _).2.2.2 c s (Nat.lt_succ_self _)⟩

/-- A statement that fires an event, behind the parenthesis that may be there. -/
def fireName (parenthesized : Bool) (s : Draft) : Draft :=
  match s.expect .identifier .firedEventName with
  | (false, s) => s
  | (true, s) =>
    let (event, s) := s.internName s.previous.lexeme
    match argumentList parenthesized s with
    | (none, s) => s
    | (some a, s) =>
      if a.count < 256 then
        let flags := if a.targeted then Instruction.targetFlag else 0
        (s.expect .semicolon .fireEnd).2.emit (.fireEvent event flags (UInt8.ofNat a.count))
      else s.reportPrevious .tooManyArguments

/-- A statement that changes the state, behind the parenthesis that may be there. -/
def changeName (parenthesized : Bool) (s : Draft) : Draft :=
  match s.expect .identifier .targetStateName with
  | (false, s) => s
  | (true, s) =>
    let (index, s) := s.noteTarget.internName s.previous.lexeme
    match closeName parenthesized s with
    | (false, s) => s
    | (true, s) => (s.expect .semicolon .changeEnd).2.emit (.changeState index)

/-- Firing an event goes on behind a parenthesis or without one. -/
theorem fireTail_eq (s : Draft) :
    s.fireTail = fireName (s.accept .leftParen).1 (s.accept .leftParen).2 := rfl

/-- A change of state goes on behind a parenthesis or without one. -/
theorem changeTail_eq (s : Draft) :
    s.changeTail = changeName (s.accept .leftParen).1 (s.accept .leftParen).2 := rfl

/-- A block is one statement after another up to its end. -/
theorem blockBody_eq (s : Draft) : s.blockBody.1 =
    if endsBlock s.current.kind = true then (s.expect .rightBrace .blockEnd).2
    else s.statement.1.recover.blockBody.1 := by
  rw [blockBody]
  split <;> rfl

/-- Where a block ends, its closing brace is expected. -/
theorem blockBody_of_ends {s : Draft} (h : endsBlock s.current.kind = true) :
    s.blockBody.1 = (s.expect .rightBrace .blockEnd).2 := by
  rw [blockBody_eq, if_pos h]

/-- Where a block does not end, a statement comes before the rest of it. -/
theorem blockBody_of_not_ends {s : Draft} (h : ¬ endsBlock s.current.kind = true) :
    s.blockBody.1 = s.statement.1.recover.blockBody.1 := by
  rw [blockBody_eq, if_neg h]

/-- Whether a word or a brace says what kind of statement it begins. -/
def beginsOther : Token.Kind → Bool
  | .varWord | .ifWord | .fireEvent | .changeState | .leftBrace => true
  | _ => false

/-- A statement by the kind of its first token. -/
theorem statement_eq (s : Draft) : s.statement.1 =
    match s.current.kind with
    | .varWord => s.advance.varTail
    | .ifWord => s.advance.ifTail.1
    | .fireEvent => s.advance.fireTail
    | .changeState => s.advance.changeTail
    | .leftBrace => s.advance.blockBody.1
    | _ => s.expressionStatement := by
  rw [statement]
  split <;> simp_all

/-- The word of a variable begins a variable. -/
theorem statement_var {s : Draft} (h : s.current.kind = .varWord) :
    s.statement.1 = s.advance.varTail := by
  rw [statement_eq, h]

/-- The word of a condition begins a conditional statement. -/
theorem statement_if {s : Draft} (h : s.current.kind = .ifWord) :
    s.statement.1 = s.advance.ifTail.1 := by
  rw [statement_eq, h]

/-- The word of an event begins a statement that fires one. -/
theorem statement_fire {s : Draft} (h : s.current.kind = .fireEvent) :
    s.statement.1 = s.advance.fireTail := by
  rw [statement_eq, h]

/-- The word of a change begins a change of state. -/
theorem statement_change {s : Draft} (h : s.current.kind = .changeState) :
    s.statement.1 = s.advance.changeTail := by
  rw [statement_eq, h]

/-- An opening brace begins a block. -/
theorem statement_block {s : Draft} (h : s.current.kind = .leftBrace) :
    s.statement.1 = s.advance.blockBody.1 := by
  rw [statement_eq, h]

/-- Any other token begins a statement that is an expression. -/
theorem statement_expression {s : Draft} (h : ¬ beginsOther s.current.kind = true) :
    s.statement.1 = s.expressionStatement := by
  rw [statement_eq]
  split <;> first | rfl | (rename_i hk; simp [hk, beginsOther] at h)

/-- A conditional statement is its condition, a branch, and the other branch that may follow. -/
theorem ifTail_eq (s : Draft) :
    s.ifTail.1 =
      let (otherwise, s) := s.expression.beginBranch
      if s.sees .leftBrace then
        let (done, s) := s.advance.blockBody.1.switchBranch otherwise
        s.elseTail.1.patchJump done
      else s.reportMissing .conditionBrace := by
  rw [ifTail]
  dsimp only
  split <;> rfl

/-- The other branch is a statement behind its word, or nothing. -/
theorem elseTail_eq (s : Draft) :
    s.elseTail.1 =
      match s.accept .elseWord with
      | (false, s) => s
      | (true, s) =>
        if s.sees .ifWord then s.advance.ifTail.1
        else if s.sees .leftBrace then s.advance.blockBody.1
        else s.reportMissing .elseBrace := by
  rw [elseTail]
  split
  · rename_i h
    simp only [h]
  · rename_i h
    simp only [h]
    split
    · rfl
    · split <;> rfl

/-- Induction along the compilation of statements. -/
theorem statement_induction {P Q R S : Draft → Prop}
    (blockBody : ∀ s, (s.advance.left < s.left → Q s) → (∀ t, t.left < s.left → P t) → P s)
    (statement : ∀ s, (s.advance.left < s.left → P s.advance ∧ R s.advance) → Q s)
    (ifTail : ∀ s, (∀ t, t.left < s.left → P t ∧ S t) → R s)
    (elseTail : ∀ s, (∀ t, t.left < s.left → P t ∧ R t) → S s) :
    (∀ s, P s) ∧ (∀ s, Q s) ∧ (∀ s, R s) ∧ (∀ s, S s) := by
  have main : ∀ n, (∀ s, 2 * s.left + 1 < n → P s) ∧ (∀ s, 2 * s.left < n → Q s) ∧
      (∀ s, 2 * s.left < n → R s) ∧ (∀ s, 2 * s.left < n → S s) := by
    intro n
    induction n with
    | zero => exact ⟨by omega, by omega, by omega, by omega⟩
    | succ n ih =>
      obtain ⟨hP, hQ, hR, hS⟩ := ih
      refine ⟨fun s h => ?_, fun s h => ?_, fun s h => ?_, fun s h => ?_⟩
      · exact blockBody s (fun _ => hQ s (by omega)) (fun t ht => hP t (by omega))
      · exact statement s fun ht => ⟨hP _ (by omega), hR _ (by omega)⟩
      · exact ifTail s fun t ht => ⟨hP t (by omega), hS t (by omega)⟩
      · exact elseTail s fun t ht => ⟨hP t (by omega), hR t (by omega)⟩
  exact ⟨fun s => (main _).1 s (Nat.lt_succ_self _), fun s => (main _).2.1 s (Nat.lt_succ_self _),
    fun s => (main _).2.2.1 s (Nat.lt_succ_self _),
    fun s => (main _).2.2.2 s (Nat.lt_succ_self _)⟩

end EntityScript.Compile.Draft

namespace EntityScript.Compile.Outline

/-- A state from its opening brace on. -/
def stateBrace (o : Outline) (state : String) : Outline :=
  match o.expect .leftBrace .stateBrace with
  | (false, o) => o.synchronize
  | (true, o) => (o.stateBody state).closeState

/-- A state is its name and what stands in its braces. -/
theorem stateTail_eq (o : Outline) :
    o.stateTail =
      match o.expect .identifier .stateName with
      | (false, o) => o.synchronize
      | (true, o) => o.declareState.2.stateBrace o.declareState.1 := rfl

/-- The head of a handler with a name and a block: the handler is kept if the block is compiled
without a problem. -/
theorem handlerTail_of_name {o : Outline} {event : String} {s : Draft}
    (hname : eventName o.draft = (some event, s)) (hbrace : s.sees .leftBrace = true)
    (state : String) :
    o.handlerTail state =
      let made := handlerChunk s (state ++ "." ++ event)
      if made.2.diagnostics.size = o.draft.diagnostics.size then
        Outline.addHandler { o with draft := made.2 } state event made.1
      else { o with draft := made.2 } := by
  unfold handlerTail
  dsimp only
  rw [hname]
  dsimp only [Option.getD_some]
  rw [if_pos hbrace]

end EntityScript.Compile.Outline
