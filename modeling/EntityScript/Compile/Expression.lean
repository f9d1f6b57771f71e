import EntityScript.Arguments
import EntityScript.Compile.Draft
import EntityScript.Compile.Level
import EntityScript.Compile.Literal

/-!
# Compiling expressions

An expression compiles to instructions that leave its value on the stack. Operands are compiled
as they are read; an operator waits until its right operand, which begins at a tighter level,
is complete. The logical operators jump over their right operand if the left one decides.

A minus sign directly before a vector belongs to its first number, so `-3,4` is one constant;
only `-(3,4)` negates both numbers.

`expressionAt` always reads at least one token, unless none is left.
-/

namespace EntityScript.Compile.Draft

/-- Adds a constant that a literal token stands for, or reports what is wrong with it. -/
def emitLiteral (s : Draft) : Except Problem Value → Draft
  | .ok v => s.emitConstant v
  | .error problem => s.reportPrevious problem

/-- The name of the variable whose first token was read last. An argument of the event is a variable
under its reserved name. -/
def variableName (s : Draft) : Option String × Draft :=
  if s.previous.lexeme = "args" then
    match s.expect .dot .argsDot with
    | (false, s) => (none, s)
    | (true, s) =>
      match s.expect .identifier .argumentName with
      | (false, s) => (none, s)
      | (true, s) => (some (Arguments.reservedName s.previous.lexeme), s)
  else (some s.previous.lexeme, s)

/-- The component of a vector, behind its point. -/
def component (s : Draft) : Draft :=
  match s.expect .identifier .componentName with
  | (false, s) => s
  | (true, s) =>
    let name := s.previous.lexeme
    if name = "x" ∨ name = "y" then
      let (index, s) := s.internName name
      s.emit (.getComponent index)
    else s.reportPrevious .unknownComponent

/-- Reports an equals sign behind something that cannot be assigned to. -/
def refuseAssignment (s : Draft) : Draft :=
  match s.accept .equal with
  | (true, s) => s.reportPrevious .badTarget
  | (false, s) => s

/-- Writing a literal takes no token away, readable or not. -/
@[simp] theorem left_emitLiteral (s : Draft) (v : Except Problem Value) :
    (s.emitLiteral v).left = s.left := by
  cases v <;> simp [emitLiteral]

/-- A variable and what follows its name leave at most the tokens that were there. -/
theorem left_variableName_le (s : Draft) : s.variableName.2.left ≤ s.left := by
  unfold variableName
  have h₁ := s.left_expect_le .dot .argsDot
  split
  · split
    · rename_i heq
      rwa [heq] at h₁
    · rename_i s₁ heq
      rw [heq] at h₁
      have h₂ := s₁.left_expect_le .identifier .argumentName
      split
      · rename_i heq
        rw [heq] at h₂
        exact Nat.le_trans h₂ h₁
      · rename_i heq
        rw [heq] at h₂
        exact Nat.le_trans h₂ h₁
  · exact Nat.le_refl _

/-- A component behind a dot leaves at most the tokens that were there. -/
theorem left_component_le (s : Draft) : s.component.left ≤ s.left := by
  unfold component
  have h := s.left_expect_le .identifier .componentName
  split
  · rename_i heq
    rwa [heq] at h
  · rename_i heq
    rw [heq] at h
    dsimp only
    split <;> simpa using h

/-- Refusing an assignment never adds tokens. -/
theorem left_refuseAssignment_le (s : Draft) : s.refuseAssignment.left ≤ s.left := by
  unfold refuseAssignment
  have h := s.left_accept_le .equal
  split <;> rename_i heq <;> rw [heq] at h <;> simpa using h

/-- A draft with no more tokens to come than `n`. -/
abbrev Within (n : Nat) := { t : Draft // t.left ≤ n }

mutual

/-- Compiles the expression at the next token, as far as its operators bind at least as tightly as
`level`. -/
def expressionAt (level : Level) (s : Draft) : Within s.advance.left :=
  match h : Operand.ofKind? s.current.kind with
  | none =>
    let t := s.advance
    ⟨t.reportPrevious (.missingAt .expression t.previous), by simp [t]⟩
  | some o =>
    have : s.advance.left < s.left := left_advance_lt fun heof => by simp [heof] at h
    let ⟨s₁, h₁⟩ := operand o (level = .assignment) s.advance
    let ⟨s₂, h₂⟩ := continuations level s₁
    if level = .assignment then
      ⟨s₂.refuseAssignment, Nat.le_trans s₂.left_refuseAssignment_le (Nat.le_trans h₂ h₁)⟩
    else ⟨s₂, Nat.le_trans h₂ h₁⟩
termination_by 2 * s.left

/-- Compiles the operand whose first token was read last. A variable may be assigned to only where
an expression begins. -/
def operand (o : Operand) (assignable : Bool) (s : Draft) : Within s.left :=
  match o with
  | .group =>
    let ⟨s₁, h₁⟩ := expressionAt .assignment s
    ⟨(s₁.expect .rightParen .groupClose).2,
      Nat.le_trans (s₁.left_expect_le ..) (Nat.le_trans h₁ s.left_advance_le)⟩
  | .minus =>
    if h : s.sees .vec2 then
      have hlt : s.advance.left < s.left := left_advance_lt_of_sees h (by decide)
      let t := s.advance
      let s₁ := t.emitLiteral ((readVector t.previous.lexeme).map fun v => .vec2 (-v.1) v.2)
      have h₁ : s₁.left < s.left := by simpa [s₁, t] using hlt
      let ⟨s₂, h₂⟩ := continuations .unary s₁
      ⟨s₂, Nat.le_trans h₂ (Nat.le_of_lt h₁)⟩
    else
      let ⟨s₁, h₁⟩ := expressionAt .unary s
      ⟨s₁.emit .negate, Nat.le_trans h₁ s.left_advance_le⟩
  | .bang =>
    let ⟨s₁, h₁⟩ := expressionAt .unary s
    ⟨s₁.emit .not, Nat.le_trans h₁ s.left_advance_le⟩
  | .number => ⟨s.emitLiteral (readNumber s.previous.lexeme), by simp⟩
  | .vector =>
    ⟨s.emitLiteral ((readVector s.previous.lexeme).map fun v => .vec2 v.1 v.2), by simp⟩
  | .text => ⟨s.emitLiteral ((readText s.previous.lexeme).map .string), by simp⟩
  | .truth b => ⟨s.emitConstant (.bool b), by simp⟩
  | .name =>
    match hname : s.variableName with
    | (none, s₁) => ⟨s₁, by simpa [hname] using s.left_variableName_le⟩
    | (some name, s₁) =>
      have h₁ : s₁.left ≤ s.left := by simpa [hname] using s.left_variableName_le
      match hindex : s₁.internName name with
      | (index, s₂) =>
        have h₂ : s₂.left = s₁.left := by
          have := s₁.left_internName name
          rw [hindex] at this
          exact this
        if h : assignable ∧ s₂.sees .equal then
          have hlt : s₂.advance.left < s₂.left := left_advance_lt_of_sees h.2 (by decide)
          let ⟨s₃, h₃⟩ := expressionAt .assignment s₂.advance
          ⟨s₃.emit (.setVariable index),
            Nat.le_trans (Nat.le_trans h₃ s₂.advance.left_advance_le)
              (Nat.le_trans (Nat.le_of_lt hlt) (Nat.le_trans (Nat.le_of_eq h₂) h₁))⟩
        else ⟨s₂.emit (.getVariable index), Nat.le_trans (Nat.le_of_eq h₂) h₁⟩
termination_by 2 * s.left + 1

/-- Compiles what follows an operand, as far as it binds at least as tightly as `level`. -/
def continuations (level : Level) (s : Draft) : Within s.left :=
  match h : Continuation.ofKind? s.current.kind with
  | none => ⟨s, Nat.le_refl _⟩
  | some c =>
    if level ≤ c.level then
      have hlt : s.advance.left < s.left := left_advance_lt fun heof => by simp [heof] at h
      let ⟨s₁, h₁⟩ := continuation c s.advance
      let ⟨s₂, h₂⟩ := continuations level s₁
      ⟨s₂, Nat.le_trans h₂ (Nat.le_trans h₁ (Nat.le_of_lt hlt))⟩
    else ⟨s, Nat.le_refl _⟩
termination_by 2 * s.left

/-- Compiles the continuation whose first token was read last. -/
def continuation (c : Continuation) (s : Draft) : Within s.left :=
  match c with
  | .and =>
    match hdone : s.beginBranch with
    | (done, s₁) =>
      have h₁ : s₁.left = s.left := by simpa [hdone] using s.left_beginBranch
      let ⟨s₂, h₂⟩ := expressionAt .and s₁
      ⟨s₂.patchJump done, by
        rw [left_patchJump, ← h₁]
        exact Nat.le_trans h₂ s₁.left_advance_le⟩
  | .or =>
    match hright : s.emitJump .jumpIfFalse with
    | (right, s₁) =>
      have h₁ : s₁.left = s.left := by simpa [hright] using s.left_emitJump .jumpIfFalse
      match hdone : s₁.switchBranch right with
      | (done, s₂) =>
        have h₂ : s₂.left = s.left := by simpa [hdone, h₁] using s₁.left_switchBranch right
        let ⟨s₃, h₃⟩ := expressionAt .or s₂
        ⟨s₃.patchJump done, by
          rw [left_patchJump, ← h₂]
          exact Nat.le_trans h₃ s₂.left_advance_le⟩
  | .binary op =>
    let ⟨s₁, h₁⟩ := expressionAt (rightLevel op) s
    ⟨s₁.emit (.binary op), Nat.le_trans h₁ s.left_advance_le⟩
  | .component => ⟨s.component, s.left_component_le⟩
termination_by 2 * s.left + 1

end

/-- Compiles the expression at the next token. -/
def expression (s : Draft) : Draft := (s.expressionAt .assignment).1

/-- An expression takes at least the token that it starts with. -/
theorem left_expression_le (s : Draft) : s.expression.left ≤ s.advance.left :=
  (expressionAt .assignment s).2

end EntityScript.Compile.Draft
