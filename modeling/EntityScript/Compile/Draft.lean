import EntityScript.Bytecode.Chunk
import EntityScript.Compile.Diagnostic
import EntityScript.Table
import EntityScript.Token.Scan

/-!
# A handler being compiled

The compiler reads the tokens of a source once, from left to right, and writes instructions as it
goes. Its state is a draft: the tokens still to come, the problems found, and the chunk under
construction.

After a problem the draft panics: it goes on reading but reports nothing more until
`synchronize` has moved to a place where a statement may begin. A token that could not be read
is reported when it comes up and then skipped, so the current token is never one of those.

`Draft.left` counts the tokens to come. Everything here leaves it alone or makes it smaller, and
`left_advance_lt` says that reading a token makes it smaller, which is why compiling ends.
-/

namespace EntityScript.Compile

/-- What compiling a handler reads and writes. -/
structure Draft where
  /-- The token read last. -/
  previous : Token
  /-- The tokens to come, without the one for the end of the source. -/
  upcoming : List Token
  /-- The line on which the source ends. -/
  endLine : Nat
  /-- The problems found so far. -/
  diagnostics : Array Diagnostic
  /-- Whether problems are kept to oneself for now. -/
  panicking : Bool
  /-- The chunk under construction. -/
  chunk : Chunk
  /-- The types of the variables annotated so far. -/
  declared : Table String ValueType
  /-- The states that handlers change to, with the lines where they do. -/
  targets : Array (String × Nat)

namespace Draft

/-- The next token, not read yet. -/
def current (s : Draft) : Token :=
  match s.upcoming with
  | t :: _ => t
  | [] => ⟨.eof, "", s.endLine⟩

/-- Whether the next token is of a kind. -/
def sees (s : Draft) (kind : Token.Kind) : Bool := s.current.kind == kind

/-- How many tokens are to come. -/
def left (s : Draft) : Nat := s.upcoming.length

/-- Reports a problem, unless one is being recovered from. -/
def report (s : Draft) (line : Nat) (problem : Problem) : Draft :=
  if s.panicking then s
  else { s with diagnostics := s.diagnostics.push ⟨line, problem⟩, panicking := true }

/-- Reports a problem at the token read last. -/
def reportPrevious (s : Draft) (problem : Problem) : Draft := s.report s.previous.line problem

/-- Reports that something is missing before the next token. -/
def reportMissing (s : Draft) (wanted : Wanted) : Draft :=
  s.report s.current.line (.missingAt wanted s.current)

/-- Makes the first readable token of a list the next one. -/
def settle (s : Draft) : List Token → Draft
  | [] => { s with upcoming := [] }
  | t :: rest =>
    if t.kind = .error then (s.report t.line (.ofUnreadable t)).settle rest
    else { s with upcoming := t :: rest }

/-- Reads the next token. At the end of the source this reads its end once more. -/
def advance (s : Draft) : Draft :=
  { s with previous := s.current }.settle s.upcoming.tail

/-- Reads the next token if it is of a kind, and tells whether it was. -/
def accept (s : Draft) (kind : Token.Kind) : Bool × Draft :=
  if s.sees kind then (true, s.advance) else (false, s)

/-- Reads the next token if it is of a kind, and otherwise reports that it is missing. -/
def expect (s : Draft) (kind : Token.Kind) (wanted : Wanted) : Bool × Draft :=
  if s.sees kind then (true, s.advance) else (false, s.reportMissing wanted)

/-- The draft at the beginning of a source. -/
def ofTokens (tokens : List Token) : Draft :=
  let last := tokens.getLast?.getD ⟨.eof, "", 1⟩
  let start : Draft := {
    previous := ⟨.eof, "", 1⟩
    upcoming := []
    endLine := last.line
    diagnostics := #[]
    panicking := false
    chunk := .empty ""
    declared := .empty
    targets := #[] }
  start.settle tokens.dropLast

/-- Reporting a problem takes no token away. -/
@[simp] theorem left_report (s : Draft) (line : Nat) (problem : Problem) :
    (s.report line problem).left = s.left := by
  unfold report; split <;> rfl

/-- A report at the previous token takes no token away. -/
@[simp] theorem left_reportPrevious (s : Draft) (problem : Problem) :
    (s.reportPrevious problem).left = s.left := left_report ..

/-- A report about a missing token takes no token away. -/
@[simp] theorem left_reportMissing (s : Draft) (wanted : Wanted) :
    (s.reportMissing wanted).left = s.left := left_report ..

/-- Settling on the first proper token never adds tokens. -/
theorem left_settle_le (s : Draft) (tokens : List Token) :
    (s.settle tokens).left ≤ tokens.length := by
  induction tokens generalizing s with
  | nil => exact Nat.le_refl 0
  | cons t rest ih =>
    unfold settle
    split
    · exact Nat.le_succ_of_le (ih _)
    · exact Nat.le_refl _

/-- Advancing never adds tokens. -/
theorem left_advance_le (s : Draft) : s.advance.left ≤ s.left := by
  refine Nat.le_trans (left_settle_le ..) ?_
  simp [left]

/-- Reading a token leaves fewer to come. -/
theorem left_advance_lt {s : Draft} (h : s.current.kind ≠ .eof) : s.advance.left < s.left := by
  refine Nat.lt_of_le_of_lt (left_settle_le ..) ?_
  cases hs : s.upcoming with
  | nil => simp [current, hs] at h
  | cons t rest => simp [left, hs]

/-- Advancing past a token that is seen and is not the end takes at least one token away. -/
theorem left_advance_lt_of_sees {s : Draft} {kind : Token.Kind} (h : s.sees kind = true)
    (hk : kind ≠ .eof) : s.advance.left < s.left :=
  left_advance_lt fun heof => hk ((beq_iff_eq.1 h).symm.trans heof)

/-- Accepting a token, or refusing to, never adds tokens. -/
theorem left_accept_le (s : Draft) (kind : Token.Kind) : (s.accept kind).2.left ≤ s.left := by
  unfold accept
  split
  · exact s.left_advance_le
  · exact Nat.le_refl _

/-- A token that is accepted and is not the end is gone from those that are left. -/
theorem left_accept_lt {s : Draft} {kind : Token.Kind} (hk : kind ≠ .eof)
    (h : (s.accept kind).1 = true) : (s.accept kind).2.left < s.left := by
  unfold accept at h ⊢
  split at h
  · rename_i hsees
    simpa [hsees] using left_advance_lt_of_sees hsees hk
  · simp at h

/-- Expecting a token never adds tokens, whether it is there or not. -/
theorem left_expect_le (s : Draft) (kind : Token.Kind) (wanted : Wanted) :
    (s.expect kind wanted).2.left ≤ s.left := by
  unfold expect
  split
  · exact s.left_advance_le
  · simp

/-- Moves on to the next place where a statement may begin: behind a semicolon, before a closing
brace, or before a word that only begins statements or declarations. -/
def skipStatement (s : Draft) : Draft :=
  if _h : s.current.kind = .eof then s
  else if s.previous.kind = .semicolon then s
  else if s.current.kind = .rightBrace ∨ s.current.kind.startsStatement then s
  else s.advance.skipStatement
termination_by s.left
decreasing_by exact left_advance_lt ‹_›

/-- Ends a panic at the next place where a statement may begin. -/
def synchronize (s : Draft) : Draft := { s with panicking := false }.skipStatement

/-- Skipping the rest of a statement never adds tokens. -/
theorem left_skipStatement_le (s : Draft) : s.skipStatement.left ≤ s.left := by
  fun_induction skipStatement s with
  | case1 | case2 | case3 => exact Nat.le_refl _
  | case4 s h _ _ ih => exact Nat.le_trans ih (left_advance_le s)

/-- Synchronizing never adds tokens. -/
theorem left_synchronize_le (s : Draft) : s.synchronize.left ≤ s.left :=
  left_skipStatement_le _

/-- Recovers if there is something to recover from. -/
def recover (s : Draft) : Draft := if s.panicking then s.synchronize else s

/-- Recovering at the end of a statement never adds tokens. -/
theorem left_recover_le (s : Draft) : s.recover.left ≤ s.left := by
  unfold recover
  split
  · exact s.left_synchronize_le
  · exact Nat.le_refl _

/-- Adds an instruction, on the line of the token read last. -/
def emit (s : Draft) (i : Instruction) : Draft :=
  let line := s.previous.line
  { s with chunk := s.chunk.emit i line }

/-- Interns a constant and answers its index, which is 0 if there is no room for it. -/
def intern (s : Draft) (v : Value) : UInt8 × Draft :=
  match s.chunk.intern v with
  | (some index, chunk) => (index, { s with chunk })
  | (none, chunk) => (0, { s with chunk }.reportPrevious .tooManyConstants)

/-- Interns a name. -/
def internName (s : Draft) (name : String) : UInt8 × Draft := s.intern (.string name)

/-- Adds an instruction that pushes a constant. -/
def emitConstant (s : Draft) (v : Value) : Draft :=
  let (index, s) := s.intern v
  s.emit (.constant index)

/-- Adds a jump whose distance is not known yet, and answers where its operand is. -/
def emitJump (s : Draft) (jump : UInt16 → Instruction) : Nat × Draft :=
  let s := s.emit (jump 0xFFFF)
  (s.chunk.size - 2, s)

/-- Makes the jump with the operand at `operand` lead behind the last instruction. -/
def patchJump (s : Draft) (operand : Nat) : Draft :=
  let distance := s.chunk.size - operand - 2
  if distance < 65536 then { s with chunk := s.chunk.setWord operand (UInt16.ofNat distance) }
  else s.reportPrevious .tooFarToJump

/-- Branches on the topmost value: adds a jump for the case that it is false and drops it in the
other case. Answers where the operand of the jump is. -/
def beginBranch (s : Draft) : Nat × Draft :=
  let (otherwise, s) := s.emitJump .jumpIfFalse
  (otherwise, s.emit .pop)

/-- Begins the other branch: adds a jump over it, makes the jump that leads to it arrive, and drops
the value that was branched on. Answers where the operand of the new jump is. -/
def switchBranch (s : Draft) (otherwise : Nat) : Nat × Draft :=
  let (done, s) := s.emitJump .jump
  (done, (s.patchJump otherwise).emit .pop)

/-- Writing an instruction takes no token away. -/
@[simp] theorem left_emit (s : Draft) (i : Instruction) : (s.emit i).left = s.left := rfl

/-- Interning a value takes no token away. -/
@[simp] theorem left_intern (s : Draft) (v : Value) : (s.intern v).2.left = s.left := by
  unfold intern
  split
  · rfl
  · exact left_reportPrevious ..

/-- Interning a name takes no token away. -/
@[simp] theorem left_internName (s : Draft) (name : String) :
    (s.internName name).2.left = s.left := left_intern ..

/-- Writing a constant takes no token away. -/
@[simp] theorem left_emitConstant (s : Draft) (v : Value) : (s.emitConstant v).left = s.left := by
  simp [emitConstant]

/-- Writing a jump takes no token away. -/
@[simp] theorem left_emitJump (s : Draft) (jump : UInt16 → Instruction) :
    (s.emitJump jump).2.left = s.left := rfl

/-- Patching a jump takes no token away. -/
@[simp] theorem left_patchJump (s : Draft) (operand : Nat) :
    (s.patchJump operand).left = s.left := by
  unfold patchJump
  dsimp only
  split
  · rfl
  · simp

/-- Beginning a branch takes no token away. -/
@[simp] theorem left_beginBranch (s : Draft) : s.beginBranch.2.left = s.left := rfl

/-- Switching to the other branch takes no token away. -/
@[simp] theorem left_switchBranch (s : Draft) (otherwise : Nat) :
    (s.switchBranch otherwise).2.left = s.left := by
  simp [switchBranch]

end Draft

end EntityScript.Compile
