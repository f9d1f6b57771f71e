import EntityScript.Compile.Statement
import EntityScript.Path
import EntityScript.Script

/-!
# Compiling a source file

A source declares states, some of them inside a machine that gives the script its name, and each
state declares handlers for events. Handlers share nothing but the variable annotations: every
one is compiled into a chunk of its own. A handler in which a problem was found leaves no chunk.

When the whole source is read, the states that handlers change to are checked against those that
are declared. Any problem at all means that there is no script.
-/

namespace EntityScript.Compile

/-- What compiling a source file gathers. -/
structure Outline where
  /-- The handler being compiled and the tokens to come. -/
  draft : Draft
  /-- The name of the machine. -/
  name : Option String
  /-- The states declared so far, in source order. -/
  states : Array String
  /-- The chunk for each event, by state. -/
  handlers : Table String (Table String Chunk)

namespace Outline

/-- How many tokens are to come. -/
def left (o : Outline) : Nat := o.draft.left

/-- The next token, not read yet. -/
def current (o : Outline) : Token := o.draft.current

/-- Reads the next token. -/
def advance (o : Outline) : Outline := { o with draft := o.draft.advance }

/-- Reads the next token if it is of a kind, and otherwise reports that it is missing. -/
def expect (o : Outline) (kind : Token.Kind) (wanted : Wanted) : Bool × Outline :=
  let (found, draft) := o.draft.expect kind wanted
  (found, { o with draft })

/-- Ends a panic at the next place where a statement may begin. -/
def synchronize (o : Outline) : Outline := { o with draft := o.draft.synchronize }

/-- Reports that something is missing before the next token, reads that token all the same, and
recovers. -/
def skipUnwanted (o : Outline) (wanted : Wanted) : Outline :=
  { o with draft := ((o.draft.reportMissing wanted).advance).synchronize }

/-- Expecting a token in the outline never adds tokens. -/
theorem left_expect_le (o : Outline) (kind : Token.Kind) (wanted : Wanted) :
    (o.expect kind wanted).2.left ≤ o.left :=
  o.draft.left_expect_le kind wanted

/-- Advancing in the outline takes a token away unless it is at the end. -/
theorem left_advance_lt {o : Outline} (h : o.current.kind ≠ .eof) : o.advance.left < o.left :=
  Draft.left_advance_lt h

/-- An unwanted token that is not the end is skipped for good. -/
theorem left_skipUnwanted_lt {o : Outline} (h : o.current.kind ≠ .eof) (wanted : Wanted) :
    (o.skipUnwanted wanted).left < o.left := by
  refine Nat.lt_of_le_of_lt (Draft.left_synchronize_le _) ?_
  have hcurrent : (o.draft.reportMissing wanted).current = o.draft.current := by
    unfold Draft.reportMissing Draft.report
    split <;> rfl
  have := Draft.left_advance_lt (s := o.draft.reportMissing wanted) (by rw [hcurrent]; exact h)
  simpa [left] using this

/-- The name of the event that a handler is for. -/
def eventName (s : Draft) : Option String × Draft :=
  match s.accept .identifier with
  | (true, s) => (some s.previous.lexeme, s)
  | (false, s) => (none, s.reportMissing .eventName)

/-- Compiles the block at the next token into a chunk of its own. -/
def handlerChunk (s : Draft) (name : String) : Chunk × Draft :=
  let s := ({ s with chunk := .empty name }.advance).blockBody.1.emit .ret
  (s.chunk, { s with chunk := .empty "" })

/-- Keeps the chunk of a handler. Only the first of two handlers for one event counts, and the other
is a problem of its own, reported whatever else there is to report. -/
def addHandler (o : Outline) (state event : String) (chunk : Chunk) : Outline :=
  let events := (o.handlers.get? state).getD .empty
  if events.contains event then
    let duplicate := ⟨chunk.lineAt 0, .duplicateHandler state event⟩
    { o with draft := { o.draft with diagnostics := o.draft.diagnostics.push duplicate } }
  else { o with handlers := o.handlers.insert state (events.insert event chunk) }

/-- A handler of a state, behind its first word. -/
def handlerTail (o : Outline) (state : String) : Outline :=
  let before := o.draft.diagnostics.size
  let (event, s) := eventName o.draft
  if s.sees .leftBrace then
    let (chunk, s) := handlerChunk s (state ++ "." ++ event.getD "?")
    let o := { o with draft := s }
    match event with
    | none => o
    | some event =>
      if s.diagnostics.size = before then o.addHandler state event chunk else o
  else { o with draft := (s.reportMissing .eventBrace).synchronize }

/-- The name of an event leaves at most the tokens that were there. -/
theorem left_eventName_le (s : Draft) : (eventName s).2.left ≤ s.left := by
  unfold eventName
  have h := s.left_accept_le .identifier
  split <;> rename_i heq <;> rw [heq] at h
  · exact h
  · simpa using h

/-- A whole handler leaves at most the tokens that were there. -/
theorem left_handlerChunk_le (s : Draft) (name : String) :
    (handlerChunk s name).2.left ≤ s.left := by
  refine Nat.le_trans (Draft.blockBody _).2 ?_
  exact Draft.left_advance_le { s with chunk := .empty name }

/-- Filing a handler under its state takes no token away. -/
theorem left_addHandler (o : Outline) (state event : String) (chunk : Chunk) :
    (o.addHandler state event chunk).left = o.left := by
  unfold addHandler
  dsimp only
  split <;> rfl

/-- What follows `OnEvent` leaves at most the tokens that were there. -/
theorem left_handlerTail_le (o : Outline) (state : String) :
    (o.handlerTail state).left ≤ o.left := by
  unfold handlerTail
  dsimp only
  have h₁ := left_eventName_le o.draft
  split
  · have h₂ := left_handlerChunk_le (eventName o.draft).2
      (state ++ "." ++ (eventName o.draft).1.getD "?")
    split
    · exact Nat.le_trans h₂ h₁
    · split
      · rw [left_addHandler]
        exact Nat.le_trans h₂ h₁
      · exact Nat.le_trans h₂ h₁
  · refine Nat.le_trans (Draft.left_synchronize_le _) ?_
    simpa [left] using h₁

/-- Whether the handlers of a state end before a token. -/
def endsState : Token.Kind → Bool
  | .rightBrace | .eof | .state | .stateMachine => true
  | _ => false

/-- Compiles the handlers of a state. -/
def stateBody (o : Outline) (state : String) : Outline :=
  if _h : endsState o.current.kind then o
  else if _h : o.current.kind = .onEvent then (o.advance.handlerTail state).stateBody state
  else (o.skipUnwanted .handlerOrEnd).stateBody state
termination_by o.left
decreasing_by
  · refine Nat.lt_of_le_of_lt (left_handlerTail_le ..) (left_advance_lt ?_)
    rw [‹o.current.kind = .onEvent›]
    decide
  · refine left_skipUnwanted_lt (fun heof => ?_) _
    simp_all [endsState]

/-- Declares the state whose name was read last, and answers the name. -/
def declareState (o : Outline) : String × Outline :=
  let state := o.draft.previous.lexeme
  if o.states.contains state then
    (state, { o with draft := o.draft.reportPrevious (.duplicateState state) })
  else (state, { o with states := o.states.push state })

/-- The end of a state. -/
def closeState (o : Outline) : Outline :=
  let o := (o.expect .rightBrace .stateEnd).2
  { o with draft := o.draft.recover }

/-- A state behind its first word. -/
def stateTail (o : Outline) : Outline :=
  match o.expect .identifier .stateName with
  | (false, o) => o.synchronize
  | (true, o) =>
    let (state, o) := o.declareState
    match o.expect .leftBrace .stateBrace with
    | (false, o) => o.synchronize
    | (true, o) => (o.stateBody state).closeState

/-- The body of a state leaves at most the tokens that were there. -/
theorem left_stateBody_le (o : Outline) (state : String) : (o.stateBody state).left ≤ o.left := by
  fun_induction stateBody o state with
  | case1 => exact Nat.le_refl _
  | case2 o _ h ih =>
    exact Nat.le_trans ih (Nat.le_trans (left_handlerTail_le ..) o.draft.left_advance_le)
  | case3 o hends _ ih =>
    refine Nat.le_trans ih (Nat.le_of_lt (left_skipUnwanted_lt (fun heof => ?_) _))
    simp_all [endsState]

/-- Declaring a state takes no token away. -/
theorem left_declareState (o : Outline) : o.declareState.2.left = o.left := by
  unfold declareState
  dsimp only
  split
  · exact Draft.left_reportPrevious ..
  · rfl

/-- Closing a state never adds tokens. -/
theorem left_closeState_le (o : Outline) : o.closeState.left ≤ o.left :=
  Nat.le_trans (Draft.left_recover_le _) (o.left_expect_le ..)

/-- Synchronizing between declarations never adds tokens. -/
theorem left_synchronize_le (o : Outline) : o.synchronize.left ≤ o.left :=
  o.draft.left_synchronize_le

/-- What follows `State` leaves at most the tokens that were there. -/
theorem left_stateTail_le (o : Outline) : o.stateTail.left ≤ o.left := by
  unfold stateTail
  have h₁ := o.left_expect_le .identifier .stateName
  split
  · rename_i heq
    rw [heq] at h₁
    exact Nat.le_trans (left_synchronize_le _) h₁
  · rename_i o₁ heq
    rw [heq] at h₁
    dsimp only
    have h₂ := o₁.declareState.2.left_expect_le .leftBrace .stateBrace
    rw [left_declareState] at h₂
    split
    · rename_i heq
      rw [heq] at h₂
      exact Nat.le_trans (left_synchronize_le _) (Nat.le_trans h₂ h₁)
    · rename_i heq
      rw [heq] at h₂
      exact Nat.le_trans (left_closeState_le _)
        (Nat.le_trans (left_stateBody_le ..) (Nat.le_trans h₂ h₁))

/-- Compiles the states of a machine. -/
def machineBody (o : Outline) : Outline :=
  if _h : o.current.kind = .rightBrace ∨ o.current.kind = .eof then o
  else if _h : o.current.kind = .state then o.advance.stateTail.machineBody
  else (o.skipUnwanted .stateInMachine).machineBody
termination_by o.left
decreasing_by
  · refine Nat.lt_of_le_of_lt (left_stateTail_le _) (left_advance_lt ?_)
    rw [‹o.current.kind = .state›]
    decide
  · exact left_skipUnwanted_lt (fun heof => ‹¬(_ ∨ _)› (.inr heof)) _

/-- The name of a machine, if it has one. A later machine with a name renames the script. -/
def machineName (o : Outline) : Outline :=
  match o.draft.accept .identifier with
  | (true, draft) => { o with name := some draft.previous.lexeme, draft }
  | (false, draft) => { o with draft }

/-- A machine behind its first word. -/
def machineTail (o : Outline) : Outline :=
  match o.machineName.expect .leftBrace .machineBrace with
  | (false, o) => o.synchronize
  | (true, o) => (o.machineBody.expect .rightBrace .machineEnd).2

/-- The body of a state machine leaves at most the tokens that were there. -/
theorem left_machineBody_le (o : Outline) : o.machineBody.left ≤ o.left := by
  fun_induction machineBody o with
  | case1 => exact Nat.le_refl _
  | case2 o _ h ih =>
    exact Nat.le_trans ih (Nat.le_trans (left_stateTail_le _) o.draft.left_advance_le)
  | case3 o hends _ ih =>
    exact Nat.le_trans ih
      (Nat.le_of_lt (left_skipUnwanted_lt (fun heof => hends (.inr heof)) _))

/-- The name of a state machine leaves at most the tokens that were there. -/
theorem left_machineName_le (o : Outline) : o.machineName.left ≤ o.left := by
  unfold machineName
  have h := o.draft.left_accept_le .identifier
  split <;> rename_i heq <;> rw [heq] at h <;> exact h

/-- What follows `StateMachine` leaves at most the tokens that were there. -/
theorem left_machineTail_le (o : Outline) : o.machineTail.left ≤ o.left := by
  unfold machineTail
  have h₁ := Nat.le_trans (o.machineName.left_expect_le .leftBrace .machineBrace)
    o.left_machineName_le
  split
  · rename_i heq
    rw [heq] at h₁
    exact Nat.le_trans (left_synchronize_le _) h₁
  · rename_i heq
    rw [heq] at h₁
    exact Nat.le_trans (left_expect_le ..) (Nat.le_trans (left_machineBody_le _) h₁)

/-- Compiles the declarations of a file. -/
def declarations (o : Outline) : Outline :=
  if _h : o.current.kind = .eof then o
  else if _h : o.current.kind = .stateMachine then o.advance.machineTail.declarations
  else if _h : o.current.kind = .state then o.advance.stateTail.declarations
  else (o.skipUnwanted .declaration).declarations
termination_by o.left
decreasing_by
  · exact Nat.lt_of_le_of_lt (left_machineTail_le _) (left_advance_lt ‹_›)
  · exact Nat.lt_of_le_of_lt (left_stateTail_le _) (left_advance_lt ‹_›)
  · exact left_skipUnwanted_lt ‹_› _

/-- The outline at the beginning of a source. -/
def ofSource (source : String) : Outline where
  draft := .ofTokens (Token.tokenize source)
  name := none
  states := #[]
  handlers := .empty

/-- Reports that a source without any other problem declares no state. -/
def requireStates (o : Outline) : Outline :=
  if o.states.isEmpty && o.draft.diagnostics.isEmpty then
    { o with draft := o.draft.reportMissing .anyState }
  else o

/-- The problems with the states that handlers change to. -/
def unknownTargets (o : Outline) : List Diagnostic :=
  o.draft.targets.toList.filterMap fun (state, line) =>
    if o.states.contains state then none else some ⟨line, .unknownState state⟩

/-- All problems of a source that was read to its end. -/
def problems (o : Outline) : List Diagnostic :=
  o.requireStates.draft.diagnostics.toList ++ o.unknownTargets

/-- The script of a source without problems. Without a machine it takes its name from the file. -/
def script (o : Outline) (file : String) : Script where
  name := o.name.getD ((Path.stem? file).getD file)
  path := file
  states := o.states.toList
  handlers := o.handlers
  declared := o.draft.declared

end Outline

end EntityScript.Compile

namespace EntityScript

/-- Compiles a source. The file names the source in messages, and the script where the source has
no name for it. -/
def compile (file source : String) : Except CompileError Script :=
  let o := (Compile.Outline.ofSource source).declarations
  match o.problems with
  | [] => .ok (o.script file)
  | diagnostics => .error ⟨file, diagnostics⟩

end EntityScript
