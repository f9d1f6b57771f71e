import EntityScript.Proofs.Compile.Matching
import EntityScript.Proofs.Table

/-!
# Layout does not matter

Lines are all that the compiler takes from the layout of a source, and it only copies them: into
diagnostics, into the line table of a chunk and beside the states that handlers change to. Taking
the lines away therefore commutes with every step. For expressions and statements this is one
relation that `Matching` carries through the recursion; the functions on outlines follow one by
one.

A source and its tokens laid out one to a line have the same tokens up to lines, so both compile
alike.
-/

namespace EntityScript

/-- A token without its line. -/
def Token.unlined (t : Token) : Token := { t with line := 0 }

/-- A diagnostic without its line. -/
def Compile.Diagnostic.unlined (d : Diagnostic) : Diagnostic := { d with line := 0 }

/-- A chunk without the lines of its code. -/
def Chunk.unlined (c : Chunk) : Chunk := { c with lines := c.lines.map fun _ => 0 }

/-- A script without the lines of its code. -/
def Script.unlined (s : Script) : Script :=
  { s with handlers := s.handlers.map fun events => events.map Chunk.unlined }

/-- The problems of a file without their lines. -/
def CompileError.unlined (e : CompileError) : CompileError :=
  { e with diagnostics := e.diagnostics.map Compile.Diagnostic.unlined }

/-- What compiling a source answers, apart from all lines. -/
def unlinedResult : Except CompileError Script → Except CompileError Script
  | .ok script => .ok script.unlined
  | .error e => .error e.unlined

namespace Chunk

/-- Without lines a byte is pushed on the line zero. -/
theorem unlined_push (c : Chunk) (byte : UInt8) (line : ℕ) :
    (c.push byte line).unlined = c.unlined.push byte 0 := by
  simp [unlined, push]

/-- Without lines an instruction is written on the line zero. -/
theorem unlined_emit (c : Chunk) (i : Instruction) (line : ℕ) :
    (c.emit i line).unlined = c.unlined.emit i 0 := by
  unfold emit
  generalize i.encode = bytes
  induction bytes generalizing c with
  | nil => rfl
  | cons byte bytes ih => rw [List.foldl_cons, List.foldl_cons, ih, unlined_push]

/-- Interning does not depend on lines. -/
theorem intern_unlined (c : Chunk) (v : Value) :
    c.unlined.intern v = ((c.intern v).1, (c.intern v).2.unlined) := by
  have hconstants : c.unlined.constants = c.constants := rfl
  unfold intern
  rw [hconstants]
  cases c.constants.findIdx? (· == v) with
  | some index => rfl
  | none =>
    dsimp only
    split <;> rfl

/-- Without lines every byte is on the line zero. -/
theorem lineAt_unlined (c : Chunk) (offset : ℕ) : c.unlined.lineAt offset = 0 := by
  unfold lineAt unlined
  rw [Array.getD_eq_getD_getElem?, Array.getElem?_map]
  cases c.lines[offset]? <;> rfl

end Chunk

namespace Compile

namespace Draft

/-- A draft without any lines. -/
def unlined (s : Draft) : Draft where
  previous := s.previous.unlined
  upcoming := s.upcoming.map Token.unlined
  endLine := 0
  diagnostics := s.diagnostics.map Diagnostic.unlined
  panicking := s.panicking
  chunk := s.chunk.unlined
  declared := s.declared
  targets := s.targets.map fun target => (target.1, 0)

/-- The next token of a draft without lines is the next token without its line. -/
theorem current_unlined (s : Draft) : s.unlined.current = s.current.unlined := by
  rcases s with ⟨previous, _ | ⟨t, upcoming⟩⟩ <;> rfl

/-- Without lines a problem is reported on the line zero. -/
theorem unlined_report (s : Draft) (line : ℕ) (problem : Problem) :
    (s.report line problem).unlined = s.unlined.report 0 problem := by
  unfold report
  change _ = if s.panicking = true then _ else _
  split
  · rfl
  · simp [unlined, Diagnostic.unlined]

/-- A report at the token read last does not depend on lines. -/
theorem unlined_reportPrevious (s : Draft) (problem : Problem) :
    (s.reportPrevious problem).unlined = s.unlined.reportPrevious problem :=
  s.unlined_report _ _

/-- A report about a missing token does not depend on lines. -/
theorem unlined_reportMissing (s : Draft) (wanted : Wanted) :
    (s.reportMissing wanted).unlined = s.unlined.reportMissing wanted := by
  unfold reportMissing
  rw [unlined_report, current_unlined]
  rfl

/-- Passing unreadable tokens does not depend on lines. -/
theorem unlined_settle (s : Draft) (tokens : List Token) :
    (s.settle tokens).unlined = s.unlined.settle (tokens.map Token.unlined) := by
  induction tokens generalizing s with
  | nil => rfl
  | cons t rest ih =>
    rw [List.map_cons, settle, settle]
    change _ = if t.kind = .error then _ else _
    split
    · rw [ih, unlined_report]
      rfl
    · rfl

/-- Advancing does not depend on lines. -/
theorem unlined_advance (s : Draft) : s.advance.unlined = s.unlined.advance := by
  unfold advance
  rw [unlined_settle, current_unlined]
  change _ = Draft.settle _ (s.upcoming.map Token.unlined).tail
  rw [List.map_tail]
  rfl

/-- Writing an instruction does not depend on lines. -/
theorem unlined_emit (s : Draft) (i : Instruction) : (s.emit i).unlined = s.unlined.emit i := by
  unfold emit unlined
  dsimp only
  rw [Chunk.unlined_emit]
  rfl

/-- Interning into a draft does not depend on lines. -/
theorem intern_unlined (s : Draft) (v : Value) :
    s.unlined.intern v = ((s.intern v).1, (s.intern v).2.unlined) := by
  unfold intern
  rw [show s.unlined.chunk = s.chunk.unlined from rfl, Chunk.intern_unlined]
  rcases s.chunk.intern v with ⟨_ | index, chunk⟩
  · dsimp only
    rw [unlined_reportPrevious]
    rfl
  · rfl

/-- Patching a jump does not depend on lines. -/
theorem unlined_patchJump (s : Draft) (operand : ℕ) :
    (s.patchJump operand).unlined = s.unlined.patchJump operand := by
  unfold patchJump
  dsimp only
  change _ = if s.chunk.size - operand - 2 < 65536 then _ else _
  split
  · rfl
  · exact unlined_reportPrevious _ _

/-- Noting a change of state does not depend on lines. -/
theorem unlined_noteTarget (s : Draft) : s.noteTarget.unlined = s.unlined.noteTarget := by
  simp [noteTarget, unlined, Token.unlined]

/-- Whatever statements do, they do it apart from lines. -/
theorem statementMatching_unlined : StatementMatching fun s t => t = s.unlined where
  current := by
    rintro s t rfl
    rw [current_unlined]
    rfl
  previous := by
    rintro s t rfl
    rfl
  size := by
    rintro s t rfl
    rfl
  advance := by
    rintro s t rfl
    exact s.unlined_advance.symm
  reportPrevious := by
    rintro s t rfl problem
    exact (s.unlined_reportPrevious problem).symm
  reportMissing := by
    rintro s t rfl wanted
    exact (s.unlined_reportMissing wanted).symm
  emit := by
    rintro s t rfl i
    exact (s.unlined_emit i).symm
  intern := by
    rintro s t rfl v
    rw [intern_unlined]
    exact ⟨rfl, rfl⟩
  patchJump := by
    rintro s t rfl operand
    exact (s.unlined_patchJump operand).symm
  panicking := by
    rintro s t rfl
    rfl
  declared := by
    rintro s t rfl
    rfl
  calm := by
    rintro s t rfl
    rfl
  declare := by
    rintro s t rfl types
    rfl
  noteTarget := by
    rintro s t rfl
    exact s.unlined_noteTarget.symm

/-- Expecting a token does not depend on lines. -/
theorem expect_unlined (s : Draft) (kind : Token.Kind) (wanted : Wanted) :
    s.unlined.expect kind wanted = ((s.expect kind wanted).1, (s.expect kind wanted).2.unlined) :=
  have h := statementMatching_unlined.expect (s := s) rfl kind wanted
  Prod.ext h.answer h.related

end Draft

namespace Outline

/-- An outline without any lines. -/
def unlined (o : Outline) : Outline :=
  { o with
    draft := o.draft.unlined
    handlers := o.handlers.map fun events => events.map Chunk.unlined }

/-- The kind of the next token does not depend on lines. -/
theorem kind_unlined (o : Outline) : o.unlined.current.kind = o.current.kind :=
  Draft.statementMatching_unlined.kind (s := o.draft) rfl

/-- Advancing in the outline does not depend on lines. -/
theorem advance_unlined (o : Outline) : o.unlined.advance = o.advance.unlined := by
  unfold advance unlined
  rw [Draft.unlined_advance]

/-- Expecting a token in the outline does not depend on lines. -/
theorem expect_unlined (o : Outline) (kind : Token.Kind) (wanted : Wanted) :
    o.unlined.expect kind wanted
      = ((o.expect kind wanted).1, (o.expect kind wanted).2.unlined) := by
  unfold expect
  rw [show o.unlined.draft = o.draft.unlined from rfl, Draft.expect_unlined]
  rfl

/-- Synchronizing between declarations does not depend on lines. -/
theorem synchronize_unlined (o : Outline) : o.unlined.synchronize = o.synchronize.unlined := by
  unfold synchronize
  rw [show o.unlined.draft = o.draft.unlined from rfl,
    Draft.statementMatching_unlined.synchronize (s := o.draft) rfl]
  rfl

/-- Skipping an unwanted token does not depend on lines. -/
theorem skipUnwanted_unlined (o : Outline) (wanted : Wanted) :
    o.unlined.skipUnwanted wanted = (o.skipUnwanted wanted).unlined := by
  have h : o.unlined.draft.reportMissing wanted = (o.draft.reportMissing wanted).unlined :=
    (o.draft.unlined_reportMissing wanted).symm
  unfold skipUnwanted
  rw [h, ← Draft.unlined_advance, Draft.statementMatching_unlined.synchronize rfl]
  rfl

/-- The name of an event does not depend on lines. -/
theorem eventName_unlined (s : Draft) :
    eventName s.unlined = ((eventName s).1, (eventName s).2.unlined) := by
  obtain ⟨found, s₁, t₁, hs, ht, rfl⟩ :=
    (Draft.statementMatching_unlined.accept (s := s) rfl .identifier).exists_eq
  unfold eventName
  rw [hs, ht]
  cases found with
  | true => rfl
  | false =>
    dsimp only
    rw [Draft.unlined_reportMissing]

/-- The chunk of a handler does not depend on lines, apart from its own. -/
theorem handlerChunk_unlined (s : Draft) (name : String) :
    handlerChunk s.unlined name
      = ((handlerChunk s name).1.unlined, (handlerChunk s name).2.unlined) := by
  have hempty (s : Draft) (name : String) :
      { s.unlined with chunk := .empty name } = Draft.unlined { s with chunk := .empty name } := by
    simp [Draft.unlined, Chunk.unlined, Chunk.empty]
  unfold handlerChunk
  dsimp only
  rw [hempty, ← Draft.unlined_advance, Draft.statementMatching_unlined.blockBody rfl,
    ← Draft.unlined_emit, hempty]
  rfl

/-- Filing a handler does not depend on lines. -/
theorem addHandler_unlined (o : Outline) (state event : String) (chunk : Chunk) :
    o.unlined.addHandler state event chunk.unlined = (o.addHandler state event chunk).unlined := by
  have hevents : (o.unlined.handlers.get? state).getD .empty
      = ((o.handlers.get? state).getD .empty).map Chunk.unlined := by
    rw [show o.unlined.handlers.get? state = _ from Table.get?_map ..]
    cases o.handlers.get? state <;> rfl
  unfold addHandler
  dsimp only
  rw [hevents, Chunk.lineAt_unlined, Table.contains_map]
  by_cases htaken : ((o.handlers.get? state).getD .empty).contains event = true
  · rw [if_pos htaken, if_pos htaken]
    simp [unlined, Draft.unlined, Diagnostic.unlined]
  · rw [if_neg htaken, if_neg htaken]
    simp only [unlined, Table.map_insert]

/-- A handler does not depend on lines. -/
theorem handlerTail_unlined (o : Outline) (state : String) :
    o.unlined.handlerTail state = (o.handlerTail state).unlined := by
  have hsize (s : Draft) : s.unlined.diagnostics.size = s.diagnostics.size := by
    simp [Draft.unlined]
  unfold handlerTail
  rw [show o.unlined.draft = o.draft.unlined from rfl, eventName_unlined]
  dsimp only
  rw [Draft.statementMatching_unlined.sees rfl]
  split
  · rw [handlerChunk_unlined]
    dsimp only
    rw [hsize, hsize]
    split
    · rfl
    · split
      · exact addHandler_unlined { o with draft := _ } _ _ _
      · rfl
  · rw [← Draft.unlined_reportMissing, Draft.statementMatching_unlined.synchronize rfl]
    rfl

/-- The handlers of a state do not depend on lines. -/
theorem stateBody_unlined (o : Outline) (state : String) :
    o.unlined.stateBody state = (o.stateBody state).unlined := by
  fun_induction stateBody o state with
  | case1 o h =>
    rw [stateBody, dif_pos (by rw [kind_unlined]; exact h)]
  | case2 o h h' ih =>
    rw [stateBody, dif_neg (by rw [kind_unlined]; exact h),
      dif_pos (by rw [kind_unlined]; exact h'), advance_unlined, handlerTail_unlined, ih]
  | case3 o h h' ih =>
    rw [stateBody, dif_neg (by rw [kind_unlined]; exact h),
      dif_neg (by rw [kind_unlined]; exact h'), skipUnwanted_unlined, ih]

/-- Declaring a state does not depend on lines. -/
theorem declareState_unlined (o : Outline) :
    o.unlined.declareState = (o.declareState.1, o.declareState.2.unlined) := by
  unfold declareState
  change (if o.states.contains o.draft.previous.lexeme = true then _ else _) = _
  dsimp only
  split
  · rw [show o.unlined.draft = o.draft.unlined from rfl, ← Draft.unlined_reportPrevious]
    rfl
  · rfl

/-- Closing a state does not depend on lines. -/
theorem closeState_unlined (o : Outline) : o.unlined.closeState = o.closeState.unlined := by
  unfold closeState
  rw [expect_unlined]
  dsimp only
  rw [show Outline.draft (Outline.unlined _) = Draft.unlined _ from rfl,
    Draft.statementMatching_unlined.recover rfl]
  rfl

/-- A state does not depend on lines. -/
theorem stateTail_unlined (o : Outline) : o.unlined.stateTail = o.stateTail.unlined := by
  unfold stateTail
  rw [expect_unlined]
  rcases o.expect .identifier .stateName with ⟨found, o₁⟩
  cases found with
  | false => exact synchronize_unlined o₁
  | true =>
    dsimp only
    rw [declareState_unlined]
    dsimp only
    rw [expect_unlined]
    rcases o₁.declareState.2.expect .leftBrace .stateBrace with ⟨found, o₂⟩
    cases found with
    | false => exact synchronize_unlined o₂
    | true =>
      dsimp only
      rw [stateBody_unlined, closeState_unlined]

/-- The states of a machine do not depend on lines. -/
theorem machineBody_unlined (o : Outline) : o.unlined.machineBody = o.machineBody.unlined := by
  fun_induction machineBody o with
  | case1 o h =>
    rw [machineBody, dif_pos (by rw [kind_unlined]; exact h)]
  | case2 o h h' ih =>
    rw [machineBody, dif_neg (by rw [kind_unlined]; exact h),
      dif_pos (by rw [kind_unlined]; exact h'), advance_unlined, stateTail_unlined, ih]
  | case3 o h h' ih =>
    rw [machineBody, dif_neg (by rw [kind_unlined]; exact h),
      dif_neg (by rw [kind_unlined]; exact h'), skipUnwanted_unlined, ih]

/-- The name of a machine does not depend on lines. -/
theorem machineName_unlined (o : Outline) : o.unlined.machineName = o.machineName.unlined := by
  obtain ⟨found, s₁, t₁, hs, ht, rfl⟩ :=
    (Draft.statementMatching_unlined.accept (s := o.draft) rfl .identifier).exists_eq
  unfold machineName
  rw [show o.unlined.draft = o.draft.unlined from rfl, hs, ht]
  cases found <;> rfl

/-- A machine does not depend on lines. -/
theorem machineTail_unlined (o : Outline) : o.unlined.machineTail = o.machineTail.unlined := by
  unfold machineTail
  rw [machineName_unlined, expect_unlined]
  rcases o.machineName.expect .leftBrace .machineBrace with ⟨found, o₁⟩
  cases found with
  | false => exact synchronize_unlined o₁
  | true =>
    dsimp only
    rw [machineBody_unlined, expect_unlined]

/-- The declarations of a source do not depend on lines. -/
theorem declarations_unlined (o : Outline) : o.unlined.declarations = o.declarations.unlined := by
  fun_induction declarations o with
  | case1 o h =>
    rw [declarations, dif_pos (by rw [kind_unlined]; exact h)]
  | case2 o h h' ih =>
    rw [declarations, dif_neg (by rw [kind_unlined]; exact h),
      dif_pos (by rw [kind_unlined]; exact h'), advance_unlined, machineTail_unlined, ih]
  | case3 o h h' h'' ih =>
    rw [declarations, dif_neg (by rw [kind_unlined]; exact h),
      dif_neg (by rw [kind_unlined]; exact h'), dif_pos (by rw [kind_unlined]; exact h''),
      advance_unlined, stateTail_unlined, ih]
  | case4 o h h' h'' ih =>
    rw [declarations, dif_neg (by rw [kind_unlined]; exact h),
      dif_neg (by rw [kind_unlined]; exact h'), dif_neg (by rw [kind_unlined]; exact h''),
      skipUnwanted_unlined, ih]

/-- Sources with the same tokens up to lines begin alike. -/
theorem unlined_ofSource {source source' : String}
    (h : (Token.words source').map Token.spelling = (Token.words source).map Token.spelling) :
    (ofSource source').unlined = (ofSource source).unlined := by
  have hwords : (Token.words source').map Token.unlined
      = (Token.words source).map Token.unlined := by
    have h' := congrArg (List.map fun p : Token.Kind × String => Token.mk p.1 p.2 0) h
    rwa [List.map_map, List.map_map] at h'
  have hdraft : (Draft.ofTokens (Token.tokenize source')).unlined
      = (Draft.ofTokens (Token.tokenize source)).unlined := by
    unfold Draft.ofTokens
    dsimp only
    rw [Draft.unlined_settle, Draft.unlined_settle]
    exact congrArg _ hwords
  unfold ofSource unlined
  rw [hdraft]

/-- What is wrong with a source does not depend on lines, apart from where it is reported. -/
theorem problems_unlined (o : Outline) :
    o.unlined.problems = o.problems.map Diagnostic.unlined := by
  have hrequire : o.unlined.requireStates = o.requireStates.unlined := by
    have hempty : o.unlined.draft.diagnostics.isEmpty = o.draft.diagnostics.isEmpty := by
      simp [unlined, Draft.unlined, Array.isEmpty]
    unfold requireStates
    rw [hempty, show o.unlined.draft = o.draft.unlined from rfl, ← Draft.unlined_reportMissing,
      show o.unlined.states = o.states from rfl]
    split <;> rfl
  have htargets : o.unlined.unknownTargets = o.unknownTargets.map Diagnostic.unlined := by
    simp only [unknownTargets, unlined, Draft.unlined, Array.toList_map, List.filterMap_map,
      List.map_filterMap]
    congr 1
    funext ⟨target, line⟩
    let unknown (line : ℕ) : Diagnostic := ⟨line, .unknownState target⟩
    change (if o.states.contains target then none else some (unknown 0))
      = (if o.states.contains target then none else some (unknown line)).map Diagnostic.unlined
    split <;> rfl
  unfold problems
  rw [hrequire, htargets, List.map_append]
  congr 1
  exact Array.toList_map

end Outline

end Compile

/-- What compiling answers is, up to lines, read off an outline without lines. -/
theorem unlinedResult_compile (file source : String) :
    unlinedResult (compile file source) =
      match (Compile.Outline.ofSource source).unlined.declarations.problems with
      | [] => .ok ((Compile.Outline.ofSource source).unlined.declarations.script file)
      | diagnostics => .error ⟨file, diagnostics⟩ := by
  unfold compile
  rw [Compile.Outline.declarations_unlined, Compile.Outline.problems_unlined]
  dsimp only
  cases (Compile.Outline.ofSource source).declarations.problems <;> rfl

/-- Layout does not matter. The tokens of a source, mistakes included, laid out one to a line have
the same kinds and texts, and compiling them answers the same up to lines: the same script, or as
many problems of the same kinds and with the same messages in the same order. -/
theorem compile_laidOut (file source : String) :
    (Token.tokenize (Token.laidOut '\n' (Token.words source))).map Token.spelling
        = (Token.tokenize source).map Token.spelling ∧
      unlinedResult (compile file (Token.laidOut '\n' (Token.words source)))
        = unlinedResult (compile file source) := by
  have hwords : (Token.words (Token.laidOut '\n' (Token.words source))).map Token.spelling
      = (Token.words source).map Token.spelling := by
    rw [Token.words_laidOut (by decide) fun t ht =>
      ⟨Token.stands_of_mem_words ht (by decide) fun _ => rfl, (Token.mem_words ht).1⟩]
    exact Token.map_spelling_placed ..
  refine ⟨?_, ?_⟩
  · obtain ⟨last, hlast, heq⟩ := Token.exists_tokenize_eq source
    obtain ⟨last', hlast', heq'⟩ :=
      Token.exists_tokenize_eq (Token.laidOut '\n' (Token.words source))
    rw [heq, heq', List.map_append, List.map_append, hwords, List.map_singleton,
      List.map_singleton, hlast, hlast']
  · rw [unlinedResult_compile, unlinedResult_compile, Compile.Outline.unlined_ofSource hwords]

end EntityScript
