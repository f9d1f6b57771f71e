import EntityScript.Proofs.Bytecode.Compiled
import EntityScript.Proofs.Compile.Lined
import EntityScript.Proofs.Machine.Course

/-!
# Faults are reported inside of their handlers

The chunk of a handler knows a line for each of its bytes, and these are lines of the handler: they
lead from its opening brace to its closing one (`Chunk.Traced`). So whatever instruction of a chunk
faults, the line of the report is one on which the handler stands in its source.

Which braces these are is read off the tokens of the source. `HandlerBlock state event l r` finds
the handler of an event behind the head of its state and the handlers in front of it. A tour through
the declarations of a source finds the block of every handler that is kept (`Outline.Placed`).
-/

namespace EntityScript

namespace Grammar

/-- Tokens with the handler of an event in a state, and the two braces of its block. -/
inductive HandlerBlock (state event : String) (l r : Token) : List Token → Prop where
  | mk {w n : Token} {before ts after : List Token} {body : Statement}
      (opened : Opened state before) (word : w.kind = .onEvent) (name : n.kind = .identifier)
      (named : n.lexeme = event) (opening : l.kind = .leftBrace) (block : Clause .body body ts)
      (closing : r.kind = .rightBrace) :
      HandlerBlock state event l r (before ++ w :: n :: l :: (ts ++ r :: after))

end Grammar

/-- The lines of a chunk are those of a block between two braces, the last of them that of the
closing brace. -/
structure Chunk.Traced (l r : Token) (c : Chunk) : Prop where
  lined : c.Lined l.line r.line
  last : c.lines.back? = some r.line

namespace Compile.Outline

open Grammar

variable {last : ℕ} {words before : List Token} {o : Outline}

/-- The chunk of a handler that was read has the lines of its block. -/
theorem ReadsHandler.traced {state : String} {n l r : Token} {ts : List Token} {body : Statement}
    {s : Draft} (h : ReadsHandler o state n l r ts body s) (hs : s.Forward last) :
    (handlerChunk s (state ++ "." ++ n.lexeme)).1.Traced l r := by
  obtain ⟨hlined, hlast, -⟩ := handlerChunk_lined hs (state ++ "." ++ n.lexeme)
  have hl : s.current = l := h.written.current
  have hr : (handlerChunk s (state ++ "." ++ n.lexeme)).2.previous = r := by
    have hprevious := h.written.previous
    rw [← List.cons_append, List.getLast?_concat] at hprevious
    exact hprevious
  rw [hl, hr] at hlined
  rw [hr] at hlast
  exact ⟨hlined, hlast⟩

/-- Every handler that is kept has its block among some tokens. -/
def Placed (words : List Token) (o : Outline) : Prop :=
  ∀ state event chunk, o.handler? state event = some chunk →
    ∃ l r, HandlerBlock state event l r words ∧ chunk.Traced l r

/-- Nothing was found to be wrong so far, and every handler that was kept has its block among the
tokens of a source. -/
structure Reads (last : ℕ) (words : List Token) (o : Outline) : Prop where
  ready : o.draft.Ready
  forward : o.draft.Forward last
  placed : Placed words o

/-- Tokens were read, and no handler was compiled. -/
theorem Reads.of_gathered {o' : Outline} {ts : List Token} {names : List String}
    (h : Reads last words o) (hg : Gathered o ts names [] o') (hforward : o'.draft.Forward last) :
    Reads last words o' where
  ready := hg.ready
  forward := hforward
  placed state event chunk hchunk := by
    rcases hg.origin state event chunk hchunk with hchunk | ⟨x, hx, -⟩
    · exact h.placed state event chunk hchunk
    · cases hx

/-- The block of a handler is found among the tokens. -/
theorem Reads.handlerTail {state : String} {w n l r : Token} {ts : List Token} {body : Statement}
    {s : Draft} (h : Reads last words o) (hread : ReadsHandler o state n l r ts body s)
    (hwords : words = before ++ w :: o.draft.upcoming) (hopened : Opened state before)
    (hw : w.kind = .onEvent) : Reads last words (o.handlerTail state) where
  ready := hread.gathered.ready
  forward := (forward_keeping last).handlerTail h.forward state
  placed state' event' chunk hchunk := by
    rw [hread.kept, handler?_addHandler hread.fresh] at hchunk
    split at hchunk
    · rename_i hkey
      cases hkey
      cases hchunk
      refine ⟨l, r, ?_, hread.traced (h.forward.of_wrote hread.named)⟩
      have hblock : HandlerBlock state n.lexeme l r
          (before ++ w :: n :: l :: (ts ++ r :: (o.handlerTail state).draft.upcoming)) :=
        .mk hopened hw hread.name rfl hread.opening hread.block hread.closing
      rw [hwords, hread.gathered.upcoming]
      simpa using hblock
    · exact h.placed state' event' chunk hchunk

/-- The blocks of the handlers are found on every walk through the declarations of a source. -/
theorem tour_reads (last : ℕ) (words : List Token) : Tour words (Reads last words) where
  ready h := h.ready
  read h hg honward := h.of_gathered hg (honward _ (forward_keeping last) h.forward)
  handlerTail h hread hwords hopened hw := h.handlerTail hread hwords hopened hw

/-- Reading a source from its start to its end finds something wrong or the block of every handler
that it keeps. -/
theorem reads_declarations (source : String) : (ofSource source).declarations.draft.Troubled ∨
    Reads (Token.ending source).line (Token.words source) (ofSource source).declarations := by
  rcases ofSource_or source with ht | ⟨hready, hup⟩
  · exact .inl (troubled_of_leads ht fun hk => hk.declarations)
  have hbegun : Reads (Token.ending source).line (Token.words source) (ofSource source) :=
    ⟨hready, forward_ofSource source, fun _ _ _ hchunk => by cases hchunk⟩
  have hsuffix : (ofSource source).draft.upcoming <:+ Token.words source := hup ▸ List.suffix_rfl
  exact ((tour_reads _ _).declarations_or hbegun hsuffix).imp_right fun ⟨_, _, hread⟩ => hread

end Compile.Outline

namespace Invocation

variable {σ : Type} [Host σ] {i : Invocation} {nested : Option (Dispatcher σ)} {c : Context}
  {run : Run σ} {report : FaultReport}

/-- The fault of a handler is reported at the line of an instruction. -/
theorem line_of_run (h : (i.run nested c run).result = .error report) :
    report.offset < i.chunk.size ∧ report.line = i.chunk.lineAt report.offset := by
  obtain ⟨last, s, -, hstops⟩ := i.execute_passes nested 0 (⟨#[], c⟩, run)
  rw [run_eq] at h
  dsimp only at h hstops
  generalize i.execute nested 0 ⟨#[], c⟩ run = answer at h hstops
  obtain ⟨_ | ⟨offset, fault⟩, c', r'⟩ := answer
  · cases h
  · cases h
    cases hstops with
    | full inside => exact ⟨inside, rfl⟩
    | faults inside => exact ⟨inside, rfl⟩

end Invocation

/-- The lines of a chunk that was compiled are those of its handler. There is one for each byte of
the code, they never go back, all of them lie between the braces of the handler, and the last one is
that of the closing brace. So a fault of the chunk, at whatever offset and however the handler came
to be run, is reported at a line of the handler. -/
theorem faults_in_handler {file source : String} {script : Script} {state event : String}
    {chunk : Chunk} (h : compile file source = .ok script)
    (hchunk : script.handler? state event = some chunk) :
    ∃ l r, Grammar.HandlerBlock state event l r (Token.words source) ∧
      chunk.lines.size = chunk.code.size ∧ chunk.lines.toList.Pairwise (· ≤ ·) ∧
      chunk.lines.back? = some r.line ∧
      (∀ line ∈ chunk.lines.toList, l.line ≤ line ∧ line ≤ r.line) ∧
      (∀ offset < chunk.size, l.line ≤ chunk.lineAt offset ∧ chunk.lineAt offset ≤ r.line) ∧
      (∀ (σ : Type) [Host σ] (i : Invocation) (nested : Option (Dispatcher σ)) c run report,
        i.chunk = chunk → (i.run nested c run).result = .error report →
          l.line ≤ report.line ∧ report.line ≤ r.line) ∧
      ∀ (σ : Type) [Host σ] limits (nested : Option (Dispatcher σ)) base (c : Context) args run
        report, c.definition.script = script → c.state = state →
          (dispatchWith limits nested base c event args run).result = .error report →
            l.line ≤ report.line ∧ report.line ≤ r.line := by
  obtain ⟨hproblems, rfl⟩ := (compile_eq_ok_iff file source script).1 h
  have hclean : ¬ (Compile.Outline.ofSource source).declarations.draft.Troubled :=
    fun ht => Compile.Outline.problems_ne_nil_of_troubled ht hproblems
  have hread := (Compile.Outline.reads_declarations source).resolve_left hclean
  obtain ⟨l, r, hblock, htraced⟩ := hread.placed state event chunk hchunk
  have hrun : ∀ (σ : Type) [Host σ] (i : Invocation) (nested : Option (Dispatcher σ)) c run report,
      i.chunk = chunk → (i.run nested c run).result = .error report →
        l.line ≤ report.line ∧ report.line ≤ r.line := by
    rintro σ _ i nested c run report rfl herror
    obtain ⟨hinside, hline⟩ := Invocation.line_of_run herror
    rw [hline]
    exact htraced.lined.lineAt hinside
  refine ⟨l, r, hblock, htraced.lined.aligned, htraced.lined.rising.sorted, htraced.last,
    fun line hline => ⟨htraced.lined.rising.low_le _ hline, htraced.lined.rising.le_high _ hline⟩,
    fun offset hoffset => htraced.lined.lineAt hoffset, hrun, ?_⟩
  rintro σ _ limits nested base c args run report hscript rfl herror
  rw [dispatchWith, hscript, hchunk] at herror
  exact hrun σ ⟨limits, base, chunk⟩ nested _ run report rfl (Ended.error_of_handled herror)

/-- A lamp whose level is divided by zero on the fourth line of its source. -/
def faultyLampSource : String :=
  "State off \x7b\n  OnEvent press \x7b\n    level = 1;\n    level = level / 0;\n  \x7d\n\x7d"

/-- What it compiles to. -/
def faultyLampScript : Script := (compile "lamp" faultyLampSource).toOption.getD default

/-- The faulty lamp compiles to its script. -/
theorem faultyLampSource_compiles : compile "lamp" faultyLampSource = .ok faultyLampScript := by
  have hsome : (compile "lamp" faultyLampSource).toOption.isSome = true := by decide +kernel
  exact compile_eq_getD hsome

/-- A press of the lamp, as its outermost handler. -/
def faultyPress : Ended EmptyHost DispatchOutcome :=
  dispatchWith {} none 0 ⟨⟨0, faultyLampScript⟩, "off", .empty, none⟩ "press" .empty ⟨0, #[], ⟨⟩⟩

/-- The division is reported at its line, which lies between the braces of the handler. -/
theorem faults_in_handler_lamp : ∃ chunk l r report,
    faultyLampScript.handler? "off" "press" = some chunk ∧
      Grammar.HandlerBlock "off" "press" l r (Token.words faultyLampSource) ∧
      chunk.lines.back? = some r.line ∧ r.line = 5 ∧ faultyPress.result = .error report ∧
      report.line = 4 ∧ l.line ≤ report.line ∧ report.line ≤ r.line := by
  have hlast : (faultyLampScript.handler? "off" "press").bind (·.lines.back?) = some 5 := by
    decide +kernel
  have hline : faultyPress.result.mapError (·.line) = .error 4 := by decide +kernel
  cases hchunk : faultyLampScript.handler? "off" "press" with
  | none =>
    rw [hchunk] at hlast
    cases hlast
  | some chunk =>
    rw [hchunk, Option.bind_some] at hlast
    obtain ⟨l, r, hblock, -, -, hback, -, -, -, hdispatch⟩ :=
      faults_in_handler faultyLampSource_compiles hchunk
    cases hresult : faultyPress.result with
    | ok outcome =>
      rw [hresult] at hline
      cases hline
    | error report =>
      rw [hresult] at hline
      have hfive := Option.some.inj (hback.symm.trans hlast)
      exact ⟨chunk, l, r, report, rfl, hblock, hback, hfive, rfl, Except.error.inj hline,
        hdispatch EmptyHost _ none 0 _ .empty _ report rfl rfl hresult⟩

end EntityScript
