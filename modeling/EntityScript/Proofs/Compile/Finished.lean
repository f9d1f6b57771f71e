import EntityScript.Proofs.Compile.Acceptance
import EntityScript.Proofs.Token.Tiling
import Mathlib.Logic.Function.Iterate

/-!
# Compiling comes to an end

Compiling reads a source to its end, whatever stands in it. Every loop of the compiler is shown to
be one that reads at least one token each time around, also where recovering from a mistake stopped
without reading any, and the functions that call each other read at least one token before they are
called again.

What the compiler does to a draft keeps an account of the tokens read so far (`Draft.Sound`): no
panic begins without a problem, and no unreadable token is passed without one, be it in a panic. At
the end of a source the account covers all of its tokens.
-/

namespace EntityScript.Compile

section Loops

variable {σ β : Type} {left : σ → ℕ} {stops : σ → Prop} {round : σ → σ} {exit f : σ → β}

/-- A loop stops after so many rounds, and each of them leaves fewer tokens to come. -/
structure Rounds (left : σ → ℕ) (stops : σ → Prop) (round : σ → σ) (s : σ) (n : ℕ) : Prop where
  going : ∀ i < n, ¬ stops (round^[i] s)
  reads : ∀ i < n, left (round^[i + 1] s) < left (round^[i] s)
  stopped : stops (round^[n] s)

/-- A function is a loop that stops after at most as many rounds as there are tokens to come. -/
def Finishes (left : σ → ℕ) (stops : σ → Prop) (round : σ → σ) (exit f : σ → β) : Prop :=
  ∀ s, ∃ n ≤ left s, Rounds left stops round s n ∧ f s = exit (round^[n] s)

/-- A loop that goes on for one more round takes one more, if the round reads a token. -/
theorem Rounds.succ {s : σ} {n : ℕ} (h : Rounds left stops round (round s) n) (hs : ¬ stops s)
    (hless : left (round s) < left s) : Rounds left stops round s (n + 1) := by
  refine ⟨fun i hi => ?_, fun i hi => ?_, h.stopped⟩
  · cases i with
    | zero => exact hs
    | succ i => exact h.going i (Nat.lt_of_succ_lt_succ hi)
  · cases i with
    | zero => exact hless
    | succ i => exact h.reads i (Nat.lt_of_succ_lt_succ hi)

/-- A loop finishes if every round reads a token. -/
theorem finishes_of (hless : ∀ s, ¬ stops s → left (round s) < left s)
    (hstop : ∀ s, stops s → f s = exit s) (hround : ∀ s, ¬ stops s → f s = f (round s)) :
    Finishes left stops round exit f := by
  intro s
  induction hn : left s using Nat.strongRecOn generalizing s with
  | ind n ih =>
    subst hn
    by_cases hs : stops s
    · exact ⟨0, Nat.zero_le _, ⟨nofun, nofun, hs⟩, hstop s hs⟩
    · obtain ⟨n, hle, hrounds, heq⟩ := ih _ (hless s hs) (round s) rfl
      refine ⟨n + 1, ?_, hrounds.succ hs (hless s hs), (hround s hs).trans heq⟩
      exact Nat.lt_of_le_of_lt hle (hless s hs)

end Loops

namespace Draft

/-- Reports an unreadable token and passes it. -/
def passUnreadable : Draft × List Token → Draft × List Token
  | (s, []) => (s, [])
  | (s, t :: rest) => (s.report t.line (.ofUnreadable t), rest)

/-- Unreadable tokens are passed in at most as many rounds as there are tokens. -/
theorem finishes_settle :
    Finishes (fun p => p.2.length) (fun p => ∀ t, p.2.head? = some t → t.kind ≠ .error)
      passUnreadable (fun p => { p.1 with upcoming := p.2 }) fun p => p.1.settle p.2 := by
  have hcons : ∀ p : Draft × List Token, ¬ (∀ t, p.2.head? = some t → t.kind ≠ .error) →
      ∃ s t rest, p = (s, t :: rest) ∧ t.kind = .error := by
    rintro ⟨s, tokens⟩ h
    cases tokens with
    | nil => exact absurd nofun h
    | cons t rest =>
      refine ⟨s, t, rest, rfl, ?_⟩
      by_contra hkind
      exact h fun u hu => Option.some.inj hu ▸ hkind
  refine finishes_of (fun p h => ?_) (fun p h => ?_) fun p h => ?_
  · obtain ⟨s, t, rest, rfl, -⟩ := hcons p h
    exact Nat.lt_succ_self _
  · obtain ⟨s, tokens⟩ := p
    cases tokens with
    | nil => rfl
    | cons t rest =>
      dsimp only
      rw [settle, if_neg (h t rfl)]
  · obtain ⟨s, t, rest, rfl, hkind⟩ := hcons p h
    dsimp only [passUnreadable]
    rw [settle, if_pos hkind]

/-- Whether recovering stops before the next token. -/
def Recovered (s : Draft) : Prop :=
  s.current.kind = .eof ∨ s.previous.kind = .semicolon ∨ s.current.kind = .rightBrace ∨
    s.current.kind.startsStatement = true

/-- Recovery skips at most as many tokens as there are. -/
theorem finishes_skipStatement : Finishes left Recovered advance id skipStatement := by
  refine finishes_of (fun s h => ?_) (fun s h => ?_) fun s h => ?_
  · exact left_advance_lt fun heof => h (.inl heof)
  · rw [skipStatement]
    obtain heof | hsemicolon | hstart := h
    · rw [dif_pos heof]
      rfl
    · rw [if_pos hsemicolon, dite_eq_ite, ite_self]
      rfl
    · rw [if_pos hstart, ite_self, dite_eq_ite, ite_self]
      rfl
  · obtain ⟨heof, hsemicolon, hstart⟩ := not_or.1 h |>.imp_right not_or.1
    rw [skipStatement, dif_neg heof, if_neg hsemicolon, if_neg hstart]

/-- Whether nothing comes next that binds as tightly as a level. -/
def EndsChain (level : Level) (s : Draft) : Prop :=
  ∀ c, Continuation.ofKind? s.current.kind = some c → ¬ level ≤ c.level

/-- Compiles the continuation at the next token. -/
def nextContinuation (s : Draft) : Draft :=
  match Continuation.ofKind? s.current.kind with
  | none => s
  | some c => (continuation c s.advance).1

/-- A chain of operators is read in at most as many rounds as there are tokens. -/
theorem finishes_continuations (level : Level) :
    Finishes left (EndsChain level) nextContinuation id fun s => (continuations level s).1 := by
  have hnext : ∀ s, ¬ EndsChain level s → ∃ c, Continuation.ofKind? s.current.kind = some c ∧
      level ≤ c.level ∧ nextContinuation s = (continuation c s.advance).1 := by
    intro s h
    unfold EndsChain at h
    push Not at h
    obtain ⟨c, hc, hlevel⟩ := h
    refine ⟨c, hc, hlevel, ?_⟩
    rw [nextContinuation, hc]
  refine finishes_of (fun s h => ?_) (fun s h => ?_) fun s h => ?_
  · obtain ⟨c, hc, -, heq⟩ := hnext s h
    rw [heq]
    exact Nat.lt_of_le_of_lt (continuation c s.advance).2
      (left_advance_lt fun heof => by simp [heof] at hc)
  · cases hc : Continuation.ofKind? s.current.kind with
    | none => exact continuations_of_none hc
    | some c => exact continuations_of_loose hc (h c hc)
  · obtain ⟨c, hc, hlevel, heq⟩ := hnext s h
    rw [heq]
    exact continuations_of_tight hc hlevel

/-- Compiles the target or argument behind the next comma, unless one was wrong before. -/
def nextArgument : Option EventOperands × Draft → Option EventOperands × Draft
  | (none, s) => (none, s)
  | (some a, s) => argument a s.advance

/-- Compiles the targets and arguments to come, unless one was wrong before. -/
def moreArguments : Option EventOperands × Draft → Option EventOperands × Draft
  | (none, s) => (none, s)
  | (some a, s) => arguments a s

/-- The arguments of an event are read in at most as many rounds as there are tokens. -/
theorem finishes_arguments :
    Finishes (fun p => p.2.left) (fun p => p.1 = none ∨ ¬ p.2.sees .comma = true) nextArgument id
      moreArguments := by
  refine finishes_of ?_ ?_ ?_ <;> rintro ⟨a, s⟩ h <;> dsimp only at h ⊢
  · obtain ⟨ha, hcomma⟩ := not_or.1 h
    obtain ⟨a, rfl⟩ := Option.ne_none_iff_exists'.1 ha
    exact Nat.lt_of_le_of_lt (left_argument_le a s.advance)
      (left_advance_lt_of_sees (not_not.1 hcomma) (by decide))
  · cases a with
    | none => rfl
    | some a => exact arguments_of_not_sees (h.resolve_left (Option.some_ne_none a))
  · obtain ⟨ha, hcomma⟩ := not_or.1 h
    obtain ⟨a, rfl⟩ := Option.ne_none_iff_exists'.1 ha
    obtain ⟨b, s₁, harg⟩ : ∃ b s₁, argument a s.advance = (b, s₁) := ⟨_, _, rfl⟩
    rw [moreArguments, nextArgument, harg]
    cases b with
    | none =>
      rw [arguments, dif_pos (not_not.1 hcomma)]
      split <;> rename_i heq <;> rw [harg] at heq <;> cases heq
      rfl
    | some b => exact arguments_of_sees (not_not.1 hcomma) harg

/-- A statement takes a token away unless the source is at its end. -/
theorem left_statement_lt {s : Draft} (h : s.current.kind ≠ .eof) : s.statement.1.left < s.left :=
  Nat.lt_of_le_of_lt s.statement.2 (left_advance_lt h)

/-- An expression of any level takes a token away unless the source is at its end. -/
theorem left_expressionAt_lt {s : Draft} (h : s.current.kind ≠ .eof) (level : Level) :
    (s.expressionAt level).1.left < s.left :=
  Nat.lt_of_le_of_lt (s.expressionAt level).2 (left_advance_lt h)

/-- The statements of a block are read in at most as many rounds as there are tokens. -/
theorem finishes_blockBody :
    Finishes left (fun s => endsBlock s.current.kind = true) (fun s => s.statement.1.recover)
      (fun s => (s.expect .rightBrace .blockEnd).2) fun s => s.blockBody.1 := by
  refine finishes_of (fun s h => ?_) (fun s h => blockBody_of_ends h)
    fun s h => blockBody_of_not_ends h
  exact Nat.lt_of_le_of_lt (left_recover_le _)
    (left_statement_lt fun heof => h (by rw [heof]; rfl))

end Draft

namespace Outline

/-- Compiles the handler at the next token, or recovers behind that token. -/
def nextHandler (state : String) (o : Outline) : Outline :=
  if o.current.kind = .onEvent then o.advance.handlerTail state else o.skipUnwanted .handlerOrEnd

/-- The handlers of a state are read in at most as many rounds as there are tokens. -/
theorem finishes_stateBody (state : String) :
    Finishes left (fun o => endsState o.current.kind = true) (nextHandler state) id
      fun o => o.stateBody state := by
  have hless : ∀ o : Outline, ¬ endsState o.current.kind = true →
      (nextHandler state o).left < o.left := by
    intro o h
    have heof : o.current.kind ≠ .eof := fun heof => h (by rw [heof]; rfl)
    unfold nextHandler
    split
    · exact Nat.lt_of_le_of_lt (left_handlerTail_le ..) (left_advance_lt heof)
    · exact left_skipUnwanted_lt heof _
  refine finishes_of hless (fun o h => ?_) fun o h => ?_
  · rw [stateBody, dif_pos h]
    rfl
  · rw [stateBody, dif_neg h, nextHandler]
    split <;> rfl

/-- Compiles the state at the next token, or recovers behind that token. -/
def nextState (o : Outline) : Outline :=
  if o.current.kind = .state then o.advance.stateTail else o.skipUnwanted .stateInMachine

/-- The states of a machine are read in at most as many rounds as there are tokens. -/
theorem finishes_machineBody :
    Finishes left (fun o => o.current.kind = .rightBrace ∨ o.current.kind = .eof) nextState id
      machineBody := by
  have hless : ∀ o : Outline, ¬ (o.current.kind = .rightBrace ∨ o.current.kind = .eof) →
      o.nextState.left < o.left := by
    intro o h
    have heof : o.current.kind ≠ .eof := fun heof => h (.inr heof)
    unfold nextState
    split
    · exact Nat.lt_of_le_of_lt (left_stateTail_le _) (left_advance_lt heof)
    · exact left_skipUnwanted_lt heof _
  refine finishes_of hless (fun o h => ?_) fun o h => ?_
  · rw [machineBody, dif_pos h]
    rfl
  · rw [machineBody, dif_neg h, nextState]
    split <;> rfl

/-- Compiles the declaration at the next token, or recovers behind that token. -/
def nextDeclaration (o : Outline) : Outline :=
  if o.current.kind = .stateMachine then o.advance.machineTail
  else if o.current.kind = .state then o.advance.stateTail
  else o.skipUnwanted .declaration

/-- The declarations of a source are read in at most as many rounds as there are tokens. -/
theorem finishes_declarations :
    Finishes left (fun o => o.current.kind = .eof) nextDeclaration id declarations := by
  have hless : ∀ o : Outline, o.current.kind ≠ .eof → o.nextDeclaration.left < o.left := by
    intro o heof
    unfold nextDeclaration
    split
    · exact Nat.lt_of_le_of_lt (left_machineTail_le _) (left_advance_lt heof)
    · split
      · exact Nat.lt_of_le_of_lt (left_stateTail_le _) (left_advance_lt heof)
      · exact left_skipUnwanted_lt heof _
  refine finishes_of hless (fun o h => ?_) fun o h => ?_
  · rw [declarations, dif_pos h]
    rfl
  · rw [declarations, dif_neg h, nextDeclaration]
    split
    · rfl
    · split <;> rfl

end Outline

/-- Every loop of the compiler finishes, and so does each function that calls itself by way of
others, since it reads a token first. -/
structure LoopsFinish : Prop where
  /-- Passing unreadable tokens. -/
  settle : Finishes (fun p => p.2.length) (fun p => ∀ t, p.2.head? = some t → t.kind ≠ .error)
    Draft.passUnreadable (fun p => { p.1 with upcoming := p.2 }) fun p => p.1.settle p.2
  /-- Recovering from a mistake. -/
  skipStatement : Finishes Draft.left Draft.Recovered Draft.advance id Draft.skipStatement
  continuations (level : Level) : Finishes Draft.left (Draft.EndsChain level)
    Draft.nextContinuation id fun s => (s.continuations level).1
  arguments : Finishes (fun p => p.2.left) (fun p => p.1 = none ∨ ¬ p.2.sees .comma = true)
    Draft.nextArgument id Draft.moreArguments
  /-- The statements of a block, after each of which the draft recovers. -/
  blockBody : Finishes Draft.left (fun s => Draft.endsBlock s.current.kind = true)
    (fun s => s.statement.1.recover) (fun s => (s.expect .rightBrace .blockEnd).2)
    fun s => s.blockBody.1
  stateBody (state : String) : Finishes Outline.left
    (fun o => Outline.endsState o.current.kind = true) (Outline.nextHandler state) id
    fun o => o.stateBody state
  machineBody : Finishes Outline.left
    (fun o => o.current.kind = .rightBrace ∨ o.current.kind = .eof) Outline.nextState id
    Outline.machineBody
  declarations : Finishes Outline.left (fun o => o.current.kind = .eof) Outline.nextDeclaration id
    Outline.declarations
  expressionAt (level : Level) (s : Draft) (h : s.current.kind ≠ .eof) :
    (s.expressionAt level).1.left < s.left
  statement (s : Draft) (h : s.current.kind ≠ .eof) : s.statement.1.left < s.left

/-- Every loop of the compiler is shown to finish by the tokens that its rounds read. -/
theorem loopsFinish : LoopsFinish where
  settle := Draft.finishes_settle
  skipStatement := Draft.finishes_skipStatement
  continuations := Draft.finishes_continuations
  arguments := Draft.finishes_arguments
  blockBody := Draft.finishes_blockBody
  stateBody := Outline.finishes_stateBody
  machineBody := Outline.finishes_machineBody
  declarations := Outline.finishes_declarations
  expressionAt level _ h := Draft.left_expressionAt_lt h level
  statement _ h := Draft.left_statement_lt h

namespace Draft

/-- What holds of a draft wherever its source has been read to. -/
structure Sound (tokens : List Token) (s : Draft) : Prop where
  /-- All tokens that are not to come were read, and an unreadable one among them is a problem. -/
  read : ∃ read, tokens = read ++ s.upcoming ∧
    ((∃ t ∈ read, t.kind = .error) → s.diagnostics ≠ #[])
  current : ∀ t, s.upcoming.head? = some t → t.kind ≠ .error
  panic : s.panicking = true → s.diagnostics ≠ #[]

variable {tokens : List Token} {s : Draft}

/-- Behind a report there is a problem, if a panic means that there was one before. -/
theorem diagnostics_report_ne (hpanic : s.panicking = true → s.diagnostics ≠ #[]) (line : ℕ)
    (problem : Problem) : (s.report line problem).diagnostics ≠ #[] := by
  unfold report
  split
  · exact hpanic ‹_›
  · exact Array.push_ne_empty

/-- A report leaves the tokens to come as they are. -/
theorem upcoming_report (s : Draft) (line : ℕ) (problem : Problem) :
    (s.report line problem).upcoming = s.upcoming := by
  unfold report
  split <;> rfl

/-- The account goes on over the unreadable tokens that are passed. -/
theorem sound_settle (read rest : List Token) (htokens : tokens = read ++ rest)
    (hread : (∃ t ∈ read, t.kind = .error) → s.diagnostics ≠ #[])
    (hpanic : s.panicking = true → s.diagnostics ≠ #[]) : (s.settle rest).Sound tokens := by
  induction rest generalizing s read with
  | nil => exact ⟨⟨read, htokens, hread⟩, nofun, hpanic⟩
  | cons t rest ih =>
    unfold settle
    split
    · have hne := diagnostics_report_ne hpanic t.line (.ofUnreadable t)
      refine ih (read ++ [t]) ?_ (fun _ => hne) fun _ => hne
      rw [htokens, List.append_assoc, List.singleton_append]
    · rename_i hkind
      refine ⟨⟨read, htokens, hread⟩, fun u hu => ?_, hpanic⟩
      obtain rfl : t = u := Option.some.inj hu
      exact hkind

/-- Advancing keeps track of what was read, and of the unreadable tokens in it. -/
theorem Sound.advance (h : s.Sound tokens) : s.advance.Sound tokens := by
  obtain ⟨read, htokens, hread⟩ := h.read
  unfold Draft.advance
  cases hup : s.upcoming with
  | nil => exact sound_settle read [] (by rw [htokens, hup]) hread h.panic
  | cons t rest =>
    -- The token that is read now was settled on before, so it is readable.
    have hkind := h.current t (by rw [hup]; rfl)
    refine sound_settle (read ++ [t]) rest ?_ ?_ h.panic
    · rw [htokens, hup, List.append_assoc, List.singleton_append]
    · rintro ⟨u, hu, herror⟩
      obtain hu | hu := List.mem_append.1 hu
      · exact hread ⟨u, hu, herror⟩
      · obtain rfl := List.mem_singleton.1 hu
        exact absurd herror hkind

/-- Compiling keeps the account. -/
theorem Leads.sound {s₀ : Draft} (h : s₀.Leads s) (h₀ : s₀.Sound tokens) : s.Sound tokens := by
  induction h with
  | refl => exact h₀
  | report _ line problem ih =>
    obtain ⟨read, htokens, -⟩ := ih.read
    have hne := diagnostics_report_ne ih.panic line problem
    refine ⟨⟨read, ?_, fun _ => hne⟩, ?_, fun _ => hne⟩
    · rw [upcoming_report]
      exact htokens
    · rw [upcoming_report]
      exact ih.current
  | note _ d ih =>
    obtain ⟨read, htokens, -⟩ := ih.read
    exact ⟨⟨read, htokens, fun _ => Array.push_ne_empty⟩, ih.current, fun _ => Array.push_ne_empty⟩
  | advance _ ih => exact ih.advance
  | calm _ ih => exact ⟨ih.read, ih.current, nofun⟩
  | write _ hupcoming hdiagnostics hpanicking ih =>
    refine ⟨?_, ?_, ?_⟩
    · rw [hupcoming, hdiagnostics]
      exact ih.read
    · rw [hupcoming]
      exact ih.current
    · rw [hpanicking, hdiagnostics]
      exact ih.panic

end Draft

namespace Outline

/-- Before anything is compiled the draft is sound for all tokens of the source. -/
theorem sound_ofSource (source : String) :
    (ofSource source).draft.Sound (Token.words source) :=
  Draft.sound_settle [] _ rfl nofun nofun

/-- The account of a whole source. -/
theorem sound_declarations (source : String) :
    (ofSource source).declarations.draft.Sound (Token.words source) := by
  have hleads : (ofSource source).Leads (ofSource source).declarations :=
    Leads.declarations Draft.Leads.refl
  exact hleads.sound (sound_ofSource source)

/-- The declarations of a source are read up to its end. -/
theorem current_declarations (o : Outline) : o.declarations.current.kind = .eof := by
  obtain ⟨n, -, hrounds, heq⟩ := finishes_declarations o
  rw [heq]
  exact hrounds.stopped

/-- No tokens are left at the end. -/
theorem upcoming_declarations (source : String) :
    (ofSource source).declarations.draft.upcoming = [] := by
  obtain ⟨read, htokens, -⟩ := (sound_declarations source).read
  have heof := current_declarations (ofSource source)
  cases hup : (ofSource source).declarations.draft.upcoming with
  | nil => rfl
  | cons t rest =>
    have hmem : t ∈ Token.words source := by
      rw [htokens, hup]
      exact List.mem_append_right _ List.mem_cons_self
    rw [current, Draft.current, hup] at heof
    exact absurd heof (Token.mem_words hmem).1

/-- Where the scanner of a source stands: it has answered the tokens that were read, and the next
one behind them. -/
def place (source : String) (o : Outline) : Token.Cursor :=
  (Token.Cursor.start source).after ((Token.tokenize source).length - o.left)

/-- Behind the declarations the scanner stands behind the last byte, on the line after all line
ends. -/
theorem place_declarations (source : String) : (ofSource source).declarations.place source
    = ⟨[], source.utf8ByteSize, 1 + source.toList.count '\n'⟩ := by
  have hleft : (ofSource source).declarations.left = 0 := by
    rw [left, Draft.left, upcoming_declarations, List.length_nil]
  rw [place, hleft, Nat.sub_zero]
  exact Token.after_length_tokenize source

end Outline

end EntityScript.Compile

namespace EntityScript

open Compile

/-- Compiling any source comes to an end, at the end of that source. Every loop finishes because
each round of it reads a token; all tokens are read and the scanner stands at the end. The answer is
a script or an error with a diagnostic, since a panic never begins without one. An unreadable token
is an error wherever it stands, also where it is met in a panic. -/
theorem compile_finishes (file source : String) :
    LoopsFinish ∧
    ((Outline.ofSource source).declarations.current.kind = .eof ∧
      (Outline.ofSource source).declarations.draft.upcoming = [] ∧
      ((Outline.ofSource source).declarations.place source).rest = [] ∧
      ((Outline.ofSource source).declarations.place source).offset = source.utf8ByteSize) ∧
    ((∃ script, compile file source = .ok script) ∨
      ∃ diagnostics, compile file source = .error ⟨file, diagnostics⟩ ∧ diagnostics ≠ []) ∧
    ((Outline.ofSource source).declarations.draft.panicking = true →
      (Outline.ofSource source).declarations.draft.diagnostics ≠ #[]) ∧
    ((∃ t ∈ Token.tokenize source, t.kind = .error) →
      ∃ diagnostics, compile file source = .error ⟨file, diagnostics⟩ ∧ diagnostics ≠ []) := by
  have hsound := Outline.sound_declarations source
  have herror : (Outline.ofSource source).declarations.problems ≠ [] →
      ∃ diagnostics, compile file source = .error ⟨file, diagnostics⟩ ∧ diagnostics ≠ [] := by
    intro hproblems
    refine ⟨_, ?_, hproblems⟩
    unfold compile
    dsimp only
    split
    · exact absurd ‹_› hproblems
    · rfl
  refine ⟨loopsFinish, ⟨Outline.current_declarations _, Outline.upcoming_declarations source, ?_,
    ?_⟩, ?_, hsound.panic, ?_⟩
  · rw [Outline.place_declarations]
  · rw [Outline.place_declarations]
  · by_cases hproblems : (Outline.ofSource source).declarations.problems = []
    · exact .inl ⟨_, (compile_eq_ok_iff file source _).2 ⟨hproblems, rfl⟩⟩
    · exact .inr (herror hproblems)
  · rintro ⟨t, ht, hkind⟩
    refine herror (Outline.problems_ne_nil_of_troubled ?_)
    obtain ⟨read, htokens, hread⟩ := hsound.read
    rw [Outline.upcoming_declarations, List.append_nil] at htokens
    refine hread ⟨t, ?_, hkind⟩
    rw [← htokens]
    exact Token.mem_words_of_ne ht (by rw [hkind]; decide)

end EntityScript
