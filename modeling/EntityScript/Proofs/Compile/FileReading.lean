import EntityScript.Proofs.Compile.Gathered
import EntityScript.Proofs.Compile.StatementReading

/-!
# What compiles as a source is one

If compiling a source finds nothing wrong, then its tokens spell declarations of the grammar, and
the outline has gathered the states and the handlers of those declarations.

A problem inside a handler only drops the handler, and reading goes on at a place where a statement
or a declaration may begin. So the proof has to follow every way on from a problem; that problems
are never forgotten is all that has to be known about them.

On the way a property of outlines may be carried along, and where the handlers stand among all
tokens of the source: that is a `Tour`.
-/

namespace EntityScript.Compile

open Grammar

namespace Outline

variable {o : Outline}

/-- Trouble stays whatever is compiled. -/
theorem troubled_of_leads {o' : Outline} (h : o.draft.Troubled) (hl : o.Leads o → o.Leads o') :
    o'.draft.Troubled :=
  h.of_leads hl

/-- The name of an event is a word, or something is wrong. -/
theorem eventName_or {s : Draft} (hs : s.Ready) : (eventName s).2.Troubled ∨
    ∃ n s', eventName s = (some n.lexeme, s') ∧ n.kind = .identifier ∧
      Draft.Wrote s [n] .none s' := by
  unfold eventName
  rcases hs.accept_or (k := .identifier) (by decide) with
    ⟨heq, -⟩ | ⟨s', heq, ht | ⟨n, hn, hw⟩⟩ <;> rw [heq]
  · exact .inl (hs.troubled_report _ _)
  · exact .inl ht
  · have hprevious : s'.previous = n := hw.previous_eq
    exact .inr ⟨n, s', by rw [← hprevious], hn, hw⟩

/-- The block of a handler, with its braces. -/
theorem handlerChunk_or {s : Draft} (hs : s.Ready) (hkind : s.current.kind = .leftBrace)
    (name : String) : (handlerChunk s name).2.Troubled ∨
      ∃ l ts r body, l.kind = .leftBrace ∧ r.kind = .rightBrace ∧ Clause .body body ts ∧
        body.Legal ∧ Draft.Wrote { s with chunk := .empty name } (l :: (ts ++ [r])) body.work
          ({ s with chunk := .empty name }.advance).blockBody.1 := by
  have hready : Draft.Ready { s with chunk := .empty name } :=
    ⟨hs.diagnostics, hs.panicking, Nat.zero_le _⟩
  exact hready.braced_or hkind fun hr => hr.blockBody_or

/-- What a handler reads and writes without a problem. It is the first one of its event. -/
structure ReadsHandler (o : Outline) (state : String) (n l r : Token) (ts : List Token)
    (body : Statement) (s : Draft) : Prop where
  name : n.kind = .identifier
  opening : l.kind = .leftBrace
  block : Clause .body body ts
  closing : r.kind = .rightBrace
  legal : body.Legal
  named : Draft.Wrote o.draft [n] .none s
  written : Draft.Wrote { s with chunk := .empty (state ++ "." ++ n.lexeme) } (l :: (ts ++ [r]))
    body.work ({ s with chunk := .empty (state ++ "." ++ n.lexeme) }.advance).blockBody.1
  fresh : o.handler? state n.lexeme = none
  kept : o.handlerTail state =
    Outline.addHandler { o with draft := (handlerChunk s (state ++ "." ++ n.lexeme)).2 } state
      n.lexeme (handlerChunk s (state ++ "." ++ n.lexeme)).1

variable {state : String} {n l r : Token} {ts : List Token} {body : Statement} {s : Draft}

/-- What a handler reads is gathered as that one handler. -/
theorem ReadsHandler.gathered (h : ReadsHandler o state n l r ts body s) :
    Gathered o (n :: l :: (ts ++ [r])) [] [(state, ⟨n.lexeme, body⟩)] (o.handlerTail state) := by
  obtain ⟨hassembled, hup, hready, hdeclared, htargets⟩ := h.written.handlerChunk
  rw [h.kept]
  refine Gathered.addHandler (x := (state, ⟨n.lexeme, body⟩)) h.fresh hassembled ?_ hready ?_ ?_
  · rw [h.named.upcoming, hup]
    rfl
  · intro name type
    rw [hdeclared, h.named.declared]
    simp
  · rw [htargets, h.named.targets]
    simp

/-- Behind `OnEvent` a handler is read, or something is wrong. -/
theorem handlerTail_or (h : o.draft.Ready) (state : String) :
    (o.handlerTail state).draft.Troubled ∨
      ∃ n l r ts body s, ReadsHandler o state n l r ts body s := by
  rcases eventName_or h with ht | ⟨n, s₁, heq, hn, hw₁⟩
  · left
    unfold handlerTail
    dsimp only
    split
    · have hchunk := ht.of_leads fun hk => leads_handlerChunk hk
        (state ++ "." ++ (eventName o.draft).1.getD "?")
      split
      · exact hchunk
      · split
        · exact troubled_of_leads (o := { o with draft := _ }) hchunk
            fun hk => hk.addHandler _ _ _
        · exact hchunk
    · exact ht.of_leads fun hk => (hk.reportMissing _).synchronize
  by_cases hsees : s₁.sees .leftBrace = true
  · have htail := handlerTail_of_name heq hsees state
    rcases handlerChunk_or hw₁.ready (beq_iff_eq.1 hsees) (state ++ "." ++ n.lexeme) with
      ht | ⟨l, ts, r, body, hl, hr, hc, hlegal, hw₂⟩
    · left
      rw [htail]
      dsimp only
      split
      · exact troubled_of_leads (o := { o with draft := _ }) ht fun hk => hk.addHandler _ _ _
      · exact ht
    obtain ⟨-, -, hready, -, -⟩ := hw₂.handlerChunk
    have hkept := htail
    dsimp only at hkept
    rw [if_pos (by rw [hready.diagnostics, h.diagnostics])] at hkept
    cases hfresh : o.handler? state n.lexeme with
    | none => exact .inr ⟨n, l, r, ts, body, s₁, hn, hl, hc, hr, hlegal, hw₁, hw₂, hfresh, hkept⟩
    | some chunk =>
      left
      rw [hkept]
      unfold Outline.addHandler
      dsimp only
      rw [contains_events, hfresh, Option.isSome_some, if_pos rfl]
      simp [Draft.Troubled]
  · left
    unfold handlerTail
    dsimp only
    rw [heq]
    dsimp only
    rw [if_neg hsees]
    exact (hw₁.ready.troubled_report _ _).of_leads fun hk => hk.synchronize

/-- The tokens behind what was gathered are among the last of the words. -/
theorem Gathered.suffix {o' : Outline} {ts words : List Token} {names : List String}
    {handlers : List (String × Handler)} (hg : Gathered o ts names handlers o')
    (h : o.draft.upcoming <:+ words) : o'.draft.upcoming <:+ words := by
  rw [hg.upcoming] at h
  exact (List.suffix_append ts _).trans h

/-- A property of outlines that is kept where tokens are read without a problem, and where a handler
is compiled that stands among some tokens. -/
structure Tour (words : List Token) (I : Outline → Prop) : Prop where
  ready {o : Outline} (h : I o) : o.draft.Ready
  read {o o' : Outline} {ts : List Token} {names : List String} (h : I o)
    (hg : Gathered o ts names [] o') (honward : Onward o o') : I o'
  handlerTail {o : Outline} {before ts : List Token} {w n l r : Token} {state : String}
    {body : Statement} {s : Draft} (h : I o) (hread : ReadsHandler o state n l r ts body s)
    (hwords : words = before ++ w :: o.draft.upcoming) (hopened : Opened state before)
    (hword : w.kind = .onEvent) : I (o.handlerTail state)

/-- That nothing is wrong may be carried along any tokens. -/
theorem tour_ready (words : List Token) : Tour words fun o => o.draft.Ready where
  ready h := h
  read _ hg _ := hg.ready
  handlerTail _ hread _ _ _ := hread.gathered.ready

namespace Tour

variable {words before : List Token} {I : Outline → Prop} (T : Tour words I)
include T

/-- Reading the next token where its kind is known. -/
theorem advance_or (h : I o) {kind : Token.Kind} (hcurrent : o.current.kind = kind)
    (hk : kind ≠ .eof) : o.advance.draft.Troubled ∨ o.advance.draft.previous.kind = kind ∧
      Gathered o [o.advance.draft.previous] [] [] o.advance ∧ I o.advance := by
  refine ((T.ready h).advance_kind_or hcurrent hk).imp_right fun ⟨hkind, hw⟩ => ?_
  have hg : Gathered o [o.advance.draft.previous] [] [] o.advance := .of_wrote hw
  exact ⟨hkind, hg, T.read h hg fun _ hk hp => hk.advance hp⟩

/-- A token that is expected is there and nothing else changes, or something is wrong. -/
theorem expect_or (h : I o) {k : Token.Kind} (hk : k ≠ .eof) (wanted : Wanted) :
    (∃ b s, o.expect k wanted = (b, { o with draft := s }) ∧ s.Troubled) ∨
    ∃ t s, o.expect k wanted = (true, { o with draft := s }) ∧ t.kind = k ∧ s.previous = t ∧
      Gathered o [t] [] [] { o with draft := s } ∧ I { o with draft := s } := by
  unfold expect
  rcases (T.ready h).expect_or hk wanted with ⟨b, s, heq, ht⟩ | ⟨s, t, heq, htk, hw⟩
  · rw [heq]
    exact .inl ⟨b, s, rfl, ht⟩
  · have hg : Gathered o [t] [] [] { o with draft := s } := .of_wrote hw
    have honward : Onward o { o with draft := s } := fun P hk hp => by
      have hexpect := hk.toKeeping.expect hp k wanted
      rwa [heq] at hexpect
    rw [heq]
    exact .inr ⟨t, s, rfl, htk, hw.previous_eq, hg, T.read h hg honward⟩

/-- The body of a state is a list of handlers up to its closing brace, or something is wrong. -/
theorem stateBody_or {state : String} (h : I o) (hwords : words = before ++ o.draft.upcoming)
    (hopened : Opened state before) :
    (o.stateBody state).draft.Troubled ∨ ∃ ts handlers, HandlerSpelling handlers ts ∧
      (∀ x ∈ handlers, x.body.Legal) ∧
      Gathered o ts [] (handlers.map fun x => (state, x)) (o.stateBody state) ∧
      I (o.stateBody state) := by
  fun_induction stateBody o state generalizing before with
  | case1 => exact .inr ⟨[], [], .nil, by simp, .refl (T.ready h), h⟩
  | case2 o hends hon ih =>
    rcases T.advance_or h hon (by decide) with ht | ⟨hk, hg₁, h₁⟩
    · exact .inl (troubled_of_leads ht fun hk => (hk.handlerTail _).stateBody _)
    rcases handlerTail_or hg₁.ready state with ht | ⟨n, l, r, ts, body, s, hread⟩
    · exact .inl (troubled_of_leads ht fun hk => hk.stateBody _)
    have hg₂ := hread.gathered
    rw [hg₁.upcoming, List.singleton_append] at hwords
    have h₂ := T.handlerTail h₁ hread hwords hopened hk
    have hmore := hopened.handler hk hread.name hread.opening hread.block hread.closing
    rw [hg₂.upcoming] at hwords
    refine (ih h₂ (by simpa using hwords) hmore).imp_right ?_
    rintro ⟨us, handlers, hus, hlegals, hg₃, h₃⟩
    refine ⟨_, _, .cons hk hread.name hread.opening hread.block hread.closing hus, ?_,
      (hg₁.trans (hg₂.trans hg₃)).congr (by simp) rfl rfl, h₃⟩
    intro x hx
    rcases List.mem_cons.1 hx with rfl | hx
    · exact hread.legal
    · exact hlegals x hx
  | case3 o hends hon ih =>
    left
    refine troubled_of_leads (o := { o with draft := o.draft.reportMissing .handlerOrEnd })
      ((T.ready h).troubled_report _ _) fun hk => Leads.stateBody ?_ state
    exact (Draft.Leads.advance hk).synchronize

/-- A state is declared once under the name read last, or something is wrong. -/
theorem declareState_or (h : I o) : o.declareState.2.draft.Troubled ∨
    o.declareState.1 = o.draft.previous.lexeme ∧
      Gathered o [] [o.draft.previous.lexeme] [] o.declareState.2 ∧ I o.declareState.2 := by
  have honward : Onward o o.declareState.2 := fun _ hk hp => hk.declareState hp
  unfold declareState at honward ⊢
  dsimp only at honward ⊢
  split
  · exact .inl ((T.ready h).troubled_report _ _)
  · rename_i hstate
    rw [if_neg hstate] at honward
    have hg := Gathered.declare (T.ready h) (by simpa using hstate)
    exact .inr ⟨rfl, hg, T.read h hg honward⟩

/-- A state is read from its opening to its closing brace, or something is wrong. -/
theorem stateBrace_or {w n : Token} (h : I o)
    (hwords : words = before ++ w :: n :: o.draft.upcoming) (hword : w.kind = .state)
    (hname : n.kind = .identifier) :
    (o.stateBrace n.lexeme).draft.Troubled ∨ ∃ l ts r handlers, l.kind = .leftBrace ∧
      HandlerSpelling handlers ts ∧ r.kind = .rightBrace ∧ (∀ x ∈ handlers, x.body.Legal) ∧
      Gathered o (l :: (ts ++ [r])) [] (handlers.map fun x => (n.lexeme, x))
        (o.stateBrace n.lexeme) ∧ I (o.stateBrace n.lexeme) := by
  unfold stateBrace
  rcases T.expect_or h (k := .leftBrace) (by decide) .stateBrace with
    ⟨b, s, heq, ht⟩ | ⟨l, s, heq, hl, -, hg₁, h₁⟩ <;> rw [heq]
  · left
    cases b with
    | false => exact ht.of_leads fun hk => hk.synchronize
    | true =>
      exact troubled_of_leads (o := { o with draft := s }) ht
        fun hk => (hk.stateBody _).closeState
  dsimp only
  rw [hg₁.upcoming] at hwords
  have hopened : Opened n.lexeme (before ++ w :: n :: l :: []) := .mk hword hname rfl hl .nil
  rcases T.stateBody_or h₁ (by simpa using hwords) hopened with
    ht | ⟨ts, handlers, hts, hlegal, hg₂, h₂⟩
  · exact .inl (troubled_of_leads ht fun hk => hk.closeState)
  unfold closeState
  rcases T.expect_or h₂ (k := .rightBrace) (by decide) .stateEnd with
    ⟨b, s', heq, ht⟩ | ⟨r, s', heq, hr, -, hg₃, h₃⟩ <;> rw [heq]
  · exact .inl (ht.of_leads fun hk => hk.recover)
  · right
    have hpanicking : s'.panicking = false := hg₃.ready.panicking
    have hrecover : s'.recover = s' := by simp [Draft.recover, hpanicking]
    dsimp only
    rw [hrecover]
    exact ⟨l, ts, r, handlers, hl, hts, hr, hlegal,
      (hg₁.trans (hg₂.trans hg₃)).congr rfl rfl (by simp), h₃⟩

end Tour

/-- A state has read its name and its handlers, from behind its first word on. -/
def ReadsState (o o' : Outline) : Prop :=
  ∃ ts s, StateSpelling s (o.draft.previous :: ts) ∧ (∀ x ∈ s.handlers, x.body.Legal) ∧
    Gathered o ts [s.name] s.entries o'

/-- Behind `State` a state is read, or something is wrong. -/
theorem Tour.stateTail_or {words : List Token} {I : Outline → Prop} (T : Tour words I) (h : I o)
    (hwords : o.draft.previous :: o.draft.upcoming <:+ words)
    (hkind : o.draft.previous.kind = .state) :
    o.stateTail.draft.Troubled ∨ ReadsState o o.stateTail ∧ I o.stateTail := by
  rw [stateTail_eq]
  rcases T.expect_or h (k := .identifier) (by decide) .stateName with
    ⟨b, s, heq, ht⟩ | ⟨n, s, heq, hn, hprevious, hg₁, h₁⟩ <;> rw [heq]
  · left
    cases b with
    | false => exact ht.of_leads fun hk => hk.synchronize
    | true =>
      exact troubled_of_leads (o := { o with draft := s }) ht
        fun hk => hk.declareState.stateBrace _
  dsimp only
  rcases T.declareState_or h₁ with ht | ⟨hname, hg₂, h₂⟩
  · exact .inl (troubled_of_leads ht fun hk => hk.stateBrace _)
  rw [hname]
  dsimp only at hg₂ ⊢
  rw [hprevious] at hg₂ ⊢
  obtain ⟨before, hbefore⟩ := hwords
  rw [hg₁.upcoming, hg₂.upcoming] at hbefore
  refine (T.stateBrace_or h₂ hbefore.symm hkind hn).imp_right ?_
  rintro ⟨l, ts, r, handlers, hl, hts, hr, hlegal, hg₃, h₃⟩
  exact ⟨⟨n :: l :: (ts ++ [r]), ⟨n.lexeme, handlers⟩, .mk hkind hn hl hts hr, hlegal,
    hg₁.trans (hg₂.trans hg₃)⟩, h₃⟩

/-- A machine has read its states, from behind its first word on. -/
def ReadsMachine (o o' : Outline) : Prop :=
  ∃ ts name states, FileSpelling [.machine name states] (o.draft.previous :: ts) ∧
    (∀ s ∈ states, ∀ x ∈ s.handlers, x.body.Legal) ∧
    Gathered o ts (states.map (·.name)) (states.flatMap State.entries) o'

/-- The name of a machine changes the name of the script alone. -/
theorem Gathered.rename {ts : List Token} {names : List String}
    {handlers : List (String × Handler)} {o' : Outline} (h : Gathered o ts names handlers o')
    (name : Option String) : Gathered o ts names handlers { o' with name } where
  upcoming := h.upcoming
  ready := h.ready
  states := h.states
  distinct := h.distinct
  kept := h.kept
  found := h.found
  origin := h.origin
  fresh := h.fresh
  keys := h.keys
  declared := h.declared
  targets := h.targets

/-- A machine has one name or none, or something is wrong. -/
theorem machineName_or (h : o.draft.Ready) : o.machineName.draft.Troubled ∨
    ∃ ts, (ts = [] ∨ ∃ n, n.kind = .identifier ∧ ts = [n]) ∧
      Gathered o ts [] [] o.machineName := by
  unfold machineName
  rcases h.accept_or (k := .identifier) (by decide) with
    ⟨heq, -⟩ | ⟨s, heq, ht | ⟨n, hn, hw⟩⟩ <;> rw [heq]
  · exact .inr ⟨[], .inl rfl, .refl h⟩
  · exact .inl ht
  · exact .inr ⟨[n], .inr ⟨n, hn, rfl⟩, (Gathered.of_wrote hw).rename _⟩

namespace Tour

variable {words : List Token} {I : Outline → Prop} (T : Tour words I)
include T

/-- The body of a machine is a list of states, or something is wrong. -/
theorem machineBody_or (h : I o) (hsuffix : o.draft.upcoming <:+ words) :
    o.machineBody.draft.Troubled ∨ ∃ ts states, StatesSpelling states ts ∧
      (∀ s ∈ states, ∀ x ∈ s.handlers, x.body.Legal) ∧
      Gathered o ts (states.map (·.name)) (states.flatMap State.entries) o.machineBody ∧
      I o.machineBody := by
  fun_induction machineBody o with
  | case1 => exact .inr ⟨[], [], .nil, by simp, .refl (T.ready h), h⟩
  | case2 o hends hstate ih =>
    rcases T.advance_or h hstate (by decide) with ht | ⟨hk, hg₁, h₁⟩
    · exact .inl (troubled_of_leads ht fun hk => hk.stateTail.machineBody)
    have hwords := hsuffix
    rw [hg₁.upcoming] at hwords
    rcases T.stateTail_or h₁ hwords hk with ht | ⟨⟨ts, s, hts, hlegal, hg₂⟩, h₂⟩
    · exact .inl (troubled_of_leads ht fun hk => hk.machineBody)
    refine (ih h₂ ((hg₁.trans hg₂).suffix hsuffix)).imp_right ?_
    rintro ⟨us, states, hus, hlegals, hg₃, h₃⟩
    refine ⟨_, s :: states, .cons hts hus, ?_, (hg₁.trans (hg₂.trans hg₃)).congr rfl rfl rfl, h₃⟩
    intro s' hs'
    rcases List.mem_cons.1 hs' with rfl | hs'
    · exact hlegal
    · exact hlegals s' hs'
  | case3 o hends hstate ih =>
    left
    refine troubled_of_leads (o := { o with draft := o.draft.reportMissing .stateInMachine })
      ((T.ready h).troubled_report _ _) fun hk => Leads.machineBody ?_
    exact (Draft.Leads.advance hk).synchronize

/-- Behind `StateMachine` a machine is read, or something is wrong. -/
theorem machineTail_or (h : I o) (hsuffix : o.draft.upcoming <:+ words)
    (hkind : o.draft.previous.kind = .stateMachine) :
    o.machineTail.draft.Troubled ∨ ReadsMachine o o.machineTail ∧ I o.machineTail := by
  unfold machineTail
  rcases machineName_or (T.ready h) with ht | ⟨ns, hns, hg₁⟩
  · left
    have h₁ := troubled_of_leads ht fun hk => hk.expect .leftBrace .machineBrace
    split <;> rename_i heq <;> rw [heq] at h₁
    · exact troubled_of_leads h₁ fun hk => hk.synchronize
    · exact troubled_of_leads h₁ fun hk => hk.machineBody.expect ..
  have h₁ : I o.machineName := T.read h hg₁ fun _ hk hp => hk.machineName hp
  rcases T.expect_or h₁ (k := .leftBrace) (by decide) .machineBrace with
    ⟨b, s, heq, ht⟩ | ⟨l, s, heq, hl, -, hg₂, h₂⟩ <;> rw [heq]
  · left
    cases b with
    | false => exact ht.of_leads fun hk => hk.synchronize
    | true =>
      exact troubled_of_leads (o := { o.machineName with draft := s }) ht
        fun hk => hk.machineBody.expect ..
  dsimp only
  rcases T.machineBody_or h₂ ((hg₁.trans hg₂).suffix hsuffix) with
    ht | ⟨ts, states, hts, hlegal, hg₃, h₃⟩
  · exact .inl (troubled_of_leads ht fun hk => hk.expect ..)
  rcases T.expect_or h₃ (k := .rightBrace) (by decide) .machineEnd with
    ⟨b, s', heq, ht⟩ | ⟨r, s', heq, hr, -, hg₄, h₄⟩ <;> rw [heq]
  · exact .inl ht
  · have hall := (hg₁.trans (hg₂.trans (hg₃.trans hg₄))).congr rfl
      (List.append_nil _) (List.append_nil _)
    refine .inr ⟨?_, h₄⟩
    rcases hns with rfl | ⟨n, hn, rfl⟩
    · exact ⟨_, none, states, .machine hkind hl hts hr .nil, hlegal, hall⟩
    · exact ⟨_, some n.lexeme, states, .namedMachine hkind hn hl hts hr .nil, hlegal, hall⟩

/-- Compiling declarations finds something wrong or reads the declarations of the grammar, up to
where the source ends. -/
theorem declarations_or (h : I o) (hsuffix : o.draft.upcoming <:+ words) :
    o.declarations.draft.Troubled ∨ o.declarations.current.kind = .eof ∧
      (∃ ts f, FileSpelling f ts ∧ (∀ x ∈ f.handlers, x.2.body.Legal) ∧
        Gathered o ts (f.states.map (·.name)) f.handlers o.declarations) ∧
      I o.declarations := by
  fun_induction declarations o with
  | case1 o heof =>
    exact .inr ⟨heof,
      ⟨[], [], .nil, by simp [File.handlers, File.states], .refl (T.ready h)⟩, h⟩
  | case2 o heof hmachine ih =>
    -- What went wrong in a part is never forgotten behind it, so only the calm way is followed.
    rcases T.advance_or h hmachine (by decide) with ht | ⟨hk, hg₁, h₁⟩
    · exact .inl (troubled_of_leads ht fun hk => hk.machineTail.declarations)
    rcases T.machineTail_or h₁ (hg₁.suffix hsuffix) hk with
      ht | ⟨⟨ts, name, states, hts, hlegal, hg₂⟩, h₂⟩
    · exact .inl (troubled_of_leads ht fun hk => hk.declarations)
    refine (ih h₂ ((hg₁.trans hg₂).suffix hsuffix)).imp_right ?_
    rintro ⟨hend, ⟨us, f, hus, hlegals, hg₃⟩, h₃⟩
    refine ⟨hend, ⟨_, .machine name states :: f, FileSpelling.cons hts hus, ?_,
      (hg₁.trans (hg₂.trans hg₃)).congr rfl (by simp [File.states, Declaration.states])
        (by simp [File.handlers, File.states, Declaration.states])⟩, h₃⟩
    intro x hx
    simp only [File.handlers, File.states, List.flatMap_cons, Declaration.states,
      List.flatMap_append, List.mem_append] at hx
    rcases hx with hx | hx
    · obtain ⟨s, hs, hx⟩ := List.mem_flatMap.1 hx
      obtain ⟨y, hy, rfl⟩ := List.mem_map.1 hx
      exact hlegal s hs y hy
    · exact hlegals x hx
  | case3 o heof hmachine hstate ih =>
    rcases T.advance_or h hstate (by decide) with ht | ⟨hk, hg₁, h₁⟩
    · exact .inl (troubled_of_leads ht fun hk => hk.stateTail.declarations)
    have hwords := hsuffix
    rw [hg₁.upcoming] at hwords
    rcases T.stateTail_or h₁ hwords hk with ht | ⟨⟨ts, s, hts, hlegal, hg₂⟩, h₂⟩
    · exact .inl (troubled_of_leads ht fun hk => hk.declarations)
    refine (ih h₂ ((hg₁.trans hg₂).suffix hsuffix)).imp_right ?_
    rintro ⟨hend, ⟨us, f, hus, hlegals, hg₃⟩, h₃⟩
    refine ⟨hend, ⟨_, .state s :: f, .state hts hus, ?_,
      (hg₁.trans (hg₂.trans hg₃)).congr rfl (by simp [File.states, Declaration.states])
        (by simp [File.handlers, File.states, Declaration.states])⟩, h₃⟩
    intro x hx
    simp only [File.handlers, File.states, List.flatMap_cons, Declaration.states,
      List.flatMap_append, List.mem_append, List.flatMap_nil, List.append_nil] at hx
    rcases hx with hx | hx
    · obtain ⟨y, hy, rfl⟩ := List.mem_map.1 hx
      exact hlegal y hy
    · exact hlegals x hx
  | case4 o heof hmachine hstate ih =>
    left
    refine troubled_of_leads (o := { o with draft := o.draft.reportMissing .declaration })
      ((T.ready h).troubled_report _ _) fun hk => Leads.declarations ?_
    exact (Draft.Leads.advance hk).synchronize

end Tour

/-- Compiling declarations where nothing is wrong yet, with no property carried along. -/
theorem declarations_or (h : o.draft.Ready) : o.declarations.draft.Troubled ∨
    o.declarations.current.kind = .eof ∧ ∃ ts f, FileSpelling f ts ∧
      (∀ x ∈ f.handlers, x.2.body.Legal) ∧
      Gathered o ts (f.states.map (·.name)) f.handlers o.declarations :=
  ((tour_ready o.draft.upcoming).declarations_or h List.suffix_rfl).imp_right
    fun ⟨hend, hread, _⟩ => ⟨hend, hread⟩

end Outline

end EntityScript.Compile
