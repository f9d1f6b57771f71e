import EntityScript.Proofs.Compile.Prepared
import EntityScript.Proofs.Grammar.Framed

/-!
# Walking through declarations

How compiling gets from one handler of a source to the next does not depend on what is asked of the
handlers. A `Walk` is what is asked: what holds of an outline before declarations and of it and the
outline behind them, such that the first can be divided among the declarations and the second can be
put together. If it holds around every handler, then it does around a whole source
(`Walk.declarations`).
-/

namespace EntityScript.Compile.Outline

open Grammar Draft

/-- The kind of the next token is that of the first one to come. -/
theorem current_kind_eq (o : Outline) : o.current.kind = nextKind o.draft.upcoming :=
  Draft.current_kind _

/-- The head of a handler, by the two tokens that are next. -/
theorem handlerTail_eq {o : Outline} (hname : o.draft.sees .identifier = true)
    (hbrace : o.advance.draft.sees .leftBrace = true) (state : String) :
    o.handlerTail state =
      let event := o.advance.draft.previous.lexeme
      let made := handlerChunk o.advance.draft (state ++ "." ++ event)
      if made.2.diagnostics.size = o.draft.diagnostics.size then
        Outline.addHandler { o with draft := made.2 } state event made.1
      else { o with draft := made.2 } := by
  refine handlerTail_of_name ?_ hbrace state
  unfold eventName
  rw [Draft.accept, if_pos hname]
  rfl

/-- A state is declared once. -/
theorem declareState_of_not_mem {o : Outline} (h : o.draft.previous.lexeme ∉ o.states.toList) :
    o.declareState = (o.draft.previous.lexeme,
      { o with states := o.states.push o.draft.previous.lexeme }) := by
  unfold Outline.declareState
  dsimp only
  rw [if_neg (by simpa using h)]

/-- What is asked of declarations: before them, with the tokens, the names of the states and the
handlers that come, and behind them. -/
structure Walk (Block : Statement → List Token → List Token → Prop) where
  Before : Outline → List Token → List Token → List String → List (String × Handler) → Prop
  After : Outline → List Token → List String → List (String × Handler) → List Token → Outline → Prop
  /-- The tokens that are next. -/
  upcoming {o ts rest names handlers} (h : Before o ts rest names handlers) :
    o.draft.upcoming = ts ++ rest
  /-- Nothing is to be recovered from. -/
  panicking {o ts rest names handlers} (h : Before o ts rest names handlers) :
    o.draft.panicking = false
  refl {o rest} (h : Before o [] rest [] []) : After o [] [] [] [] o
  trans {o o₁ o₂ ts us names more handlers others xs ys} (h₁ : After o ts names handlers xs o₁)
    (h₂ : After o₁ us more others ys o₂) :
    After o (ts ++ us) (names ++ more) (handlers ++ others) (xs ++ ys) o₂
  /-- The first declarations can be compiled first. -/
  first {o ts us rest names more handlers others}
    (h : Before o (ts ++ us) rest (names ++ more) (handlers ++ others)) :
    Before o ts (us ++ rest) names handlers
  /-- The other declarations can be compiled behind the first ones. -/
  second {o o₁ ts us rest names more handlers others zs}
    (h : Before o (ts ++ us) rest (names ++ more) (handlers ++ others))
    (h₁ : After o ts names handlers zs o₁) : Before o₁ us rest more others
  /-- A token is read. -/
  advance {o t ts rest names handlers} (h : Before o (t :: ts) rest names handlers) :
    After o [t] [] [] [] o.advance ∧ o.advance.draft.previous = t
  /-- A state is declared. -/
  declareState {o ts rest} (h : Before o ts rest [o.draft.previous.lexeme] []) :
    o.declareState.1 = o.draft.previous.lexeme ∧
      After o [] [o.draft.previous.lexeme] [] [] o.declareState.2
  /-- A machine gives the script its name. -/
  rename {o o₁ ts names handlers zs} (h : After o ts names handlers zs o₁) (name : Option String) :
    After o ts names handlers zs { o₁ with name }
  /-- A handler is compiled. -/
  handlerTail {o rest state n l r body ts zs}
    (h : Before o (n :: l :: (ts ++ [r])) rest [] [(state, ⟨n.lexeme, body⟩)])
    (name : n.kind = .identifier) (opening : l.kind = .leftBrace) (block : Block body ts zs)
    (closing : r.kind = .rightBrace) :
    After o (n :: l :: (ts ++ [r])) [] [(state, ⟨n.lexeme, body⟩)] zs (o.handlerTail state)

namespace Walk

variable {Block : Statement → List Token → List Token → Prop} (W : Walk Block) {o : Outline}
  {t l r : Token} {ts us rest zs : List Token} {names : List String}
  {handlers : List (String × Handler)} {state : String} {hs : List Handler} {states : List State}

/-- The next token is the first of those that the walk is before. -/
theorem current (h : W.Before o (t :: ts) rest names handlers) : o.current = t := by
  simp [Outline.current, Draft.current, W.upcoming h]

/-- The first of the tokens that the walk is before is seen. -/
theorem sees (h : W.Before o (t :: ts) rest names handlers) {kind : Token.Kind}
    (hk : t.kind = kind) : o.draft.sees kind = true := by
  rw [Draft.sees, show o.draft.current = t from W.current h, hk]
  exact beq_self_eq_true kind

/-- The first of the tokens that the walk is before is as expected. -/
theorem expect (h : W.Before o (t :: ts) rest names handlers) {kind : Token.Kind}
    (hk : t.kind = kind) (wanted : Wanted) : o.expect kind wanted = (true, o.advance) := by
  unfold Outline.expect
  rw [Draft.expect, if_pos (W.sees h hk)]
  rfl

/-- The next token is read, and what follows it is next. -/
theorem reads (h : W.Before o (t :: ts) rest names handlers) : W.After o [t] [] [] [] o.advance ∧
    o.advance.draft.previous = t ∧ W.Before o.advance ts rest names handlers := by
  obtain ⟨ha, hprevious⟩ := W.advance h
  have h' : W.Before o ([t] ++ ts) rest ([] ++ names) ([] ++ handlers) := h
  exact ⟨ha, hprevious, W.second h' ha⟩

/-- The handlers of a state are walked through one after another. -/
theorem stateBody (hts : FramedHandlers Block hs ts zs) (hnext : nextKind rest = .rightBrace) :
    ∀ {o : Outline}, W.Before o ts rest [] (hs.map fun x => (state, x)) →
      W.After o ts [] (hs.map fun x => (state, x)) zs (o.stateBody state) := by
  induction hts with
  | nil =>
    intro o h
    have hends : endsState o.current.kind = true := by
      rw [current_kind_eq, W.upcoming h, List.nil_append, hnext]
      rfl
    rw [Outline.stateBody, dif_pos hends]
    exact W.refl h
  | @cons w n l r body ts us xs ys hs word name opening block closing _ ih =>
    intro o h
    have hkind : o.current.kind = .onEvent := by rw [W.current h, word]
    obtain ⟨ha₁, -, h₁⟩ := W.reads h
    have h₁' : W.Before o.advance ((n :: l :: (ts ++ [r])) ++ us) rest ([] ++ [])
        ([(state, ⟨n.lexeme, body⟩)] ++ hs.map fun x => (state, x)) := by simpa using h₁
    have ha₂ := W.handlerTail (W.first h₁') name opening block closing
    have ha₃ := ih (W.second h₁' ha₂)
    rw [Outline.stateBody, dif_neg (by rw [hkind]; decide), dif_pos hkind]
    simpa using W.trans ha₁ (W.trans ha₂ ha₃)

/-- A state is walked through from its opening to its closing brace. -/
theorem stateBrace (h : W.Before o (l :: (ts ++ [r])) rest [] (hs.map fun x => (state, x)))
    (hl : l.kind = .leftBrace) (hts : FramedHandlers Block hs ts zs) (hr : r.kind = .rightBrace) :
    W.After o (l :: (ts ++ [r])) [] (hs.map fun x => (state, x)) zs (o.stateBrace state) := by
  obtain ⟨ha₁, -, h₁⟩ := W.reads h
  have h₁' : W.Before o.advance (ts ++ [r]) rest ([] ++ [])
      ((hs.map fun x => (state, x)) ++ []) := by simpa using h₁
  have ha₂ := W.stateBody hts (show nextKind ([r] ++ rest) = .rightBrace from hr) (W.first h₁')
  have h₂ := W.second h₁' ha₂
  obtain ⟨ha₃, -, h₃⟩ := W.reads h₂
  have hbrace : o.stateBrace state = (o.advance.stateBody state).advance := by
    unfold Outline.stateBrace
    rw [W.expect h hl]
    dsimp only
    unfold closeState
    rw [W.expect h₂ hr]
    dsimp only [Draft.recover]
    rw [W.panicking h₃]
    rfl
  rw [hbrace]
  simpa using W.trans ha₁ (W.trans ha₂ ha₃)

/-- A state, from behind its first word on. -/
theorem stateTail {s : State} (hts : FramedState Block s (t :: ts) zs)
    (h : W.Before o ts rest [s.name] s.entries) :
    W.After o ts [s.name] s.entries zs o.stateTail := by
  cases hts with
  | @mk _ n l r hs us _ _ name opening inner closing =>
    obtain ⟨ha₁, hprevious, h₁⟩ := W.reads h
    have h₁' : W.Before o.advance ([] ++ (l :: (us ++ [r]))) rest
        ([o.advance.draft.previous.lexeme] ++ []) ([] ++ hs.map fun x => (n.lexeme, x)) := by
      rw [hprevious]
      exact h₁
    obtain ⟨hname, ha₂⟩ := W.declareState (W.first h₁')
    have ha₃ := W.stateBrace (W.second h₁' ha₂) opening inner closing
    rw [stateTail_eq, W.expect h name]
    dsimp only
    rw [hname]
    rw [hprevious] at ha₂ ⊢
    exact W.trans ha₁ (W.trans ha₂ ha₃)

/-- The states of a machine are walked through one after another. -/
theorem machineBody (hts : FramedStates Block states ts zs)
    (hnext : nextKind rest = .rightBrace) :
    ∀ {o : Outline}, W.Before o ts rest (states.map (·.name)) (states.flatMap State.entries) →
      W.After o ts (states.map (·.name)) (states.flatMap State.entries) zs o.machineBody := by
  induction hts with
  | nil =>
    intro o h
    have hends : o.current.kind = .rightBrace := by
      rw [current_kind_eq, W.upcoming h, List.nil_append, hnext]
    rw [Outline.machineBody, dif_pos (.inl hends)]
    exact W.refl h
  | @cons s states ts us xs ys head tail ih =>
    intro o h
    obtain ⟨w, vs, rfl, hkind⟩ := head.exists_cons
    obtain ⟨ha₁, -, h₁⟩ := W.reads h
    have h₁' : W.Before o.advance (vs ++ us) rest ([s.name] ++ states.map (·.name))
        (s.entries ++ states.flatMap State.entries) := h₁
    have ha₂ := W.stateTail head (W.first h₁')
    have ha₃ := ih (W.second h₁' ha₂)
    have hcurrent : o.current.kind = .state := by rw [W.current h, hkind]
    rw [Outline.machineBody, dif_neg (by rw [hcurrent]; decide), dif_pos hcurrent]
    exact W.trans ha₁ (W.trans ha₂ ha₃)

/-- A machine from its opening brace on, whatever its name is. -/
theorem machineTail (h : W.Before o.machineName (l :: (ts ++ [r])) rest (states.map (·.name))
      (states.flatMap State.entries)) (hl : l.kind = .leftBrace)
    (hts : FramedStates Block states ts zs) (hr : r.kind = .rightBrace) :
    W.After o.machineName (l :: (ts ++ [r])) (states.map (·.name))
      (states.flatMap State.entries) zs o.machineTail := by
  obtain ⟨ha₁, -, h₁⟩ := W.reads h
  have h₁' : W.Before o.machineName.advance (ts ++ [r]) rest (states.map (·.name) ++ [])
      (states.flatMap State.entries ++ []) := by simpa using h₁
  have ha₂ := W.machineBody hts (show nextKind ([r] ++ rest) = .rightBrace from hr) (W.first h₁')
  have h₂ := W.second h₁' ha₂
  obtain ⟨ha₃, -, -⟩ := W.reads h₂
  unfold Outline.machineTail
  rw [W.expect h hl]
  dsimp only
  rw [W.expect h₂ hr]
  simpa using W.trans ha₁ (W.trans ha₂ ha₃)

/-- What is asked of the handlers of a source holds of the source. -/
theorem declarations {f : File} (hts : FramedFile Block f ts zs) :
    ∀ {o : Outline}, W.Before o ts [] (f.states.map (·.name)) f.handlers →
      W.After o ts (f.states.map (·.name)) f.handlers zs o.declarations := by
  induction hts with
  | nil =>
    intro o h
    have hends : o.current.kind = .eof := by
      rw [current_kind_eq, W.upcoming h]
      rfl
    rw [Outline.declarations, dif_pos hends]
    exact W.refl h
  | @state s f ts us xs ys head tail ih =>
    intro o h
    obtain ⟨w, vs, rfl, hkind⟩ := head.exists_cons
    obtain ⟨ha₁, -, h₁⟩ := W.reads h
    have h₁' : W.Before o.advance (vs ++ us) [] ([s.name] ++ f.states.map (·.name))
        (s.entries ++ f.handlers) := by
      simpa [File.states, File.handlers, Declaration.states] using h₁
    have ha₂ := W.stateTail head (W.first h₁')
    have ha₃ := ih (W.second h₁' ha₂)
    have hcurrent : o.current.kind = .state := by rw [W.current h, hkind]
    rw [Outline.declarations, dif_neg (by rw [hcurrent]; decide),
      dif_neg (by rw [hcurrent]; decide), dif_pos hcurrent]
    simpa [File.states, File.handlers, Declaration.states] using W.trans ha₁ (W.trans ha₂ ha₃)
  | @machine w l r states f ts us xs ys word opening inner closing tail ih =>
    intro o h
    obtain ⟨ha₁, -, h₁⟩ := W.reads h
    have h₁' : W.Before o.advance ((l :: (ts ++ [r])) ++ us) []
        (states.map (·.name) ++ f.states.map (·.name))
        (states.flatMap State.entries ++ f.handlers) := by
      simpa [File.states, File.handlers, Declaration.states] using h₁
    have hbrace : nextKind o.advance.draft.upcoming ≠ .identifier := by
      rw [W.upcoming h₁]
      exact fun heq => absurd (opening.symm.trans heq) (by decide)
    have hname : o.advance.machineName = o.advance := by
      unfold machineName
      rw [accept_of_ne hbrace]
    have h₂ := W.first h₁'
    rw [← hname] at h₂
    have ha₂ := W.machineTail h₂ opening inner closing
    rw [hname] at ha₂
    have ha₃ := ih (W.second h₁' ha₂)
    have hcurrent : o.current.kind = .stateMachine := by rw [W.current h, word]
    rw [Outline.declarations, dif_neg (by rw [hcurrent]; decide), dif_pos hcurrent]
    simpa [File.states, File.handlers, Declaration.states] using W.trans ha₁ (W.trans ha₂ ha₃)
  -- The name of a machine is read like any token, and it is kept besides.
  | @namedMachine w n l r states f ts us xs ys word name opening inner closing tail ih =>
    intro o h
    obtain ⟨ha₁, -, h₁⟩ := W.reads h
    obtain ⟨ha₂, hprevious, h₂⟩ := W.reads h₁
    have hname : o.advance.machineName = { o.advance.advance with name := some n.lexeme } := by
      unfold machineName
      rw [Draft.accept, if_pos (W.sees h₁ name)]
      dsimp only
      rw [show o.advance.draft.advance.previous = n from hprevious]
      rfl
    have ha₂ := W.rename ha₂ (some n.lexeme)
    rw [← hname] at ha₂
    have h₁' : W.Before o.advance ([n] ++ ((l :: (ts ++ [r])) ++ us)) []
        ([] ++ (states.map (·.name) ++ f.states.map (·.name)))
        ([] ++ (states.flatMap State.entries ++ f.handlers)) := by
      simpa [File.states, File.handlers, Declaration.states] using h₁
    have h₂ := W.second h₁' ha₂
    have ha₃ := W.machineTail (W.first h₂) opening inner closing
    have ha₄ := ih (W.second h₂ ha₃)
    have hcurrent : o.current.kind = .stateMachine := by rw [W.current h, word]
    rw [Outline.declarations, dif_neg (by rw [hcurrent]; decide), dif_pos hcurrent]
    simpa [File.states, File.handlers, Declaration.states] using
      W.trans ha₁ (W.trans ha₂ (W.trans ha₃ ha₄))

end Walk

end EntityScript.Compile.Outline
