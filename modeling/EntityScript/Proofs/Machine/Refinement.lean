import EntityScript.Proofs.Bytecode.Compiled
import EntityScript.Proofs.Compile.Rendered
import EntityScript.Proofs.Machine.Statements

/-!
# Compiling keeps the meaning

Handlers that the machine runs from their code do what their trees say. `dispatchWith_like_directly`
says so of one handler, whose nested handlers may be any that are alike, and `nestedDispatcher_like`
of all depths at once. Scripts without a tree are run by the machine on both sides.
-/

namespace EntityScript

open Grammar Compile

variable {σ : Type} [Host σ]

/-- A tree of a script: valid declarations that its source spells. -/
def SourceTree (f : File) (script : Script) : Prop := ∃ file source,
  compile file source = .ok script ∧ FileSpelling f (Token.words source) ∧ Valid f

/-- A script has a tree exactly if it was compiled. -/
theorem exists_sourceTree_iff {script : Script} :
    (∃ f, SourceTree f script) ↔ script.Compiled := by
  constructor
  · rintro ⟨f, file, source, hcompile, -⟩
    exact ⟨file, source, hcompile⟩
  · rintro ⟨file, source, hcompile⟩
    obtain ⟨f, hts, hvalid, -⟩ := compile_represents hcompile
    exact ⟨f, file, source, hcompile, hts, hvalid⟩

/-- A script has the states, handlers and annotations of its tree. -/
theorem SourceTree.represents {f : File} {script : Script} (h : SourceTree f script) :
    Represents f script := by
  obtain ⟨file, source, hcompile, hts, hvalid⟩ := h
  exact represents_of_compile hcompile hts hvalid

/-- The tree of a handler belongs to the chunk of the handler. -/
theorem Represents.handler {f : File} {script : Script} (h : Represents f script)
    (state event : String) :
    (f.handler? state event = none ∧ script.handler? state event = none) ∨
      ∃ handler chunk, f.handler? state event = some handler ∧
        script.handler? state event = some chunk ∧
        Assembled (state ++ "." ++ event) handler.body chunk := by
  unfold File.handler?
  cases hfind : f.handlers.find? fun x => x.1 == state && x.2.event == event with
  | none =>
    refine .inl ⟨rfl, ?_⟩
    by_contra hsome
    obtain ⟨chunk, hchunk⟩ := Option.ne_none_iff_exists'.1 hsome
    obtain ⟨x, hx, hkey, -⟩ := h.origin state event chunk hchunk
    cases hkey
    have hnot := List.find?_eq_none.1 hfind x hx
    simp at hnot
  | some x =>
    have hkey := List.find?_some hfind
    simp only [Bool.and_eq_true, beq_iff_eq] at hkey
    obtain ⟨rfl, rfl⟩ := hkey
    obtain ⟨chunk, hchunk, hassembled⟩ := h.found x (List.mem_of_find?_eq_some hfind)
    exact .inr ⟨x.2, chunk, rfl, hchunk, hassembled⟩

/-- Running a handler comes to what performing its body comes to. -/
theorem Invocation.run_like_eval {i : Invocation} {nested nested' : Option (Dispatcher σ)}
    (hsteps : i.limits.steps = none) (hnested : NestedLike nested nested') {name : String}
    {body : Statement} (h : Assembled name body i.chunk) (c : Context) {r r' : Run σ}
    (hr : r.Like r') : (i.run nested c r).Limited r ∨ (i.run nested c r).Like
      ((body.eval (deliverDirectly i.limits nested' i.base) c r').ended name) := by
  have hfollows := body.follows hsteps hnested 0 _ c r r' h.holds.left rfl hr
  rw [← h.name]
  unfold run
  generalize i.execute nested 0 ⟨#[], c⟩ r = a at *
  generalize body.eval (deliverDirectly i.limits nested' i.base) c r' = p at *
  obtain ⟨result, c', r''⟩ := p
  rcases hfollows with (⟨offset, fault, hfault, hlimit⟩ | hhit) | ⟨r₁, -, hr₁, harrives⟩
  · obtain ⟨_, c₁, r₁⟩ := a
    cases hfault
    exact .inl (.inl ⟨_, rfl, hlimit⟩)
  · refine .inl (.inr ?_)
    obtain ⟨_ | ⟨offset, fault⟩, c₁, r₁⟩ := a <;> exact hhit
  · cases result with
    | error fault =>
      obtain ⟨offset, rfl⟩ := harrives
      exact .inr ⟨rfl, rfl, hr₁⟩
    | ok u =>
      obtain rfl : a = i.execute nested _ ⟨#[], c'⟩ r₁ := harrives
      rw [execute_held hsteps h.holds.right]
      exact .inr ⟨rfl, rfl, hr₁.after 1⟩

/-- The machine handles an event as the tree of the handler says. -/
theorem dispatchWith_like_directly {trees : Script → Option File}
    (htrees : ∀ script f, trees script = some f → SourceTree f script) {limits : Limits}
    (hsteps : limits.steps = none) {nested nested' : Option (Dispatcher σ)}
    (hnested : NestedLike nested nested') :
    Dispatcher.Like (dispatchWith limits nested) (handleDirectly trees limits nested') := by
  intro base c event args r r' hr
  unfold handleDirectly
  cases htree : trees c.definition.script with
  | none => exact dispatchWith_like hsteps hnested base c event args r r' hr
  | some f =>
    unfold dispatchWith
    rcases (htrees _ f htree).represents.handler c.state event with
      ⟨hnone, hnone'⟩ | ⟨handler, chunk, hsome, hsome', hassembled⟩
    · simp only [hnone, hnone']
      exact .inr ⟨rfl, rfl, hr⟩
    · simp only [hsome, hsome']
      exact (Invocation.run_like_eval (i := ⟨limits, base, chunk⟩) hsteps hnested hassembled
        (c.bindArguments args) hr).imp (·.handled c.bound) (·.handled c.bound)

/-- The same for all nested handlers, as deep as the machine lets them be. -/
theorem nestedDispatcher_like {trees : Script → Option File}
    (htrees : ∀ script f, trees script = some f → SourceTree f script) {limits : Limits}
    (hsteps : limits.steps = none) (allowed : ℕ) : ∀ depth, allowed ≤ depth →
      NestedLike (nestedDispatcher (σ := σ) limits allowed) (directly trees limits depth) := by
  induction allowed with
  | zero =>
    intro depth _ d h
    cases h
  | succ allowed ih =>
    rintro (_ | depth) hle d h
    · exact absurd hle (Nat.not_succ_le_zero allowed)
    · cases h
      have hnested := ih depth (Nat.le_of_succ_le_succ hle)
      exact ⟨dispatchWith_grows limits fun d hd => (hnested d hd).1, _, rfl,
        dispatchWith_like_directly htrees hsteps hnested⟩

/-- A bound of the stack or of the depth was met in a run of a machine, by the handler of the event
or by one nested in it. -/
def Outcome.MeetsBound {α : Type} (o : Outcome σ α) (m : Machine) : Prop :=
  (∃ report, o.result = .error report ∧ report.fault.Limit) ∨
    ∃ x ∈ o.machine.faults.toList.drop m.faults.size, x.fault.Limit

/-- Two outcomes are the same, up to the places of faults. -/
structure Outcome.Same {α : Type} (o : Outcome σ α) (e : Ended σ α) : Prop where
  result : o.result.mapError FaultReport.cause = e.result.mapError FaultReport.cause
  context : o.context = e.context
  host : o.host = e.run.host
  faults : o.machine.faults.toList.map FaultReport.cause
    = e.run.faults.toList.map FaultReport.cause

/-- Compiling keeps the meaning: without a bound on steps, and unless it meets another bound, the
machine handles an event as direct evaluation of the trees does. The context, the result and what
the host has become are the same, for every host, and so are the faults of nested handlers. -/
theorem dispatch_same_directly {trees : Script → Option File}
    (htrees : ∀ script f, trees script = some f → SourceTree f script) (m : Machine)
    (hsteps : m.limits.steps = none) (c : Context) (event : String) (args : Arguments) (host : σ)
    (hbounds : ¬ (m.dispatch c event args host).MeetsBound m) (depth : ℕ)
    (hdepth : m.limits.dispatchDepth - 1 ≤ depth) : (m.dispatch c event args host).Same
      (handleDirectly trees m.limits (directly trees m.limits depth) 0 c event args
        (m.begin host)) := by
  have hnested := nestedDispatcher_like (σ := σ) htrees hsteps _ depth hdepth
  have hlike := dispatchWith_like_directly htrees hsteps hnested 0 c event args (m.begin host) _
    (.refl (m.begin host))
  rcases hlike with hlimited | ⟨hresult, hcontext, hrun⟩
  · exact absurd hlimited hbounds
  · exact ⟨hresult, hcontext, hrun.host, hrun.causes⟩

/-- What the switch does when it is pressed. -/
def switchBody : Statement :=
  .seq (.branch (.and (.var "armed") (.binary .less (.var "n") (.literal (.number "3"))))
    (.seq (.evaluate (.assign "n" (.binary .add (.var "n") (.literal (.number "1")))))
      (.seq (.fire "press" (some (.named "bulb")) [("by", .var "n")]) .skip)) .skip) .skip

/-- The tree of the switch. -/
def switchTree : File := [.state ⟨"on", [⟨"press", switchBody⟩]⟩]

/-- The source of the switch spells its tree. -/
theorem switchTree_spelled : FileSpelling switchTree (Token.words switchSource) := by
  have hname : Name "n" [word "n"] := .plain (t := word "n") rfl (by decide)
  have hnumber (lexeme : String) :
      Phrase .factor (.literal (.number lexeme)) [⟨.number, lexeme, 1⟩] :=
    .number (t := ⟨.number, lexeme, 1⟩) rfl
  have harmed : Phrase .equality (.var "armed") [word "armed"] :=
    .var (.plain (t := word "armed") rfl (by decide))
  have hless : Phrase .and (.binary .less (.var "n") (.literal (.number "3"))) _ :=
    .binary (by decide) (.var hname) (o := mark .less) rfl ((hnumber "3").loosen (by decide))
  have hcount : Clause .statement
      (.evaluate (.assign "n" (.binary .add (.var "n") (.literal (.number "1"))))) _ :=
    .evaluate (.assign hname (q := mark .equal) rfl
      (.binary (by decide) (.var hname) (o := mark .plus) rfl (hnumber "1")))
      (z := mark .semicolon) rfl
  have hfire : Clause .statement (.fire "press" (some (.named "bulb")) [("by", .var "n")]) _ :=
    .fireWith (w := mark .fireEvent) rfl (l := mark .leftParen) rfl (n := word "press") rfl
      (.named (c := mark .comma) rfl (t := word "bulb") rfl)
      (.cons (c := mark .comma) rfl (n := word "by") rfl (q := mark .equal) rfl (.var hname) .nil)
      (r := mark .rightParen) rfl (z := mark .semicolon) rfl
  have hbranch := Clause.branch (w := mark .ifWord) rfl
    (.and (by decide) harmed (o := mark .andAnd) rfl hless) (l := mark .leftBrace) rfl
    (.next hcount (.next hfire .done)) (r := mark .rightBrace) rfl .nothing
  have hbody : Clause .body switchBody _ := .next (.conditional hbranch) .done
  have hfile : FileSpelling switchTree _ := fileSpelling_handlerTokens "on" "press" hbody
  convert hfile using 1
  decide +kernel

/-- The tree of the switch is valid. -/
theorem switchTree_valid : Valid switchTree := by
  refine valid_of_handler ?_ ?_ ?_ ?_ ?_
  · simp [switchBody, Statement.Legal, Expression.Legal, Literal.Legal, Target.Legal]
  · simp [switchBody, Statement.targets]
  · simp [switchBody, Statement.annotations]
  · decide +kernel
  · decide

/-- What the bulb does when it is pressed. -/
def bulbBody : Statement :=
  .seq (.change "lit") (.seq (.evaluate (.assign "level" (.binary .divide (.literal (.number "1"))
    (.binary .subtract (.var (Arguments.reservedName "by")) (.literal (.number "1")))))) .skip)

/-- The tree of the bulb. -/
def bulbTree : File := [.state ⟨"off", [⟨"press", bulbBody⟩]⟩, .state ⟨"lit", []⟩]

/-- The source of the bulb spells its tree. -/
theorem bulbTree_spelled : FileSpelling bulbTree (Token.words bulbSource) := by
  have hname : Name "level" [word "level"] := .plain (t := word "level") rfl (by decide)
  have hone {level : Level} : Phrase level (.literal (.number "1")) [⟨.number, "1", 1⟩] :=
    .number (t := ⟨.number, "1", 1⟩) rfl
  have hby {level : Level} : Phrase level (.var (Arguments.reservedName "by")) _ :=
    .var (.argument (a := word "args") rfl rfl (d := mark .dot) rfl (t := word "by") rfl)
  have hdivisor {level : Level} : Phrase level (.binary .subtract _ _) _ :=
    .group (l := mark .leftParen) rfl (.binary (by decide) hby (o := mark .minus) rfl hone)
      (r := mark .rightParen) rfl
  have hchange : Clause .statement (.change "lit") _ :=
    .change (w := mark .changeState) rfl (n := word "lit") rfl (z := mark .semicolon) rfl
  have hlevel : Phrase .assignment (.binary .divide (.literal (.number "1")) _) _ :=
    .binary (by decide) hone (o := mark .slash) rfl hdivisor
  have hassign := Clause.evaluate (.assign hname (q := mark .equal) rfl hlevel)
    (z := mark .semicolon) rfl
  have hpress : HandlerSpelling [⟨"press", bulbBody⟩] _ :=
    .cons (w := mark .onEvent) rfl (n := word "press") rfl (l := mark .leftBrace) rfl
      (.next hchange (.next hassign .done)) (r := mark .rightBrace) rfl .nil
  have hoff : StateSpelling ⟨"off", [⟨"press", bulbBody⟩]⟩ _ :=
    .mk (w := mark .state) rfl (n := word "off") rfl (l := mark .leftBrace) rfl hpress
      (r := mark .rightBrace) rfl
  have hlit : StateSpelling ⟨"lit", []⟩ _ :=
    .mk (w := mark .state) rfl (n := word "lit") rfl (l := mark .leftBrace) rfl .nil
      (r := mark .rightBrace) rfl
  have hfile : FileSpelling bulbTree _ := .state hoff (.state hlit .nil)
  convert hfile using 1
  decide +kernel

/-- The tree of the bulb is valid. -/
theorem bulbTree_valid : Valid bulbTree where
  inhabited := by decide
  states := by decide
  handlers := by decide
  targets := by decide
  legal := by simp [bulbTree, bulbBody, File.handlers, File.states, Declaration.states,
    State.entries, Statement.Legal, Expression.Legal, Literal.Legal]
  types := by simp [bulbTree, bulbBody, File.annotations, File.handlers, File.states,
    Declaration.states, State.entries, Statement.annotations]
  constants := by decide +kernel
  arguments := by simp [bulbTree, bulbBody, File.handlers, File.states, Declaration.states,
    State.entries, Statement.code, Expression.code]
  jumps := by simp [bulbTree, bulbBody, File.handlers, File.states, Declaration.states,
    State.entries, Statement.code, Expression.code]

/-- The trees of the switch and the bulb. Other scripts have none. -/
def roomTrees (script : Script) : Option File :=
  if script = switchScript then some switchTree
  else if script = bulbScript then some bulbTree
  else none

/-- The trees are those of the scripts. -/
theorem sourceTree_roomTrees {script : Script} {f : File} (h : roomTrees script = some f) :
    SourceTree f script := by
  unfold roomTrees at h
  split at h
  · rename_i heq
    cases h
    exact ⟨"switch", switchSource, heq ▸ switchSource_compiles, switchTree_spelled,
      switchTree_valid⟩
  · split at h
    · rename_i heq
      cases h
      exact ⟨"bulb", bulbSource, heq ▸ bulbSource_compiles, bulbTree_spelled, bulbTree_valid⟩
    · cases h

/-- Pressing an armed switch, by the code and by the trees. The bulb is lit and divides by zero, and
the switch goes on. -/
theorem dispatch_same_directly_switch :
    let o := (Machine.new {}).dispatch switchOn "press" .empty room
    o.result.toOption = some .handled ∧
      o.machine.faults.toList.map FaultReport.fault = [.divisionByZero] ∧
      (o.host.contexts.get? 1).map Context.state = some "lit" ∧
      o.Same (handleDirectly roomTrees {} (directly roomTrees {} 63) 0 switchOn "press" .empty
        ((Machine.new {}).begin room)) := by
  intro o
  have hresult : o.result.toOption = some .handled := by decide +kernel
  have hfaults : o.machine.faults.toList.map FaultReport.fault = [.divisionByZero] := by
    decide +kernel
  refine ⟨hresult, hfaults, by decide +kernel, dispatch_same_directly
    (fun _ _ => sourceTree_roomTrees) (Machine.new {}) rfl _ _ _ _ ?_ 63 (Nat.le_refl 63)⟩
  rintro (⟨report, herror, -⟩ | ⟨x, hx, hlimit⟩)
  · rw [herror] at hresult
    cases hresult
  · have hfault := List.mem_map_of_mem (f := FaultReport.fault) (List.mem_of_mem_drop hx)
    rw [hfaults, List.mem_singleton] at hfault
    rw [hfault] at hlimit
    exact hlimit

end EntityScript
