import EntityScript.Proofs.Compile.Keeping

/-!
# What the compiler does to a draft

Whatever the compiler does to a draft, it only reads on, reports problems, ends panics, and writes.
`Draft.Leads` says this of two drafts. The few things that it consists of are all that a draft is
asked for by `Draft.Keeping`, so every function of the compiler leads on. The problems found before,
for one, stay in front of those that are found later.

A draft with any problem therefore never leads to a script, so statements about what compiles may
assume at every place that nothing went wrong before.
-/

namespace EntityScript.Compile

namespace Draft

/-- A draft comes out of another by reading on, reporting, ending panics and writing. -/
inductive Leads (s₀ : Draft) : Draft → Prop
  | refl : Leads s₀ s₀
  | report {s : Draft} (h : Leads s₀ s) (line : ℕ) (problem : Problem) :
    Leads s₀ (s.report line problem)
  /-- A problem that a panic does not keep back. -/
  | note {s : Draft} (h : Leads s₀ s) (d : Diagnostic) :
    Leads s₀ { s with diagnostics := s.diagnostics.push d }
  | advance {s : Draft} (h : Leads s₀ s) : Leads s₀ s.advance
  | calm {s : Draft} (h : Leads s₀ s) : Leads s₀ { s with panicking := false }
  | write {s s' : Draft} (h : Leads s₀ s) (upcoming : s'.upcoming = s.upcoming)
    (diagnostics : s'.diagnostics = s.diagnostics) (panicking : s'.panicking = s.panicking) :
    Leads s₀ s'

variable {s₀ s : Draft}

/-- Given problems are the first that a draft has. -/
def Keeps (d : List Diagnostic) (s : Draft) : Prop := d <+: s.diagnostics.toList

/-- A draft keeps the problems that it has. -/
theorem keeps_self (s : Draft) : s.Keeps s.diagnostics.toList := List.prefix_rfl

/-- Reporting keeps the problems found before. -/
theorem Keeps.report {d : List Diagnostic} (h : s.Keeps d) (line : ℕ) (problem : Problem) :
    (s.report line problem).Keeps d := by
  unfold Draft.report
  split
  · exact h
  · exact h.trans (by simp)

/-- Passing unreadable tokens keeps the problems found before. -/
theorem Keeps.settle {d : List Diagnostic} (h : s.Keeps d) (tokens : List Token) :
    (s.settle tokens).Keeps d :=
  settle_of_skip (fun s _ _ h => Keeps.report (s := s) h _ _) h

/-- What was found before stays in front. -/
theorem Leads.keeps {d : List Diagnostic} (h : s₀.Leads s) (hd : s₀.Keeps d) : s.Keeps d := by
  induction h with
  | refl => exact hd
  | report _ line problem ih => exact ih.report line problem
  | note _ d ih => exact ih.trans (by simp)
  | @advance s _ ih => exact Keeps.settle (s := { s with previous := s.current }) ih _
  | calm _ ih => exact ih
  | write _ _ hdiagnostics _ ih =>
    rw [Keeps, hdiagnostics]
    exact ih

/-- To come out of a given draft is a property that compiling keeps. -/
theorem leads_keeping (s₀ : Draft) : Keeping (Leads s₀) (Leads s₀) where
  loosen h := h
  advance h := h.advance
  reportMissing h _ := h.report ..
  reportPrevious h _ := h.report ..
  calm h := h.calm
  emit h _ := h.write rfl rfl rfl
  pool h _ := h.write rfl rfl rfl
  patch h _ _ := h.write rfl rfl rfl
  declare h _ := h.write rfl rfl rfl
  noteTarget h := h.write rfl rfl rfl

/-- A report at the token read last leads on. -/
theorem Leads.reportPrevious (h : s₀.Leads s) (problem : Problem) :
    s₀.Leads (s.reportPrevious problem) :=
  h.report ..

/-- A report about a missing token leads on. -/
theorem Leads.reportMissing (h : s₀.Leads s) (wanted : Wanted) :
    s₀.Leads (s.reportMissing wanted) :=
  h.report ..

/-- Accepting a token leads on. -/
theorem Leads.accept (h : s₀.Leads s) (kind : Token.Kind) : s₀.Leads (s.accept kind).2 :=
  (leads_keeping s₀).accept h kind

/-- Expecting a token leads on. -/
theorem Leads.expect (h : s₀.Leads s) (kind : Token.Kind) (wanted : Wanted) :
    s₀.Leads (s.expect kind wanted).2 :=
  (leads_keeping s₀).expect h kind wanted

/-- Synchronizing leads on. -/
theorem Leads.synchronize (h : s₀.Leads s) : s₀.Leads s.synchronize :=
  (leads_keeping s₀).synchronize h

/-- Recovering leads on. -/
theorem Leads.recover (h : s₀.Leads s) : s₀.Leads s.recover := (leads_keeping s₀).recover h

/-- Writing an instruction leads on. -/
theorem Leads.emit (h : s₀.Leads s) (i : Instruction) : s₀.Leads (s.emit i) :=
  (leads_keeping s₀).emit h i

/-- Interning a name leads on. -/
theorem Leads.internName (h : s₀.Leads s) (name : String) : s₀.Leads (s.internName name).2 :=
  (leads_keeping s₀).internName h name

/-- Writing a constant leads on. -/
theorem Leads.emitConstant (h : s₀.Leads s) (v : Value) : s₀.Leads (s.emitConstant v) :=
  (leads_keeping s₀).emitConstant h v

/-- Patching a jump leads on. -/
theorem Leads.patchJump (h : s₀.Leads s) (operand : ℕ) : s₀.Leads (s.patchJump operand) :=
  (leads_keeping s₀).patchJump h operand

/-- Beginning a branch leads on. -/
theorem Leads.beginBranch (h : s₀.Leads s) : s₀.Leads s.beginBranch.2 :=
  (leads_keeping s₀).beginBranch h

/-- Switching to the other branch leads on. -/
theorem Leads.switchBranch (h : s₀.Leads s) (otherwise : ℕ) :
    s₀.Leads (s.switchBranch otherwise).2 :=
  (leads_keeping s₀).switchBranch h otherwise

/-- A literal may be wrong in any way. -/
theorem Leads.emitLiteral (h : s₀.Leads s) (v : Except Problem Value) :
    s₀.Leads (s.emitLiteral v) := by
  cases v with
  | ok v => exact h.emitConstant v
  | error problem => exact h.reportPrevious problem

/-- What remains to be done at a level leads on. -/
theorem Leads.closeAt (h : s₀.Leads s) (level : Level) : s₀.Leads (Draft.closeAt level s) :=
  (leads_keeping s₀).closeAt h level

/-- An operand leads on from behind its first token. -/
theorem Leads.operand (h : s₀.Leads s) {o : Operand}
    (ho : Operand.ofKind? s.previous.kind = some o) (b : Bool) :
    s₀.Leads (Draft.operand o b s).1 :=
  (leads_keeping s₀).operand h ho b

/-- A chain of operators leads on. -/
theorem Leads.continuations (h : s₀.Leads s) (level : Level) :
    s₀.Leads (Draft.continuations level s).1 :=
  (leads_keeping s₀).continuations h level

/-- One operator with what belongs to it leads on. -/
theorem Leads.continuation (h : s₀.Leads s) (c : Continuation) :
    s₀.Leads (Draft.continuation c s).1 :=
  (leads_keeping s₀).continuation h c

/-- An expression leads on. -/
theorem Leads.expression (h : s₀.Leads s) : s₀.Leads s.expression :=
  (leads_keeping s₀).expression h

/-- Noting the annotation of a variable leads on. -/
theorem Leads.annotate (h : s₀.Leads s) (name : String) : s₀.Leads (s.annotate name).2 :=
  (leads_keeping s₀).annotate h name

/-- An annotation leads on, whether there is one or not. -/
theorem Leads.annotation (h : s₀.Leads s) (name : String) : s₀.Leads (s.annotation name).2 :=
  Keeping.annotation (leads_keeping s₀) h name

/-- What a variable begins with leads on. -/
theorem Leads.initialValue (h : s₀.Leads s) (type : Option ValueType) :
    s₀.Leads (s.initialValue type) :=
  (leads_keeping s₀).initialValue h type

/-- A variable leads on from behind its first word. -/
theorem Leads.varTail (h : s₀.Leads s) : s₀.Leads s.varTail := (leads_keeping s₀).varTail h

/-- One argument of an event leads on. -/
theorem Leads.argument (h : s₀.Leads s) (a : EventOperands) : s₀.Leads (Draft.argument a s).2 :=
  (leads_keeping s₀).argument h a

/-- The arguments of an event lead on. -/
theorem Leads.arguments (h : s₀.Leads s) (a : EventOperands) :
    s₀.Leads (Draft.arguments a s).2 :=
  (leads_keeping s₀).arguments h a

/-- The list of arguments leads on. -/
theorem Leads.argumentList (h : s₀.Leads s) (parenthesized : Bool) :
    s₀.Leads (Draft.argumentList parenthesized s).2 :=
  (leads_keeping s₀).argumentList h parenthesized

/-- Firing an event leads on from behind the parenthesis. -/
theorem Leads.fireName (h : s₀.Leads s) (parenthesized : Bool) :
    s₀.Leads (Draft.fireName parenthesized s) :=
  (leads_keeping s₀).fireName h parenthesized

/-- Firing an event leads on from behind its first word. -/
theorem Leads.fireTail (h : s₀.Leads s) : s₀.Leads s.fireTail := (leads_keeping s₀).fireTail h

/-- The parenthesis that closes the name of a state leads on. -/
theorem Leads.closeName (h : s₀.Leads s) (parenthesized : Bool) :
    s₀.Leads (Draft.closeName parenthesized s).2 :=
  (leads_keeping s₀).closeName h parenthesized

/-- Noting a change of state leads on. -/
theorem Leads.noteTarget (h : s₀.Leads s) : s₀.Leads s.noteTarget :=
  (leads_keeping s₀).noteTarget h

/-- A change of state leads on from behind the parenthesis. -/
theorem Leads.changeName (h : s₀.Leads s) (parenthesized : Bool) :
    s₀.Leads (Draft.changeName parenthesized s) :=
  (leads_keeping s₀).changeName h parenthesized

/-- A change of state leads on from behind its first word. -/
theorem Leads.changeTail (h : s₀.Leads s) : s₀.Leads s.changeTail :=
  (leads_keeping s₀).changeTail h

/-- A block leads on from behind its opening brace. -/
theorem Leads.blockBody (h : s₀.Leads s) : s₀.Leads s.blockBody.1 :=
  (leads_keeping s₀).blockBody h

/-- A conditional statement leads on from behind its first word. -/
theorem Leads.ifTail (h : s₀.Leads s) : s₀.Leads s.ifTail.1 := (leads_keeping s₀).ifTail h

/-- The other branch leads on, whether there is one or not. -/
theorem Leads.elseTail (h : s₀.Leads s) : s₀.Leads s.elseTail.1 := (leads_keeping s₀).elseTail h

end Draft

namespace Outline

variable {o₀ o : Outline}

/-- The draft of an outline comes out of that of another. -/
def Leads (o₀ o : Outline) : Prop := o₀.draft.Leads o.draft

/-- To come out of the draft of a given outline is a property that compiling keeps. -/
theorem leads_keeping (s₀ : Draft) : Keeping (Draft.Leads s₀) (Draft.Leads s₀) :=
  .of_write (Draft.leads_keeping s₀) (fun h _ => h.write rfl rfl rfl) fun h _ _ _ => h.note _

/-- Expecting a token in the outline leads on. -/
theorem Leads.expect (h : o₀.Leads o) (kind : Token.Kind) (wanted : Wanted) :
    o₀.Leads (o.expect kind wanted).2 :=
  Draft.Leads.expect h kind wanted

/-- Synchronizing between declarations leads on. -/
theorem Leads.synchronize (h : o₀.Leads o) : o₀.Leads o.synchronize := Draft.Leads.synchronize h

/-- The chunk of a handler leads on to the draft behind its block. -/
theorem leads_handlerChunk {s₀ s : Draft} (h : s₀.Leads s) (name : String) :
    s₀.Leads (handlerChunk s name).2 := by
  have hbegun : s₀.Leads { s with chunk := .empty name } := h.write rfl rfl rfl
  exact hbegun.advance.blockBody.write rfl rfl rfl

/-- Filing a handler leads on, also where its event has one already. -/
theorem Leads.addHandler (h : o₀.Leads o) (state event : String) (chunk : Chunk) :
    o₀.Leads (o.addHandler state event chunk) := by
  unfold Outline.addHandler
  dsimp only
  split
  · exact Draft.Leads.note h _
  · exact h

/-- A handler leads on from behind its first word. -/
theorem Leads.handlerTail (h : o₀.Leads o) (state : String) : o₀.Leads (o.handlerTail state) :=
  (leads_keeping o₀.draft).handlerTail h state

/-- The handlers of a state lead on. -/
theorem Leads.stateBody (h : o₀.Leads o) (state : String) : o₀.Leads (o.stateBody state) :=
  (leads_keeping o₀.draft).stateBody h state

/-- Declaring a state leads on. -/
theorem Leads.declareState (h : o₀.Leads o) : o₀.Leads o.declareState.2 :=
  (leads_keeping o₀.draft).declareState h

/-- Closing a state leads on. -/
theorem Leads.closeState (h : o₀.Leads o) : o₀.Leads o.closeState :=
  (leads_keeping o₀.draft).closeState h

/-- A state leads on from its opening brace. -/
theorem Leads.stateBrace (h : o₀.Leads o) (state : String) : o₀.Leads (o.stateBrace state) :=
  (leads_keeping o₀.draft).stateBrace h state

/-- A state leads on from behind its first word. -/
theorem Leads.stateTail (h : o₀.Leads o) : o₀.Leads o.stateTail :=
  (leads_keeping o₀.draft).stateTail h

/-- The states of a machine lead on. -/
theorem Leads.machineBody (h : o₀.Leads o) : o₀.Leads o.machineBody :=
  (leads_keeping o₀.draft).machineBody h

/-- A machine leads on from behind its first word. -/
theorem Leads.machineTail (h : o₀.Leads o) : o₀.Leads o.machineTail :=
  (leads_keeping o₀.draft).machineTail h

/-- The declarations of a source lead on. -/
theorem Leads.declarations (h : o₀.Leads o) : o₀.Leads o.declarations :=
  (leads_keeping o₀.draft).declarations h

/-- Requiring a state leads on. -/
theorem Leads.requireStates (h : o₀.Leads o) : o₀.Leads o.requireStates :=
  (leads_keeping o₀.draft).requireStates h

end Outline

end EntityScript.Compile
