import EntityScript.Machine.Queue
import EntityScript.Proofs.Machine.Operands
import Mathlib.Data.Nat.Notation

/-!
# Reissued scripts

A run looks at the states, the handlers and the annotations of a script, and at nothing else of its
edition: neither at its path nor at the number by which it is told from others. So if all contexts
move to other editions of the same (`Edition.Reissue`), in the hands of handlers and of the host,
then everything goes on as it would have, and the contexts that are left are the moved ones of
those that would have been left.
-/

namespace EntityScript

/-- Editions are replaced by others with the same states, handlers and annotations. -/
structure Edition.Reissue (swap : Edition → Edition) : Prop where
  states : ∀ d, (swap d).script.states = d.script.states
  handlers : ∀ d, (swap d).script.handlers = d.script.handlers
  declared : ∀ d, (swap d).script.declared = d.script.declared

/-- A context on the edition that replaces its own. -/
def Context.reissue (swap : Edition → Edition) (c : Context) : Context :=
  { c with definition := swap c.definition }

variable {swap : Edition → Edition}

namespace Edition.Reissue

variable (h : Edition.Reissue swap)

include h

/-- The handlers of a reissued edition are those of the edition. -/
theorem handler? (d : Edition) (state event : String) :
    (swap d).script.handler? state event = d.script.handler? state event := by
  rw [Script.handler?, Script.handler?, h.handlers]

/-- The states of a reissued edition are those of the edition. -/
theorem hasState (d : Edition) (state : String) :
    (swap d).script.hasState state = d.script.hasState state := by
  rw [Script.hasState, Script.hasState, h.states]

/-- The variables of a reissued context are those of the context. -/
theorem read (c : Context) (name : String) : (c.reissue swap).read name = c.read name := by
  change (c.get? name).getD ((swap c.definition).script.unset name) = _
  rw [Script.unset, h.declared]
  rfl

/-- A reissued context changes its state as the context does. -/
theorem changeState (c : Context) (state : String) :
    (c.reissue swap).changeState state = (c.changeState state).map (Context.reissue swap) := by
  unfold Context.changeState
  have hstate : (c.reissue swap).definition.script.hasState state
      = c.definition.script.hasState state := h.hasState c.definition state
  rw [hstate]
  split <;> rfl

/-- A context is made of a reissued edition as of the edition. -/
theorem new (d : Edition) (state : String) :
    Context.new (swap d) state = (Context.new d state).map (Context.reissue swap) := by
  unfold Context.new
  rw [h.hasState]
  split <;> rfl

end Edition.Reissue

/-- A frame on the edition that replaces that of its context. -/
def Frame.reissue (swap : Edition → Edition) (f : Frame) : Frame :=
  ⟨f.stack, f.context.reissue swap⟩

namespace InPlace

variable {α : Type}

/-- What some work comes to, on other editions. -/
def reissue (swap : Edition → Edition) :
    EStateM.Result Fault Frame α → EStateM.Result Fault Frame α
  | .ok a f => .ok a (f.reissue swap)
  | .error fault f => .error fault (f.reissue swap)

/-- The second work does on other editions what the first does. -/
def Reissues (swap : Edition → Edition) {α : Type} (w w' : InPlace α) : Prop :=
  ∀ f : Frame, w' (f.reissue swap) = reissue swap (w f)

/-- Operands are reached in the same way on other editions. -/
theorem alike_reissues (h : Edition.Reissue swap) (i : Invocation) :
    (Operands.own i).Alike (Reissues swap) (Operands.own i) where
  done a f := rfl
  lift x f := by cases x <;> rfl
  bind {α β w w' next next'} first rest f := by
    simp only [bind, EStateM.bind]
    rw [first f]
    cases w f with
    | ok a f' => exact rest a f'
    | error fault f' => rfl
  read name f := by
    change EStateM.Result.ok ((f.context.reissue swap).read name) _ = _
    rw [h.read]
    rfl
  assign name v f := rfl
  enter state f := by
    have hchange : (f.reissue swap).context.changeState state
        = (f.context.changeState state).map (Context.reissue swap) := h.changeState ..
    unfold enter
    rw [hchange]
    cases f.context.changeState state <;> rfl
  take f := by
    unfold Operands.own take Frame.reissue
    dsimp only
    cases f.stack.back? <;> rfl
  top f := by
    unfold Operands.own top Frame.reissue
    dsimp only
    cases f.stack.back? <;> rfl
  put v f := by
    unfold Operands.own put Frame.reissue
    dsimp only
    split <;> rfl

end InPlace

/-- An instruction does on another edition what it does. -/
theorem Edition.Reissue.perform (h : Edition.Reissue swap) (i : Invocation) (f : Frame)
    (x : Instruction) : i.perform (f.reissue swap) x
      = (i.perform f x).map fun done => (done.1, done.2.reissue swap) := by
  have hwork := (InPlace.alike_reissues h i).work (Eq.refl i.chunk) x f
  rw [Operands.work_own] at hwork
  rw [← InPlace.outcome_work, ← InPlace.outcome_work, InPlace.outcome, hwork, InPlace.outcome]
  cases InPlace.work i x f <;> rfl

/-- The contexts of a host move to other editions, and nothing else of it changes. -/
structure Host.Reissues (σ : Type) [Host σ] (swap : Edition → Edition) (move : σ → σ) : Prop where
  fire : ∀ (host : σ) event args,
    Host.fire (move host) event args = move (Host.fire host event args)
  resolve : ∀ (host : σ) name, Host.resolve (move host) name = Host.resolve host name
  take : ∀ (host : σ) id, Host.take (move host) id
    = ((Host.take host id).1.map (Context.reissue swap), move (Host.take host id).2)
  giveBack : ∀ (host : σ) id c,
    Host.giveBack (move host) id (c.reissue swap) = move (Host.giveBack host id c)
  hasScript : ∀ (host : σ) id, Host.hasScript (move host) id = Host.hasScript host id

variable {σ : Type} {move : σ → σ}

/-- What handlers share, with another host. -/
def Run.rehost (move : σ → σ) (r : Run σ) : Run σ := { r with host := move r.host }

/-- What became of a handler, on other editions. -/
def Ended.reissue {α : Type} (swap : Edition → Edition) (move : σ → σ) (e : Ended σ α) :
    Ended σ α :=
  ⟨e.result, e.context.reissue swap, e.run.rehost move⟩

/-- What became of a run, on other editions. -/
def Outcome.reissue {α : Type} (swap : Edition → Edition) (move : σ → σ) (o : Outcome σ α) :
    Outcome σ α :=
  { o with context := o.context.reissue swap, host := move o.host }

/-- What became of queued events, on other editions. -/
def Drained.rehost (move : σ → σ) (d : Drained σ) : Drained σ := { d with host := move d.host }

/-- Noting a fault does not depend on the host. -/
theorem Run.rehost_note {α : Type} (r : Run σ) (result : Except FaultReport α) :
    (r.rehost move).note result = (r.note result).rehost move := by
  cases result <;> rfl

/-- Events are handled on other editions as they are. -/
def Dispatcher.Reissues (swap : Edition → Edition) (move : σ → σ) (d : Dispatcher σ) : Prop :=
  ∀ base c event args r, d base (c.reissue swap) event args (r.rehost move)
    = (d base c event args r).reissue swap move

namespace Invocation

variable [Host σ] {i : Invocation} {nested : Option (Dispatcher σ)}

omit [Host σ] in
/-- Counting an instruction does not depend on the host. -/
theorem beginStep_rehost (i : Invocation) (r : Run σ) :
    i.beginStep (r.rehost move) = ((i.beginStep r).1, (i.beginStep r).2.rehost move) := by
  unfold beginStep
  dsimp only [Run.rehost]
  cases i.limits.steps with
  | none => rfl
  | some limit =>
    dsimp only
    by_cases hlimit : limit < r.steps + 1
    · rw [if_pos hlimit, if_pos hlimit]
    · rw [if_neg hlimit, if_neg hlimit]

omit [Host σ] in
/-- A nested handler does the same on other editions. -/
theorem nest_reissue {d : Dispatcher σ} (hd : d.Reissues swap move) (event : Event)
    (stack : Array Value) (c : Context) (r : Run σ) :
    i.nest d event stack (c.reissue swap) (r.rehost move)
      = ((i.nest d event stack c r).1.reissue swap, (i.nest d event stack c r).2.rehost move) := by
  unfold nest
  rw [hd]
  dsimp only [Ended.reissue]
  rw [Run.rehost_note]

variable (hmove : Host.Reissues σ swap move) (hnested : ∀ d ∈ nested, d.Reissues swap move)

include hmove hnested

/-- An event is delivered in the same way on other editions. -/
theorem deliver_reissue (event : Event) (f : Frame) (r : Run σ) :
    i.deliver nested event (f.reissue swap) (r.rehost move)
      = ((i.deliver nested event f r).1, (i.deliver nested event f r).2.1.reissue swap,
        (i.deliver nested event f r).2.2.rehost move) := by
  unfold deliver
  cases event.target with
  | none =>
    dsimp only [Run.rehost]
    rw [hmove.fire]
  | some target =>
  unfold deliverTo
  dsimp only [Run.rehost, Frame.reissue]
  rw [hmove.resolve]
  cases Host.resolve r.host target with
  | none => rfl
  | some id =>
  cases nested with
  | none => rfl
  | some d =>
  have hd := hnested d rfl
  by_cases hown : f.context.owner = some id
  · have hown' : (f.context.reissue swap).owner = some id := hown
    have hnest := nest_reissue (i := i) hd event f.stack f.context r
    dsimp only [Run.rehost] at hnest ⊢
    rw [if_pos hown]
    refine (if_pos hown').trans ?_
    rw [hnest]
  · have hown' : ¬ (f.context.reissue swap).owner = some id := hown
    dsimp only
    rw [if_neg hown]
    refine (if_neg hown').trans ?_
    rw [hmove.take]
    cases htaken : Host.take r.host id with
    | mk lent host =>
    cases lent with
    | some c =>
      have hnest := nest_reissue (i := i) hd event f.stack c { r with host }
      dsimp only [Run.rehost] at hnest
      dsimp only [Option.map]
      rw [hnest]
      dsimp only
      rw [hmove.giveBack]
    | none =>
      dsimp only [Option.map]
      rw [hmove.hasScript]
      split <;> rfl

/-- Code is executed in the same way on other editions. -/
theorem execute_reissue (h : Edition.Reissue swap) (offset : ℕ) (f : Frame) (r : Run σ) :
    i.execute nested offset (f.reissue swap) (r.rehost move)
      = ((i.execute nested offset f r).1, (i.execute nested offset f r).2.1.reissue swap,
        (i.execute nested offset f r).2.2.rehost move) := by
  induction hleft : i.chunk.size - offset using Nat.strongRecOn generalizing offset f r with
  | _ left ih =>
  subst hleft
  rw [execute, execute.eq_def i nested offset f r]
  by_cases hin : offset < i.chunk.size
  · rw [dif_pos hin, dif_pos hin, beginStep_rehost]
    cases i.beginStep r with
    | mk begun r =>
    cases begun with
    | error fault => rfl
    | ok u =>
    dsimp only
    cases i.chunk.fetch offset hin with
    | truncated op => rfl
    | unknown byte => rfl
    | instruction x =>
    have hpos := x.size_pos
    dsimp only
    rw [h.perform]
    cases i.perform f x with
    | error fault => rfl
    | ok done =>
    obtain ⟨flow, f⟩ := done
    cases flow with
    | finish => rfl
    | forward distance => exact ih _ (by omega) _ f r rfl
    | fire event =>
      dsimp only [Except.map]
      rw [deliver_reissue hmove hnested]
      cases i.deliver nested event f r with
      | mk delivered after =>
      cases delivered with
      | error fault => rfl
      | ok u => exact ih _ (by omega) _ after.1 after.2 rfl
  · rw [dif_neg hin, dif_neg hin]
    rfl

/-- Code is run in the same way on other editions. -/
theorem run_reissue (h : Edition.Reissue swap) (c : Context) (r : Run σ) :
    i.run nested (c.reissue swap) (r.rehost move) = (i.run nested c r).reissue swap move := by
  unfold run
  have hexecute := execute_reissue (i := i) hmove hnested h 0 ⟨#[], c⟩ r
  dsimp only [Frame.reissue] at hexecute
  rw [hexecute]
  cases i.execute nested 0 ⟨#[], c⟩ r with
  | mk fault after => cases fault <;> rfl

end Invocation

section Dispatch

variable [Host σ] (h : Edition.Reissue swap) (hmove : Host.Reissues σ swap move)

include h hmove

/-- Dispatching is the same on other editions, if it is for nested events. -/
theorem dispatchWith_reissue (limits : Limits) {nested : Option (Dispatcher σ)}
    (hnested : ∀ d ∈ nested, d.Reissues swap move) :
    Dispatcher.Reissues swap move (dispatchWith limits nested) := by
  intro base c event args r
  unfold dispatchWith
  have hhandler : (c.reissue swap).definition.script.handler? (c.reissue swap).state event
      = c.definition.script.handler? c.state event := h.handler? c.definition c.state event
  rw [hhandler]
  cases c.definition.script.handler? c.state event with
  | none => rfl
  | some chunk =>
    have hbind : (c.reissue swap).bindArguments args = (c.bindArguments args).reissue swap := rfl
    dsimp only
    rw [hbind, Invocation.run_reissue hmove hnested h]
    rfl

/-- However deep events are nested, they are handled in the same way on other editions. -/
theorem nestedDispatcher_reissue (limits : Limits) (depth : ℕ) :
    ∀ d ∈ (nestedDispatcher limits depth : Option (Dispatcher σ)), d.Reissues swap move := by
  induction depth with
  | zero => exact nofun
  | succ depth ih =>
    rintro d hd
    obtain rfl := Option.some.inj hd
    exact dispatchWith_reissue h hmove limits ih

/-- An event is handled on other editions as it is. -/
theorem Machine.dispatch_reissue (m : Machine) (c : Context) (event : String) (args : Arguments)
    (host : σ) : m.dispatch (c.reissue swap) event args (move host)
      = (m.dispatch c event args host).reissue swap move := by
  have hdispatch := dispatchWith_reissue h hmove m.limits
    (nestedDispatcher_reissue h hmove m.limits (m.limits.dispatchDepth - 1)) 0 c event args
    (m.begin host)
  unfold Machine.dispatch
  change m.finish (dispatchWith m.limits (outermostDispatcher m.limits) 0 (c.reissue swap) event
    args ((m.begin host).rehost move)) = _
  rw [outermostDispatcher, hdispatch]
  rfl

/-- A queued event is handled in the same way on other editions. -/
theorem EventQueue.handle_reissue (d : Drained σ) (e : QueuedEvent) :
    EventQueue.handle (d.rehost move) e = (EventQueue.handle d e).rehost move := by
  unfold EventQueue.handle
  dsimp only [Drained.rehost]
  rw [hmove.take]
  cases Host.take d.host e.target with
  | mk lent host =>
  cases lent with
  | none => rfl
  | some c =>
    dsimp only [Option.map]
    rw [Machine.dispatch_reissue h hmove]
    dsimp only [Outcome.reissue]
    rw [hmove.giveBack]

/-- Queued events are handled on other editions as they are. -/
theorem EventQueue.drain_reissue (q : EventQueue) (m : Machine) (host : σ) :
    (q.drain m (move host)).1 = (q.drain m host).1.rehost move := by
  have hfoldl : ∀ (events : List QueuedEvent) (d : Drained σ),
      events.foldl EventQueue.handle (d.rehost move)
        = (events.foldl EventQueue.handle d).rehost move := by
    intro events
    induction events with
    | nil => exact fun d => rfl
    | cons e events ih =>
      intro d
      rw [List.foldl_cons, List.foldl_cons, EventQueue.handle_reissue h hmove]
      exact ih _
  unfold EventQueue.drain
  dsimp only
  rw [← Array.foldl_toList, ← Array.foldl_toList]
  exact hfoldl q.events.toList ⟨#[], m, host⟩

end Dispatch

end EntityScript
