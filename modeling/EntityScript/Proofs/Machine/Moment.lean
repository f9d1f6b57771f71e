import EntityScript.Proofs.Bytecode.Indexed
import EntityScript.Proofs.Machine.Stepping
import Mathlib.Logic.Relation

/-!
# Moments of a run

A run seen from inside, one instruction after another. A moment holds every handler that has begun
and not yet ended: the active one, and below it those that wait for a handler that they caused.
It also holds every context that is in the hands of handlers, and what the handlers share.

Nothing here says that a run ends. `Moment.step` is no recursion: it goes from one moment to the
next, and reads code by index. That the moments of a run come to an end, and to the outcome of
the machine, is said elsewhere.
-/

namespace EntityScript

/-- A handler that has begun and not yet ended. -/
structure Activation where
  /-- Its code, the bounds of the run, and how many operands lie below its own. -/
  invocation : Invocation
  /-- Where it goes on. -/
  offset : ℕ
  /-- The offsets of the instructions that it performed, the last one first. -/
  performed : List ℕ
  /-- Its operands. -/
  stack : Array Value
  /-- What was bound before its arguments. Code that is run by itself has no arguments. -/
  before : Option (Table String Value)

namespace Activation

/-- The beginning of some code. -/
def start (invocation : Invocation) (before : Option (Table String Value)) : Activation :=
  ⟨invocation, 0, [], #[], before⟩

/-- The code of a handler. -/
abbrev chunk (a : Activation) : Chunk := a.invocation.chunk

/-- The report of a fault of the instruction where a handler is. -/
def report (a : Activation) (fault : Fault) : FaultReport :=
  ⟨a.chunk.name, a.offset, a.chunk.lineAt a.offset, fault⟩

/-- The arguments of a handler give way to what was bound before. -/
def release (a : Activation) (c : Context) : Context :=
  match a.before with
  | none => c
  | some before => c.restoreArguments before

/-- The handler after an instruction. -/
def goOn (a : Activation) (next : ℕ) (stack : Array Value) : Activation :=
  { a with offset := next, performed := a.offset :: a.performed, stack }

end Activation

/-- A handler that waits for another that it caused. -/
structure Waiting where
  activation : Activation
  /-- The context that it keeps meanwhile, and the entity whose context was lent to the other. If
  there is none, the other works on the very context of this one. -/
  kept : Option (Context × EntityId)

/-- A moment of a run. -/
structure Moment (σ : Type) where
  /-- The handler whose instruction is next. -/
  active : Activation
  /-- The context that it works on. -/
  context : Context
  /-- The handlers that wait, the last one first. -/
  waiting : List Waiting
  /-- What all handlers share. -/
  run : Run σ

/-- What one instruction comes to. -/
inductive Deed (σ : Type) where
  /-- The run goes on. -/
  | goes (m : Moment σ)
  /-- The active handler ends. -/
  | leaves (result : Except FaultReport Unit) (context : Context) (run : Run σ)
  /-- A byte was asked for that lies outside of the code. -/
  | crashes

/-- What a moment comes to. -/
inductive Change (σ : Type) where
  /-- Another moment follows. -/
  | goes (m : Moment σ)
  /-- The outermost handler ended, and the run with it. -/
  | ends (e : Ended σ Unit)
  /-- A byte was asked for that lies outside of the code. -/
  | crashes

/-- The handler that waits goes on, after the one that it caused has ended with such a result and
left such a context. -/
def Waiting.resume {σ α : Type} [Host σ] (w : Waiting) (below : List Waiting)
    (result : Except FaultReport α) (c : Context) (r : Run σ) : Moment σ :=
  match w.kept with
  | none => ⟨w.activation, c, below, r.note result⟩
  | some (own, id) =>
    ⟨w.activation, own, below,
      { r.note result with host := Host.giveBack (r.note result).host id c }⟩

namespace Moment

variable {σ : Type}

/-- The active handler performs an instruction, which answers a frame and how to go on. -/
structure Performs (m : Moment σ) (x : Instruction) (flow : Flow) (f : Frame) (r : Run σ) :
    Prop where
  inside : m.active.offset < m.active.chunk.size
  begun : m.active.invocation.beginStep m.run = (.ok (), r)
  fetched : m.active.chunk.fetch? m.active.offset = some (.instruction x)
  performed : m.active.invocation.perform ⟨m.active.stack, m.context⟩ x = .ok (flow, f)

/-- Performing an instruction counts it and changes nothing else that handlers share. -/
theorem Performs.steps {m : Moment σ} {x : Instruction} {flow : Flow} {f : Frame} {r : Run σ}
    (h : m.Performs x flow f r) : r = { m.run with steps := m.run.steps + 1 } :=
  Invocation.beginStep_eq h.begun

/-- Firing an event leaves the context alone. -/
theorem Performs.context_eq {m : Moment σ} {x : Instruction} {event : Event} {f : Frame} {r : Run σ}
    (h : m.Performs x (.fire event) f r) : f.context = m.context :=
  Invocation.perform_same h.performed fun _ h => by cases h

variable [Host σ]

/-- The bounds of the run. -/
def limits (m : Moment σ) : Limits := m.active.invocation.limits

/-- The active handler behind an instruction. -/
def goOn (m : Moment σ) (next : ℕ) (f : Frame) (r : Run σ) : Moment σ :=
  ⟨m.active.goOn next f.stack, f.context, m.waiting, r⟩

/-- The active handler has an event handled by a context, and waits. A context that has no handler
for the event is left as it is. -/
def call (m : Moment σ) (event : Event) (c : Context) (kept : Option (Context × EntityId)) :
    Moment σ :=
  let w : Waiting := ⟨m.active, kept⟩
  match c.definition.script.handler? c.state event.name with
  | none => w.resume m.waiting (.ok ()) c m.run
  | some chunk =>
    let i : Invocation := ⟨m.limits, m.active.invocation.base + m.active.stack.size, chunk⟩
    ⟨.start i (some c.bound), c.bindArguments event.args, w :: m.waiting, m.run⟩

/-- The active handler delivers an event that it fired, and goes on behind the instruction. -/
def deliver (m : Moment σ) (next : ℕ) (event : Event) (f : Frame) (r : Run σ) : Deed σ :=
  match event.target with
  | none => .goes (m.goOn next f { r with host := Host.fire r.host event.name event.args })
  | some target =>
    match Host.resolve r.host target with
    | none => .leaves (.error (m.active.report (.unresolvedTarget target))) f.context r
    | some id =>
      if m.limits.dispatchDepth ≤ m.waiting.length + 1 then
        .leaves (.error (m.active.report (.dispatchDepthExceeded m.limits.dispatchDepth)))
          f.context r
      else if f.context.owner = some id then .goes ((m.goOn next f r).call event f.context none)
      else
        match Host.take r.host id with
        | (some c, host) =>
          .goes ((m.goOn next f { r with host }).call event c (some (f.context, id)))
        | (none, host) =>
          if Host.hasScript host id then
            .leaves (.error (m.active.report (.reentrantDispatch target))) f.context { r with host }
          else .goes (m.goOn next f { r with host })

/-- The next instruction of the active handler. -/
def act (m : Moment σ) : Deed σ :=
  let a := m.active
  let i := a.invocation
  if a.chunk.size ≤ a.offset then .leaves (.ok ()) m.context m.run
  else
    match i.beginStep m.run with
    | (.error fault, r) => .leaves (.error (a.report fault)) m.context r
    | (.ok (), r) =>
      match a.chunk.fetch? a.offset with
      | none => .crashes
      | some (.truncated _) => .leaves (.error (a.report .truncatedInstruction)) m.context r
      | some (.unknown byte) => .leaves (.error (a.report (.unknownOpcode byte))) m.context r
      | some (.instruction x) =>
        match i.perform ⟨a.stack, m.context⟩ x with
        | .error fault => .leaves (.error (a.report fault)) m.context r
        | .ok (.finish, f) => .leaves (.ok ()) f.context r
        | .ok (.forward distance, f) => .goes (m.goOn (a.offset + x.size + distance) f r)
        | .ok (.fire event, f) => m.deliver (a.offset + x.size) event f r

/-- What a moment comes to: when the active handler ends, the last one that waits goes on. -/
def step (m : Moment σ) : Change σ :=
  match m.act with
  | .goes m' => .goes m'
  | .crashes => .crashes
  | .leaves result c r =>
    match m.waiting with
    | [] => .ends ⟨result, m.active.release c, r⟩
    | w :: below => .goes (w.resume below result (m.active.release c) r)

/-- One moment follows another. -/
def Next (m m' : Moment σ) : Prop := m.step = .goes m'

/-- A moment comes some time after another, or is the same. -/
def Reaches (m m' : Moment σ) : Prop := Relation.ReflTransGen Next m m'

/-- A run that is at some moment will end. -/
def Ends (m : Moment σ) (e : Ended σ Unit) : Prop := ∃ m', m.Reaches m' ∧ m'.step = .ends e

/-- The first moment of code that is run by itself. -/
def ofChunk (machine : Machine) (chunk : Chunk) (c : Context) (host : σ) : Moment σ :=
  ⟨.start ⟨machine.limits, 0, chunk⟩ none, c, [], machine.begin host⟩

/-- The first moment of the handler of an event, if there is one. -/
def ofEvent? (machine : Machine) (c : Context) (event : String) (args : Arguments) (host : σ) :
    Option (Moment σ) :=
  (c.definition.script.handler? c.state event).map fun chunk =>
    ⟨.start ⟨machine.limits, 0, chunk⟩ (some c.bound), c.bindArguments args, [],
      machine.begin host⟩

/-- The active handler fires an event at an entity that the host knows, and there is room for one
more handler to be active. -/
structure Sends (m : Moment σ) (x : Instruction) (event : Event) (target : String) (id : EntityId)
    (f : Frame) (r : Run σ) : Prop where
  performs : m.Performs x (.fire event) f r
  targeted : event.target = some target
  resolved : Host.resolve r.host target = some id
  shallow : m.waiting.length + 1 < m.limits.dispatchDepth

/-- One instruction leads from a moment to another, without an end of the active handler. -/
inductive Onward (m : Moment σ) : Moment σ → Prop
  /-- The active handler goes on. -/
  | forward {x : Instruction} {distance : ℕ} {f : Frame} {r : Run σ}
    (performs : m.Performs x (.forward distance) f r) :
    Onward m (m.goOn (m.active.offset + x.size + distance) f r)
  /-- An event without a target goes to the host. -/
  | fired {x : Instruction} {event : Event} {f : Frame} {r : Run σ}
    (performs : m.Performs x (.fire event) f r) (untargeted : event.target = none) :
    Onward m (m.goOn (m.active.offset + x.size) f
      { r with host := Host.fire r.host event.name event.args })
  /-- An event comes back to the context of the active handler. -/
  | reentered {x : Instruction} {event : Event} {target : String} {id : EntityId} {f : Frame}
    {r : Run σ} (sends : m.Sends x event target id f r) (own : f.context.owner = some id) :
    Onward m ((m.goOn (m.active.offset + x.size) f r).call event f.context none)
  /-- An event goes to a context that the host lends. -/
  | lent {x : Instruction} {event : Event} {target : String} {id : EntityId} {f : Frame}
    {r : Run σ} {c : Context} {host : σ} (sends : m.Sends x event target id f r)
    (other : f.context.owner ≠ some id) (taken : Host.take r.host id = (some c, host)) :
    Onward m ((m.goOn (m.active.offset + x.size) f { r with host }).call event c
      (some (f.context, id)))
  /-- An event for an entity without a script is dropped. -/
  | dropped {x : Instruction} {event : Event} {target : String} {id : EntityId} {f : Frame}
    {r : Run σ} {host : σ} (sends : m.Sends x event target id f r)
    (other : f.context.owner ≠ some id) (taken : Host.take r.host id = (none, host))
    (scriptless : Host.hasScript host id = false) :
    Onward m (m.goOn (m.active.offset + x.size) f { r with host })

/-- The end of the active handler. It leaves the context as it is, and so does the host, which may
at most have been asked for a context that it did not lend. A fault is one of the instruction where
the handler is. -/
structure Leaves (m : Moment σ) (result : Except FaultReport Unit) (c : Context) (r : Run σ) :
    Prop where
  context : c = m.context
  faults : r.faults = m.run.faults
  host : r.host = m.run.host ∨ ∃ id, Host.take m.run.host id = (none, r.host)
  result : result = .ok () ∨
    m.active.offset < m.active.chunk.size ∧ ∃ fault, result = .error (m.active.report fault)

/-- All that an instruction can come to. It asks for no byte outside of the code. -/
inductive Comes (m : Moment σ) : Deed σ → Prop
  | goes {m' : Moment σ} (onward : m.Onward m') : Comes m (.goes m')
  | leaves {result : Except FaultReport Unit} {c : Context} {r : Run σ}
    (leaves : m.Leaves result c r) : Comes m (.leaves result c r)

variable {m m' : Moment σ}

/-- What an instruction that is performed comes to. -/
theorem Performs.act_eq {x : Instruction} {flow : Flow} {f : Frame} {r : Run σ}
    (h : m.Performs x flow f r) : m.act = match flow with
      | .finish => .leaves (.ok ()) f.context r
      | .forward distance => .goes (m.goOn (m.active.offset + x.size + distance) f r)
      | .fire event => m.deliver (m.active.offset + x.size) event f r := by
  obtain ⟨hin, hbegun, hfetched, hperformed⟩ := h
  unfold act
  dsimp only
  rw [if_neg (Nat.not_le_of_lt hin), hbegun]
  dsimp only
  rw [hfetched]
  dsimp only
  rw [hperformed]
  cases flow <;> rfl

/-- A fault that is raised before anything but the count of steps has changed. -/
theorem Comes.fault {result : Except Fault Unit} {r : Run σ}
    (inside : m.active.offset < m.active.chunk.size)
    (h : m.active.invocation.beginStep m.run = (result, r)) (fault : Fault) :
    m.Comes (.leaves (.error (m.active.report fault)) m.context r) := by
  have hrun := Invocation.beginStep_eq h
  exact .leaves ⟨rfl, by rw [hrun], .inl (by rw [hrun]), .inr ⟨inside, fault, rfl⟩⟩

/-- Delivering the event of an instruction is one of the things an instruction can come to. -/
theorem Performs.comes_deliver {x : Instruction} {event : Event} {f : Frame} {r : Run σ}
    (h : m.Performs x (.fire event) f r) :
    m.Comes (m.deliver (m.active.offset + x.size) event f r) := by
  have hfault (fault : Fault) :
      m.Comes (.leaves (.error (m.active.report fault)) f.context r) :=
    h.context_eq ▸ .fault h.inside h.begun fault
  unfold deliver
  split
  · rename_i huntargeted
    exact .goes (.fired h huntargeted)
  · rename_i target htarget
    split
    · exact hfault _
    · rename_i id hresolved
      split
      · exact hfault _
      · rename_i hshallow
        have hsends : m.Sends x event target id f r :=
          ⟨h, htarget, hresolved, Nat.lt_of_not_le hshallow⟩
        split
        · rename_i hown
          exact .goes (.reentered hsends hown)
        · rename_i hother
          split
          · rename_i c host htaken
            exact .goes (.lent hsends hother htaken)
          · rename_i host htaken
            split
            · rw [h.steps] at htaken ⊢
              exact .leaves ⟨h.context_eq, rfl, .inr ⟨id, htaken⟩, .inr ⟨h.inside, _, rfl⟩⟩
            · rename_i hscript
              exact .goes (.dropped hsends hother htaken (Bool.eq_false_iff.2 hscript))

/-- Whatever an instruction comes to is one of the things it can come to. -/
theorem comes_act (m : Moment σ) : m.Comes m.act := by
  unfold act
  dsimp only
  split
  · exact .leaves ⟨rfl, rfl, .inl rfl, .inl rfl⟩
  · rename_i hle
    have hin : m.active.offset < m.active.chunk.size := Nat.lt_of_not_le hle
    split
    · rename_i fault r hbegun
      exact .fault hin hbegun fault
    · rename_i r hbegun
      have hfetch := Chunk.fetch?_eq m.active.chunk hin
      split
      · rename_i hnone
        cases hfetch.symm.trans hnone
      · exact .fault hin hbegun _
      · exact .fault hin hbegun _
      · rename_i x hfetched
        split
        · exact .fault hin hbegun _
        · rename_i f hperformed
          have hsame := Invocation.perform_same hperformed fun _ h => by cases h
          have hperforms : m.Performs x .finish f r := ⟨hin, hbegun, hfetched, hperformed⟩
          exact .leaves ⟨hsame, by rw [hperforms.steps], .inl (by rw [hperforms.steps]), .inl rfl⟩
        · rename_i distance f hperformed
          exact .goes (.forward ⟨hin, hbegun, hfetched, hperformed⟩)
        · rename_i event f hperformed
          exact Performs.comes_deliver ⟨hin, hbegun, hfetched, hperformed⟩

/-- An instruction that goes on leads onward. -/
theorem onward_of_act (h : m.act = .goes m') : m.Onward m' := by
  have hcomes := m.comes_act
  rw [h] at hcomes
  cases hcomes with
  | goes onward => exact onward

/-- An instruction at which a handler leaves ends it. -/
theorem leaves_of_act {result : Except FaultReport Unit} {c : Context} {r : Run σ}
    (h : m.act = .leaves result c r) : m.Leaves result c r := by
  have hcomes := m.comes_act
  rw [h] at hcomes
  cases hcomes with
  | leaves leaves => exact leaves

/-- No instruction asks for a byte outside of the code. -/
theorem act_ne_crashes (m : Moment σ) : m.act ≠ .crashes := by
  intro h
  have hcomes := m.comes_act
  rw [h] at hcomes
  cases hcomes

/-- What every step keeps is kept by a run. -/
theorem Reaches.keeps {P : Moment σ → Prop} (hreaches : m.Reaches m')
    (hnext : ∀ {l l' : Moment σ}, l.Next l' → P l → P l') (h : P m) : P m' := by
  induction hreaches with
  | refl => exact h
  | tail _ next ih => exact hnext next ih

/-- A run has one end. -/
theorem Ends.unique {e e' : Ended σ Unit} (h : m.Ends e) (h' : m.Ends e') : e = e' := by
  have hlast {l l' : Moment σ} {e : Ended σ Unit} (hl : l.step = .ends e) (hr : l.Reaches l') :
      l = l' := by
    obtain heq | ⟨next, hnext, -⟩ := Relation.ReflTransGen.cases_head hr
    · exact heq
    · rw [Next, hl] at hnext
      cases hnext
  have hunique : Relator.RightUnique (Next (σ := σ)) := fun a b c hb hc => by
    rw [Next, hb] at hc
    cases hc
    rfl
  obtain ⟨l, hreaches, hl⟩ := h
  obtain ⟨l', hreaches', hl'⟩ := h'
  have hsame : l = l' := by
    obtain hr | hr := Relation.ReflTransGen.total_of_right_unique hunique hreaches hreaches'
    · exact hlast hl hr
    · exact (hlast hl' hr).symm
  rw [hsame, hl'] at hl
  cases hl
  rfl

/-- One moment follows another by an instruction of the active handler, or by its end. -/
theorem Next.cases (h : m.Next m') : m.Onward m' ∨ ∃ result c r w below,
    m.act = .leaves result c r ∧ m.waiting = w :: below ∧
      m' = w.resume below result (m.active.release m.context) r := by
  unfold Next step at h
  split at h
  · rename_i hact
    cases h
    exact .inl (onward_of_act hact)
  · cases h
  · rename_i result c r hact
    split at h
    · cases h
    · rename_i w below hwaiting
      cases h
      obtain rfl := (leaves_of_act hact).context
      exact .inr ⟨result, _, r, w, below, hact, hwaiting, rfl⟩

end Moment

end EntityScript
