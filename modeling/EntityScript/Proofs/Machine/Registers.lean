import EntityScript.Machine.Queue
import EntityScript.Proofs.Machine.Operands
import Mathlib.Data.PFun
import Mathlib.Logic.Relation

/-!
# One stack for all handlers

A machine answers runs and keeps nothing of them but faults. Here it is taken apart into registers
that outlive a run: one operand stack for all handlers, the base below which the active handler must
not reach, how many handlers are active, and how many instructions were begun. A handler that is
called leaves its operands on top of those of its caller, and when it ends the stack is cut at its
base. Nothing is undone behind a fault: operands that were taken stay taken, and a handler leaves
the registers as it happens to have them.

`Instant.step` is one instruction, and `Instant.run` goes from step to step until the outermost
handler ends. What the host is asked on the way is written down, questions included. That a run
ends, and to the outcome of the machine, is said elsewhere.
-/

namespace EntityScript

/-- What a handler asks of its host. -/
inductive Request where
  | fire (event : String) (args : Arguments)
  | resolve (name : String)
  | take (id : EntityId)
  | giveBack (id : EntityId) (c : Context)
  | hasScript (id : EntityId)

/-- A host with all that was asked of it. -/
structure Witnessed (σ : Type) where
  host : σ
  /-- The last request first. -/
  requests : List Request

namespace Witnessed

variable {σ : Type} [Host σ]

/-- Takes an event without a target. -/
def fire (h : Witnessed σ) (event : String) (args : Arguments) : Witnessed σ :=
  ⟨Host.fire h.host event args, .fire event args :: h.requests⟩

/-- The entity of a name. -/
def resolve (h : Witnessed σ) (name : String) : Option EntityId × Witnessed σ :=
  (Host.resolve h.host name, { h with requests := .resolve name :: h.requests })

/-- Lends out the context of an entity. -/
def take (h : Witnessed σ) (id : EntityId) : Option Context × Witnessed σ :=
  ((Host.take h.host id).1, ⟨(Host.take h.host id).2, .take id :: h.requests⟩)

/-- Takes a lent context back. -/
def giveBack (h : Witnessed σ) (id : EntityId) (c : Context) : Witnessed σ :=
  ⟨Host.giveBack h.host id c, .giveBack id c :: h.requests⟩

/-- Whether an entity has a context. -/
def hasScript (h : Witnessed σ) (id : EntityId) : Bool × Witnessed σ :=
  (Host.hasScript h.host id, { h with requests := .hasScript id :: h.requests })

end Witnessed

/-- What a machine holds while it runs, and between runs. -/
structure Registers where
  limits : Limits
  /-- The operands of all handlers, the topmost last. -/
  stack : Array Value
  /-- How many operands lie below those of the active handler. -/
  base : ℕ
  /-- How many handlers are active. -/
  depth : ℕ
  /-- How many instructions were begun since the outermost handler began. -/
  steps : ℕ
  /-- The faults of nested handlers, in the order they happened. -/
  faults : Array FaultReport

namespace Registers

/-- Registers that were not used yet. -/
def new (limits : Limits) : Registers := ⟨limits, #[], 0, 0, 0, #[]⟩

/-- The bounds and the faults, which is all that a machine keeps. -/
def machine (g : Registers) : Machine := ⟨g.limits, g.faults⟩

/-- A handler begins on top of the operands that are there. -/
def enter (g : Registers) : Registers :=
  { g with
    steps := if g.depth = 0 then 0 else g.steps
    depth := g.depth + 1
    base := g.stack.size }

/-- The active handler ends, and the base of its caller is the base again. -/
def leave (g : Registers) (callerBase : ℕ) : Registers :=
  { g with
    stack := g.stack.take g.base
    base := callerBase
    depth := g.depth - 1 }

/-- Notes the fault of a nested handler. -/
def note {α : Type} (g : Registers) : Except FaultReport α → Registers
  | .ok _ => g
  | .error report => { g with faults := g.faults.push report }

/-- Counts an instruction, and tells whether there were too many. -/
def count (g : Registers) : Except Fault Unit × Registers :=
  let g := { g with steps := g.steps + 1 }
  match g.limits.steps with
  | some limit => if limit < g.steps then (.error (.stepLimitExceeded limit), g) else (.ok (), g)
  | none => (.ok (), g)

/-- An instruction is counted, whether there were too many or not. -/
theorem count_snd (g : Registers) : g.count.2 = { g with steps := g.steps + 1 } := by
  unfold count
  dsimp only
  split
  · split <;> rfl
  · rfl

/-- Forgets the faults of nested handlers, and answers them. -/
def takeFaults (g : Registers) : List FaultReport × Registers :=
  (g.faults.toList, { g with faults := #[] })

end Registers

/-- A handler that has begun and not yet ended, apart from its operands. -/
structure Post where
  chunk : Chunk
  /-- Where it goes on. -/
  offset : ℕ
  /-- The base of the handler that was active when it began. -/
  callerBase : ℕ
  /-- What was bound before its arguments. Code that is run by itself has no arguments. -/
  before : Option (Table String Value)

namespace Post

/-- The report of a fault of the instruction where a handler is. -/
def report (p : Post) (fault : Fault) : FaultReport :=
  ⟨p.chunk.name, p.offset, p.chunk.lineAt p.offset, fault⟩

/-- What became of a handler that ends where it is, with a fault or without one. -/
def verdict (p : Post) : Option Fault → Except FaultReport Unit
  | none => .ok ()
  | some fault => .error (p.report fault)

/-- The arguments of a handler give way to what was bound before. -/
def release (p : Post) (c : Context) : Context :=
  match p.before with
  | none => c
  | some before => c.restoreArguments before

end Post

/-- A handler that waits for another that it called. -/
structure Halted where
  post : Post
  /-- The context that it keeps meanwhile, and the entity whose context was lent to the other. If
  there is none, the other works on the very context of this one. -/
  kept : Option (Context × EntityId)

/-- A machine between two instructions of a run. -/
structure Instant (σ : Type) where
  registers : Registers
  /-- The handler whose instruction is next. -/
  active : Post
  /-- The context that it works on. -/
  context : Context
  /-- The handlers that wait, the last one first. -/
  waiting : List Halted
  host : Witnessed σ

/-- What a run leaves behind. -/
structure Left (σ α : Type) where
  result : Except FaultReport α
  context : Context
  registers : Registers
  host : Witnessed σ

/-- What the next instruction comes to. -/
inductive Turn (σ : Type) where
  /-- The active handler goes on, or calls another. -/
  | goes (s : Instant σ)
  /-- The active handler ends, with a fault or without one. -/
  | leaves (fault : Option Fault) (s : Instant σ)

/-- What an instant comes to. -/
inductive Prospect (σ : Type) where
  /-- Another instant follows. -/
  | goes (s : Instant σ)
  /-- The outermost handler ended, and the run with it. -/
  | ends (left : Left σ Unit)

/-- What a run leaves behind, or the instant at which it goes on. -/
def Prospect.outcome {σ : Type} : Prospect σ → Left σ Unit ⊕ Instant σ
  | .goes s => .inr s
  | .ends left => .inl left

/-- A run has come to its end just if there is something it leaves behind. -/
theorem Prospect.outcome_eq_inl {σ : Type} {p : Prospect σ} {left : Left σ Unit} :
    p.outcome = .inl left ↔ p = .ends left := by
  cases p <;> simp [outcome]

/-- A run has not come to its end just if there is an instant at which it goes on. -/
theorem Prospect.outcome_eq_inr {σ : Type} {p : Prospect σ} {s : Instant σ} :
    p.outcome = .inr s ↔ p = .goes s := by
  cases p <;> simp [outcome]

/-- The handler that waits goes on, after the one that it called has ended with such a result and
left such a context. -/
def Halted.resume {σ α : Type} [Host σ] (w : Halted) (below : List Halted)
    (result : Except FaultReport α) (c : Context) (g : Registers) (host : Witnessed σ) :
    Instant σ :=
  match w.kept with
  | none => ⟨g.note result, w.post, c, below, host⟩
  | some (own, id) => ⟨g.note result, w.post, own, below, host.giveBack id c⟩

section Resume

variable {σ α : Type} [Host σ] (w : Halted) (below : List Halted) (result : Except FaultReport α)
  (c : Context) (g : Registers) (host : Witnessed σ)

/-- The handler that waited is the active one when it goes on. -/
@[simp] theorem Halted.active_resume : (w.resume below result c g host).active = w.post := by
  unfold resume
  split <;> rfl

/-- Those that waited below still wait when it goes on. -/
@[simp] theorem Halted.waiting_resume : (w.resume below result c g host).waiting = below := by
  unfold resume
  split <;> rfl

/-- The registers note the fault of the handler that was called. -/
@[simp] theorem Halted.registers_resume :
    (w.resume below result c g host).registers = g.note result := by
  unfold resume
  split <;> rfl

end Resume

namespace Instant

variable {σ : Type} [Host σ]

/-- What the active handler works with. -/
def invocation (s : Instant σ) : Invocation :=
  ⟨s.registers.limits, s.registers.base, s.active.chunk⟩

/-- What an instruction left on the stack and of the context. -/
def withFrame (s : Instant σ) (f : Frame) : Instant σ :=
  { s with registers := { s.registers with stack := f.stack }, context := f.context }

/-- The active handler goes on elsewhere. -/
def goOn (s : Instant σ) (next : ℕ) : Instant σ :=
  { s with active := { s.active with offset := next } }

/-- The active handler has an event handled by a context, and waits. A context that has no handler
for the event is left as it is. -/
def call (s : Instant σ) (event : Event) (c : Context) (kept : Option (Context × EntityId)) :
    Instant σ :=
  let w : Halted := ⟨s.active, kept⟩
  match c.definition.script.handler? c.state event.name with
  | none => w.resume s.waiting (.ok ()) c s.registers s.host
  | some chunk =>
    ⟨s.registers.enter, ⟨chunk, 0, s.registers.base, some c.bound⟩, c.bindArguments event.args,
      w :: s.waiting, s.host⟩

/-- The active handler delivers an event that it fired, and goes on behind the instruction. -/
def deliver (s : Instant σ) (next : ℕ) (event : Event) : Turn σ :=
  match event.target with
  | none => .goes { s.goOn next with host := s.host.fire event.name event.args }
  | some target =>
    match s.host.resolve target with
    | (none, host) => .leaves (some (.unresolvedTarget target)) { s with host }
    | (some id, host) =>
      if s.registers.limits.dispatchDepth ≤ s.registers.depth then
        .leaves (some (.dispatchDepthExceeded s.registers.limits.dispatchDepth)) { s with host }
      else if s.context.owner = some id then
        .goes ({ s.goOn next with host }.call event s.context none)
      else
        match host.take id with
        | (some c, host) => .goes ({ s.goOn next with host }.call event c (some (s.context, id)))
        | (none, host) =>
          match host.hasScript id with
          | (true, host) => .leaves (some (.reentrantDispatch target)) { s with host }
          | (false, host) => .goes { s.goOn next with host }

/-- The active handler does what stands where it is in its code. -/
def obey (s : Instant σ) : Fetched → Turn σ
  | .truncated _ => .leaves (some .truncatedInstruction) s
  | .unknown byte => .leaves (some (.unknownOpcode byte)) s
  | .instruction x =>
    match (Operands.shared s.invocation).work s.invocation x ⟨s.registers.stack, s.context⟩ with
    | .error fault f => .leaves (some fault) (s.withFrame f)
    | .ok .finish f => .leaves none (s.withFrame f)
    | .ok (.forward distance) f =>
      .goes ((s.withFrame f).goOn (s.active.offset + x.size + distance))
    | .ok (.fire event) f => (s.withFrame f).deliver (s.active.offset + x.size) event

/-- The next instruction of the active handler. -/
def act (s : Instant σ) : Turn σ :=
  if h : s.active.offset < s.active.chunk.size then
    match s.registers.count with
    | (.error fault, registers) => .leaves (some fault) { s with registers }
    | (.ok (), registers) =>
      { s with registers }.obey (s.active.chunk.fetch s.active.offset h)
  else .leaves none s

/-- The active handler ends, and the last one that waits goes on. -/
def leave (s : Instant σ) (fault : Option Fault) : Prospect σ :=
  let result := s.active.verdict fault
  let registers := s.registers.leave s.active.callerBase
  let c := s.active.release s.context
  match s.waiting with
  | [] => .ends ⟨result, c, registers, s.host⟩
  | w :: below => .goes (w.resume below result c registers s.host)

/-- What an instant comes to. -/
def step (s : Instant σ) : Prospect σ :=
  match s.act with
  | .goes s' => .goes s'
  | .leaves fault s' => s'.leave fault

/-- One instant follows another. -/
def Next (s s' : Instant σ) : Prop := s.step = .goes s'

/-- An instant comes some time after another, or is the same. -/
def Reaches (s s' : Instant σ) : Prop := Relation.ReflTransGen Next s s'

/-- A run that is at some instant will leave this behind. -/
def Ends (s : Instant σ) (left : Left σ Unit) : Prop := ∃ s', s.Reaches s' ∧ s'.step = .ends left

open Classical in
/-- Goes on until the outermost handler ends. A run that would never end answers nothing. -/
noncomputable def run (s : Instant σ) : Option (Left σ Unit) :=
  (PFun.fix (fun s : Instant σ => Part.some s.step.outcome) s).toOption

/-- So many steps later, if the run does not end before. -/
def later? (s : Instant σ) : ℕ → Option (Instant σ)
  | 0 => some s
  | n + 1 =>
    match s.step with
    | .goes s' => s'.later? n
    | .ends _ => none

/-- What comes some steps later is reached. -/
theorem Reaches.of_later? {s s' : Instant σ} {n : ℕ} (h : s.later? n = some s') :
    s.Reaches s' := by
  induction n generalizing s with
  | zero =>
    cases h
    exact .refl
  | succ n ih =>
    unfold later? at h
    split at h
    · rename_i hstep
      exact .head hstep (ih h)
    · cases h

/-- A run answers what it leaves behind, if it ends, and nothing else. -/
theorem run_eq_some_iff {s : Instant σ} {left : Left σ Unit} :
    s.run = some left ↔ s.Ends left := by
  classical
  rw [run, Part.toOption_eq_some_iff]
  constructor
  · intro h
    refine PFun.fixInduction h fun s hfix ih => ?_
    obtain hstop | ⟨s', hgoes, -⟩ := PFun.mem_fix_iff.mp hfix
    · exact ⟨s, .refl, Prospect.outcome_eq_inl.mp (Part.mem_some_iff.mp hstop).symm⟩
    · obtain ⟨last, hreaches, hends⟩ := ih s' hgoes
      exact ⟨last, .head (Prospect.outcome_eq_inr.mp (Part.mem_some_iff.mp hgoes).symm) hreaches,
        hends⟩
  · rintro ⟨last, hreaches, hends⟩
    induction hreaches using Relation.ReflTransGen.head_induction_on with
    | refl =>
      exact PFun.fix_stop (Part.mem_some_iff.mpr (Prospect.outcome_eq_inl.mpr hends).symm)
    | @head s s' hnext _ ih =>
      have hgoes := Part.mem_some_iff.mpr (Prospect.outcome_eq_inr.mpr hnext).symm
      exact PFun.mem_fix_iff.mpr (.inr ⟨s', hgoes, ih⟩)

/-- A run that ends answers what it leaves behind. -/
theorem Ends.run_eq {s : Instant σ} {left : Left σ Unit} (h : s.Ends left) :
    s.run = some left :=
  run_eq_some_iff.mpr h

end Instant

/-- What is left of handling an event. -/
def Left.handled {σ : Type} (left : Left σ Unit) : Left σ DispatchOutcome :=
  ⟨left.result.map fun _ => .handled, left.context, left.registers, left.host⟩

namespace Registers

variable {σ : Type} [Host σ]

/-- The first instant of a handler. -/
def start (g : Registers) (chunk : Chunk) (before : Option (Table String Value)) (c : Context)
    (host : σ) : Instant σ :=
  ⟨g.enter, ⟨chunk, 0, g.base, before⟩, c, [], ⟨host, []⟩⟩

/-- The first instant of code that is run by itself. -/
def startChunk (g : Registers) (chunk : Chunk) (c : Context) (host : σ) : Instant σ :=
  g.start chunk none c host

/-- The first instant of the handler of an event, if there is one. -/
def startEvent? (g : Registers) (c : Context) (event : String) (args : Arguments) (host : σ) :
    Option (Instant σ) :=
  (c.definition.script.handler? c.state event).map fun chunk =>
    g.start chunk (some c.bound) (c.bindArguments args) host

/-- Runs code on a context. -/
noncomputable def runChunk (g : Registers) (chunk : Chunk) (c : Context) (host : σ) :
    Option (Left σ Unit) :=
  (g.startChunk chunk c host).run

/-- Has an event handled by a context. -/
noncomputable def dispatch (g : Registers) (c : Context) (event : String) (args : Arguments)
    (host : σ) : Option (Left σ DispatchOutcome) :=
  match g.startEvent? c event args host with
  | none => some ⟨.ok .noHandler, c, g, ⟨host, []⟩⟩
  | some start => start.run.map Left.handled

variable {c : Context} {event : String}

/-- An event without a handler leaves everything as it is. -/
theorem dispatch_of_no_handler (h : c.definition.script.handler? c.state event = none)
    (g : Registers) (args : Arguments) (host : σ) :
    g.dispatch c event args host = some ⟨.ok .noHandler, c, g, ⟨host, []⟩⟩ := by
  rw [dispatch, startEvent?, h]
  rfl

omit [Host σ] in
/-- An event with a handler starts it with the arguments bound. -/
theorem startEvent?_eq (g : Registers) {chunk : Chunk}
    (h : c.definition.script.handler? c.state event = some chunk) (args : Arguments) (host : σ) :
    g.startEvent? c event args host
      = some (g.start chunk (some c.bound) (c.bindArguments args) host) := by
  rw [startEvent?, h]
  rfl

/-- An event with a handler is handled by running it from its start. -/
theorem dispatch_of_handler {chunk : Chunk}
    (h : c.definition.script.handler? c.state event = some chunk) (g : Registers)
    (args : Arguments) (host : σ) : g.dispatch c event args host
      = (g.start chunk (some c.bound) (c.bindArguments args) host).run.map Left.handled := by
  rw [dispatch, g.startEvent?_eq h]

end Registers

end EntityScript
