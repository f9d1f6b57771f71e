import EntityScript.Proofs.Machine.Moment

/-!
# The course of a run

From every moment on the active handler comes to its end, and to the very answer of running it as a
whole: `finishes` says so by an induction on the number of handlers that may still be active, and
inside of that on what is left of the code. So every run has an end, and it ends with the outcome
of the machine; moments say nothing else than the machine does, but they say it one instruction
after another.
-/

namespace EntityScript

variable {σ : Type}

/-- What is noted of a result depends only on its fault. -/
theorem Run.note_map {α β : Type} (r : Run σ) (g : α → β) (result : Except FaultReport α) :
    r.note (result.map g) = r.note result := by
  cases result <;> rfl

variable [Host σ]

/-- How a waiting handler goes on depends only on the fault of the result. -/
theorem Waiting.resume_map {α β : Type} (w : Waiting) (below : List Waiting) (g : α → β)
    (result : Except FaultReport α) (c : Context) (r : Run σ) :
    w.resume below (result.map g) c r = w.resume below result c r := by
  unfold resume
  rw [Run.note_map]

namespace Moment

variable {m m' : Moment σ}

/-- How many more handlers may be active. -/
def room (m : Moment σ) : ℕ := m.limits.dispatchDepth - 1 - m.waiting.length

/-- How the events of the active handler are handled. -/
def nested (m : Moment σ) : Option (Dispatcher σ) := nestedDispatcher m.limits m.room

/-- What the active handler comes to when it is run to its end. -/
def answer (m : Moment σ) : Option (ℕ × Fault) × Context × Run σ :=
  m.active.invocation.execute m.nested m.active.offset ⟨m.active.stack, m.context⟩ m.run

/-- Some time later the active handler ends, with all those ended that it caused. -/
def Finishes (m : Moment σ) (result : Except FaultReport Unit) (c : Context) (r : Run σ) : Prop :=
  ∃ m' : Moment σ, m.Reaches m' ∧ m'.active.invocation = m.active.invocation ∧
    m'.active.before = m.active.before ∧ m'.waiting = m.waiting ∧ m'.act = .leaves result c r

namespace Finishes

variable {result : Except FaultReport Unit} {c : Context} {r : Run σ}

/-- A handler that leaves has finished. -/
theorem here (h : m.act = .leaves result c r) : m.Finishes result c r :=
  ⟨m, .refl, rfl, rfl, rfl, h⟩

/-- A handler finishes if it does so some time later. -/
theorem later {next : ℕ} {f : Frame} {r' : Run σ} (hreaches : m.Reaches (m.goOn next f r'))
    (h : (m.goOn next f r').Finishes result c r) : m.Finishes result c r := by
  obtain ⟨m', hreaches', hinvocation, hbefore, hwaiting, hact⟩ := h
  exact ⟨m', hreaches.trans hreaches', hinvocation, hbefore, hwaiting, hact⟩

/-- Then the handler that waits for it goes on. -/
theorem resumes {w : Waiting} {below : List Waiting} (h : m.Finishes result c r)
    (hwaiting : m.waiting = w :: below) :
    m.Reaches (w.resume below result (m.active.release c) r) := by
  obtain ⟨m', hreaches, -, hbefore, hwaiting', hact⟩ := h
  refine hreaches.tail ?_
  rw [Next, step, hact]
  dsimp only
  rw [hwaiting', hwaiting]
  unfold Activation.release
  rw [hbefore]

/-- Or the run ends, if none waits. -/
theorem ends (h : m.Finishes result c r) (hwaiting : m.waiting = []) :
    m.Ends ⟨result, m.active.release c, r⟩ := by
  obtain ⟨m', hreaches, -, hbefore, hwaiting', hact⟩ := h
  refine ⟨m', hreaches, ?_⟩
  rw [step, hact]
  dsimp only
  rw [hwaiting', hwaiting]
  unfold Activation.release
  rw [hbefore]

end Finishes

/-- One instruction reaches the moment that it leads to. -/
theorem reaches_of_act (h : m.act = .goes m') : m.Reaches m' := by
  refine .single ?_
  rw [Next, step, h]

/-- Where there is room for one more handler, events are handled with the room that is left. -/
theorem nested_of_room {room : ℕ} (h : m.room = room + 1) :
    m.nested = some (dispatchWith m.limits (nestedDispatcher m.limits room)) := by
  rw [nested, h]
  rfl

/-- If all handlers finish for which there is one place less, then an event that the active handler
has handled by a context is handled as the machine does, and the active handler goes on. -/
theorem reaches_resume {room : ℕ} (hroom : m.room = room + 1)
    (hfinishes : ∀ m' : Moment σ, m'.room = room →
      m'.Finishes (m'.active.invocation.verdict m'.answer.1) m'.answer.2.1 m'.answer.2.2)
    (event : Event) (c : Context) (kept : Option (Context × EntityId)) :
    let e := dispatchWith m.limits (nestedDispatcher m.limits room)
      (m.active.invocation.base + m.active.stack.size) c event.name event.args m.run
    (m.call event c kept).Reaches
      (Waiting.resume ⟨m.active, kept⟩ m.waiting e.result e.context e.run) := by
  intro e
  unfold call
  dsimp only
  cases hhandler : c.definition.script.handler? c.state event.name with
  | none =>
    have he : e = ⟨.ok .noHandler, c, m.run⟩ := by
      change dispatchWith _ _ _ _ _ _ _ = _
      rw [dispatchWith, hhandler]
    rw [he]
    exact .refl
  | some chunk =>
    let i : Invocation := ⟨m.limits, m.active.invocation.base + m.active.stack.size, chunk⟩
    let b : Moment σ := ⟨.start i (some c.bound), c.bindArguments event.args,
      ⟨m.active, kept⟩ :: m.waiting, m.run⟩
    have hbroom : b.room = room := by
      unfold Moment.room at hroom
      change m.limits.dispatchDepth - 1 - (m.waiting.length + 1) = room
      omega
    have hanswer : b.answer = i.execute (nestedDispatcher m.limits room) 0
        ⟨#[], c.bindArguments event.args⟩ m.run := by
      rw [answer, nested, hbroom]
      rfl
    have he : e = ⟨(i.verdict b.answer.1).map fun _ => .handled,
        b.answer.2.1.restoreArguments c.bound, b.answer.2.2⟩ := by
      change dispatchWith _ _ _ _ _ _ _ = _
      rw [dispatchWith, hhandler, hanswer]
      dsimp only
      rw [Invocation.run_eq]
    rw [he, Waiting.resume_map]
    exact (hfinishes b hbroom).resumes rfl

/-- What the active handler comes to, by how its next instruction goes on. -/
theorem Performs.answer_eq {x : Instruction} {flow : Flow} {f : Frame} {r : Run σ}
    (h : m.Performs x flow f r) : m.answer = match flow with
      | .finish => (none, f.context, r)
      | .forward distance =>
        m.active.invocation.execute m.nested (m.active.offset + x.size + distance) f r
      | .fire event =>
        match m.active.invocation.deliver m.nested event f r with
        | (.error fault, f, r) => (some (m.active.offset, fault), f.context, r)
        | (.ok (), f, r) =>
          m.active.invocation.execute m.nested (m.active.offset + x.size) f r := by
  obtain ⟨hin, hbegun, hfetched, hperformed⟩ := h
  rw [Chunk.fetch?_eq _ hin] at hfetched
  rw [answer, Invocation.execute, dif_pos hin, hbegun]
  dsimp only
  rw [Option.some.inj hfetched]
  dsimp only
  rw [hperformed]
  cases flow <;> rfl

/-- Inside of the code an instruction is performed, or there is a fault at once. -/
theorem performs_or (m : Moment σ) (hin : m.active.offset < m.active.chunk.size) :
    (∃ x flow f r, m.Performs x flow f r) ∨ ∃ fault r,
      m.act = .leaves (.error (m.active.report fault)) m.context r ∧
        m.answer = (some (m.active.offset, fault), m.context, r) := by
  have hfetch := Chunk.fetch?_eq m.active.chunk hin
  unfold act answer
  rw [Invocation.execute]
  dsimp only
  rw [if_neg (Nat.not_le_of_lt hin), dif_pos hin, hfetch]
  cases hbegun : m.active.invocation.beginStep m.run with
  | mk begun r =>
  cases begun with
  | error fault => exact .inr ⟨fault, r, rfl, rfl⟩
  | ok u =>
  cases hinstr : m.active.chunk.fetch m.active.offset hin with
  | truncated op => exact .inr ⟨_, r, rfl, rfl⟩
  | unknown byte => exact .inr ⟨_, r, rfl, rfl⟩
  | instruction x =>
  cases hperform : m.active.invocation.perform ⟨m.active.stack, m.context⟩ x with
  | error fault =>
    refine .inr ⟨fault, r, ?_, ?_⟩ <;> dsimp only <;> rw [hperform]
  | ok done => exact .inl ⟨x, done.1, done.2, r, hin, hbegun, hinstr ▸ hfetch, hperform⟩

/-- An event that is fired faults, or is delivered and the active handler goes on behind it. -/
theorem Performs.fires_or {x : Instruction} {event : Event} {f : Frame} {r : Run σ}
    (h : m.Performs x (.fire event) f r)
    (hfinishes : ∀ m' : Moment σ, m'.room < m.room →
      m'.Finishes (m'.active.invocation.verdict m'.answer.1) m'.answer.2.1 m'.answer.2.2) :
    (∃ fault c r', m.act = .leaves (.error (m.active.report fault)) c r' ∧
      m.answer = (some (m.active.offset, fault), c, r')) ∨
    ∃ c r', m.Reaches (m.goOn (m.active.offset + x.size) ⟨f.stack, c⟩ r') ∧
      m.answer = (m.goOn (m.active.offset + x.size) ⟨f.stack, c⟩ r').answer := by
  have hact := h.act_eq
  have hanswer := h.answer_eq
  dsimp only at hact hanswer
  unfold deliver at hact
  unfold Invocation.deliver at hanswer
  cases htarget : event.target with
  | none =>
    rw [htarget] at hact hanswer
    exact .inr ⟨_, _, reaches_of_act hact, hanswer⟩
  | some target =>
  rw [htarget] at hact hanswer
  dsimp only at hact hanswer
  unfold Invocation.deliverTo at hanswer
  cases hresolved : Host.resolve r.host target with
  | none =>
    rw [hresolved] at hact hanswer
    exact .inl ⟨_, _, _, hact, hanswer⟩
  | some id =>
  rw [hresolved] at hact hanswer
  dsimp only at hact hanswer
  cases hroom : m.room with
  | zero =>
    have hfull : m.limits.dispatchDepth ≤ m.waiting.length + 1 := by
      unfold Moment.room at hroom
      omega
    rw [if_pos hfull] at hact
    rw [nested, hroom] at hanswer
    exact .inl ⟨_, _, _, hact, hanswer⟩
  | succ room =>
  have hfree : ¬ m.limits.dispatchDepth ≤ m.waiting.length + 1 := by
    unfold Moment.room at hroom
    omega
  rw [if_neg hfree] at hact
  rw [nested_of_room hroom] at hanswer
  dsimp only at hanswer
  generalize hnext : m.active.offset + x.size = next at hact hanswer ⊢
  let nest : Context → Run σ → Context × Run σ := m.active.invocation.nest
    (dispatchWith m.limits (nestedDispatcher m.limits room)) event f.stack
  -- Behind the instruction the same handlers may be active as before.
  have hgoOn (f' : Frame) (r' : Run σ) : (m.goOn next f' r').answer
      = m.active.invocation.execute (some (dispatchWith m.limits (nestedDispatcher m.limits room)))
        next f' r' := by
    rw [answer, nested_of_room (m := m.goOn next f' r') hroom]
    rfl
  have hresume (r' : Run σ) := reaches_resume (m := m.goOn next f r') hroom
    (fun m' hm' => hfinishes m' (by omega)) event
  by_cases hown : f.context.owner = some id
  · rw [if_pos hown] at hact hanswer
    refine .inr ⟨(nest f.context r).1, (nest f.context r).2, ?_, ?_⟩
    · exact (reaches_of_act hact).trans (hresume r f.context none)
    · rw [hgoOn]
      exact hanswer
  · rw [if_neg hown] at hact hanswer
    cases htaken : Host.take r.host id with
    | mk lent host =>
    rw [htaken] at hact hanswer
    cases lent with
    | some c =>
      let done := nest c { r with host }
      refine .inr ⟨f.context, { done.2 with host := Host.giveBack done.2.host id done.1 }, ?_, ?_⟩
      · exact (reaches_of_act hact).trans (hresume { r with host } c (some (f.context, id)))
      · rw [hgoOn]
        exact hanswer
    | none =>
      dsimp only at hact hanswer
      by_cases hscript : Host.hasScript host id = true
      · rw [if_pos hscript] at hact hanswer
        exact .inl ⟨_, _, _, hact, hanswer⟩
      · rw [if_neg hscript] at hact hanswer
        refine .inr ⟨f.context, { r with host }, reaches_of_act hact, ?_⟩
        rw [hgoOn]
        exact hanswer

/-- Whatever the active handler does, it finishes with its answer. The induction on the places that
are left is for the handlers that it causes, the one on the code that is left for itself. -/
theorem finishes_of_room (room : ℕ) : ∀ m : Moment σ, m.room = room →
    m.Finishes (m.active.invocation.verdict m.answer.1) m.answer.2.1 m.answer.2.2 := by
  induction room using Nat.strongRecOn with
  | _ room ihroom =>
  intro m hroom
  induction hleft : m.active.chunk.size - m.active.offset using Nat.strongRecOn
    generalizing m with
  | _ left ihleft =>
  obtain rfl := hleft
  -- Behind an instruction less code is left, and as many handlers may be active as before.
  have hgoes {next : ℕ} {f : Frame} {r : Run σ} (hreaches : m.Reaches (m.goOn next f r))
      (hanswer : m.answer = (m.goOn next f r).answer)
      (hlt : m.active.offset < m.active.chunk.size) (hnext : m.active.offset < next) :
      m.Finishes (m.active.invocation.verdict m.answer.1) m.answer.2.1 m.answer.2.2 := by
    refine .later hreaches ?_
    rw [hanswer]
    refine ihleft _ ?_ (m.goOn next f r) hroom rfl
    change m.active.chunk.size - next < m.active.chunk.size - m.active.offset
    omega
  by_cases hlt : m.active.offset < m.active.chunk.size
  · obtain ⟨x, flow, f, r, hperforms⟩ | ⟨fault, r, hact, hanswer⟩ := m.performs_or hlt
    · have hpos := x.size_pos
      cases flow with
      | finish =>
        rw [hperforms.answer_eq]
        exact .here hperforms.act_eq
      | forward distance =>
        exact hgoes (reaches_of_act hperforms.act_eq) hperforms.answer_eq hlt (by omega)
      | fire event =>
        obtain ⟨fault, c, r', hact, hanswer⟩ | ⟨c, r', hreaches, hanswer⟩ :=
          hperforms.fires_or fun m' hlt => ihroom m'.room (hroom ▸ hlt) m' rfl
        · rw [hanswer]
          exact .here hact
        · exact hgoes hreaches hanswer hlt (by omega)
    · rw [hanswer]
      exact .here hact
  · have hact : m.act = .leaves (.ok ()) m.context m.run := by
      rw [act]
      exact if_pos (Nat.le_of_not_lt hlt)
    have hanswer : m.answer = (none, m.context, m.run) := by
      rw [answer, Invocation.execute]
      exact dif_neg hlt
    rw [hanswer]
    exact .here hact

/-- The active handler finishes with its answer. -/
theorem finishes (m : Moment σ) :
    m.Finishes (m.active.invocation.verdict m.answer.1) m.answer.2.1 m.answer.2.2 :=
  finishes_of_room m.room m rfl

end Moment

/-- What became of a handler of an event. -/
def Ended.handled (e : Ended σ Unit) : Ended σ DispatchOutcome :=
  ⟨e.result.map fun _ => .handled, e.context, e.run⟩

omit [Host σ] in
/-- A fault in handling an event is the fault of its handler. -/
theorem Ended.error_of_handled {e : Ended σ Unit} {report : FaultReport}
    (h : e.handled.result = .error report) : e.result = .error report := by
  unfold handled at h
  dsimp only at h
  cases hresult : e.result with
  | ok u =>
    rw [hresult] at h
    cases h
  | error other =>
    rw [hresult] at h
    cases h
    rfl

namespace Machine

/-- Running code comes to the end of its moments. -/
theorem exists_ends_chunk (m : Machine) (chunk : Chunk) (c : Context) (host : σ) :
    ∃ e, (Moment.ofChunk m chunk c host).Ends e ∧ m.runChunk chunk c host = m.finish e := by
  refine ⟨_, (Moment.ofChunk m chunk c host).finishes.ends rfl, ?_⟩
  rw [runChunk, Invocation.run_eq]
  rfl

/-- Handling an event comes to the end of the moments of its handler. -/
theorem exists_ends_event (m : Machine) {c : Context} {event : String} {args : Arguments}
    {host : σ} {start : Moment σ} (h : Moment.ofEvent? m c event args host = some start) :
    ∃ e, start.Ends e ∧ m.dispatch c event args host = m.finish e.handled := by
  refine ⟨_, start.finishes.ends ?_, ?_⟩ <;>
    obtain ⟨chunk, hchunk, rfl⟩ := Option.map_eq_some_iff.1 h
  · rfl
  · rw [dispatch, dispatchWith, hchunk]
    dsimp only
    rw [Invocation.run_eq]
    rfl

/-- An event without a handler changes nothing. -/
theorem dispatch_of_no_handler (m : Machine) {c : Context} {event : String} (args : Arguments)
    (host : σ) (h : c.definition.script.handler? c.state event = none) :
    m.dispatch c event args host = ⟨.ok .noHandler, c, m, host⟩ := by
  rw [dispatch, dispatchWith, h]
  rfl

end Machine

end EntityScript
