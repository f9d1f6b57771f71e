import EntityScript.Machine.Queue
import EntityScript.Proofs.Machine.Exhausted

/-!
# Reports of faults

The moments of a run, from its first one to its end, are a list, and so are the faults that are
raised at them: in the order in which they happened. A run notes those of nested handlers behind
what was noted before, each where its handler ends, and answers that of the outermost handler, which
is the last one. `Next.faults` says what one step adds, and `Runs.accounts` sums it up.

Draining a queue puts the runs of its events one after another. The faults that it answers are those
of all moments of these runs, nested or not, and before them what the machine had noted when the
first event found its context.
-/

namespace EntityScript

/-- The report of a handler that faulted. -/
def failure? {α : Type} : Except FaultReport α → Option FaultReport
  | .ok _ => none
  | .error report => some report

/-- An instruction that fires is one that is made for it. -/
theorem Invocation.exists_fireEvent {i : Invocation} {f f' : Frame} {x : Instruction}
    {event : Event} (h : i.perform f x = .ok (.fire event, f')) :
    ∃ index flags argc, x = .fireEvent index flags argc := by
  let Fires : Flow × Frame → Prop := fun done =>
    ∀ event, done.1 = .fire event → ∃ index flags argc, x = .fireEvent index flags argc
  have hsilent {flow : Flow} {f : Frame} (h : ∀ event, flow ≠ .fire event) :
      Answers Fires (pure (flow, f) : Except Fault (Flow × Frame)) :=
    .pure fun event hfire => absurd hfire (h event)
  have hforward {distance : ℕ} {f : Frame} :
      Answers Fires (pure (.forward distance, f) : Except Fault (Flow × Frame)) :=
    hsilent fun event h => by cases h
  have hall : Answers Fires (i.perform f x) := by
    cases x with
    | constant index => exact .bind fun v => .bind fun f => hforward
    | binary op => exact .bind fun right => .bind fun left => .bind fun v => .bind fun f => hforward
    | negate => exact .bind fun v => .bind fun v => .bind fun f => hforward
    | not => exact .bind fun v => .bind fun b => .bind fun f => hforward
    | getVariable index => exact .bind fun name => .bind fun f => hforward
    | setVariable index => exact .bind fun name => .bind fun v => hforward
    | getComponent index =>
      exact .bind fun name => .bind fun v => .bind fun v => .bind fun f => hforward
    | pop => exact .bind fun v => hforward
    | fireEvent index flags argc =>
      exact .bind fun done => .pure fun event h => ⟨index, flags, argc, rfl⟩
    | changeState index => exact .bind fun state => .bind fun c => hforward
    | jump distance => exact hforward
    | jumpIfFalse distance => exact .bind fun v => .bind fun b => hforward
    | ret => exact hsilent fun event h => by cases h
  exact hall _ h event rfl

/-- The instruction that a handler performed last fired an event, and the handler goes on with the
next one. -/
def Activation.BehindEvent (a : Activation) : Prop :=
  ∃ offset earlier index flags argc, a.performed = offset :: earlier ∧
    a.chunk.fetch? offset = some (.instruction (.fireEvent index flags argc)) ∧
    a.offset = offset + (Instruction.fireEvent index flags argc).size

variable {σ : Type} [Host σ]

namespace Moment

variable {m m' : Moment σ} {ms : List (Moment σ)} {e : Ended σ Unit}

/-- The fault that is raised at a moment, if the next instruction raises one. -/
def raised? (m : Moment σ) : Option FaultReport :=
  match m.act with
  | .leaves result _ _ => failure? result
  | .goes _ | .crashes => none

/-- Another handler waits for the active one. -/
def isNested (m : Moment σ) : Bool := !m.waiting.isEmpty

/-- The faults that are raised at some moments, in their order. -/
def raised (ms : List (Moment σ)) : List FaultReport := ms.filterMap raised?

/-- Those of them that nested handlers raise. -/
def raisedNested (ms : List (Moment σ)) : List FaultReport := raised (ms.filter isNested)

/-- Those of them that the outermost handler raises. -/
def raisedOutermost (ms : List (Moment σ)) : List FaultReport :=
  raised (ms.filter fun m => !m.isNested)

/-- To have an event handled notes nothing. -/
theorem faults_call (m : Moment σ) (event : Event) (c : Context)
    (kept : Option (Context × EntityId)) : (m.call event c kept).run.faults = m.run.faults := by
  unfold call Waiting.resume
  dsimp only
  split
  · split <;> rfl
  · rfl

omit [Host σ] in
/-- Performing an instruction notes no fault. -/
theorem Performs.faults {x : Instruction} {flow : Flow} {f : Frame} {r : Run σ}
    (h : m.Performs x flow f r) : r.faults = m.run.faults := by
  rw [h.steps]

/-- A moment that leads onward notes no fault. -/
theorem Onward.faults (h : m.Onward m') : m'.run.faults = m.run.faults := by
  cases h with
  | forward performs | fired performs _ => exact performs.faults
  | reentered sends _ | lent sends _ _ => exact (faults_call ..).trans sends.performs.faults
  | dropped sends _ _ _ => exact sends.performs.faults

/-- One step notes the fault that is raised, if there is one. -/
theorem Next.faults (hnext : m.Next m') :
    m'.run.faults.toList = m.run.faults.toList ++ m.raised?.toList := by
  unfold raised?
  cases hact : m.act with
  | goes l =>
    rw [Next, step, hact] at hnext
    cases hnext
    rw [(onward_of_act hact).faults]
    exact (List.append_nil _).symm
  | crashes => exact absurd hact m.act_ne_crashes
  | leaves result c r =>
    have hsame : r.faults = m.run.faults := (leaves_of_act hact).faults
    rw [Next, step, hact] at hnext
    dsimp only at hnext ⊢
    cases hwaiting : m.waiting with
    | nil =>
      rw [hwaiting] at hnext
      cases hnext
    | cons w below =>
      rw [hwaiting] at hnext
      cases hnext
      have hresumed : (w.resume below result (m.active.release c) r).run.faults
          = (r.note result).faults := by
        unfold Waiting.resume
        split <;> rfl
      rw [hresumed]
      cases result with
      | ok u => exact hsame ▸ (List.append_nil _).symm
      | error report =>
        change (r.faults.push report).toList = _
        rw [Array.toList_push, hsame]
        rfl

/-- The outermost handler raises no fault before the last moment. -/
theorem Next.raised?_eq_none (hnext : m.Next m') (houter : m.isNested = false) :
    m.raised? = none := by
  unfold raised?
  cases hact : m.act with
  | goes l => rfl
  | crashes => rfl
  | leaves result c r =>
    have hwaiting : m.waiting = [] := by
      unfold isNested at houter
      simpa using houter
    rw [Next, step, hact] at hnext
    dsimp only at hnext
    rw [hwaiting] at hnext
    cases hnext

/-- The last moment of a run is one of the outermost handler, and its fault is the answer. -/
theorem ends_of_step (h : m.step = .ends e) : m.isNested = false ∧ m.raised? = failure? e.result ∧
    e.run.faults = m.run.faults := by
  unfold step at h
  unfold raised?
  split at h
  · cases h
  · cases h
  · rename_i result c r hact
    split at h
    · rename_i hwaiting
      cases h
      rw [hact]
      refine ⟨?_, rfl, (leaves_of_act hact).faults⟩
      unfold isNested
      rw [hwaiting]
      rfl
    · cases h

/-- The moments of a run, from one of them to its end. -/
inductive Runs : Moment σ → List (Moment σ) → Ended σ Unit → Prop
  | last {m : Moment σ} {e : Ended σ Unit} (ends : m.step = .ends e) : Runs m [m] e
  | next {m m' : Moment σ} {ms : List (Moment σ)} {e : Ended σ Unit} (next : m.Next m')
    (rest : Runs m' ms e) : Runs m (m :: ms) e

/-- A run that ends has moments from its first one to its end. -/
theorem Ends.exists_runs (h : m.Ends e) : ∃ ms, m.Runs ms e := by
  obtain ⟨m', hreaches, hstep⟩ := h
  induction hreaches using Relation.ReflTransGen.head_induction_on with
  | refl => exact ⟨[m'], .last hstep⟩
  | head hnext _ ih =>
    obtain ⟨ms, hruns⟩ := ih
    exact ⟨_ :: ms, .next hnext hruns⟩

/-- The faults raised at some moments are those of the first and of the rest. -/
theorem raised_cons (m : Moment σ) (ms : List (Moment σ)) :
    raised (m :: ms) = m.raised?.toList ++ raised ms := by
  unfold raised
  rw [List.filterMap_cons]
  cases m.raised? <;> rfl

/-- What a run has noted at its end: the faults noted before, and those that nested handlers raised.
The outermost handler raises none before the end, and there the one that is answered. -/
structure Accounts (m : Moment σ) (ms : List (Moment σ)) (e : Ended σ Unit) : Prop where
  noted : e.run.faults.toList = m.run.faults.toList ++ raisedNested ms
  answered : (failure? e.result).toList = raisedOutermost ms
  ordered : raised ms = raisedNested ms ++ raisedOutermost ms

/-- The last moment of a run accounts for what it notes and answers. -/
theorem Accounts.last (ends : m.step = .ends e) : Accounts m [m] e := by
  obtain ⟨houter, hraised, hfaults⟩ := ends_of_step ends
  have hnested : raisedNested [m] = [] := by
    simp [raisedNested, raised, houter]
  have houtermost : raisedOutermost [m] = raised [m] := by
    simp [raisedOutermost, houter]
  refine ⟨?_, ?_, ?_⟩
  · rw [hnested, hfaults, List.append_nil]
  · rw [houtermost, raised_cons, hraised]
    exact (List.append_nil _).symm
  · rw [hnested, houtermost]
    rfl

/-- A moment accounts for what it raises if the following ones account for the rest. -/
theorem Accounts.next (next : m.Next m') (h : Accounts m' ms e) : Accounts m (m :: ms) e := by
  have hstep := next.faults
  cases hnested : m.isNested with
  | true =>
    have hcons : raisedNested (m :: ms) = m.raised?.toList ++ raisedNested ms := by
      unfold raisedNested
      rw [List.filter_cons_of_pos hnested, raised_cons]
    have houtermost : raisedOutermost (m :: ms) = raisedOutermost ms := by
      simp [raisedOutermost, hnested]
    refine ⟨?_, houtermost ▸ h.answered, ?_⟩
    · rw [h.noted, hstep, hcons, List.append_assoc]
    · rw [raised_cons, h.ordered, hcons, houtermost, List.append_assoc]
  | false =>
    have hnone := next.raised?_eq_none hnested
    have hsame : raisedNested (m :: ms) = raisedNested ms := by
      simp [raisedNested, hnested]
    have houtermost : raisedOutermost (m :: ms) = raisedOutermost ms := by
      simp [raisedOutermost, hnested, raised_cons, hnone]
    refine ⟨?_, houtermost ▸ h.answered, ?_⟩
    · rw [h.noted, hstep, hsame, hnone]
      simp
    · rw [raised_cons, h.ordered, hsame, houtermost, hnone]
      rfl

/-- The faults of a run are accounted for. -/
theorem Runs.accounts (h : m.Runs ms e) : Accounts m ms e := by
  induction h with
  | last ends => exact .last ends
  | next next _ ih => exact ih.next next

/-- A handler that waits goes on behind the instruction by which it fired. -/
theorem Next.behindEvent (hnext : m.Next m')
    (h : ∀ w ∈ m.waiting, w.activation.BehindEvent) :
    ∀ w ∈ m'.waiting, w.activation.BehindEvent := by
  have hcall {x : Instruction} {event : Event} {f : Frame} {r r' : Run σ}
      (performs : m.Performs x (.fire event) f r) (c : Context)
      (kept : Option (Context × EntityId)) :
      ∀ w ∈ ((m.goOn (m.active.offset + x.size) f r').call event c kept).waiting,
        w.activation.BehindEvent := by
    unfold call
    dsimp only
    split
    · rw [Waiting.waiting_resume]
      exact h
    · obtain ⟨index, flags, argc, rfl⟩ := Invocation.exists_fireEvent performs.performed
      exact List.forall_mem_cons.2
        ⟨⟨m.active.offset, _, index, flags, argc, rfl, performs.fetched, rfl⟩, h⟩
  obtain honward | ⟨result, c, r, w, below, -, hwaiting, rfl⟩ := hnext.cases
  · cases honward with
    | forward performs => exact h
    | fired performs _ => exact h
    | reentered sends _ => exact hcall sends.performs _ _
    | lent sends _ _ => exact hcall sends.performs _ _
    | dropped sends _ _ _ => exact h
  · rw [Waiting.waiting_resume]
    rw [hwaiting] at h
    exact (List.forall_mem_cons.1 h).2

/-- Behind the fault of a nested handler the next moment is one of the handler that fired the event,
behind the instruction by which it did. -/
def ResumesAfter (ms : List (Moment σ)) : Prop :=
  ∀ past m later report, ms = past ++ m :: later → m.isNested = true → m.raised? = some report →
    ∃ w below m' rest, m.waiting = w :: below ∧ later = m' :: rest ∧ m'.active = w.activation ∧
      m'.waiting = below ∧ w.activation.BehindEvent

/-- The moments of a run begin with the one that it is at. -/
theorem Runs.exists_cons (h : m.Runs ms e) : ∃ rest, ms = m :: rest := by
  cases h with
  | last => exact ⟨[], rfl⟩
  | next => exact ⟨_, rfl⟩

/-- The moment that follows a fault is one of the handler that waited last. -/
theorem Next.resumed {report : FaultReport} (hnext : m.Next m')
    (hraised : m.raised? = some report) :
    ∃ w below, m.waiting = w :: below ∧ m'.active = w.activation ∧ m'.waiting = below := by
  unfold raised? at hraised
  cases hact : m.act with
  | goes l =>
    rw [hact] at hraised
    cases hraised
  | crashes => exact absurd hact m.act_ne_crashes
  | leaves result c r =>
    rw [Next, step, hact] at hnext
    dsimp only at hnext
    cases hwaiting : m.waiting with
    | nil =>
      rw [hwaiting] at hnext
      cases hnext
    | cons w below =>
      rw [hwaiting] at hnext
      cases hnext
      exact ⟨w, below, rfl, w.active_resume .., w.waiting_resume ..⟩

/-- Behind the fault of a nested handler the one that caused it goes on, in every run. -/
theorem Runs.resumesAfter (h : m.Runs ms e) (hbehind : ∀ w ∈ m.waiting, w.activation.BehindEvent) :
    ResumesAfter ms := by
  induction h with
  | @last m e ends =>
    intro past l later report hms hnested _
    obtain ⟨houter, -, -⟩ := ends_of_step ends
    obtain rfl : l = m := List.mem_singleton.1 (hms ▸ List.mem_append_right _ List.mem_cons_self)
    cases houter.symm.trans hnested
  | @next m m' ms e next rest ih =>
    intro past l later report hms hnested hraised
    cases past with
    | cons first past =>
      obtain ⟨-, hrest⟩ := List.cons.inj hms
      exact ih (next.behindEvent hbehind) past l later report hrest hnested hraised
    | nil =>
      obtain ⟨rfl, rfl⟩ := List.cons.inj hms
      obtain ⟨tail, rfl⟩ := rest.exists_cons
      obtain ⟨w, below, hwaiting, hactive, hbelow⟩ := next.resumed hraised
      exact ⟨w, below, m', tail, hwaiting, rfl, hactive, hbelow,
        hbehind w (hwaiting ▸ List.mem_cons_self)⟩

end Moment

open Moment

/-- A machine keeps what it had noted before a run and behind it the faults of the nested handlers.
The fault of the outermost handler is the last one, and it is only answered. A handler goes on
behind the fault of one that it caused. -/
structure Outcome.Reports {α : Type} (o : Outcome σ α) (m : Machine) (ms : List (Moment σ)) :
    Prop where
  kept : o.machine.faults.toList = m.faults.toList ++ raisedNested ms
  answered : (failure? o.result).toList = raisedOutermost ms
  ordered : raised ms = raisedNested ms ++ raisedOutermost ms
  resumes : ResumesAfter ms

namespace Machine

variable {m : Machine} {start : Moment σ} {ms : List (Moment σ)} {e : Ended σ Unit}

/-- A machine that runs from such a start reports what the run accounts for. -/
theorem reports_finish (hruns : start.Runs ms e) (hfaults : start.run.faults = m.faults)
    (hwaiting : start.waiting = []) : (m.finish e).Reports m ms := by
  obtain ⟨hnoted, hanswered, hordered⟩ := hruns.accounts
  refine ⟨hfaults ▸ hnoted, hanswered, hordered, hruns.resumesAfter ?_⟩
  rw [hwaiting]
  exact fun w hw => nomatch hw

omit [Host σ] in
/-- Handling an event fails with the report of its handler. -/
theorem failure?_handled : failure? e.handled.result = failure? e.result := by
  unfold Ended.handled
  cases e.result <;> rfl

/-- The run of a handler reports its faults. -/
theorem exists_runs_event {c : Context} {event : String} {args : Arguments} {host : σ}
    (h : ofEvent? m c event args host = some start) :
    ∃ ms e, start.Runs ms e ∧ m.dispatch c event args host = m.finish e.handled ∧
      (m.dispatch c event args host).Reports m ms := by
  obtain ⟨e, hends, hdispatch⟩ := m.exists_ends_event h
  obtain ⟨ms, hruns⟩ := hends.exists_runs
  refine ⟨ms, e, hruns, hdispatch, ?_⟩
  obtain ⟨chunk, -, rfl⟩ := Option.map_eq_some_iff.1 h
  obtain ⟨hkept, hanswered, hordered, hresumes⟩ :=
    reports_finish (m := m) hruns rfl rfl
  rw [hdispatch]
  exact ⟨hkept, failure?_handled ▸ hanswered, hordered, hresumes⟩

end Machine

namespace EventQueue

variable {d d' d'' : Drained σ} {e : QueuedEvent} {ms ms' : List (Moment σ)}

/-- The host has the context of the target of an event, so that the event is not dropped. -/
def dispatches (d : Drained σ) (e : QueuedEvent) : Bool := (Host.take d.host e.target).1.isSome

/-- At least one event is not dropped when they are handled one after another. -/
def anyDispatched (d : Drained σ) : List QueuedEvent → Bool
  | [] => false
  | e :: events => dispatches d e || anyDispatched (handle d e) events

/-- The moments at which a queued event is handled. There are none if the host has no context for
it, or the context no handler. -/
inductive Course (d : Drained σ) (e : QueuedEvent) : List (Moment σ) → Prop
  | dropped {host : σ} (taken : Host.take d.host e.target = (none, host)) : Course d e []
  | ignored {c : Context} {host : σ} (taken : Host.take d.host e.target = (some c, host))
    (ignores : ofEvent? d.machine c e.event e.args host = none) : Course d e []
  | handled {c : Context} {host : σ} {start : Moment σ} {ms : List (Moment σ)}
    {ended : Ended σ Unit} (taken : Host.take d.host e.target = (some c, host))
    (begins : ofEvent? d.machine c e.event e.args host = some start)
    (runs : start.Runs ms ended) : Course d e ms

/-- The moments at which queued events are handled, one event after another. -/
inductive Courses : Drained σ → List QueuedEvent → List (Moment σ) → Prop
  | nil {d : Drained σ} : Courses d [] []
  | cons {d : Drained σ} {e : QueuedEvent} {events : List QueuedEvent} {ms ms' : List (Moment σ)}
    (first : Course d e ms) (rest : Courses (handle d e) events ms') :
    Courses d (e :: events) (ms ++ ms')

/-- What a part of the draining adds to the answer: if an event was dispatched, all that the machine
had noted, and the faults raised meanwhile. Otherwise nothing, and the machine is the same. -/
structure Collects (dispatched : Bool) (d d' : Drained σ) (ms : List (Moment σ)) : Prop where
  emptied : dispatched = true → d'.machine.faults = #[] ∧
    d'.faults.toList = d.faults.toList ++ (d.machine.faults.toList ++ raised ms)
  unused : dispatched = false → d'.machine = d.machine ∧ d'.faults = d.faults ∧ ms = []

/-- What two parts of the draining collect adds up. -/
theorem Collects.trans {b b' : Bool} (h : Collects b d d' ms) (h' : Collects b' d' d'' ms') :
    Collects (b || b') d d'' (ms ++ ms') := by
  have happend : raised (ms ++ ms') = raised ms ++ raised ms' := List.filterMap_append
  cases b with
  | false =>
    obtain ⟨hmachine, hfaults, rfl⟩ := h.unused rfl
    refine ⟨fun hb => ?_, fun hb => ?_⟩
    · obtain ⟨hempty, hall⟩ := h'.emptied hb
      exact ⟨hempty, by rw [hall, hmachine, hfaults, List.nil_append]⟩
    · obtain ⟨hmachine', hfaults', rfl⟩ := h'.unused hb
      exact ⟨hmachine'.trans hmachine, hfaults'.trans hfaults, rfl⟩
  | true =>
    obtain ⟨hempty, hall⟩ := h.emptied rfl
    refine ⟨fun _ => ?_, fun hb => nomatch hb⟩
    cases b' with
    | false =>
      obtain ⟨hmachine, hfaults, rfl⟩ := h'.unused rfl
      rw [hmachine, hfaults, List.append_nil]
      exact ⟨hempty, hall⟩
    | true =>
      obtain ⟨hempty', hall'⟩ := h'.emptied rfl
      refine ⟨hempty', ?_⟩
      rw [hall', hall, hempty, happend]
      simp only [List.nil_append, List.append_assoc]

/-- A queued event has moments at which it is handled, and what it raises there is collected. -/
theorem exists_course (d : Drained σ) (e : QueuedEvent) :
    ∃ ms, Course d e ms ∧ Collects (dispatches d e) d (handle d e) ms := by
  unfold dispatches handle
  cases htaken : Host.take d.host e.target with
  | mk lent host =>
  cases lent with
  | none => exact ⟨[], .dropped htaken, fun hb => (nomatch hb), fun _ => ⟨rfl, rfl, rfl⟩⟩
  | some c =>
  dsimp only [Machine.takeFaults]
  cases hbegins : ofEvent? d.machine c e.event e.args host with
  | none =>
    refine ⟨[], .ignored htaken hbegins, fun _ => ⟨rfl, ?_⟩, fun hb => nomatch hb⟩
    rw [d.machine.dispatch_of_no_handler e.args host (Option.map_eq_none_iff.1 hbegins)]
    dsimp only
    rw [Array.toList_appendList]
    exact congrArg _ (List.append_nil _).symm
  | some start =>
    obtain ⟨ms, ended, hruns, -, hreports⟩ := Machine.exists_runs_event hbegins
    refine ⟨ms, .handled htaken hbegins hruns, fun _ => ⟨rfl, ?_⟩, fun hb => nomatch hb⟩
    rw [hreports.ordered, ← List.append_assoc d.machine.faults.toList, ← hreports.kept,
      ← hreports.answered]
    cases (d.machine.dispatch c e.event e.args host).result with
    | ok o => simp [failure?]
    | error report => simp [failure?]

/-- Queued events have moments at which they are handled, and what they raise there is collected. -/
theorem exists_courses (events : List QueuedEvent) : ∀ d : Drained σ, ∃ ms, Courses d events ms ∧
    Collects (anyDispatched d events) d (events.foldl handle d) ms := by
  induction events with
  | nil => exact fun d => ⟨[], .nil, fun hb => (nomatch hb), fun _ => ⟨rfl, rfl, rfl⟩⟩
  | cons e events ih =>
    intro d
    obtain ⟨ms, hfirst, hcollects⟩ := exists_course d e
    obtain ⟨ms', hrest, hcollects'⟩ := ih (handle d e)
    exact ⟨ms ++ ms', .cons hfirst hrest, hcollects.trans hcollects'⟩

end EventQueue

open EventQueue in
/-- Every fault is reported once, and in the order in which they happen: by the machine if a nested
handler raised it, by the answer if the outermost one did, and by the answer of a drain in any
case. A nested handler that faults ends alone. -/
theorem Machine.reports_faults (m : Machine) (host : σ) :
    (∀ c event args, match ofEvent? m c event args host with
      | none => m.dispatch c event args host = ⟨.ok .noHandler, c, m, host⟩
      | some start => ∃ ms e, start.Runs ms e ∧ m.dispatch c event args host = m.finish e.handled ∧
        (m.dispatch c event args host).Reports m ms) ∧
    (∀ chunk c, ∃ ms e, (ofChunk m chunk c host).Runs ms e ∧ m.runChunk chunk c host = m.finish e ∧
      (m.runChunk chunk c host).Reports m ms) ∧
    ∀ q : EventQueue, ∃ ms, Courses ⟨#[], m, host⟩ q.events.toList ms ∧
      let d := (q.drain m host).1
      if anyDispatched ⟨#[], m, host⟩ q.events.toList then
        d.faults.toList = m.faults.toList ++ raised ms ∧ d.machine.faults = #[]
      else d.faults = #[] ∧ d.machine.faults = m.faults := by
  refine ⟨fun c event args => ?_, fun chunk c => ?_, fun q => ?_⟩
  · cases hbegins : ofEvent? m c event args host with
    | none => exact m.dispatch_of_no_handler args host (Option.map_eq_none_iff.1 hbegins)
    | some start => exact Machine.exists_runs_event hbegins
  · obtain ⟨e, hends, hrun⟩ := m.exists_ends_chunk chunk c host
    obtain ⟨ms, hruns⟩ := hends.exists_runs
    exact ⟨ms, e, hruns, hrun, hrun ▸ reports_finish hruns rfl rfl⟩
  · obtain ⟨ms, hcourses, hemptied, hunused⟩ :=
      exists_courses q.events.toList (⟨#[], m, host⟩ : Drained σ)
    refine ⟨ms, hcourses, ?_⟩
    unfold drain
    rw [← Array.foldl_toList]
    dsimp only
    split
    · next hany =>
      obtain ⟨hempty, hall⟩ := hemptied hany
      exact ⟨hall, hempty⟩
    · next hany =>
      obtain ⟨hmachine, hfaults, -⟩ := hunused (Bool.eq_false_iff.2 hany)
      exact ⟨hfaults, hmachine ▸ rfl⟩

end EntityScript
