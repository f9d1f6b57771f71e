import EntityScript.Machine.Queue
import EntityScript.Proofs.Bytecode.Compiled
import EntityScript.Proofs.Machine.Course
import EntityScript.Proofs.Machine.Lending

/-!
# Custody of contexts

Contexts go from the host to handlers and back while events are fired at entities that fire events
in turn, in chains and in circles, with any code and with faults anywhere. At every moment of a run
all contexts are accounted for: the one that the active handler works on, those that waiting
handlers keep meanwhile, and those in the host. So an event for an entity whose context is in hand
or lent to someone else finds none, and is refused; only an event of an entity for itself comes
back to the context in hand. When a run is over and its context is given back, everything is where
it was, and so it is after each event of a queue.
-/

namespace EntityScript

open Lender

/-- The entity whose context the handler works on that is above those that wait. The root is the
entity of the outermost one. -/
def bearer (root : EntityId) : List Waiting → EntityId
  | [] => root
  | w :: below =>
    match w.kept with
    | none => bearer root below
    | some (_, id) => id

/-- The contexts that waiting handlers keep, with their entities. -/
def keptBelow (root : EntityId) : List Waiting → List (EntityId × Context)
  | [] => []
  | w :: below =>
    match w.kept with
    | none => keptBelow root below
    | some (own, _) => (bearer root below, own) :: keptBelow root below

/-- The contexts in hand of handlers that wait and of one above them, which works on a context. -/
def inHand (root : EntityId) (waiting : List Waiting) (c : Context) : List (EntityId × Context) :=
  (bearer root waiting, c) :: keptBelow root waiting

variable {σ : Type} [Host σ]

namespace Moment

variable {m m' : Moment σ} {root : EntityId}

/-- The contexts in hand at a moment. -/
def hand (m : Moment σ) (root : EntityId) : List (EntityId × Context) :=
  inHand root m.waiting m.context

variable [Lender σ] {w : σ}

/-- A handler that ends gives its context back, or leaves it to the handler that shares it. -/
theorem custody_resume (htidy : Tidy w) {α : Type} (v : Waiting) (below : List Waiting)
    (result : Except FaultReport α) {c : Context} {r : Run σ}
    (h : Custody w r.host (inHand root (v :: below) c)) :
    Custody w (v.resume below result c r).run.host ((v.resume below result c r).hand root) := by
  unfold Waiting.resume
  unfold inHand bearer keptBelow at h
  cases hkept : v.kept with
  | none =>
    rw [hkept] at h
    change Custody w (r.note result).host _
    rw [Run.note_host]
    exact h
  | some own =>
    rw [hkept] at h
    change Custody w (Host.giveBack (r.note result).host own.2 c) _
    rw [Run.note_host]
    exact h.giveBack htidy

/-- A handler begins with a context in hand. -/
theorem custody_call (htidy : Tidy w) (event : Event) {c : Context}
    {kept : Option (Context × EntityId)}
    (h : Custody w m.run.host (inHand root (⟨m.active, kept⟩ :: m.waiting) c)) :
    Custody w (m.call event c kept).run.host ((m.call event c kept).hand root) := by
  unfold call
  dsimp only
  split
  · exact custody_resume htidy ⟨m.active, kept⟩ m.waiting (.ok ()) h
  · exact h.work (.bindArguments c event.args)

omit [Host σ] [Lender σ] in
/-- A context goes on when an instruction is performed. -/
theorem Performs.continues {x : Instruction} {flow : Flow} {f : Frame} {r : Run σ}
    (h : m.Performs x flow f r) : m.context.Continues f.context :=
  .of_worked (Invocation.perform_worked h.performed)

/-- An instruction leaves every context where it is accounted for. -/
theorem Performs.custody {x : Instruction} {flow : Flow} {f : Frame} {r : Run σ}
    (hperforms : m.Performs x flow f r) (h : Custody w m.run.host (m.hand root)) :
    Custody w r.host (inHand root m.waiting f.context) := by
  rw [hperforms.steps]
  exact h.work hperforms.continues

omit [Lender σ] in
/-- A context goes on when its arguments are released. -/
theorem continues_release (a : Activation) (c : Context) : c.Continues (a.release c) := by
  unfold Activation.release
  split
  · exact .refl c
  · exact .restoreArguments c _

/-- The end of a handler leaves the host as it is. -/
theorem Leaves.host_eq {result : Except FaultReport Unit} {c : Context} {r : Run σ}
    (h : m.Leaves result c r) : r.host = m.run.host := by
  obtain hsame | ⟨id, htaken⟩ := h.host
  · exact hsame
  · exact (away_of_refused htaken).2

/-- The end of a handler leaves every context where it is accounted for. -/
theorem Leaves.custody {result : Except FaultReport Unit} {c : Context} {r : Run σ}
    (hleaves : m.Leaves result c r) (h : Custody w m.run.host (m.hand root)) :
    Custody w r.host (inHand root m.waiting (m.active.release m.context)) := by
  rw [hleaves.host_eq]
  exact h.work (continues_release m.active m.context)

/-- One instruction keeps the account, and so does the end of a handler. -/
theorem Next.custody (htidy : Tidy w) (hnext : m.Next m')
    (h : Custody w m.run.host (m.hand root)) : Custody w m'.run.host (m'.hand root) := by
  obtain honward | ⟨result, c, r, v, below, hact, hwaiting, rfl⟩ := hnext.cases
  · cases honward with
    | forward performs => exact performs.custody h
    | fired performs _ => exact (performs.custody h).fire _ _
    | reentered sends _ => exact custody_call htidy _ (sends.performs.custody h)
    | lent sends _ taken => exact custody_call htidy _ ((sends.performs.custody h).take taken)
    | dropped sends _ taken _ =>
      rw [(away_of_refused taken).2]
      exact sends.performs.custody h
  · have hcustody := (leaves_of_act hact).custody h
    rw [hwaiting] at hcustody
    exact custody_resume htidy v below result hcustody

/-- The account is kept from moment to moment. -/
theorem Reaches.custody (htidy : Tidy w) (hreaches : m.Reaches m')
    (h : Custody w m.run.host (m.hand root)) : Custody w m'.run.host (m'.hand root) :=
  hreaches.keeps (fun hnext => hnext.custody htidy) h

/-- When the outermost handler has ended, the context of the root is all that is in hand. -/
theorem Ends.custody (htidy : Tidy w) {e : Ended σ Unit} (hends : m.Ends e)
    (h : Custody w m.run.host (m.hand root)) :
    Custody w e.run.host [(root, e.context)] := by
  obtain ⟨m', hreaches, hstep⟩ := hends
  have hcustody := hreaches.custody htidy h
  unfold step at hstep
  split at hstep
  · cases hstep
  · cases hstep
  · rename_i result c r hact
    split at hstep
    · rename_i hwaiting
      cases hstep
      have hleaves := leaves_of_act hact
      have hleft := hleaves.custody hcustody
      rw [hwaiting, ← hleaves.context] at hleft
      exact hleft
    · cases hstep

omit [Lender σ] in
/-- How an event comes out that the active handler has handled by a context. -/
def handling (m : Moment σ) (event : Event) (c : Context) : Ended σ DispatchOutcome :=
  dispatchWith m.limits (nestedDispatcher m.limits (m.room - 1))
    (m.active.invocation.base + m.active.stack.size) c event.name event.args m.run

omit [Lender σ] in
/-- A handler that an event calls ends, and the one that called it goes on. -/
theorem reaches_handling (hroom : 0 < m.room) (event : Event) (c : Context)
    (kept : Option (Context × EntityId)) :
    (m.call event c kept).Reaches (Waiting.resume ⟨m.active, kept⟩ m.waiting
      (m.handling event c).result (m.handling event c).context (m.handling event c).run) :=
  reaches_resume (Nat.succ_pred_eq_of_pos hroom).symm (fun m' _ => m'.finishes) event c kept

end Moment

/-- The ways in which an event for an entity can be delivered. -/
inductive Delivery where
  /-- To the context in hand, which belongs to the entity. -/
  | reentry
  /-- To the context of the entity, which the host lends. -/
  | loan
  /-- Not at all, since the context of the entity is lent out. -/
  | refusal
  /-- Not at all, since the entity has no script. -/
  | drop
  deriving DecidableEq

namespace Moment

variable [Lender σ] {m m' : Moment σ} {root : EntityId} {w : σ}

/-- The run once the next instruction is counted. -/
def counted (m : Moment σ) : Run σ := { m.run with steps := m.run.steps + 1 }

/-- The active handler delivers an event to an entity, and leaves such operands. It goes on at the
next instruction, unless the event is refused. -/
inductive Delivers (m : Moment σ) (root : EntityId) (next : ℕ) (event : Event) (target : String)
    (id : EntityId) (stack : Array Value) : Delivery → Prop
  /-- The context in hand, which is that of the entity, is entered once more. Whatever comes of
  it, the handler goes on with what is left of the context. -/
  | reentry {before : Moment σ} (begins : before = m.goOn next ⟨stack, m.context⟩ m.counted)
    (own : m.context.owner = some id) (bears : bearer root m.waiting = id)
    (enters : m.Next (before.call event m.context none))
    (returns : let e := before.handling event m.context
      (before.call event m.context none).Reaches
        (m.goOn next ⟨stack, e.context⟩ (e.run.note e.result))) :
    Delivers m root next event target id stack .reentry
  /-- The context of the entity is taken from the host and entered. Whatever comes of it, what is
  left of it is given back under the same entity. -/
  | loan {before : Moment σ} {c : Context} {host : σ}
    (begins : before = m.goOn next ⟨stack, m.context⟩ { m.counted with host })
    (other : m.context.owner ≠ some id) (here : context? m.run.host id = some c)
    (taken : Host.take m.run.host id = (some c, host))
    (enters : m.Next (before.call event c (some (m.context, id))))
    (returns : let e := before.handling event c
      (before.call event c (some (m.context, id))).Reaches
        (m.goOn next ⟨stack, m.context⟩
          { e.run.note e.result with host := Host.giveBack e.run.host id e.context })) :
    Delivers m root next event target id stack .loan
  /-- The handler faults, and nothing has changed. -/
  | refusal (other : m.context.owner ≠ some id) (away : context? m.run.host id = none)
    (lent : isLent m.run.host id = true)
    (faults : m.act = .leaves (.error (m.active.report (.reentrantDispatch target))) m.context
      m.counted) :
    Delivers m root next event target id stack .refusal
  /-- The handler goes on, and nothing else has changed. -/
  | drop (other : m.context.owner ≠ some id) (away : context? m.run.host id = none)
    (scriptless : isLent m.run.host id = false)
    (goes : m.Next (m.goOn next ⟨stack, m.context⟩ m.counted)) :
    Delivers m root next event target id stack .drop

/-- No event is delivered in two ways. -/
theorem Delivers.unique {next : ℕ} {event : Event} {target : String} {id : EntityId}
    {stack : Array Value} {d d' : Delivery} (h : m.Delivers root next event target id stack d)
    (h' : m.Delivers root next event target id stack d') : d = d' := by
  cases h with
  | reentry _ own =>
    cases h' with
    | reentry => rfl
    | loan _ other | refusal other | drop other => exact absurd own other
  | loan _ other here =>
    cases h' with
    | loan => rfl
    | reentry _ own => exact absurd own other
    | refusal _ away | drop _ away => cases here.symm.trans away
  | refusal other away lent =>
    cases h' with
    | refusal => rfl
    | reentry _ own => exact absurd own other
    | loan _ _ here => cases here.symm.trans away
    | drop _ _ scriptless => cases lent.symm.trans scriptless
  | drop other away scriptless =>
    cases h' with
    | drop => rfl
    | reentry _ own => exact absurd own other
    | loan _ _ here => cases here.symm.trans away
    | refusal _ _ lent => cases lent.symm.trans scriptless

omit [Lender σ] in
/-- What becomes of an event for an entity that the host knows. -/
theorem Sends.act_eq {x : Instruction} {event : Event} {target : String} {id : EntityId}
    {f : Frame} {r : Run σ} (h : m.Sends x event target id f r) : m.act =
      let next := m.active.offset + x.size
      if m.context.owner = some id then
        .goes ((m.goOn next ⟨f.stack, m.context⟩ m.counted).call event m.context none)
      else
        match Host.take m.run.host id with
        | (some c, host) =>
          .goes ((m.goOn next ⟨f.stack, m.context⟩ { m.counted with host }).call event c
            (some (m.context, id)))
        | (none, host) =>
          if Host.hasScript host id then
            .leaves (.error (m.active.report (.reentrantDispatch target))) m.context
              { m.counted with host }
          else .goes (m.goOn next ⟨f.stack, m.context⟩ { m.counted with host }) := by
  obtain ⟨stack, c⟩ := f
  obtain rfl : c = m.context := h.performs.context_eq
  obtain rfl : r = m.counted := h.performs.steps
  rw [h.performs.act_eq]
  dsimp only
  unfold deliver
  rw [h.targeted]
  dsimp only
  rw [h.resolved]
  dsimp only
  rw [if_neg (Nat.not_le_of_lt h.shallow)]
  rfl

/-- Every event for an entity that the host knows is delivered in one way, if the contexts are
accounted for. -/
theorem Sends.delivers (htidy : Tidy w) (hcustody : Custody w m.run.host (m.hand root))
    {x : Instruction} {event : Event} {target : String} {id : EntityId} {f : Frame} {r : Run σ}
    (h : m.Sends x event target id f r) :
    ∃! d, m.Delivers root (m.active.offset + x.size) event target id f.stack d := by
  refine existsUnique_of_exists_of_unique ?_ fun d d' => Delivers.unique
  have hact := h.act_eq
  dsimp only at hact
  generalize m.active.offset + x.size = next at hact ⊢
  have hnext {m' : Moment σ} (hm' : m.act = .goes m') : m.Next m' := by
    rw [Next, step, hm']
  have hroom {f' : Frame} {r' : Run σ} : 0 < (m.goOn next f' r').room := by
    have hshallow := h.shallow
    change 0 < m.limits.dispatchDepth - 1 - m.waiting.length
    omega
  by_cases hown : m.context.owner = some id
  · rw [if_pos hown] at hact
    -- The context in hand belongs to its entity or to none, so it is that of the target.
    have hbears : bearer root m.waiting = id := by
      obtain hnone | hsome := hcustody.owner htidy List.mem_cons_self
      · cases hnone.symm.trans hown
      · exact Option.some.inj (hsome.symm.trans hown)
    exact ⟨.reentry, .reentry rfl hown hbears (hnext hact)
      (reaches_handling hroom event m.context none)⟩
  · rw [if_neg hown] at hact
    cases htaken : Host.take m.run.host id with
    | mk lent host =>
    rw [htaken] at hact
    cases lent with
    | some c =>
      refine ⟨.loan, .loan rfl hown (here_of_taken htaken) htaken (hnext hact) ?_⟩
      have hreaches := reaches_handling (m := m.goOn next ⟨f.stack, m.context⟩
        { m.counted with host }) hroom event c (some (m.context, id))
      unfold Waiting.resume at hreaches
      dsimp only at hreaches
      rw [Run.note_host] at hreaches
      exact hreaches
    | none =>
      obtain ⟨haway, rfl⟩ := away_of_refused htaken
      dsimp only at hact
      rw [hasScript_eq, haway] at hact
      cases hlent : isLent m.run.host id with
      | true =>
        rw [hlent] at hact
        exact ⟨.refusal, .refusal hown haway hlent hact⟩
      | false =>
        rw [hlent] at hact
        exact ⟨.drop, .drop hown haway hlent (hnext hact)⟩

/-- What is promised of a run from some moment on, if the contexts were those of a host at first:
they are accounted for, and every event for an entity is delivered in one way. -/
structure Keeps (start : Moment σ) (w : σ) (root : EntityId) : Prop where
  custody : ∀ m, start.Reaches m → Custody w m.run.host (m.hand root)
  delivery : ∀ m x event target id f r, start.Reaches m → m.Sends x event target id f r →
    ∃! d, m.Delivers root (m.active.offset + x.size) event target id f.stack d

end Moment

section Runs

variable [Lender σ] {w : σ}

/-- A handler that begins with a context that was taken from a tidy host. -/
theorem keeps_of_taken (htidy : Tidy w) {m : Machine} {root : EntityId} {c : Context} {lent : σ}
    {event : String} {args : Arguments} {start : Moment σ}
    (htaken : Host.take w root = (some c, lent))
    (hstart : Moment.ofEvent? m c event args lent = some start) : start.Keeps w root := by
  have hcustody (m' : Moment σ) (hreaches : start.Reaches m') :
      Custody w m'.run.host (m'.hand root) := by
    refine hreaches.custody htidy ?_
    obtain ⟨chunk, -, rfl⟩ := Option.map_eq_some_iff.1 hstart
    exact ((Custody.refl w).take htaken).work (.bindArguments c args)
  exact ⟨hcustody, fun m' x event target id f r hreaches hsends =>
    hsends.delivers htidy (hcustody m' hreaches)⟩

/-- A context that was taken from a tidy host is given back once the event is handled. -/
theorem settled_dispatch (htidy : Tidy w) (m : Machine) {root : EntityId} {c : Context} {lent : σ}
    (event : String) (args : Arguments) (htaken : Host.take w root = (some c, lent)) :
    Settled w (Host.giveBack (m.dispatch c event args lent).host root
      (m.dispatch c event args lent).context) := by
  refine .of_custody (Custody.giveBack ?_ htidy)
  cases hstart : Moment.ofEvent? m c event args lent with
  | none =>
    rw [m.dispatch_of_no_handler args lent (Option.map_eq_none_iff.1 hstart)]
    exact (Custody.refl w).take htaken
  | some start =>
    obtain ⟨e, hends, hdispatch⟩ := m.exists_ends_event hstart
    rw [hdispatch]
    exact hends.custody htidy ((keeps_of_taken htidy htaken hstart).custody start .refl)

/-- Handling a queued event settles the contexts of the host again. -/
theorem EventQueue.settled_handle (htidy : Tidy w) {d : Drained σ} (h : Settled w d.host)
    (e : QueuedEvent) : Settled w (handle d e).host := by
  unfold handle
  split
  · rename_i htaken
    dsimp only
    rw [(away_of_refused htaken).2]
    exact h
  · rename_i htaken
    exact h.trans (settled_dispatch (h.tidy htidy) d.machine e.event e.args htaken)

/-- Handling queued events one after another leaves the contexts settled. -/
theorem EventQueue.settled_handled (htidy : Tidy w) (events : List QueuedEvent) (d : Drained σ)
    (h : Settled w d.host) : Settled w (events.foldl handle d).host := by
  induction events generalizing d with
  | nil => exact h
  | cons e events ih => exact ih (handle d e) (settled_handle htidy h e)

/-- Contexts are neither lost nor doubled, and none is run by two handlers apart. In a run on a
context that was taken from a tidy host, and in every run of a queue on one, each context is in one
place at every moment, and each event for an entity is delivered in one way. When the run is over
and the context is given back, everything is where it was, and so it is before and after each event
of a queue. -/
theorem contexts_kept (htidy : Tidy w) :
    (∀ (m : Machine) root c lent event args, Host.take w root = (some c, lent) →
      (∀ start, Moment.ofEvent? m c event args lent = some start → start.Keeps w root) ∧
      let o := m.dispatch c event args lent
      Settled w (Host.giveBack o.host root o.context)) ∧
    ∀ (q : EventQueue) (m : Machine),
      (∀ past e rest, q.events.toList = past ++ e :: rest →
        let d := past.foldl EventQueue.handle ⟨#[], m, w⟩
        Settled w d.host ∧
          ∀ c lent start, Host.take d.host e.target = (some c, lent) →
            Moment.ofEvent? d.machine c e.event e.args lent = some start →
              start.Keeps d.host e.target) ∧
      Settled w (q.drain m w).1.host := by
  refine ⟨fun m root c lent event args htaken => ⟨fun start => keeps_of_taken htidy htaken,
    settled_dispatch htidy m event args htaken⟩, fun q m => ⟨fun past e rest _ => ?_, ?_⟩⟩
  · have hsettled := EventQueue.settled_handled htidy past ⟨#[], m, w⟩ (.refl w)
    exact ⟨hsettled, fun c lent start => keeps_of_taken (hsettled.tidy htidy)⟩
  · change Settled w (q.events.foldl EventQueue.handle ⟨#[], m, w⟩).host
    rw [← Array.foldl_toList]
    exact EventQueue.settled_handled htidy q.events.toList ⟨#[], m, w⟩ (.refl w)

/-- An entity that rings at another whenever it is rung at. -/
def ringer (id : EntityId) (friend : String) : Context where
  definition := ⟨id, {
    name := "ringer"
    path := "ringer"
    states := ["idle"]
    handlers := .ofList [("idle", .ofList [("ring", {
      name := "idle.ring"
      code := #[0x01, 0x00, 0x40, 0x01, 0x01, 0x00]
      constants := #[.string friend, .string "ring"]
      lines := #[] })])]
    declared := .empty }⟩
  state := "idle"
  bindings := .empty
  owner := some id

/-- Two entities that ring at each other. -/
def ringers : World where
  names := .ofList [("left", 1), ("right", 2)]
  contexts := .ofList [(1, ringer 1 "right"), (2, ringer 2 "left")]
  lent := .empty
  fired := #[]
  population := 2

/-- The ringers keep their contexts tidily. -/
theorem tidy_ringers : Tidy ringers where
  apart _ _ := rfl
  owners id c h := by
    have hmem : (id, c) ∈ [(1, ringer 1 "right"), (2, ringer 2 "left")] :=
      Table.mem_entries_iff.2 h
    obtain heq | hmem := List.mem_cons.1 hmem
    · cases heq
      exact .inr rfl
    · cases List.mem_singleton.1 hmem
      exact .inr rfl

/-- The ringers ring at each other, and their contexts are settled when the queue is drained. -/
theorem contexts_kept_ringers : Tidy ringers ∧
    let drained := ((EventQueue.empty.push 1 "ring" .empty).drain (Machine.new {}) ringers).1
    drained.faults.map (·.fault) = #[.reentrantDispatch "left"] ∧ Settled ringers drained.host :=
  ⟨tidy_ringers, by decide +kernel, ((contexts_kept tidy_ringers).2 _ _).2⟩

end Runs

end EntityScript
