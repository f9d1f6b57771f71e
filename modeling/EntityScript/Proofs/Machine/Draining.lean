import EntityScript.Proofs.Machine.Custody
import EntityScript.Proofs.Machine.Reported
import EntityScript.Proofs.Machine.Reused

/-!
# Draining a queue

Events are pushed behind those that wait and taken from the front. Draining takes one event after
another until none waits. Between two events the registers are at rest, so it makes no difference
whether an event is handled in the same drain as the one before it or in the next: what a drain
hands on to the next event is the registers and the host, and what it answers only grows at its
end.

Here a drain goes on registers that outlive it, with a host that is watched: all that was asked of
it is written down, before the drain and during it.
-/

namespace EntityScript

/-- A host with what was asked of it, and what was asked earlier. -/
def Witnessed.behind {σ : Type} (h : Witnessed σ) (earlier : List Request) : Witnessed σ :=
  { h with requests := h.requests ++ earlier }

/-- Registers and a host that is watched, and the faults answered so far. -/
structure Draining (σ : Type) where
  faults : Array FaultReport
  registers : Registers
  host : Witnessed σ

namespace EventQueue

/-- Adds events behind those that wait, one after another. -/
def pushAll (q : EventQueue) (events : List QueuedEvent) : EventQueue :=
  events.foldl (fun q e => q.push e.target e.event e.args) q

/-- Takes the event that has waited longest. -/
def pop? (q : EventQueue) : Option (QueuedEvent × EventQueue) :=
  match q.events.toList with
  | [] => none
  | e :: rest => some (e, ⟨rest.toArray⟩)

/-- Events that are pushed go behind those that wait, in their order. -/
theorem toList_pushAll (events : List QueuedEvent) : ∀ q : EventQueue,
    (q.pushAll events).events.toList = q.events.toList ++ events := by
  induction events with
  | nil => exact fun q => (List.append_nil _).symm
  | cons e events ih =>
    intro q
    rw [pushAll, List.foldl_cons, ← pushAll, ih, push, Array.toList_push, List.append_assoc]
    rfl

/-- Taking an event off a queue makes it shorter. -/
theorem size_of_pop? {q rest : EventQueue} {e : QueuedEvent} (h : q.pop? = some (e, rest)) :
    rest.events.size < q.events.size := by
  unfold pop? at h
  rw [← q.events.length_toList]
  split at h
  · cases h
  · next rest hevents =>
    cases h
    rw [hevents]
    exact Nat.lt_succ_self _

end EventQueue

namespace Draining

variable {σ : Type} [Host σ] {d d' : Draining σ}

/-- The faults of a run are answered, those of nested handlers first, and its context goes back to
the host. -/
def finish (d : Draining σ) (id : EntityId) (host : Witnessed σ)
    (left : Left σ DispatchOutcome) : Draining σ where
  faults := d.faults ++ left.registers.takeFaults.1 ++ (failure? left.result).toArray
  registers := left.registers.takeFaults.2
  host := (left.host.behind host.requests).giveBack id left.context

/-- Handles one event, or drops it if the host has no context for it. -/
noncomputable def handle (d : Draining σ) (e : QueuedEvent) : Option (Draining σ) :=
  match d.host.take e.target with
  | (none, host) => some { d with host }
  | (some c, host) =>
    (d.registers.dispatch c e.event e.args host.host).map (d.finish e.target host)

/-- Handles the event that has waited longest, as long as one waits. -/
noncomputable def drain (d : Draining σ) (q : EventQueue) : Option (Draining σ × EventQueue) :=
  match h : q.pop? with
  | none => some (d, q)
  | some (e, rest) =>
    have := EventQueue.size_of_pop? h
    (d.handle e).bind fun d => d.drain rest
termination_by q.events.size

/-- What becomes of one event: the host has no context for it and it is dropped, or it is
dispatched, and whether there is a fault or not the context goes back to the host. -/
inductive Handles (d : Draining σ) (e : QueuedEvent) : Draining σ → Prop
  | drops {host : Witnessed σ} (taken : d.host.take e.target = (none, host)) :
    Handles d e { d with host }
  | dispatches {c : Context} {host : Witnessed σ} {left : Left σ DispatchOutcome}
    (taken : d.host.take e.target = (some c, host))
    (ran : d.registers.dispatch c e.event e.args host.host = some left) :
    Handles d e (d.finish e.target host left)

/-- Every event is handled, once and in this order. -/
inductive HandlesAll : Draining σ → List QueuedEvent → Draining σ → Prop
  | nil {d : Draining σ} : HandlesAll d [] d
  | cons {d d' d'' : Draining σ} {e : QueuedEvent} {events : List QueuedEvent}
    (first : Handles d e d') (rest : HandlesAll d' events d'') : HandlesAll d (e :: events) d''

/-- Handling an event is all that happens to it. -/
theorem handles_of_handle {e : QueuedEvent} (h : d.handle e = some d') : d.Handles e d' := by
  unfold handle at h
  cases htaken : d.host.take e.target with
  | mk lent host =>
  rw [htaken] at h
  cases lent with
  | none =>
    cases h
    exact .drops htaken
  | some c =>
    obtain ⟨left, hran, rfl⟩ := Option.map_eq_some_iff.1 h
    exact .dispatches htaken hran

/-- Handling events one after another handles all of them. -/
theorem handlesAll_of_foldlM {events : List QueuedEvent} : ∀ {d : Draining σ},
    events.foldlM handle d = some d' → d.HandlesAll events d' := by
  induction events with
  | nil =>
    intro d h
    cases h
    exact .nil
  | cons e events ih =>
    intro d h
    obtain ⟨d₁, hfirst, hrest⟩ := Option.bind_eq_some_iff.1 h
    exact .cons (handles_of_handle hfirst) (ih hrest)

/-- Draining goes over the events from the first to the last, and leaves none. -/
theorem drain_eq (events : List QueuedEvent) : ∀ (d : Draining σ) (q : EventQueue),
    q.events.toList = events → d.drain q = (events.foldlM handle d).map (·, .empty) := by
  induction events with
  | nil =>
    intro d q hevents
    have hpop : q.pop? = none := by
      rw [EventQueue.pop?, hevents]
    have hq : q = .empty := congrArg EventQueue.mk (Array.toList_inj.1 hevents)
    unfold drain
    split
    · rw [hq]
      rfl
    · next hsome => cases hpop.symm.trans hsome
  | cons e events ih =>
    intro d q hevents
    have hpop : q.pop? = some (e, ⟨events.toArray⟩) := by
      rw [EventQueue.pop?, hevents]
    unfold drain
    split
    · next hnone => cases hpop.symm.trans hnone
    · next e' rest hsome =>
      obtain ⟨rfl, rfl⟩ := Prod.mk.inj (Option.some.inj (hpop.symm.trans hsome))
      rw [List.foldlM_cons]
      cases d.handle e with
      | none => rfl
      | some d₁ => exact ih d₁ _ rfl

/-- What is left of a drain, without what was asked of the host. -/
def emptied (d : Draining σ) : Emptied σ := ⟨d.faults, d.registers, d.host.host⟩

/-- What was asked of the host does not matter to what an event comes to. -/
theorem handle_emptied (d : Draining σ) (e : QueuedEvent) :
    (d.handle e).map emptied = EventQueue.handleOn d.emptied e := by
  unfold handle EventQueue.handleOn Witnessed.take
  dsimp only [emptied]
  cases Host.take d.host.host e.target with
  | mk lent host =>
  cases lent with
  | none => rfl
  | some c =>
    dsimp only
    cases d.registers.dispatch c e.event e.args host with
    | none => rfl
    | some left =>
      obtain ⟨result, context, registers, after⟩ := left
      cases result with
      | ok o =>
        dsimp only [Option.map_some, finish, failure?, Option.toArray]
        rw [Array.append_empty]
        rfl
      | error report => rfl

variable {limits : Limits} {g : Registers}

/-- An event is always handled, and with the outcome that the machine answers. -/
theorem exists_handle (h : d.registers.Ready limits) (e : QueuedEvent) :
    ∃ d', d.handle e = some d' ∧ d'.registers.Ready limits ∧
      d'.emptied.drained = EventQueue.handle d.emptied.drained e := by
  obtain ⟨left, hhandled, hready, hdrained⟩ :=
    Registers.Ready.exists_handleOn (d := d.emptied) h e
  rw [← handle_emptied] at hhandled
  obtain ⟨d', hd', rfl⟩ := Option.map_eq_some_iff.1 hhandled
  exact ⟨d', hd', hready, hdrained⟩

/-- Events one after another are always handled, and with the outcome that the machine answers. -/
theorem exists_foldlM (events : List QueuedEvent) : ∀ {d : Draining σ},
    d.registers.Ready limits → ∃ d', events.foldlM handle d = some d' ∧
      d'.registers.Ready limits ∧
      d'.emptied.drained = events.foldl EventQueue.handle d.emptied.drained := by
  induction events with
  | nil => exact fun h => ⟨_, rfl, h, rfl⟩
  | cons e events ih =>
    intro d h
    obtain ⟨d₁, hfirst, hready₁, hdrained₁⟩ := exists_handle h e
    obtain ⟨d', hrest, hready, hdrained⟩ := ih hready₁
    refine ⟨d', Option.bind_eq_some_iff.2 ⟨d₁, hfirst, hrest⟩, hready, ?_⟩
    rw [hdrained, hdrained₁]
    rfl

/-- A drain with faults in front of those that it has answered. -/
def onTop (old : Array FaultReport) (d : Draining σ) : Draining σ :=
  { d with faults := old ++ d.faults }

/-- The faults answered so far do not matter to what an event comes to. -/
theorem handle_onTop (old : Array FaultReport) (d : Draining σ) (e : QueuedEvent) :
    (d.onTop old).handle e = (d.handle e).map (onTop old) := by
  have hfinish (id : EntityId) (host : Witnessed σ) :
      (d.onTop old).finish id host = onTop old ∘ d.finish id host := by
    funext left
    unfold Function.comp finish onTop
    dsimp only
    congr 1
    refine Array.toList_inj.1 ?_
    simp only [Array.toList_append, Array.toList_appendList, List.append_assoc]
  have hhost : (d.onTop old).host = d.host := rfl
  have hregisters : (d.onTop old).registers = d.registers := rfl
  unfold handle
  rw [hhost, hregisters]
  cases d.host.take e.target with
  | mk lent host =>
  cases lent with
  | none => rfl
  | some c =>
    dsimp only
    rw [hfinish, Option.map_map]

/-- The faults answered so far do not matter to what events come to. -/
theorem foldlM_onTop (old : Array FaultReport) (events : List QueuedEvent) : ∀ d : Draining σ,
    events.foldlM handle (d.onTop old) = (events.foldlM handle d).map (onTop old) := by
  induction events with
  | nil => exact fun d => rfl
  | cons e events ih =>
    intro d
    rw [List.foldlM_cons, List.foldlM_cons, handle_onTop]
    cases d.handle e with
    | none => rfl
    | some d₁ => exact ih d₁

/-- What a drain of some events comes to: each of them is handled, in the order in which they were
pushed, and no event is left. The registers are at rest, and it is what the machine answers. -/
structure Drains (limits : Limits) (g : Registers) (host : Witnessed σ)
    (events : List QueuedEvent) (d : Draining σ) : Prop where
  ended : drain ⟨#[], g, host⟩ (EventQueue.empty.pushAll events) = some (d, .empty)
  handled : HandlesAll ⟨#[], g, host⟩ events d
  ready : d.registers.Ready limits
  machine : (EventQueue.empty.pushAll events).drain g.machine host.host
    = (d.emptied.drained, .empty)

/-- Handling all events of a queue is draining it. -/
theorem drains_of_foldlM {host : Witnessed σ} {events : List QueuedEvent} {d : Draining σ}
    (h : g.Ready limits) (hfold : events.foldlM handle ⟨#[], g, host⟩ = some d) :
    Drains limits g host events d := by
  have hevents : (EventQueue.empty.pushAll events).events.toList = events :=
    EventQueue.toList_pushAll events .empty
  obtain ⟨d', hfold', hready, hdrained⟩ :=
    exists_foldlM (d := ⟨#[], g, host⟩) events h
  obtain rfl := Option.some.inj (hfold'.symm.trans hfold)
  refine ⟨?_, handlesAll_of_foldlM hfold, hready, ?_⟩
  · rw [drain_eq events _ _ hevents, hfold]
    rfl
  · rw [EventQueue.drain, ← Array.foldl_toList, hevents, hdrained]
    rfl

/-- Every queue is drained. -/
theorem exists_drains (h : g.Ready limits) (host : Witnessed σ) (events : List QueuedEvent) :
    ∃ d, Drains limits g host events d := by
  obtain ⟨d, hfold, -, -⟩ := exists_foldlM (d := ⟨#[], g, host⟩) events h
  exact ⟨d, drains_of_foldlM h hfold⟩

/-- Events that are drained behind others go on with the registers and the host that these left,
and what is answered is behind what was answered of them. -/
theorem Drains.append {host : Witnessed σ} {first second : List QueuedEvent} {d₁ d₂ : Draining σ}
    (h : g.Ready limits) (h₁ : Drains limits g host first d₁)
    (h₂ : Drains limits d₁.registers d₁.host second d₂) :
    Drains limits g host (first ++ second) (d₂.onTop d₁.faults) := by
  have hfold {g : Registers} {host : Witnessed σ} {events : List QueuedEvent} {d : Draining σ}
      (h : Drains limits g host events d) : events.foldlM handle ⟨#[], g, host⟩ = some d := by
    have hended := h.ended
    rw [drain_eq events _ _ (EventQueue.toList_pushAll events .empty)] at hended
    obtain ⟨d', hd', heq⟩ := Option.map_eq_some_iff.1 hended
    exact (Prod.mk.inj heq).1 ▸ hd'
  refine drains_of_foldlM h ?_
  have hmiddle : d₁ = onTop d₁.faults ⟨#[], d₁.registers, d₁.host⟩ := by
    unfold onTop
    rw [Array.append_empty]
  rw [List.foldlM_append, hfold h₁]
  change second.foldlM handle d₁ = _
  rw [hmiddle, foldlM_onTop, hfold h₂]
  rfl

end Draining

open Draining in
/-- A queue is drained in the order in which the events arrived, each of them once, whether there
are faults or not. To drain events together is to drain some of them and then the others: the same
is asked of the host, it and the registers are the same at the end, and the faults that are answered
are those of the first drain and behind them those of the second. -/
theorem Registers.drains_in_order {σ : Type} [Host σ] {limits : Limits} {g : Registers}
    (used : g.Used limits) (host : Witnessed σ) :
    (∀ events, ∃ d, Drains limits g host events d) ∧
    ∀ first second, ∃ d₁ d₂ d, Drains limits g host first d₁ ∧
      Drains limits d₁.registers d₁.host second d₂ ∧ Drains limits g host (first ++ second) d ∧
      d.host = d₂.host ∧ d.registers = d₂.registers ∧ d.faults = d₁.faults ++ d₂.faults := by
  refine ⟨exists_drains used.ready host, fun first second => ?_⟩
  obtain ⟨d₁, h₁⟩ := exists_drains used.ready host first
  obtain ⟨d₂, h₂⟩ := exists_drains h₁.ready d₁.host second
  exact ⟨d₁, d₂, _, h₁, h₂, h₁.append used.ready h₂, rfl, rfl, rfl⟩

/-- Two entities that ring at each other, drained together and one after the other. -/
theorem Registers.drains_in_order_ringers : (Registers.new {}).Used {} ∧
    ∃ d₁ d₂ d : Draining World,
      d₁.faults.map (·.fault) = #[.reentrantDispatch "left"] ∧
      d.faults.map (·.fault) = #[.reentrantDispatch "left", .reentrantDispatch "right"] ∧
      d.faults = d₁.faults ++ d₂.faults ∧ d.host = d₂.host := by
  obtain ⟨d₁, d₂, d, h₁, -, h, hhost, -, hfaults⟩ :=
    (Registers.drains_in_order .new ⟨ringers, []⟩).2 [⟨1, "ring", .empty⟩] [⟨2, "ring", .empty⟩]
  have hmachine {events : List QueuedEvent} {d : Draining World}
      (h : Draining.Drains {} (.new {}) ⟨ringers, []⟩ events d) : d.faults
      = ((EventQueue.empty.pushAll events).drain (Machine.new {}) ringers).1.faults :=
    congrArg (·.1.faults) h.machine.symm
  refine ⟨.new, d₁, d₂, d, ?_, ?_, hfaults, hhost⟩
  · rw [hmachine h₁]
    decide +kernel
  · rw [hmachine h]
    decide +kernel

end EntityScript
