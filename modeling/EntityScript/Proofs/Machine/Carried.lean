import EntityScript.Machine.Queue
import EntityScript.Proofs.Machine.Stepping

/-!
# What runs carry on

A relation between what a context is and what it was before, and another one between hosts. If no
single thing that a handler can do breaks them, then no run does, however deeply events are nested
and whatever faults there are. A host is asked for a context, and gets back what became of it; in
between, events may have been handled with the context gone. So the law about hosts is one about
whole loans: `Carrying.loaned`.
-/

namespace EntityScript

/-- Relations of contexts and of hosts to what they were before, which hold whatever handlers do. -/
structure Carrying {σ : Type} [Host σ] (R : Context → Context → Prop) (M : σ → σ → Prop) :
    Prop where
  refl (c : Context) : R c c
  trans {c c' c'' : Context} : R c c' → R c' c'' → R c c''
  worked {c c' : Context} : c.Worked c' → R c c'
  rebound (c : Context) (entries : List (String × Value)) : R c (c.rebindArguments entries)
  host_refl (h : σ) : M h h
  host_trans {h h' h'' : σ} : M h h' → M h' h'' → M h h''
  fired (h : σ) (event : String) (args : Arguments) : M h (Host.fire h event args)
  refused {h h' : σ} {id : EntityId} : Host.take h id = (none, h') → M h h'
  loaned {h lent h' : σ} {id : EntityId} {c c' : Context} : Host.take h id = (some c, lent) →
    M lent h' → R c c' → M h (Host.giveBack h' id c')

variable {σ : Type} [Host σ] {R : Context → Context → Prop} {M : σ → σ → Prop}

omit [Host σ] in
/-- To have an event handled keeps to the relations. -/
def Dispatcher.Carries (R : Context → Context → Prop) (M : σ → σ → Prop)
    (dispatch : Dispatcher σ) : Prop :=
  ∀ base c event args r, R c (dispatch base c event args r).context ∧
    M r.host (dispatch base c event args r).run.host

omit [Host σ] in
/-- A handler and what it shares, some time later. -/
structure Carried (R : Context → Context → Prop) (M : σ → σ → Prop) (s s' : Frame × Run σ) :
    Prop where
  context : R s.1.context s'.1.context
  host : M s.2.host s'.2.host

namespace Carrying

variable {i : Invocation} {nested : Option (Dispatcher σ)}

/-- The relations hold where nothing has happened. -/
theorem here (h : Carrying R M) (s : Frame × Run σ) : Carried R M s s :=
  ⟨h.refl _, h.host_refl _⟩

/-- The relations hold across two parts of a handler. -/
theorem after (h : Carrying R M) {s s' s'' : Frame × Run σ} (hs : Carried R M s s')
    (hs' : Carried R M s' s'') : Carried R M s s'' :=
  ⟨h.trans hs.context hs'.context, h.host_trans hs.host hs'.host⟩

omit [Host σ] in
/-- The relations hold across a nested event. -/
theorem nest {dispatch : Dispatcher σ} (hdispatch : dispatch.Carries R M) (i : Invocation)
    (event : Event) (stack : Array Value) (c : Context) (r : Run σ) :
    R c (i.nest dispatch event stack c r).1 ∧
      M r.host (i.nest dispatch event stack c r).2.host := by
  obtain ⟨hcontext, hhost⟩ := hdispatch (i.base + stack.size) c event.name event.args r
  refine ⟨hcontext, ?_⟩
  unfold Invocation.nest
  dsimp only
  rw [Run.note_host]
  exact hhost

/-- Delivering an event, to whatever entity. -/
theorem deliver (h : Carrying R M) (hnested : ∀ d, nested = some d → d.Carries R M)
    (event : Event) (s : Frame × Run σ) : Carried R M s (i.deliver nested event s.1 s.2).2 := by
  obtain ⟨f, r⟩ := s
  have hhere := h.here (f, r)
  unfold Invocation.deliver
  split
  · exact ⟨h.refl _, h.fired r.host event.name event.args⟩
  · unfold Invocation.deliverTo
    split
    · exact hhere
    · split
      · exact hhere
      · rename_i dispatch
        have hnest := nest (hnested dispatch rfl) i event f.stack
        split
        · exact ⟨(hnest f.context r).1, (hnest f.context r).2⟩
        · split
          · rename_i c host htaken
            obtain ⟨hcontext, hhost⟩ := hnest c { r with host }
            exact ⟨h.refl _, h.loaned htaken hhost hcontext⟩
          · rename_i host htaken
            split <;> exact ⟨h.refl _, h.refused htaken⟩

/-- One instruction, whether it faults or not. -/
theorem step (h : Carrying R M) (hnested : ∀ d, nested = some d → d.Carries R M) {offset : ℕ}
    (hin : offset < i.chunk.size) (s : Frame × Run σ) :
    match i.step nested offset hin s with
    | .ok _ s' => Carried R M s s'
    | .error _ s' => Carried R M s s' := by
  have hcomes := i.comes_step nested hin s
  generalize i.step nested offset hin s = result at hcomes ⊢
  have hdeliver {event : Event} {f : Frame} {delivered : Except Fault Unit} {s' : Frame × Run σ}
      (hsame : f.context = s.1.context) (hs' : i.deliver nested event f s.2 = (delivered, s')) :
      Carried R M s s' := by
    obtain ⟨hcontext, hhost⟩ := h.deliver (i := i) hnested event (f, s.2)
    rw [hs'] at hcontext hhost
    exact ⟨hsame ▸ hcontext, hhost⟩
  cases hcomes with
  | faults same => exact ⟨same ▸ h.refl _, h.host_refl _⟩
  | works worked ahead => exact ⟨h.worked worked, h.host_refl _⟩
  | fails same delivered => exact hdeliver same delivered
  | fires same delivered ahead => exact hdeliver same delivered

/-- To begin an instruction changes neither. -/
theorem begun (h : Carrying R M) {s : Frame × Run σ} {r : Run σ} {result : Except Fault Unit}
    (hbegun : i.beginStep s.2 = (result, r)) : Carried R M s (s.1, r) := by
  rw [Invocation.beginStep_eq hbegun]
  exact ⟨h.refl _, h.host_refl _⟩

/-- One instruction after another. -/
theorem passes (h : Carrying R M) (hnested : ∀ d, nested = some d → d.Carries R M)
    {offset last : ℕ} {s s' : Frame × Run σ} (hpasses : i.Passes nested offset s last s') :
    Carried R M s s' := by
  induction hpasses with
  | here offset s => exact h.here s
  | @onward offset next last s s' s'' r inside begun step rest ih =>
    have hstep := h.step hnested inside (s.1, r)
    rw [step] at hstep
    exact h.after (h.begun begun) (h.after hstep ih)

/-- The relations hold up to the end of a handler. -/
theorem stops (h : Carrying R M) (hnested : ∀ d, nested = some d → d.Carries R M) {last : ℕ}
    {s : Frame × Run σ} {answer : Option (ℕ × Fault) × Context × Run σ}
    (hstops : i.Stops nested last s answer) :
    R s.1.context answer.2.1 ∧ M s.2.host answer.2.2.host := by
  cases hstops with
  | off => exact ⟨h.refl _, h.host_refl _⟩
  | full inside begun => exact ⟨h.refl _, (h.begun begun).host⟩
  | @faults fault r s' inside begun step =>
    have hstep := h.step hnested inside (s.1, r)
    rw [step] at hstep
    have hboth := h.after (h.begun begun) hstep
    exact ⟨hboth.context, hboth.host⟩
  | @returns r s' inside begun step =>
    have hstep := h.step hnested inside (s.1, r)
    rw [step] at hstep
    have hboth := h.after (h.begun begun) hstep
    exact ⟨hboth.context, hboth.host⟩

/-- A handler from its first instruction to its end. -/
theorem run (h : Carrying R M) (hnested : ∀ d, nested = some d → d.Carries R M) (i : Invocation)
    (c : Context) (r : Run σ) :
    R c (i.run nested c r).context ∧ M r.host (i.run nested c r).run.host := by
  obtain ⟨last, s, hpasses, hstops⟩ := i.execute_passes nested 0 (⟨#[], c⟩, r)
  have hpassed := h.passes hnested hpasses
  have hstopped := h.stops hnested hstops
  rw [Invocation.run_eq]
  exact ⟨h.trans hpassed.context hstopped.1, h.host_trans hpassed.host hstopped.2⟩

/-- The relations hold across a dispatch, if they do across nested ones. -/
theorem dispatchWith (h : Carrying R M) (limits : Limits)
    (hnested : ∀ d, nested = some d → d.Carries R M) :
    (EntityScript.dispatchWith limits nested).Carries R M := by
  intro base c event args r
  unfold EntityScript.dispatchWith
  split
  · exact ⟨h.refl c, h.host_refl _⟩
  · rename_i chunk _
    obtain ⟨hcontext, hhost⟩ := h.run hnested ⟨limits, base, chunk⟩ (c.bindArguments args) r
    exact ⟨h.trans (h.rebound c _) (h.trans hcontext (h.rebound _ _)), hhost⟩

/-- Events of any depth. -/
theorem nestedDispatcher (h : Carrying R M) (limits : Limits) (depth : ℕ) :
    ∀ d : Dispatcher σ, EntityScript.nestedDispatcher limits depth = some d →
      d.Carries R M := by
  induction depth with
  | zero =>
    intro d hd
    cases hd
  | succ depth ih =>
    intro d hd
    cases hd
    exact h.dispatchWith limits ih

/-- The relations hold across what a machine dispatches. -/
theorem machine_dispatch (h : Carrying R M) (m : Machine) (c : Context) (event : String)
    (args : Arguments) (host : σ) : R c (m.dispatch c event args host).context ∧
      M host (m.dispatch c event args host).host :=
  h.dispatchWith m.limits (h.nestedDispatcher m.limits _) 0 c event args (m.begin host)

/-- The relations hold across code that a machine runs by itself. -/
theorem machine_runChunk (h : Carrying R M) (m : Machine) (chunk : Chunk) (c : Context)
    (host : σ) : R c (m.runChunk chunk c host).context ∧ M host (m.runChunk chunk c host).host :=
  h.run (h.nestedDispatcher m.limits _) ⟨m.limits, 0, chunk⟩ c (m.begin host)

/-- The relation of hosts holds across a queued event. -/
theorem handle (h : Carrying R M) (d : Drained σ) (e : QueuedEvent) :
    M d.host (EventQueue.handle d e).host := by
  unfold EventQueue.handle
  split
  · rename_i htaken
    exact h.refused htaken
  · rename_i c lent htaken
    obtain ⟨hcontext, hhost⟩ := h.machine_dispatch d.machine c e.event e.args lent
    exact h.loaned htaken hhost hcontext

/-- Draining a queue carries the host on from event to event. -/
theorem drain (h : Carrying R M) (q : EventQueue) (m : Machine) (host : σ) :
    M host (q.drain m host).1.host := by
  have hall (events : List QueuedEvent) : ∀ d : Drained σ,
      M d.host (events.foldl EventQueue.handle d).host := by
    induction events with
    | nil => exact fun d => h.host_refl d.host
    | cons e events ih => exact fun d => h.host_trans (h.handle d e) (ih _)
  unfold EventQueue.drain
  rw [← Array.foldl_toList]
  exact hall q.events.toList ⟨#[], m, host⟩

end Carrying

end EntityScript
