import EntityScript.Proofs.Bytecode.Compiled
import EntityScript.Proofs.Machine.Course
import EntityScript.World

/-!
# Faults have no effect

An instruction works on its frame, on the host and on the noted faults in place, and nothing that it
did before it faults is undone. `step_error` says that there is nothing to be undone: whatever an
instruction does to the context, the host or the noted faults comes after all the faults that it can
raise. A handler that faults therefore leaves what the instructions before the faulting one left.

One fault comes after the host was asked for a context that it did not lend. That such a request
leaves the host as it is has to be demanded of the host.
-/

namespace EntityScript

/-- A host that is left as it is by requests for contexts that it does not lend. -/
def RefusesQuietly (σ : Type) [Host σ] : Prop :=
  ∀ (host : σ) (id : EntityId), (Host.take host id).1 = none → (Host.take host id).2 = host

/-- A world is left as it is by requests for contexts that it does not lend. -/
theorem World.refusesQuietly : RefusesQuietly World := by
  intro w id h
  change (w.take id).1 = none at h
  change (w.take id).2 = w
  unfold take at h ⊢
  split at h
  · rfl
  · cases h

namespace Invocation

variable {σ : Type} [Host σ]

variable {i : Invocation} {nested : Option (Dispatcher σ)}

/-- An event that cannot be delivered has had no effect. Once a handler has run for it, the
delivery succeeds. -/
theorem deliver_error (hquiet : RefusesQuietly σ) {event : Event} {f f' : Frame} {r r' : Run σ}
    {fault : Fault} (h : i.deliver nested event f r = (.error fault, f', r')) :
    f' = f ∧ r' = r := by
  unfold deliver at h
  split at h
  · cases h
  · unfold deliverTo at h
    split at h
    · cases h
      exact ⟨rfl, rfl⟩
    · rename_i id _
      split at h
      · cases h
        exact ⟨rfl, rfl⟩
      · split at h
        · cases h
        · split at h
          · cases h
          · rename_i host htaken
            split at h
            · cases h
              have hhost : host = r.host := by
                have hrefused := hquiet r.host id
                rw [htaken] at hrefused
                exact hrefused rfl
              exact ⟨rfl, by rw [hhost]⟩
            · cases h

/-- An instruction that faults leaves the context, the host and the noted faults as they were. -/
theorem step_error (hquiet : RefusesQuietly σ) {offset : ℕ} {h : offset < i.chunk.size}
    {s s' : Frame × Run σ} {fault : Fault} (hstep : i.step nested offset h s = .error fault s') :
    s'.1.context = s.1.context ∧ s'.2 = s.2 := by
  have hcomes := i.comes_step nested h s
  rw [hstep] at hcomes
  cases hcomes with
  | faults same => exact ⟨same, rfl⟩
  | fails same delivered =>
    obtain ⟨hframe, hrun⟩ := deliver_error hquiet delivered
    exact ⟨(congrArg Frame.context hframe).trans same, hrun⟩

/-- A fault is one of the last instruction, and leaves what was there when the handler came to it,
up to the count of steps. -/
theorem Stops.of_fault (hquiet : RefusesQuietly σ) {last offset : ℕ} {s : Frame × Run σ}
    {fault : Fault} {c : Context} {r : Run σ}
    (h : i.Stops nested last s (some (offset, fault), c, r)) :
    offset = last ∧ c = s.1.context ∧ r.host = s.2.host ∧ r.faults = s.2.faults := by
  cases h with
  | full inside begun =>
    have hcounted := beginStep_eq begun
    exact ⟨rfl, rfl, by rw [hcounted], by rw [hcounted]⟩
  | faults inside begun step =>
    obtain ⟨hcontext, hrun⟩ := step_error hquiet step
    have hcounted := hrun.trans (beginStep_eq begun)
    exact ⟨rfl, hcontext, by rw [hcounted], by rw [hcounted]⟩

/-- A context, a host and noted faults are what the instructions of a handler before some offset
leave, if it begins with such a context and such a run. -/
structure LeftBefore (i : Invocation) (nested : Option (Dispatcher σ)) (c : Context) (r : Run σ)
    (offset : ℕ) (c' : Context) (host : σ) (faults : Array FaultReport) : Prop where
  reached : ∃ s, i.Passes nested 0 (⟨#[], c⟩, r) offset s
  left : ∀ s, i.Passes nested 0 (⟨#[], c⟩, r) offset s →
    c' = s.1.context ∧ host = s.2.host ∧ faults = s.2.faults

/-- When running faults, only the instructions before the one that faults have had an effect. -/
theorem run_error (hquiet : RefusesQuietly σ) {c : Context} {r : Run σ} {report : FaultReport}
    (h : (i.run nested c r).result = .error report) : i.LeftBefore nested c r report.offset
      (i.run nested c r).context (i.run nested c r).run.host (i.run nested c r).run.faults := by
  obtain ⟨last, s, hpasses, hstops⟩ := i.execute_passes nested 0 (⟨#[], c⟩, r)
  rw [run_eq] at h ⊢
  dsimp only at h hstops ⊢
  generalize i.execute nested 0 ⟨#[], c⟩ r = answer at h hstops ⊢
  obtain ⟨_ | ⟨offset, fault⟩, c', r'⟩ := answer
  · cases h
  · cases h
    obtain ⟨rfl, hleft⟩ := hstops.of_fault hquiet
    exact ⟨⟨s, hpasses⟩, fun s' hpasses' => hpasses.unique hpasses' ▸ hleft⟩

end Invocation

/-- When a dispatch faults, only the instructions before the one that faults have had an effect. -/
theorem dispatchWith_error {σ : Type} [Host σ] (hquiet : RefusesQuietly σ) {limits : Limits}
    {nested : Option (Dispatcher σ)} {base : ℕ} {c : Context} {event : String} {args : Arguments}
    {r : Run σ} {report : FaultReport}
    (h : (dispatchWith limits nested base c event args r).result = .error report) :
    let e := dispatchWith limits nested base c event args r
    ∃ chunk left, c.definition.script.handler? c.state event = some chunk ∧
      e.context = left.restoreArguments c.bound ∧
      Invocation.LeftBefore ⟨limits, base, chunk⟩ nested (c.bindArguments args) r report.offset
        left e.run.host e.run.faults := by
  cases hchunk : c.definition.script.handler? c.state event with
  | none =>
    rw [dispatchWith, hchunk] at h
    cases h
  | some chunk =>
    rw [dispatchWith, hchunk] at h ⊢
    have hrun : (Invocation.run ⟨limits, base, chunk⟩ nested (c.bindArguments args) r).result
        = .error report :=
      Ended.error_of_handled h
    exact ⟨chunk, _, rfl, rfl, Invocation.run_error hquiet hrun⟩

/-- An instruction that faults has no effect on the context, the host and the noted faults. So code
that faults leaves what its instructions before the fault left, and so does a handler, whose
arguments then give way to what was bound before. It makes no difference how events are handled
that are fired on the way, nor how many handlers are active already; the outermost ones are those
that a machine runs. -/
theorem fault_without_effect {σ : Type} [Host σ] (hquiet : RefusesQuietly σ) :
    (∀ (i : Invocation) (nested : Option (Dispatcher σ)) offset (h : offset < i.chunk.size) s fault
        s', i.step nested offset h s = .error fault s' →
      s'.1.context = s.1.context ∧ s'.2.host = s.2.host ∧ s'.2.faults = s.2.faults) ∧
    (∀ (i : Invocation) (nested : Option (Dispatcher σ)) c r report,
      let e := i.run nested c r
      e.result = .error report →
        i.LeftBefore nested c r report.offset e.context e.run.host e.run.faults) ∧
    (∀ limits (nested : Option (Dispatcher σ)) base c event args r report,
      let e := dispatchWith limits nested base c event args r
      e.result = .error report →
        ∃ chunk left, c.definition.script.handler? c.state event = some chunk ∧
          e.context = left.restoreArguments c.bound ∧
          Invocation.LeftBefore ⟨limits, base, chunk⟩ nested (c.bindArguments args) r
            report.offset left e.run.host e.run.faults) ∧
    (∀ (m : Machine) chunk c (host : σ) report,
      let o := m.runChunk chunk c host
      o.result = .error report →
        Invocation.LeftBefore ⟨m.limits, 0, chunk⟩ (outermostDispatcher m.limits) c (m.begin host)
          report.offset o.context o.host o.machine.faults) ∧
    ∀ (m : Machine) c event args (host : σ) report,
      let o := m.dispatch c event args host
      o.result = .error report →
        ∃ chunk left, c.definition.script.handler? c.state event = some chunk ∧
          o.context = left.restoreArguments c.bound ∧
          Invocation.LeftBefore ⟨m.limits, 0, chunk⟩ (outermostDispatcher m.limits)
            (c.bindArguments args) (m.begin host) report.offset left o.host o.machine.faults := by
  refine ⟨fun i nested offset h s fault s' hstep => ?_,
    fun i nested c r report => Invocation.run_error hquiet,
    fun limits nested base c event args r report => dispatchWith_error hquiet,
    fun m chunk c host report => Invocation.run_error hquiet,
    fun m c event args host report => dispatchWith_error hquiet⟩
  obtain ⟨hcontext, hrun⟩ := Invocation.step_error hquiet hstep
  exact ⟨hcontext, congrArg Run.host hrun, congrArg Run.faults hrun⟩

/-- Code that assigns the name of an entity to a variable and then rings at the entity. -/
def rings : Chunk where
  name := "rings"
  code := #[0x01, 0x00, 0x31, 0x01, 0x40, 0x02, 0x01, 0x00]
  constants := #[.string "door", .string "friend", .string "ring"]
  lines := #[]

/-- A world with a door whose context is lent out. -/
def doorLent : World := ⟨.ofList [("door", 1)], .empty, .ofList [(1, ())], #[], 1⟩

/-- Ringing at a door that is lent out faults without an effect of the ringing. -/
theorem fault_without_effect_rings : RefusesQuietly World ∧
    let o := (Machine.new {}).runChunk rings lampOff doorLent
    o.result = .error ⟨"rings", 4, 0, .reentrantDispatch "door"⟩ ∧
      o.context.get? "friend" = some (.string "door") ∧
      Invocation.LeftBefore ⟨{}, 0, rings⟩ (outermostDispatcher {}) lampOff
        ((Machine.new {}).begin doorLent) 4 o.context o.host o.machine.faults := by
  have hresult : ((Machine.new {}).runChunk rings lampOff doorLent).result
      = .error ⟨"rings", 4, 0, .reentrantDispatch "door"⟩ := by decide +kernel
  exact ⟨World.refusesQuietly, hresult, by decide +kernel,
    (fault_without_effect World.refusesQuietly).2.2.2.1 _ _ _ _ _ hresult⟩

end EntityScript
