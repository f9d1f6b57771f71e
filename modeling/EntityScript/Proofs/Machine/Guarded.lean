import EntityScript.Proofs.Machine.Reused

/-!
# Bounds that only guard

Looser bounds change nothing of a run that meets none of its bounds. A nested handler that meets one
is left by its caller as if nothing had happened, so this is a matter of all handlers, and not of
the result alone. But what is raised is noted: either the outermost handler answers it, or it is
among the faults that the run leaves behind. A run that leaves no such fault behind was clear of its
bounds at every instant, and so it goes step by step as it goes under the looser ones.
-/

namespace EntityScript

namespace Instant

variable {σ : Type} [Host σ] {s s' : Instant σ} {left : Left σ Unit}

/-- The same without the faults that were noted before. -/
def unnoted (s : Instant σ) : Instant σ :=
  { s with registers := { s.registers with faults := #[] } }

omit [Host σ] in
/-- An instant is what it is without its noted faults, with these put back. -/
theorem recast_unnoted (s : Instant σ) :
    s.unnoted.recast s.registers.limits s.registers.faults = s := by
  unfold recast Registers.recast unnoted
  dsimp only
  rw [Array.append_empty]

/-- The bounds and the noted faults are carried along by a step. -/
theorem step_eq_recast (s : Instant σ) :
    s.step = s.unnoted.step.recast s.registers.limits s.registers.faults := by
  have hsame := recast_step_self s.unnoted s.registers.faults
  rw [show s.unnoted.registers.limits = s.registers.limits from rfl, recast_unnoted] at hsame
  exact hsame

/-- A fault that was noted stays noted. -/
theorem Next.noted (h : s.Next s') {report : FaultReport} (hmem : report ∈ s.registers.faults) :
    report ∈ s'.registers.faults := by
  rw [Next, step_eq_recast] at h
  generalize s.unnoted.step = prospect at h
  cases prospect with
  | goes t =>
    cases h
    exact Array.mem_append_left _ hmem
  | ends left => cases h

/-- What follows an instant comes to the same end. -/
theorem Ends.of_next (h : s.Ends left) (hnext : s.Next s') : s'.Ends left := by
  obtain ⟨last, hreaches, hends⟩ := h
  obtain rfl | ⟨t, ht, hlast⟩ := hreaches.cases_head
  · rw [hnext] at hends
    cases hends
  · cases hnext.symm.trans ht
    exact ⟨last, hlast, hends⟩

/-- A run that ends from a later instant ends in the same way from an earlier one. -/
theorem Ends.of_reaches (h : s.Ends left) (hreaches : s.Reaches s') : s'.Ends left := by
  induction hreaches with
  | refl => exact h
  | tail _ hnext ih => exact ih.of_next hnext

/-- What is noted at some instant is among the faults that the run leaves behind. -/
theorem Ends.noted (h : s.Ends left) {report : FaultReport} (hmem : report ∈ s.registers.faults) :
    report ∈ left.registers.faults := by
  obtain ⟨last, hreaches, hends⟩ := h
  induction hreaches using Relation.ReflTransGen.head_induction_on with
  | refl =>
    rw [step_eq_recast] at hends
    generalize last.unnoted.step = prospect at hends
    cases prospect with
    | goes t => cases hends
    | ends left =>
      cases hends
      exact Array.mem_append_left _ hmem
  | head hnext _ ih => exact ih (Next.noted hnext hmem)

/-- A fault that is raised is answered by the outermost handler, or noted. -/
theorem Ends.raised (h : s.Ends left) {fault : Fault} (hact : s.act = .leaves (some fault) s') :
    ∃ report, report.fault = fault ∧
      (left.result = .error report ∨ report ∈ left.registers.faults) := by
  let report : FaultReport := s'.active.report fault
  have hstep : s.step = s'.leave (some fault) := by
    rw [step, hact]
  unfold leave at hstep
  dsimp only at hstep
  refine ⟨report, rfl, ?_⟩
  cases hwaiting : s'.waiting with
  | nil =>
    rw [hwaiting] at hstep
    obtain ⟨last, hreaches, hends⟩ := h
    obtain rfl | ⟨t, ht, -⟩ := hreaches.cases_head
    · cases hstep.symm.trans hends
      exact .inl rfl
    · cases hstep.symm.trans ht
  | cons w below =>
    rw [hwaiting] at hstep
    refine .inr ((h.of_next hstep).noted ?_)
    rw [Halted.registers_resume]
    exact Array.mem_push_self

/-- No handler of the run ends because it meets a bound. -/
def Spared (s : Instant σ) : Prop :=
  ∀ s' t fault, s.Reaches s' → s'.act = .leaves (some fault) t → ¬ fault.OfBound

/-- Other bounds make no difference to a run that meets none. -/
theorem Spared.clear (h : s.Spared) (l' : Limits) : s.Clear l' := by
  intro s' hreaches hmeets
  obtain ⟨fault, t, hact, -, hbound⟩ := hmeets
  exact h s' t fault hreaches hact hbound

/-- If a run leaves no fault of a bound behind, then no handler met one. -/
theorem Ends.spared (h : s.Ends left)
    (hresult : ∀ report, left.result = .error report → ¬ report.fault.OfBound)
    (hnoted : ∀ report ∈ left.registers.faults, ¬ report.fault.OfBound) : s.Spared := by
  intro s' t fault hreaches hact
  obtain ⟨report, rfl, hanswered | hmem⟩ := (h.of_reaches hreaches).raised hact
  · exact hresult report hanswered
  · exact hnoted report hmem

/-- Every instant of a run on top of other faults belongs to one without them. -/
theorem Reaches.exists_of_recast {old : Array FaultReport} {t : Instant σ}
    (h : (s.recast s.registers.limits old).Reaches t) :
    ∃ s', s.Reaches s' ∧ t = s'.recast s.registers.limits old := by
  induction h with
  | refl => exact ⟨s, .refl, rfl⟩
  | tail _ hnext ih =>
    obtain ⟨l, hl, rfl⟩ := ih
    rw [Next, ← hl.limits_eq, recast_step_self] at hnext
    cases hstep : l.step with
    | goes l' =>
      rw [hstep] at hnext
      cases hnext
      exact ⟨l', hl.tail hstep, by rw [hl.limits_eq]⟩
    | ends left =>
      rw [hstep] at hnext
      cases hnext

/-- On top of other faults a run meets no bound just if it meets none without them. -/
theorem spared_recast_iff (old : Array FaultReport) :
    (s.recast s.registers.limits old).Spared ↔ s.Spared := by
  constructor
  · intro h s' t fault hreaches hact
    have hsame := recast_act_self s' old
    rw [hact, hreaches.limits_eq] at hsame
    exact h _ _ fault (hreaches.recast (.refl _) (clear_self s) old) hsame
  · intro h t t' fault hreaches hact
    obtain ⟨s', hs', rfl⟩ := hreaches.exists_of_recast
    rw [← hs'.limits_eq, recast_act_self] at hact
    cases hown : s'.act with
    | goes l =>
      rw [hown] at hact
      cases hact
    | leaves fault' l =>
      rw [hown] at hact
      cases hact
      exact h s' l fault hs' hown

end Instant

section Runs

variable {σ α : Type}

/-- No fault of a bound is left behind: the run is not answered by one, and noted none behind those
that were noted before it. -/
structure Left.Unmet (left : Left σ α) (old : Array FaultReport) : Prop where
  result : ∀ report, left.result = .error report → ¬ report.fault.OfBound
  noted : ∀ new, left.registers.faults = old ++ new → ∀ report ∈ new, ¬ report.fault.OfBound

/-- Two runs leave the same behind, each on top of the faults that were noted before it. -/
structure Left.Alike (left : Left σ α) (old : Array FaultReport) (left' : Left σ α)
    (old' : Array FaultReport) : Prop where
  result : left'.result = left.result
  context : left'.context = left.context
  host : left'.host = left.host
  faults : ∃ new, left.registers.faults = old ++ new ∧ left'.registers.faults = old' ++ new

/-- A run that met no bound when its event was handled met none before. -/
theorem Left.Unmet.of_handled {left : Left σ Unit} {old : Array FaultReport}
    (h : left.handled.Unmet old) : left.Unmet old where
  result report hresult := by
    apply h.result report
    unfold Left.handled
    rw [hresult]
    rfl
  noted := h.noted

/-- Two runs that leave the same behind do so as handlers of an event. -/
theorem Left.Alike.handled {left left' : Left σ Unit} {old old' : Array FaultReport}
    (h : left.Alike old left' old') : left.handled.Alike old left'.handled old' where
  result := congrArg (Except.map fun _ => DispatchOutcome.handled) h.result
  context := h.context
  host := h.host
  faults := h.faults

variable [Host σ]

/-- What is promised of a run on some registers, and of the same run on others with looser bounds.
They leave something behind that belongs to what the machine answers. If no handler of the first run
meets a bound, then it is the same; and whether one does shows in what is left behind. -/
structure Registers.Guards (g g' : Registers) (start? : Option (Instant σ)) (left left' : Left σ α)
    (o o' : Outcome σ α) : Prop where
  machine : left.outcome = o
  loose : left'.outcome = o'
  spared : left.Unmet g.faults → ∀ start ∈ start?, start.Spared
  alike : (∀ start ∈ start?, start.Spared) → left.Alike g.faults left' g'.faults

end Runs

namespace Registers

variable {σ : Type} [Host σ] {limits limits' : Limits} {g g' : Registers}

/-- Every run comes to its end under both bounds, and to the same end if it meets no bound. -/
theorem Ready.exists_alike (h : g.Ready limits) (h' : g'.Ready limits')
    (hle : limits.AtMost limits') (chunk : Chunk) (before : Option (Table String Value))
    (c : Context) (host : σ) : ∃ left left', (g.start chunk before c host).run = some left ∧
      (g'.start chunk before c host).run = some left' ∧
        (left.Unmet g.faults → (g.start chunk before c host).Spared) ∧
          ((g.start chunk before c host).Spared → left.Alike g.faults left' g'.faults) := by
  obtain ⟨e, requests, -, hfresh⟩ := (ready_new limits).exists_ends chunk before c host
  obtain ⟨e', requests', -, hends'⟩ := h'.exists_ends chunk before c host
  have hends := hfresh.recast (.refl limits) (Instant.clear_self _) g.faults
  have hspared : (g.start chunk before c host).Spared
      ↔ ((new limits).start chunk before c host).Spared := by
    rw [h.start_eq limits]
    exact Instant.spared_recast_iff g.faults
  rw [← h.start_eq] at hends
  refine ⟨_, _, hends.run_eq, hends'.run_eq, fun hunmet => ?_, fun hstart => ?_⟩
  · exact hspared.2 (hfresh.spared hunmet.result (hunmet.noted _ rfl))
  · have hloose := hfresh.recast hle ((hspared.1 hstart).clear limits') g'.faults
    rw [← h'.start_eq] at hloose
    rw [Option.some.inj (hends'.run_eq.symm.trans hloose.run_eq)]
    exact ⟨rfl, rfl, rfl, _, rfl, rfl⟩

/-- Code meets a bound in a run, or the same run with looser bounds is the same. -/
theorem Ready.guards_runChunk (h : g.Ready limits) (h' : g'.Ready limits')
    (hle : limits.AtMost limits') (chunk : Chunk) (c : Context) (host : σ) :
    ∃ left left', g.runChunk chunk c host = some left ∧ g'.runChunk chunk c host = some left' ∧
      g.Guards g' (some (g.startChunk chunk c host)) left left'
        (g.machine.runChunk chunk c host) (g'.machine.runChunk chunk c host) := by
  obtain ⟨left, left', hran, hran', hunmet, halike⟩ := h.exists_alike h' hle chunk none c host
  obtain ⟨_, hleft, -, hmachine⟩ := h.exists_runChunk chunk c host
  obtain ⟨_, hleft', -, hloose⟩ := h'.exists_runChunk chunk c host
  obtain rfl := Option.some.inj (hran.symm.trans hleft)
  obtain rfl := Option.some.inj (hran'.symm.trans hleft')
  refine ⟨left, left', hran, hran', hmachine, hloose, fun h start hstart => ?_, fun h => ?_⟩
  · cases hstart
    exact hunmet h
  · exact halike (h _ rfl)

/-- An event meets a bound when it is dispatched, or the same dispatch with looser bounds is the
same. -/
theorem Ready.guards_dispatch (h : g.Ready limits) (h' : g'.Ready limits')
    (hle : limits.AtMost limits') (c : Context) (event : String) (args : Arguments) (host : σ) :
    ∃ left left', g.dispatch c event args host = some left ∧
      g'.dispatch c event args host = some left' ∧
        g.Guards g' (g.startEvent? c event args host) left left'
          (g.machine.dispatch c event args host) (g'.machine.dispatch c event args host) := by
  obtain ⟨left, hran, -, hmachine⟩ := h.exists_dispatch c event args host
  obtain ⟨left', hran', -, hloose⟩ := h'.exists_dispatch c event args host
  cases hhandler : c.definition.script.handler? c.state event with
  | none =>
    have hstart : g.startEvent? c event args host = none := by
      rw [startEvent?, hhandler]
      rfl
    obtain rfl := Option.some.inj ((dispatch_of_no_handler hhandler g args host).symm.trans hran)
    obtain rfl := Option.some.inj ((dispatch_of_no_handler hhandler g' args host).symm.trans hran')
    refine ⟨_, _, hran, hran', hmachine, hloose, fun _ start h => ?_, fun _ => ?_⟩
    · rw [hstart] at h
      cases h
    · exact ⟨rfl, rfl, rfl, #[], Array.append_empty.symm, Array.append_empty.symm⟩
  | some chunk =>
    obtain ⟨_, _, hends, hends', hunmet, halike⟩ :=
      h.exists_alike h' hle chunk (some c.bound) (c.bindArguments args) host
    have hleft := (dispatch_of_handler hhandler g args host).symm.trans hran
    have hleft' := (dispatch_of_handler hhandler g' args host).symm.trans hran'
    rw [hends] at hleft
    rw [hends'] at hleft'
    cases hleft
    cases hleft'
    rw [g.startEvent?_eq hhandler]
    refine ⟨_, _, hran, hran', hmachine, hloose, fun h start hstart => ?_, fun h => ?_⟩
    · cases hstart
      exact hunmet h.of_handled
    · exact (halike (h _ rfl)).handled

end Registers

/-- Bounds are nothing but guards. However two registers came to be, if all bounds of the second are
at least those of the first, then a run in which no handler meets a bound on the first, neither the
outermost nor another, is the same on the second: in its result, the context, the host and all that
is asked of it, and in the faults that it notes. -/
theorem limits_only_guard {limits limits' : Limits} (hle : limits.AtMost limits')
    {g g' : Registers} (used : g.Used limits) (used' : g'.Used limits') {σ : Type} [Host σ]
    (c : Context) (host : σ) :
    (∀ chunk, ∃ left left', g.runChunk chunk c host = some left ∧
      g'.runChunk chunk c host = some left' ∧
        g.Guards g' (some (g.startChunk chunk c host)) left left'
          (g.machine.runChunk chunk c host) (g'.machine.runChunk chunk c host)) ∧
    ∀ event args, ∃ left left', g.dispatch c event args host = some left ∧
      g'.dispatch c event args host = some left' ∧
        g.Guards g' (g.startEvent? c event args host) left left'
          (g.machine.dispatch c event args host) (g'.machine.dispatch c event args host) :=
  ⟨fun chunk => used.ready.guards_runChunk used'.ready hle chunk c host,
    fun event args => used.ready.guards_dispatch used'.ready hle c event args host⟩

/-- The clown trips in the same way under bounds that it just does not meet. -/
theorem limits_only_guard_clown : ∃ left left',
    (Registers.new ⟨2, 1, some 3⟩).dispatch clown "trip" .empty ring = some left ∧
      (Registers.new {}).dispatch clown "trip" .empty ring = some left' ∧
        left'.result = .ok .handled ∧ left'.host = left.host ∧
          left'.registers.faults = left.registers.faults ∧ left'.registers.faults.size = 1 := by
  have hle : Limits.AtMost ⟨2, 1, some 3⟩ {} := by
    refine ⟨by decide, by decide, fun n h => ?_⟩
    cases h
  obtain ⟨left, left', hleft, hleft', hguards⟩ :=
    (limits_only_guard hle .new .new clown ring).2 "trip" .empty
  have hresult : left.result = .ok .handled :=
    (congrArg (·.result) hguards.machine).trans (by decide +kernel)
  have hfaults : left.registers.faults = #[⟨"up.fall", 0, 0, .unknownOpcode 0xff⟩] :=
    (congrArg (·.machine.faults) hguards.machine).trans (by decide +kernel)
  have hunmet : left.Unmet #[] := by
    refine ⟨fun report h => ?_, fun new h => ?_⟩
    · rw [hresult] at h
      cases h
    · rw [hfaults, Array.empty_append] at h
      rw [← h]
      decide
  have halike := hguards.alike (hguards.spared hunmet)
  obtain ⟨new, hnew, hnew'⟩ := halike.faults
  have hsame : left'.registers.faults = left.registers.faults := hnew'.trans hnew.symm
  refine ⟨left, left', hleft, hleft', halike.result.trans hresult, halike.host, hsame, ?_⟩
  rw [hsame, hfaults]
  rfl

end EntityScript
