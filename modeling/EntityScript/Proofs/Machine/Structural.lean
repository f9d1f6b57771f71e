import EntityScript.Machine.Dispatch
import EntityScript.Proofs.Bytecode.Compiled
import EntityScript.Proofs.Machine.Lending
import EntityScript.Proofs.Machine.Performed

/-!
# Compiled scripts raise no structural fault

Whatever the bounds of a run are, whatever the host does, and however deeply events are nested:
no handler of a compiled script is aborted because its code is malformed. Performing keeps the
operands in the shape of the layout, so that running a handler does; and since handlers are only
run on contexts of compiled scripts, it holds of the handlers that they run in turn. The last step
is an induction on the depth that is still allowed.
-/

namespace EntityScript

open Grammar

namespace Host

variable {σ : Type} [Host σ]

/-- A host gets from one state to another, where only contexts of compiled scripts are given
back. -/
inductive Leads (h : σ) : σ → Prop
  | refl : Leads h h
  | fire {h' : σ} (before : Leads h h') (event : String) (args : Arguments) :
    Leads h (Host.fire h' event args)
  | take {h' : σ} (before : Leads h h') (id : EntityId) : Leads h (Host.take h' id).2
  | giveBack {h' : σ} (before : Leads h h') (id : EntityId) {c : Context}
      (compiled : c.definition.script.Compiled) : Leads h (Host.giveBack h' id c)

/-- Every context that a host will ever lend runs a compiled script. -/
def LendsCompiled (h : σ) : Prop :=
  ∀ h', Leads h h' → ∀ id c, (Host.take h' id).1 = some c → c.definition.script.Compiled

/-- Leading on is done in steps. -/
theorem Leads.trans {h h' h'' : σ} (h₁ : Leads h h') (h₂ : Leads h' h'') : Leads h h'' := by
  induction h₂ with
  | refl => exact h₁
  | fire _ event args ih => exact ih.fire event args
  | take _ id ih => exact ih.take id
  | giveBack _ id compiled ih => exact ih.giveBack id compiled

/-- A host that lends compiled scripts only still does so later. -/
theorem LendsCompiled.of_leads {h h' : σ} (hl : LendsCompiled h) (hto : Leads h h') :
    LendsCompiled h' :=
  fun h'' hfrom => hl h'' (hto.trans hfrom)

/-- A host without entities lends nothing. -/
theorem lendsCompiled_empty (h : EmptyHost) : LendsCompiled h := by
  intro h' _ entity c hlent
  cases hlent

end Host

/-- In a world of compiled scripts there are never any others. -/
theorem World.compiled_of_leads {w w' : World} (hleads : Host.Leads w w')
    (h : ∀ id c, w.contexts.get? id = some c → c.definition.script.Compiled) :
    ∀ id c, w'.contexts.get? id = some c → c.definition.script.Compiled := by
  induction hleads with
  | refl => exact h
  | fire _ event args ih => exact ih
  | @take w' _ lent ih =>
    intro id c hget
    cases hhere : Lender.context? w' lent with
    | none =>
      rw [Lender.take_of_none hhere] at hget
      exact ih id c hget
    | some c' =>
      change Lender.context? (Host.take w' lent).2 id = some c at hget
      rw [Lender.context?_take hhere] at hget
      split at hget
      · cases hget
      · exact ih id c hget
  | @giveBack w' _ lent c' hcompiled ih =>
    intro id c hget
    change (w'.contexts.insert lent c').get? id = some c at hget
    by_cases hsame : id = lent
    · rw [hsame, Table.get?_insert_self] at hget
      exact Option.some.inj hget ▸ hcompiled
    · rw [Table.get?_insert_of_ne _ hsame] at hget
      exact ih id c hget

/-- A world of compiled scripts lends no others. -/
theorem World.lendsCompiled {w : World}
    (h : ∀ id c, w.contexts.get? id = some c → c.definition.script.Compiled) :
    Host.LendsCompiled w := by
  intro w' hleads id c hlent
  have htaken : Host.take w' id = (some c, (Host.take w' id).2) := by rw [← hlent]
  exact compiled_of_leads hleads h id c (Lender.here_of_taken htaken)

variable {σ : Type} [Host σ]

/-- A run goes on to another, and notes no structural fault. -/
structure Run.Sound (r r' : Run σ) : Prop where
  host : Host.LendsCompiled r.host → Host.LendsCompiled r'.host
  noted : ∃ new, r'.faults.toList = r.faults.toList ++ new ∧ ∀ x ∈ new, ¬ x.fault.Structural

namespace Run.Sound

variable {r r' r'' : Run σ}

/-- A run that notes nothing is sound if the host still lends contexts of compiled scripts only. -/
theorem of_faults (host : Host.LendsCompiled r.host → Host.LendsCompiled r'.host)
    (h : r'.faults = r.faults) : r.Sound r' :=
  ⟨host, [], by rw [h, List.append_nil], by simp⟩

/-- A run is sound in two parts. -/
theorem trans (h₁ : r.Sound r') (h₂ : r'.Sound r'') : r.Sound r'' := by
  obtain ⟨new, hnew, hsound⟩ := h₁.noted
  obtain ⟨more, hmore, hrest⟩ := h₂.noted
  refine ⟨fun h => h₂.host (h₁.host h), new ++ more, by rw [hmore, hnew, List.append_assoc], ?_⟩
  intro x hx
  rcases List.mem_append.1 hx with hx | hx
  · exact hsound x hx
  · exact hrest x hx

/-- Noting the fault of a nested handler. -/
theorem note {α : Type} (h : r.Sound r') {result : Except FaultReport α}
    (hfault : ∀ report, result = .error report → ¬ report.fault.Structural) :
    r.Sound (r'.note result) := by
  refine h.trans ?_
  cases result with
  | ok v => exact of_faults id rfl
  | error report =>
    exact ⟨id, [report], Array.toList_push, by simpa using hfault report rfl⟩

end Run.Sound

/-- Having an event handled by a context of a compiled script raises no structural fault, neither
in its handler nor in those that it causes. -/
def Dispatcher.Sound (dispatch : Dispatcher σ) : Prop :=
  ∀ base c event args r, c.definition.script.Compiled → Host.LendsCompiled r.host →
    (∀ report, (dispatch base c event args r).result = .error report →
      ¬ report.fault.Structural) ∧
    (dispatch base c event args r).context.definition = c.definition ∧
    r.Sound (dispatch base c event args r).run

namespace Invocation

variable {i : Invocation} {nested : Option (Dispatcher σ)} {f : Frame} {r : Run σ}

/-- A nested handler leaves the script of its context and a sound run. -/
theorem nest_sound {dispatch : Dispatcher σ} (hd : dispatch.Sound) (event : Event)
    (stack : Array Value) {c : Context} (hc : c.definition.script.Compiled)
    (hr : Host.LendsCompiled r.host) :
    (i.nest dispatch event stack c r).1.definition = c.definition ∧
      r.Sound (i.nest dispatch event stack c r).2 := by
  obtain ⟨hfault, hdefinition, hrun⟩ := hd (i.base + stack.size) c event.name event.args r hc hr
  exact ⟨hdefinition, hrun.note hfault⟩

/-- Delivering an event raises no structural fault, and leaves the operands alone. -/
theorem deliver_sound (hnested : ∀ d, nested = some d → d.Sound) (event : Event)
    (hc : f.context.definition.script.Compiled) (hr : Host.LendsCompiled r.host) :
    (∀ fault, (i.deliver nested event f r).1 = .error fault → ¬ fault.Structural) ∧
      (i.deliver nested event f r).2.1.stack = f.stack ∧
      (i.deliver nested event f r).2.1.context.definition = f.context.definition ∧
      r.Sound (i.deliver nested event f r).2.2 := by
  have hrefl : r.Sound r := .of_faults id rfl
  unfold deliver
  split
  · refine ⟨(fun _ h => by cases h), rfl, rfl, .of_faults (fun h => ?_) rfl⟩
    exact h.of_leads (.fire .refl _ _)
  · rename_i target _
    unfold deliverTo
    split
    · exact ⟨fun _ h => (by cases h; exact id), rfl, rfl, hrefl⟩
    · rename_i entity _
      cases nested with
      | none => exact ⟨fun _ h => (by cases h; exact id), rfl, rfl, hrefl⟩
      | some d =>
        have hd := hnested d rfl
        dsimp only
        split
        · obtain ⟨hdefinition, hrun⟩ := nest_sound (i := i) hd event f.stack hc hr
          exact ⟨(fun _ h => by cases h), rfl, hdefinition, hrun⟩
        · have htake : Host.Leads r.host (Host.take r.host entity).2 := .take .refl entity
          split
          · rename_i c host heq
            have hhost : (Host.take r.host entity).2 = host := by rw [heq]
            have hlent : c.definition.script.Compiled := hr r.host .refl entity c (by rw [heq])
            have hr' : Host.LendsCompiled host := hhost ▸ hr.of_leads htake
            obtain ⟨hdefinition, hrun⟩ :=
              nest_sound (i := i) (r := { r with host }) hd event f.stack hlent hr'
            refine ⟨(fun _ h => by cases h), rfl, rfl, fun _ => ?_, hrun.noted⟩
            refine (hrun.host hr').of_leads (.giveBack .refl entity ?_)
            rw [hdefinition]
            exact hlent
          · rename_i host heq
            have hhost : (Host.take r.host entity).2 = host := by rw [heq]
            have hrun : r.Sound { r with host } :=
              .of_faults (fun h => hhost ▸ h.of_leads htake) rfl
            split
            · exact ⟨fun _ h => (by cases h; exact id), rfl, rfl, hrun⟩
            · exact ⟨(fun _ h => by cases h), rfl, rfl, hrun⟩

/-- Counting an instruction raises and notes no structural fault. -/
theorem beginStep_sound (i : Invocation) (r : Run σ) :
    (∀ fault, (i.beginStep r).1 = .error fault → ¬ fault.Structural) ∧
      r.Sound (i.beginStep r).2 := by
  unfold beginStep
  dsimp only
  split
  · split
    · exact ⟨fun _ h => (by cases h; exact id), .of_faults id rfl⟩
    · exact ⟨(fun _ h => by cases h), .of_faults id rfl⟩
  · exact ⟨(fun _ h => by cases h), .of_faults id rfl⟩

/-- What running a handler answers is no structural fault, and the script stays as it is. -/
structure Finished (definition : Edition) (r : Run σ)
    (answer : Option (ℕ × Fault) × Context × Run σ) : Prop where
  fault : ∀ offset fault, answer.1 = some (offset, fault) → ¬ fault.Structural
  definition : answer.2.1.definition = definition
  run : r.Sound answer.2.2

/-- What finishes after a sound part of a run finishes. -/
theorem Finished.of_sound {definition : Edition} {r' : Run σ}
    {answer : Option (ℕ × Fault) × Context × Run σ} (hr : r.Sound r')
    (h : Finished definition r' answer) : Finished definition r answer :=
  ⟨h.fault, h.definition, hr.trans h.run⟩

/-- Running laid out code from an instruction on, with operands of its shape. The distance to the
end of the code is what gets smaller. -/
theorem execute_finished {states : List String} {l : Layout} (hl : LaidOut states l i.chunk)
    (hnested : ∀ d, nested = some d → d.Sound) (left : ℕ) :
    ∀ p x s f (r : Run σ), l = p ++ x :: s → left = i.chunk.size - codeSize (Layout.code p) →
      f.Has x.2 → f.context.definition.script.Compiled →
      f.context.definition.script.states = states → Host.LendsCompiled r.host →
      Finished f.context.definition r (i.execute nested (codeSize (Layout.code p)) f r) := by
  induction left using Nat.strong_induction_on with
  | _ left ih =>
    rintro p x s f r rfl rfl hhas hc rfl hr
    obtain ⟨hlt, hfetch⟩ := hl.suffix.fetch
    obtain ⟨b, hmoves, hgoes⟩ := hl.goes
    -- Wherever the instruction goes on, the operands have the shape of the instruction there.
    have hnext : ∀ d ∈ x.1.exits, ∀ (f' : Frame) (r' : Run σ), f'.Has b →
        f'.context.definition = f.context.definition → r.Sound r' →
        Finished f.context.definition r
          (i.execute nested (codeSize (Layout.code p) + x.1.size + d) f' r') := by
      intro d hd f' r' hhas' hdefinition hsound
      obtain ⟨q, y, s', hsplit, hsize, rfl⟩ := hgoes d hd
      rw [← hsize, ← hdefinition]
      refine .of_sound hsound (ih _ ?_ q y s' f' r' hsplit rfl hhas' ?_ ?_ (hsound.host hr))
      · have hpos := x.1.size_pos
        omega
      · rwa [hdefinition]
      · rw [hdefinition]
    obtain ⟨hfault, hbegun⟩ := beginStep_sound i r
    rw [execute, dif_pos hlt]
    dsimp only
    split
    · rename_i fault r₁ heq
      rw [heq] at hfault hbegun
      exact ⟨fun _ _ h => by cases h; exact hfault _ rfl, rfl, hbegun⟩
    · rename_i r₁ heq
      rw [heq] at hbegun
      rw [hfetch]
      dsimp only
      rw [Symbolic.size_assemble]
      have hperform := keeps_perform hmoves hl.fits (hl.names x.1 (by simp))
        (fun v hv => hl.suffix.constant? (by simp) hv) hhas
      split
      · rename_i fault heq'
        rw [heq'] at hperform
        exact ⟨fun _ _ h => by cases h; exact hperform, rfl, hbegun⟩
      · rename_i f₁ heq'
        rw [heq'] at hperform
        exact ⟨(fun _ _ h => by cases h), hperform.2.2, hbegun⟩
      · rename_i distance f₁ heq'
        rw [heq'] at hperform
        obtain ⟨hexits, hhas₁, hdefinition⟩ := hperform
        exact hnext distance hexits f₁ r₁ hhas₁ hdefinition hbegun
      · rename_i event f₁ heq'
        rw [heq'] at hperform
        obtain ⟨hexits, hhas₁, hdefinition⟩ := hperform
        have hc₁ : f₁.context.definition.script.Compiled := by rwa [hdefinition]
        obtain ⟨hfault₂, hstack, hdefinition₂, hrun⟩ :=
          deliver_sound (i := i) hnested event hc₁ (hbegun.host hr)
        split
        · rename_i fault f₂ r₂ heq₂
          rw [heq₂] at hfault₂ hdefinition₂ hrun
          exact ⟨fun _ _ h => by cases h; exact hfault₂ _ rfl, hdefinition₂.trans hdefinition,
            hbegun.trans hrun⟩
        · rename_i f₂ r₂ heq₂
          rw [heq₂] at hstack hdefinition₂ hrun
          have hhas₂ : f₂.Has b := by
            unfold Frame.Has at hhas₁ ⊢
            rwa [hstack]
          exact hnext 0 hexits f₂ r₂ hhas₂ (hdefinition₂.trans hdefinition) (hbegun.trans hrun)

/-- Running a chunk of a compiled script from its first instruction on. -/
theorem run_sound {states : List String} {l : Layout} (hl : LaidOut states l i.chunk)
    (hnested : ∀ d, nested = some d → d.Sound) {c : Context}
    (hc : c.definition.script.Compiled) (hstates : c.definition.script.states = states)
    (hr : Host.LendsCompiled r.host) :
    (∀ report, (i.run nested c r).result = .error report → ¬ report.fault.Structural) ∧
      (i.run nested c r).context.definition = c.definition ∧ r.Sound (i.run nested c r).run := by
  have hfinished : Finished c.definition r (i.execute nested 0 ⟨#[], c⟩ r) := by
    obtain ⟨x, s, hsplit, hshape⟩ := hl.first
    have hhas : Frame.Has ⟨#[], c⟩ x.2 := by
      rw [Frame.Has, hshape]
      exact .nil
    exact execute_finished hl hnested _ [] x s _ r hsplit rfl hhas hc hstates hr
  unfold run
  split
  · rename_i c' r' heq
    rw [heq] at hfinished
    exact ⟨(fun _ h => by cases h), hfinished.definition, hfinished.run⟩
  · rename_i offset fault c' r' heq
    rw [heq] at hfinished
    exact ⟨fun _ h => by cases h; exact hfinished.fault _ _ rfl, hfinished.definition,
      hfinished.run⟩

end Invocation

/-- Dispatching is sound if nested events are handled soundly. -/
theorem dispatchWith_sound (limits : Limits) {nested : Option (Dispatcher σ)}
    (hnested : ∀ d, nested = some d → d.Sound) : Dispatcher.Sound (dispatchWith limits nested) := by
  intro base c event args r hc hr
  unfold dispatchWith
  split
  · exact ⟨(fun _ h => by cases h), rfl, .of_faults id rfl⟩
  · rename_i chunk hchunk
    obtain ⟨l, hl⟩ := hc.laidOut hchunk
    obtain ⟨hfault, hdefinition, hrun⟩ := Invocation.run_sound (i := ⟨limits, base, chunk⟩)
      (c := c.bindArguments args) hl hnested hc rfl hr
    refine ⟨fun report h => ?_, hdefinition, hrun⟩
    dsimp only at h
    generalize (Invocation.run ⟨limits, base, chunk⟩ nested (c.bindArguments args) r).result = x
      at h hfault
    cases x with
    | ok u => cases h
    | error report' =>
      cases h
      exact hfault _ rfl

/-- However deep events are nested, they are handled soundly. -/
theorem nestedDispatcher_sound (limits : Limits) (depth : ℕ) :
    ∀ d, nestedDispatcher (σ := σ) limits depth = some d → d.Sound := by
  induction depth with
  | zero => exact fun _ h => by cases h
  | succ depth ih =>
    intro d h
    cases h
    exact dispatchWith_sound limits ih

/-- Every chunk that the compiler makes is well formed. On contexts of compiled scripts, and with a
host that lends no others, neither the handler of an event nor any handler nested in it raises a
structural fault, whatever the bounds are. -/
theorem compiled_never_structural :
    (∀ file source script, compile file source = .ok script →
      ∀ state event chunk, (state, event, chunk) ∈ script.handlerList →
        ∃ is height, chunk.WellFormed script.states is height) ∧
    ∀ (σ : Type) [Host σ] (m : Machine) (c : Context) (event : String) (args : Arguments)
      (host : σ), c.definition.script.Compiled → Host.LendsCompiled host →
        (∀ report, (m.dispatch c event args host).result = .error report →
          ¬ report.fault.Structural) ∧
        ∃ new, (m.dispatch c event args host).machine.faults.toList = m.faults.toList ++ new ∧
          ∀ x ∈ new, ¬ x.fault.Structural := by
  constructor
  · intro file source script h state event chunk hmem
    have hcompiled : script.Compiled := ⟨file, source, h⟩
    obtain ⟨l, hl⟩ := hcompiled.laidOut (Script.mem_handlerList.1 hmem)
    exact ⟨_, _, hl.wellFormed⟩
  · intro σ _ m c event args host hc hhost
    have hnested := nestedDispatcher_sound (σ := σ) m.limits (m.limits.dispatchDepth - 1)
    obtain ⟨hfault, -, hrun⟩ :=
      dispatchWith_sound m.limits hnested 0 c event args (m.begin host) hc hhost
    exact ⟨hfault, hrun.noted⟩

/-- An armed switch and the bulb that it presses. The bulb divides by zero, and neither handler
faults otherwise. -/
theorem compiled_never_structural_switch :
    (∃ chunk is height, switchScript.handler? "on" "press" = some chunk ∧
      chunk.WellFormed switchScript.states is height) ∧
    let o := (Machine.new {}).dispatch switchOn "press" .empty room
    o.result.toOption = some .handled ∧
      o.machine.faults.toList.map FaultReport.fault = [.divisionByZero] ∧
      (∀ report, o.result = .error report → ¬ report.fault.Structural) ∧
      ∀ x ∈ o.machine.faults.toList, ¬ x.fault.Structural := by
  have hsome : (switchScript.handler? "on" "press").isSome = true := by decide +kernel
  obtain ⟨chunk, hchunk⟩ := Option.isSome_iff_exists.1 hsome
  obtain ⟨is, height, hwellFormed⟩ := compiled_never_structural.1 "switch" switchSource switchScript
    switchSource_compiles "on" "press" chunk (Script.mem_handlerList.2 hchunk)
  have hroom : Host.LendsCompiled room := World.lendsCompiled fun id c hget => by
    change (Table.empty.insert 1 _).get? id = some c at hget
    by_cases hid : id = 1
    · rw [hid, Table.get?_insert_self] at hget
      exact Option.some.inj hget ▸ ⟨"bulb", bulbSource, bulbSource_compiles⟩
    · rw [Table.get?_insert_of_ne _ hid] at hget
      cases hget
  obtain ⟨hresult, new, hnew, hfaults⟩ := compiled_never_structural.2 World (Machine.new {})
    switchOn "press" .empty room ⟨"switch", switchSource, switchSource_compiles⟩ hroom
  refine ⟨⟨chunk, is, height, hchunk, hwellFormed⟩, by decide +kernel, by decide +kernel,
    hresult, ?_⟩
  rw [hnew]
  exact hfaults

end EntityScript
