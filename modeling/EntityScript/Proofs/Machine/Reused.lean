import EntityScript.Proofs.Machine.Pile
import EntityScript.Proofs.Machine.Recast
import EntityScript.World

/-!
# Registers that are used again

A machine may be used for any number of runs, with code of any kind, with faults and with bounds
that are met. Between runs no handler is active and no operand is left, so the next run goes as it
would have gone on registers that were not used before; of what came before only the noted faults
are still there. Inside of a run every call comes back to the operands, the base and the depth that
its caller had.
-/

namespace EntityScript

namespace Moment

variable {σ : Type} [Host σ] {m m' : Moment σ}

/-- From one moment on another is reached before any of the handlers goes on that wait at the
first. -/
def Inside (m m' : Moment σ) : Prop :=
  Relation.ReflTransGen (fun l l' => l.Next l' ∧ m.waiting <:+ l'.waiting) m m'

/-- Inside of a call, the handlers that waited when it began still wait. -/
theorem Inside.suffix (h : m.Inside m') : m.waiting <:+ m'.waiting := by
  cases h with
  | refl => exact List.suffix_rfl
  | tail _ hnext => exact hnext.2

/-- The handlers that wait at a moment still wait at the next, unless the active one ends. -/
theorem Onward.suffix (h : m.Onward m') : m.waiting <:+ m'.waiting := by
  have hcall (l : Moment σ) (event : Event) (c : Context) (kept : Option (Context × EntityId)) :
      l.waiting <:+ (l.call event c kept).waiting := by
    unfold call Waiting.resume
    dsimp only
    split
    · split <;> exact List.suffix_rfl
    · exact List.suffix_cons ..
  cases h with
  | forward performs | fired performs _ | dropped sends _ _ _ => exact List.suffix_rfl
  | reentered sends _ | lent sends _ _ => exact hcall (m.goOn _ _ _) _ _ _

/-- As long as the handlers that wait do not go on, a run stays inside. Before one of them does, the
active handler ends. -/
theorem Reaches.inside_or (h : m.Reaches m') : m.Inside m' ∨ ∃ l, m.Inside l ∧
    l.waiting = m.waiting ∧ ∃ result c r, l.act = .leaves result c r := by
  induction h with
  | refl => exact .inl .refl
  | @tail l l' _ hnext ih =>
    obtain hinside | hleft := ih
    · obtain honward | ⟨result, c, r, w, below, hact, hwaiting, rfl⟩ := hnext.cases
      · exact .inl (hinside.tail ⟨hnext, hinside.suffix.trans honward.suffix⟩)
      · have hsuffix := hinside.suffix
        rw [hwaiting] at hsuffix
        obtain hsame | hbelow := List.suffix_cons_iff.1 hsuffix
        · exact .inr ⟨l, hinside, hwaiting.trans hsame.symm, result, c, r, hact⟩
        · refine .inl (hinside.tail ⟨hnext, ?_⟩)
          unfold Waiting.resume
          split <;> exact hbelow
    · exact .inr hleft

/-- The active handler ends before any handler goes on that waits. -/
theorem exists_inside_leaves (m : Moment σ) : ∃ l, m.Inside l ∧ l.waiting = m.waiting ∧
    ∃ result c r, l.act = .leaves result c r := by
  obtain ⟨l, hreaches, -, -, hwaiting, hact⟩ := m.finishes
  obtain hinside | hleft := hreaches.inside_or
  · exact ⟨l, hinside, hwaiting, _, _, _, hact⟩
  · exact hleft

/-- If one handler more waits after a step, then the active one has called another. -/
theorem Next.calls (hnext : m.Next m') (hlonger : m'.waiting.length = m.waiting.length + 1) :
    ∃ w, m'.waiting = w :: m.waiting ∧ w.activation.invocation = m.active.invocation ∧
      m'.active.stack = #[] := by
  have hcall (l : Moment σ) (event : Event) (c : Context) (kept : Option (Context × EntityId))
      (hlonger : (l.call event c kept).waiting.length = l.waiting.length + 1) :
      (l.call event c kept).waiting = ⟨l.active, kept⟩ :: l.waiting ∧
        (l.call event c kept).active.stack = #[] := by
    unfold call Waiting.resume at hlonger ⊢
    dsimp only at hlonger ⊢
    split
    · rename_i hnone
      rw [hnone] at hlonger
      dsimp only at hlonger
      split at hlonger <;> exact absurd hlonger (Nat.ne_of_lt (Nat.lt_succ_self _))
    · exact ⟨rfl, rfl⟩
  obtain honward | ⟨result, c, r, w, below, -, hwaiting, rfl⟩ := hnext.cases
  · cases honward with
    | forward performs | fired performs _ | dropped sends _ _ _ =>
      exact absurd hlonger (Nat.ne_of_lt (Nat.lt_succ_self _))
    | reentered sends _ | lent sends _ _ =>
      obtain ⟨hwaiting, hstack⟩ := hcall (m.goOn _ _ _) _ _ _ hlonger
      exact ⟨_, hwaiting, rfl, hstack⟩
  · rw [hwaiting] at hlonger
    unfold Waiting.resume at hlonger
    split at hlonger <;> (rw [List.length_cons] at hlonger; dsimp only at hlonger; omega)

end Moment

namespace Instant

variable {σ : Type} [Host σ]

/-- From one instant on another is reached while more handlers are active than so many. -/
def Passes (depth : ℕ) (s s' : Instant σ) : Prop :=
  Relation.ReflTransGen (fun t t' => t.Next t' ∧ depth < t'.registers.depth) s s'

/-- A call that leads from one instant to another comes back: as soon as no more handlers are active
than before, the caller goes on with the operands that were on the stack when the call began, and
with base and depth as they were. -/
def Returns (s s' : Instant σ) : Prop :=
  ∃ last back, Passes s.registers.depth s' last ∧ last.Next back ∧
    (∃ w, s'.waiting = w :: back.waiting ∧ back.active = w.post) ∧
    back.registers.stack = s'.registers.stack ∧ back.registers.base = s.registers.base ∧
    back.registers.depth = s.registers.depth

/-- If the next step is a call, it comes back. -/
def CallsReturn (s : Instant σ) : Prop :=
  ∀ s', s.Next s' → s'.registers.depth = s.registers.depth + 1 → s.Returns s'

end Instant

namespace Moment

variable {σ : Type} [Host σ] {m m' : Moment σ}

/-- What is inside of a call passes while more handlers are active than before it. -/
theorem Inside.passes (hinside : m.Inside m') (h : m.IsPiled) {depth : ℕ}
    (hdepth : depth < m.waiting.length + 1) (requests : List Request) : ∃ requests',
      Instant.Passes depth (m.share requests) (m'.share requests') ∧ m'.IsPiled := by
  induction hinside with
  | refl => exact ⟨requests, .refl, h⟩
  | tail _ hnext ih =>
    obtain ⟨requests', hpasses, hpiled⟩ := ih
    obtain ⟨requests'', hshared⟩ := hnext.1.share hpiled requests'
    refine ⟨requests'', hpasses.tail ⟨hshared, ?_⟩, hnext.1.piled hpiled⟩
    exact Nat.lt_of_lt_of_le hdepth (Nat.succ_le_succ hnext.2.length_le)

/-- Every call from a moment with stacked handlers comes back. -/
theorem IsPiled.callsReturn (h : m.IsPiled) (requests : List Request) :
    (m.share requests).CallsReturn := by
  intro s' hnext hdepth
  obtain ⟨m', asked, hnext', rfl⟩ := exists_of_next_share h hnext
  obtain ⟨w, hwaiting, hinvocation, hstack⟩ := hnext'.calls (Nat.succ_inj.1 hdepth)
  obtain ⟨l, hinside, hsame, result, c, r, hact⟩ := m'.exists_inside_leaves
  have hdeeper : (m.share requests).registers.depth < m'.waiting.length + 1 := by
    rw [hwaiting]
    exact Nat.lt_succ_self _
  obtain ⟨asked', hpasses, hpiled⟩ := hinside.passes (hnext'.piled h) hdeeper asked
  let back : Moment σ := w.resume m.waiting result (l.active.release c) r
  have hback : l.Next back := by
    rw [Next, step, hact]
    dsimp only
    rw [hsame, hwaiting]
  obtain ⟨asked'', hshared⟩ := hback.share hpiled asked'
  have hactive : back.active = w.activation := w.active_resume ..
  have hbelow : back.waiting = m.waiting := w.waiting_resume ..
  have hcaller : ∃ w', halted m'.waiting = w' :: halted back.waiting ∧
      back.active.post (floor (back.waiting.map (·.activation))) = w'.post := by
    rw [hwaiting, hbelow, hactive]
    exact ⟨_, rfl, rfl⟩
  have hoperands : pile back.activations = pile m'.activations := by
    unfold activations
    rw [hactive, hbelow, hwaiting]
    change _ = pile (w.activation :: m.waiting.map (·.activation)) ++ m'.active.stack
    rw [hstack, Array.append_empty]
  have hbase : back.active.invocation.base = m.active.invocation.base := by
    rw [hactive, hinvocation]
  have hheight : back.waiting.length + 1 = m.waiting.length + 1 := by
    rw [hbelow]
  exact ⟨l.share asked', back.share asked'', hpasses, hshared, hcaller, hoperands, hbase, hheight⟩

end Moment

/-- What is left of a run, as the machine answers it. -/
def Left.outcome {σ α : Type} (left : Left σ α) : Outcome σ α :=
  ⟨left.result, left.context, left.registers.machine, left.host.host⟩

/-- Registers, a host, and the faults answered so far. -/
structure Emptied (σ : Type) where
  faults : Array FaultReport
  registers : Registers
  host : σ

/-- What is left of draining a queue, as the machine answers it. -/
def Emptied.drained {σ : Type} (d : Emptied σ) : Drained σ :=
  ⟨d.faults, d.registers.machine, d.host⟩

namespace EventQueue

variable {σ : Type} [Host σ]

/-- Handles one event, or drops it if the host has no context for it. -/
noncomputable def handleOn (d : Emptied σ) (e : QueuedEvent) : Option (Emptied σ) :=
  match Host.take d.host e.target with
  | (none, host) => some { d with host }
  | (some c, host) =>
    (d.registers.dispatch c e.event e.args host).map fun left =>
      let (nested, registers) := left.registers.takeFaults
      let faults := d.faults ++ nested
      { registers
        host := Host.giveBack left.host.host e.target left.context
        faults := match left.result with
          | .ok _ => faults
          | .error report => faults.push report }

/-- Handles all events that wait, oldest first. -/
noncomputable def drainOn (q : EventQueue) (g : Registers) (host : σ) : Option (Emptied σ) :=
  q.events.toList.foldlM handleOn ⟨#[], g, host⟩

end EventQueue

namespace Registers

/-- Registers that come from such bounds by any use: by running code, handling events, draining
queues and forgetting faults, on any contexts and with any hosts. -/
inductive Used (limits : Limits) : Registers → Prop
  | new : Used limits (.new limits)
  | runChunk {g : Registers} (used : Used limits g) {σ : Type} [Host σ] {chunk : Chunk}
    {c : Context} {host : σ} {left : Left σ Unit} (ran : g.runChunk chunk c host = some left) :
    Used limits left.registers
  | dispatch {g : Registers} (used : Used limits g) {σ : Type} [Host σ] {c : Context}
    {event : String} {args : Arguments} {host : σ} {left : Left σ DispatchOutcome}
    (ran : g.dispatch c event args host = some left) : Used limits left.registers
  | drain {g : Registers} (used : Used limits g) {σ : Type} [Host σ] {q : EventQueue} {host : σ}
    {d : Emptied σ} (ran : q.drainOn g host = some d) : Used limits d.registers
  | takeFaults {g : Registers} (used : Used limits g) : Used limits g.takeFaults.2

/-- No handler is active, and the bounds are these. -/
structure Ready (limits : Limits) (g : Registers) : Prop where
  atRest : g.AtRest
  limits : g.limits = limits

variable {σ : Type} [Host σ] {limits : Limits} {g : Registers}

omit [Host σ] in
/-- Fresh registers are ready. -/
theorem ready_new (limits : Limits) : (new limits).Ready limits := ⟨⟨rfl, rfl, rfl⟩, rfl⟩

omit [Host σ] in
/-- Behind a run the registers are ready again. -/
theorem ready_left (e : Ended σ Unit) (limits : Limits) (requests : List Request) :
    (e.left limits requests).registers.Ready limits :=
  ⟨⟨rfl, rfl, rfl⟩, rfl⟩

/-- Every run comes to its end, and leaves behind what the machine makes of it. -/
theorem Ready.exists_ends (h : g.Ready limits) (chunk : Chunk)
    (before : Option (Table String Value)) (c : Context) (host : σ) :
    ∃ e requests, (g.first chunk before c host).Ends e ∧
      (g.start chunk before c host).Ends (e.left limits requests) := by
  obtain ⟨e, requests, hends, hshared⟩ := h.atRest.exists_ends chunk before c host
  rw [h.limits] at hshared
  exact ⟨e, requests, hends, hshared⟩

/-- Running code answers the outcome of the machine. -/
theorem Ready.exists_runChunk (h : g.Ready limits) (chunk : Chunk) (c : Context) (host : σ) :
    ∃ left, g.runChunk chunk c host = some left ∧ left.registers.Ready limits ∧
      left.outcome = g.machine.runChunk chunk c host := by
  obtain ⟨e, requests, hends, hshared⟩ := h.exists_ends chunk none c host
  obtain ⟨e', hends', hrun⟩ := g.machine.exists_ends_chunk chunk c host
  obtain rfl := hends.unique hends'
  refine ⟨_, hshared.run_eq, ready_left e limits requests, ?_⟩
  rw [hrun, ← h.limits]
  rfl

/-- Having an event handled answers the outcome of the machine. -/
theorem Ready.exists_dispatch (h : g.Ready limits) (c : Context) (event : String)
    (args : Arguments) (host : σ) :
    ∃ left, g.dispatch c event args host = some left ∧ left.registers.Ready limits ∧
      left.outcome = g.machine.dispatch c event args host := by
  cases hhandler : c.definition.script.handler? c.state event with
  | none =>
    rw [dispatch_of_no_handler hhandler, g.machine.dispatch_of_no_handler args host hhandler]
    exact ⟨_, rfl, h, rfl⟩
  | some chunk =>
    have hfirst : Moment.ofEvent? g.machine c event args host
        = some (g.first chunk (some c.bound) (c.bindArguments args) host) := by
      rw [Moment.ofEvent?, hhandler]
      rfl
    obtain ⟨e, requests, hends, hshared⟩ :=
      h.exists_ends chunk (some c.bound) (c.bindArguments args) host
    obtain ⟨e', hends', hrun⟩ := g.machine.exists_ends_event hfirst
    obtain rfl := hends.unique hends'
    rw [dispatch_of_handler hhandler, hshared.run_eq, hrun]
    refine ⟨_, rfl, ready_left e limits requests, ?_⟩
    rw [← h.limits]
    rfl

/-- On used registers a queued event is handled as a machine handles it. -/
theorem Ready.exists_handleOn {d : Emptied σ} (h : d.registers.Ready limits) (e : QueuedEvent) :
    ∃ d', EventQueue.handleOn d e = some d' ∧ d'.registers.Ready limits ∧
      d'.drained = EventQueue.handle d.drained e := by
  have hhost : d.drained.host = d.host := rfl
  unfold EventQueue.handleOn EventQueue.handle
  rw [hhost]
  cases Host.take d.host e.target with
  | mk lent host =>
  cases lent with
  | none => exact ⟨_, rfl, h, rfl⟩
  | some c =>
    obtain ⟨left, hran, hready, houtcome⟩ := h.exists_dispatch c e.event e.args host
    have hmachine : d.drained.machine = d.registers.machine := rfl
    dsimp only
    rw [hran, hmachine, ← houtcome]
    refine ⟨_, rfl, ⟨⟨hready.atRest.stack, hready.atRest.base, hready.atRest.depth⟩,
      hready.limits⟩, ?_⟩
    rfl

/-- Draining a queue comes to its end, and to what draining it by the machine comes to. -/
theorem Ready.exists_drainOn (h : g.Ready limits) (q : EventQueue) (host : σ) :
    ∃ d, q.drainOn g host = some d ∧ d.registers.Ready limits ∧
      d.drained = (q.drain g.machine host).1 := by
  have hall (events : List QueuedEvent) (d : Emptied σ) (hd : d.registers.Ready limits) :
      ∃ d', events.foldlM EventQueue.handleOn d = some d' ∧ d'.registers.Ready limits ∧
        d'.drained = events.foldl EventQueue.handle d.drained := by
    induction events generalizing d with
    | nil => exact ⟨d, rfl, hd, rfl⟩
    | cons e events ih =>
      obtain ⟨d', hhandled, hready, hdrained⟩ := hd.exists_handleOn e
      rw [List.foldlM_cons, List.foldl_cons, hhandled, ← hdrained]
      exact ih d' hready
  unfold EventQueue.drain
  rw [← Array.foldl_toList]
  exact hall q.events.toList ⟨#[], g, host⟩ h

omit [Host σ] in
/-- However registers are used, they are ready for the next run. -/
theorem Used.ready (used : g.Used limits) : g.Ready limits := by
  induction used with
  | new => exact ⟨⟨rfl, rfl, rfl⟩, rfl⟩
  | @runChunk g _ σ _ chunk c host left ran ih =>
    obtain ⟨left, hran, hready, -⟩ := ih.exists_runChunk chunk c host
    obtain rfl := Option.some.inj (hran.symm.trans ran)
    exact hready
  | @dispatch g _ σ _ c event args host left ran ih =>
    obtain ⟨left, hran, hready, -⟩ := ih.exists_dispatch c event args host
    obtain rfl := Option.some.inj (hran.symm.trans ran)
    exact hready
  | @drain g _ σ _ q host d ran ih =>
    obtain ⟨d, hran, hready, -⟩ := ih.exists_drainOn q host
    obtain rfl := Option.some.inj (hran.symm.trans ran)
    exact hready
  | takeFaults _ ih => exact ⟨⟨ih.atRest.stack, ih.atRest.base, ih.atRest.depth⟩, ih.limits⟩

omit [Host σ] in
/-- On registers that were used a run begins as on fresh ones of any bounds, under their own bounds
and on top of the faults noted before. -/
theorem Ready.start_eq (h : g.Ready limits) (other : Limits) (chunk : Chunk)
    (before : Option (Table String Value)) (c : Context) (host : σ) :
    g.start chunk before c host
      = ((new other).start chunk before c host).recast limits g.faults := by
  obtain ⟨limits', stack, base, depth, steps, faults⟩ := g
  obtain ⟨⟨rfl, rfl, rfl⟩, rfl⟩ := h
  unfold start Instant.recast recast new enter
  dsimp only
  rw [Array.append_empty, if_pos rfl, if_pos rfl]

end Registers

/-- The same is left as of another run, on top of faults that were noted before. -/
structure Left.OnTop {σ α : Type} (old : Array FaultReport) (left other : Left σ α) : Prop where
  result : left.result = other.result
  context : left.context = other.context
  host : left.host = other.host
  faults : left.registers.faults = old ++ other.registers.faults

/-- The operands, the base and the depth are as they were. -/
structure Registers.Restored (g g' : Registers) : Prop where
  stack : g'.stack = g.stack
  base : g'.base = g.base
  depth : g'.depth = g.depth

/-- What is promised of a run that leaves something behind, when the same run on fresh registers
leaves the other behind and the machine answers such an outcome. -/
structure Registers.Reused {σ α : Type} (g : Registers) (left fresh : Left σ α)
    (o : Outcome σ α) : Prop where
  onTop : left.OnTop g.faults fresh
  restored : g.Restored left.registers
  machine : left.outcome = o

namespace Registers

variable {σ : Type} [Host σ] {limits : Limits} {g : Registers}

/-- Registers between runs have no operands, no base and no depth. -/
theorem Ready.restored {g' : Registers} (h : g.Ready limits) (h' : g'.Ready limits) :
    g.Restored g' where
  stack := h'.atRest.stack.trans h.atRest.stack.symm
  base := h'.atRest.base.trans h.atRest.base.symm
  depth := h'.atRest.depth.trans h.atRest.depth.symm

/-- What ends on fresh registers, ends in the same way on others that are ready. -/
theorem Ready.exists_run (h : g.Ready limits) {chunk : Chunk}
    {before : Option (Table String Value)} {c : Context} {host : σ} {fresh : Left σ Unit}
    (hends : ((new limits).start chunk before c host).Ends fresh) :
    ∃ left, (g.start chunk before c host).run = some left ∧ left.OnTop g.faults fresh := by
  have hrecast := hends.recast (.refl limits) (Instant.clear_self _) g.faults
  rw [h.start_eq limits]
  exact ⟨_, hrecast.run_eq, rfl, rfl, rfl, rfl⟩

/-- Running code on used registers is running it on fresh ones. -/
theorem Ready.reused_runChunk (h : g.Ready limits) (chunk : Chunk) (c : Context) (host : σ) :
    ∃ left fresh, g.runChunk chunk c host = some left ∧
      (new limits).runChunk chunk c host = some fresh ∧
        g.Reused left fresh (g.machine.runChunk chunk c host) := by
  obtain ⟨e, requests, -, hends⟩ := (ready_new limits).exists_ends chunk none c host
  obtain ⟨left, hran, hready, houtcome⟩ := h.exists_runChunk chunk c host
  obtain ⟨left', hran', honTop⟩ := h.exists_run hends
  obtain rfl := Option.some.inj (hran'.symm.trans hran)
  exact ⟨left', _, hran, hends.run_eq, honTop, h.restored hready, houtcome⟩

/-- Dispatching an event on used registers is dispatching it on fresh ones. -/
theorem Ready.reused_dispatch (h : g.Ready limits) (c : Context) (event : String)
    (args : Arguments) (host : σ) :
    ∃ left fresh, g.dispatch c event args host = some left ∧
      (new limits).dispatch c event args host = some fresh ∧
        g.Reused left fresh (g.machine.dispatch c event args host) := by
  obtain ⟨left, hran, hready, houtcome⟩ := h.exists_dispatch c event args host
  cases hhandler : c.definition.script.handler? c.state event with
  | none =>
    obtain rfl := Option.some.inj ((dispatch_of_no_handler hhandler g args host).symm.trans hran)
    exact ⟨_, _, hran, dispatch_of_no_handler hhandler _ args host,
      ⟨rfl, rfl, rfl, Array.append_empty.symm⟩, h.restored hready, houtcome⟩
  | some chunk =>
    obtain ⟨e, requests, -, hends⟩ :=
      (ready_new limits).exists_ends chunk (some c.bound) (c.bindArguments args) host
    obtain ⟨left', hran', honTop⟩ := h.exists_run hends
    have hleft : g.dispatch c event args host = some left'.handled := by
      rw [dispatch_of_handler hhandler, hran']
      rfl
    have hfresh : (new limits).dispatch c event args host
        = some (e.left limits requests).handled := by
      rw [dispatch_of_handler hhandler, hends.run_eq]
      rfl
    obtain rfl := Option.some.inj (hleft.symm.trans hran)
    have hresult : left'.handled.result = (e.left limits requests).handled.result :=
      congrArg (Except.map fun _ => DispatchOutcome.handled) honTop.result
    exact ⟨_, _, hran, hfresh, ⟨hresult, honTop.context, honTop.host, honTop.faults⟩,
      h.restored hready, houtcome⟩

end Registers

/-- A machine carries nothing over from one run to the next. However its registers came to be, with
any code, faults and bounds that were met: running code and handling an event go as on fresh
registers with the same bounds, in their result, the context, the host and all that is asked of it,
and the faults of nested handlers come behind those noted before. Operands, base and depth are then
as they were, and so they are behind every call on the way. To have an event handled once is the
same as to have it handled by fresh registers with the usual bounds. -/
theorem nothing_carried_over {limits : Limits} {g : Registers} (used : g.Used limits) {σ : Type}
    [Host σ] (c : Context) (host : σ) :
    (∀ chunk, (∃ left fresh, g.runChunk chunk c host = some left ∧
        (Registers.new limits).runChunk chunk c host = some fresh ∧
          g.Reused left fresh (g.machine.runChunk chunk c host)) ∧
      ∀ s, (g.startChunk chunk c host).Reaches s → s.CallsReturn) ∧
    ∀ event args, (∃ left fresh, g.dispatch c event args host = some left ∧
        (Registers.new limits).dispatch c event args host = some fresh ∧
          g.Reused left fresh (g.machine.dispatch c event args host) ∧
          (limits = {} → fresh.outcome = dispatchOnce c event args host)) ∧
      ∀ start s, g.startEvent? c event args host = some start → start.Reaches s →
        s.CallsReturn := by
  have hready := used.ready
  have hcalls {chunk : Chunk} {before : Option (Table String Value)} {c : Context}
      {s : Instant σ} (hreaches : (g.start chunk before c host).Reaches s) : s.CallsReturn := by
    obtain ⟨m, requests, -, hpiled, -, rfl⟩ := hready.atRest.exists_of_reaches hreaches
    exact hpiled.callsReturn requests
  refine ⟨fun chunk => ⟨hready.reused_runChunk chunk c host, fun s => hcalls⟩,
    fun event args => ⟨?_, fun start s hstart hreaches => ?_⟩⟩
  · obtain ⟨left, fresh, hleft, hfresh, hreused⟩ := hready.reused_dispatch c event args host
    refine ⟨left, fresh, hleft, hfresh, hreused, fun husual => ?_⟩
    obtain ⟨fresh', hfresh', -, houtcome⟩ :=
      (Registers.ready_new limits).exists_dispatch c event args host
    obtain rfl := Option.some.inj (hfresh.symm.trans hfresh')
    subst husual
    exact houtcome
  · obtain ⟨chunk, -, rfl⟩ := Option.map_eq_some_iff.1 hstart
    exact hcalls hreaches

/-- An entity that falls when it trips, and whose code for falling is no instruction. -/
def clown : Context where
  definition := ⟨0, {
    name := "clown"
    path := "clown"
    states := ["up"]
    handlers := .ofList [("up", .ofList [
      ("fall", ⟨"up.fall", #[0xff], #[], #[]⟩),
      ("trip", ⟨"up.trip", #[0x01, 0x00, 0x40, 0x01, 0x01, 0x00],
        #[.string "clown", .string "fall"], #[]⟩)])]
    declared := .empty }⟩
  state := "up"
  bindings := .empty
  owner := some 1

/-- A world in which the clown is lent out. -/
def ring : World := ⟨.ofList [("clown", 1)], .empty, .ofList [(1, ())], #[], 1⟩

/-- The clown trips a second time, after the fault of the first time was noted. -/
theorem nothing_carried_over_clown : ∃ g : Registers, g.Used {} ∧ g.faults.size = 1 ∧
    ∃ left, g.dispatch clown "trip" .empty ring = some left ∧ left.result = .ok .handled ∧
      left.registers.faults.size = 2 := by
  obtain ⟨fresh, hfresh, -, houtcome⟩ :=
    (Registers.ready_new {}).exists_dispatch clown "trip" .empty ring
  have hresult : fresh.result = .ok .handled :=
    (congrArg (·.result) houtcome).trans (by decide +kernel)
  have hsize : fresh.registers.faults.size = 1 :=
    (congrArg (·.machine.faults.size) houtcome).trans (by decide +kernel)
  have used : fresh.registers.Used {} := .dispatch .new hfresh
  obtain ⟨⟨left, fresh', hleft, hfresh', hreused, -⟩, -⟩ :=
    (nothing_carried_over used clown ring).2 "trip" .empty
  obtain rfl := Option.some.inj (hfresh.symm.trans hfresh')
  refine ⟨fresh.registers, used, hsize, left, hleft, hreused.onTop.result.trans hresult, ?_⟩
  rw [hreused.onTop.faults, Array.size_append, hsize]

end EntityScript
