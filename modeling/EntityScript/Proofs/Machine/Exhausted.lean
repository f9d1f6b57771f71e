import EntityScript.Proofs.Bytecode.Compiled
import EntityScript.Proofs.Machine.Bounded
import EntityScript.Proofs.Machine.Lending
import EntityScript.Proofs.Machine.Reused
import EntityScript.Proofs.Machine.Structural

/-!
# Runs that exceed their budget

A fault of a nested handler is noted and its caller goes on, so a handler that exceeds the budget
does not end the run by itself. But the caller has an instruction to go on with, and this is one too
many as well. In compiled scripts there always is such an instruction, because no handler ends with
firing an event: `Moment.Proper` says that every handler that is active or waits is at an
instruction of its layout. So the fault goes down from handler to handler until the outermost one
answers it.
-/

namespace EntityScript

open Grammar

/-- Every answer has a property. -/
def Answers {α : Type} (P : α → Prop) (x : Except Fault α) : Prop := ∀ a, x = .ok a → P a

namespace Answers

variable {α β : Type} {P : β → Prop}

/-- An answer with the property is one. -/
theorem pure {b : β} (h : P b) : Answers P (pure b : Except Fault β) := by
  intro b' hb
  cases hb
  exact h

/-- An answer has the property if it has whatever was answered before. -/
theorem bind {x : Except Fault α} {next : α → Except Fault β} (h : ∀ a, Answers P (next a)) :
    Answers P (x >>= next) := by
  cases x with
  | error fault =>
    intro b hb
    cases hb
  | ok a => exact h a

end Answers

/-- An instruction leads to one of its successors, unless it is the last one. -/
def Flow.LeadsFrom (offset : ℕ) (x : Instruction) : Flow → Prop
  | .forward distance => offset + x.size + distance ∈ x.successors offset
  | .fire _ => offset + x.size ∈ x.successors offset
  | .finish => True

/-- An instruction that is performed leads to one of its successors. -/
theorem Invocation.perform_leads {i : Invocation} {f f' : Frame} {x : Instruction} {flow : Flow}
    (h : i.perform f x = .ok (flow, f')) (offset : ℕ) : flow.LeadsFrom offset x := by
  have hlast {flow : Flow} (h : flow.LeadsFrom offset x) (f : Frame) :
      Answers (fun done => done.1.LeadsFrom offset x)
        (pure (flow, f) : Except Fault (Flow × Frame)) := .pure h
  have hall : Answers (fun done => done.1.LeadsFrom offset x) (i.perform f x) := by
    cases x with
    | constant index => exact .bind fun v => .bind fun f => hlast List.mem_cons_self f
    | binary op =>
      exact .bind fun right => .bind fun left => .bind fun v => .bind fun f =>
        hlast List.mem_cons_self f
    | negate => exact .bind fun v => .bind fun v => .bind fun f => hlast List.mem_cons_self f
    | not => exact .bind fun v => .bind fun b => .bind fun f => hlast List.mem_cons_self f
    | getVariable index => exact .bind fun name => .bind fun f => hlast List.mem_cons_self f
    | setVariable index => exact .bind fun name => .bind fun v => hlast List.mem_cons_self _
    | getComponent index =>
      exact .bind fun name => .bind fun v => .bind fun v => .bind fun f =>
        hlast List.mem_cons_self f
    | pop => exact .bind fun v => hlast List.mem_cons_self _
    | fireEvent index flags argc => exact .bind fun event => hlast List.mem_cons_self _
    | changeState index => exact .bind fun state => .bind fun c => hlast List.mem_cons_self _
    | jump distance => exact hlast List.mem_cons_self f
    | jumpIfFalse distance =>
      refine .bind fun v => .bind fun b => hlast ?_ f
      cases b with
      | true => exact List.mem_cons_self
      | false => exact List.mem_cons_of_mem _ List.mem_cons_self
    | ret =>
      have hfinish : Flow.finish.LeadsFrom offset .ret := trivial
      exact hlast hfinish f
  exact hall _ h

namespace Activation

/-- A handler is at an instruction of a layout of its code. -/
def Placed (a : Activation) : Prop :=
  ∃ states p x s, LaidOut states (p ++ x :: s) a.chunk ∧ a.offset = codeSize (Layout.code p)

namespace Placed

variable {a : Activation}

/-- There it has an instruction to go on with. -/
theorem inside (h : a.Placed) : a.offset < a.chunk.size := by
  obtain ⟨states, p, x, s, hl, hoffset⟩ := h
  obtain ⟨hlt, -⟩ := hl.suffix.fetch
  exact hoffset ▸ hlt

/-- From one instruction of a layout a handler gets to another. -/
theorem goOn (h : a.Placed) {x : Instruction} {next : ℕ}
    (hfetched : a.chunk.fetch? a.offset = some (.instruction x))
    (hnext : next ∈ x.successors a.offset) (stack : Array Value) : (a.goOn next stack).Placed := by
  obtain ⟨states, p, y, s, hl, hoffset⟩ := h
  obtain ⟨hlt, hfetch⟩ := hl.suffix.fetch
  rw [hoffset, Chunk.fetch?_eq _ hlt, hfetch] at hfetched
  cases hfetched
  rw [hoffset] at hnext
  obtain ⟨q, z, t, hsplit, rfl, -⟩ := hl.height_next hnext
  exact ⟨states, q, z, t, hsplit ▸ hl, rfl⟩

/-- The handler of an event in a compiled script begins at the first instruction of its layout. -/
theorem start {script : Script} (hc : script.Compiled) {state event : String} {i : Invocation}
    (hchunk : script.handler? state event = some i.chunk)
    (before : Option (Table String Value)) : (Activation.start i before).Placed := by
  obtain ⟨l, hl⟩ := hc.laidOut hchunk
  obtain ⟨x, s, rfl, -⟩ := hl.first
  exact ⟨script.states, [], x, s, hl, rfl⟩

end Placed

end Activation

namespace Moment

variable {σ : Type} [Host σ] {m m' : Moment σ}

/-- Every handler is at an instruction of a layout of its code, and all contexts in hand and in the
host are of compiled scripts. -/
structure Proper (m : Moment σ) : Prop where
  placed : ∀ a ∈ m.activations, a.Placed
  context : m.context.definition.script.Compiled
  kept : ∀ w ∈ m.waiting, ∀ own, w.kept = some own → own.1.definition.script.Compiled
  lends : Host.LendsCompiled m.run.host

/-- Going on at a successor keeps handlers at instructions of their layouts. -/
theorem Proper.goOn (h : m.Proper) {x : Instruction} {flow : Flow} {f : Frame} {r : Run σ}
    (hperforms : m.Performs x flow f r) {next : ℕ}
    (hnext : next ∈ x.successors m.active.offset) {r' : Run σ}
    (hlends : Host.LendsCompiled r'.host) : (m.goOn next f r').Proper where
  placed := by
    obtain ⟨hactive, hwaiting⟩ := List.forall_mem_cons.1 h.placed
    exact List.forall_mem_cons.2 ⟨hactive.goOn hperforms.fetched hnext _, hwaiting⟩
  context := by
    have hsame := (Invocation.perform_worked hperforms.performed).definition
    change f.context.definition.script.Compiled
    rw [hsame]
    exact h.context
  kept := h.kept
  lends := hlends

/-- A handler that waits goes on at an instruction of its layout. -/
theorem Proper.resume {w : Waiting} {below : List Waiting}
    (hplaced : ∀ a ∈ (w :: below).map (·.activation), a.Placed)
    (hkept : ∀ v ∈ w :: below, ∀ own, v.kept = some own → own.1.definition.script.Compiled)
    {α : Type} (result : Except FaultReport α) {c : Context}
    (hc : c.definition.script.Compiled) {r : Run σ} (hlends : Host.LendsCompiled r.host) :
    (w.resume below result c r).Proper := by
  obtain ⟨hown, hbelow⟩ := List.forall_mem_cons.1 hkept
  have hnoted : Host.LendsCompiled (r.note result).host := by
    cases result <;> exact hlends
  unfold Waiting.resume
  cases hkept : w.kept with
  | none => exact ⟨hplaced, hc, hbelow, hnoted⟩
  | some own =>
    exact ⟨hplaced, hown own hkept, hbelow, hnoted.of_leads (.giveBack .refl own.2 hc)⟩

/-- A handler that is called begins at the first instruction of its layout. -/
theorem Proper.call (h : m.Proper) (event : Event) {c : Context}
    (hc : c.definition.script.Compiled) {kept : Option (Context × EntityId)}
    (hkept : ∀ own, kept = some own → own.1.definition.script.Compiled) :
    (m.call event c kept).Proper := by
  have hall : ∀ v ∈ (⟨m.active, kept⟩ : Waiting) :: m.waiting, ∀ own, v.kept = some own →
      own.1.definition.script.Compiled := List.forall_mem_cons.2 ⟨hkept, h.kept⟩
  unfold Moment.call
  dsimp only
  split
  · exact Proper.resume (w := ⟨m.active, kept⟩) h.placed hall (.ok ()) hc h.lends
  · rename_i chunk hchunk
    exact ⟨List.forall_mem_cons.2 ⟨.start hc hchunk _, h.placed⟩, hc, hall, h.lends⟩

/-- When a handler leaves, the host still lends contexts of compiled scripts only. -/
theorem Proper.leaves (h : m.Proper) {result : Except FaultReport Unit} {c : Context} {r : Run σ}
    (hleaves : m.Leaves result c r) : Host.LendsCompiled r.host := by
  obtain hsame | ⟨id, htaken⟩ := hleaves.host
  · rw [hsame]
    exact h.lends
  · have hhost : (Host.take m.run.host id).2 = r.host := by rw [htaken]
    exact hhost ▸ h.lends.of_leads (.take .refl id)

/-- One step keeps every handler at an instruction. -/
theorem Next.proper (hnext : m.Next m') (h : m.Proper) : m'.Proper := by
  have hlends {x : Instruction} {flow : Flow} {f : Frame} {r : Run σ}
      (hperforms : m.Performs x flow f r) : Host.LendsCompiled r.host := by
    rw [hperforms.steps]
    exact h.lends
  have htaken {x : Instruction} {flow : Flow} {f : Frame} {r : Run σ} {id : EntityId}
      {lent : Option Context} {host : σ} (hperforms : m.Performs x flow f r)
      (htaken : Host.take r.host id = (lent, host)) : Host.LendsCompiled host := by
    have hhost : (Host.take r.host id).2 = host := by rw [htaken]
    exact hhost ▸ (hlends hperforms).of_leads (.take .refl id)
  have hfired {x : Instruction} {event : Event} {f : Frame} {r r' : Run σ}
      (hperforms : m.Performs x (.fire event) f r) (hlends : Host.LendsCompiled r'.host) :
      (m.goOn (m.active.offset + x.size) f r').Proper :=
    h.goOn hperforms (Invocation.perform_leads hperforms.performed _) hlends
  -- A context is lent out, kept by who waits, or given back, and each time it is of compiled code.
  obtain honward | ⟨result, c, r, w, below, hact, hwaiting, rfl⟩ := hnext.cases
  · cases honward with
    | forward performs =>
      exact h.goOn performs (Invocation.perform_leads performs.performed _) (hlends performs)
    | fired performs _ => exact hfired performs ((hlends performs).of_leads (.fire .refl _ _))
    | reentered sends _ =>
      have hgoes := hfired sends.performs (hlends sends.performs)
      exact hgoes.call _ hgoes.context fun own h => by cases h
    | @lent x event target id f r c host sends _ taken =>
      have hgoes : (m.goOn (m.active.offset + x.size) f { r with host }).Proper :=
        hfired sends.performs (htaken sends.performs taken)
      have hlent : c.definition.script.Compiled :=
        hlends sends.performs r.host .refl id c (by rw [taken])
      exact hgoes.call _ hlent fun own h => by
        cases h
        exact hgoes.context
    | dropped sends _ taken _ => exact hfired sends.performs (htaken sends.performs taken)
  · have hbelow := h.placed
    have hkept := h.kept
    unfold activations at hbelow
    rw [hwaiting] at hbelow hkept
    have hc : (m.active.release m.context).definition.script.Compiled := by
      unfold Activation.release
      split <;> exact h.context
    exact .resume (List.forall_mem_cons.1 hbelow).2 hkept _ hc (h.leaves (leaves_of_act hact))

end Moment

/-- Handlers that wait at an instruction have one to go on with. -/
theorem inside_of_mem_halted {waiting : List Waiting} (h : ∀ w ∈ waiting, w.activation.Placed) :
    ∀ w ∈ halted waiting, w.post.offset < w.post.chunk.size := by
  induction waiting with
  | nil => exact List.forall_mem_nil _
  | cons w below ih =>
    obtain ⟨hplaced, hbelow⟩ := List.forall_mem_cons.1 h
    exact List.forall_mem_cons.2 ⟨hplaced.inside, ih hbelow⟩

/-- Counting an instruction answers that there were too many just if the budget is used up. -/
theorem Registers.count_eq_error_iff {g : Registers} {n : ℕ} :
    g.count.1 = .error (.stepLimitExceeded n) ↔ g.limits.steps = some n ∧ n ≤ g.steps := by
  unfold count
  dsimp only
  cases g.limits.steps with
  | none => simp
  | some limit =>
    dsimp only
    by_cases hlt : limit < g.steps + 1
    · rw [if_pos hlt]
      constructor
      · intro h
        cases h
        exact ⟨rfl, Nat.lt_succ_iff.1 hlt⟩
      · intro h
        rw [Option.some.inj h.1]
    · rw [if_neg hlt]
      constructor
      · intro h
        cases h
      · intro h
        cases h.1
        exact absurd (Nat.lt_succ_iff.2 h.2) hlt

namespace Instant

variable {σ : Type}

/-- The active handler has an instruction to begin with, but the budget is exceeded by it. -/
structure Exhausted (s : Instant σ) (n : ℕ) : Prop where
  inside : s.active.offset < s.active.chunk.size
  counted : s.registers.count.1 = .error (.stepLimitExceeded n)

instance (s : Instant σ) (n : ℕ) : Decidable (s.Exhausted n) :=
  decidable_of_iff (s.active.offset < s.active.chunk.size ∧ s.registers.limits.steps = some n ∧
      n ≤ s.registers.steps)
    ⟨fun h => ⟨h.1, Registers.count_eq_error_iff.2 h.2⟩,
      fun h => ⟨h.inside, Registers.count_eq_error_iff.1 h.counted⟩⟩

/-- The outermost of the handlers that are active. -/
def outermost (s : Instant σ) : Post :=
  (s.active :: s.waiting.map (·.post)).getLast (List.cons_ne_nil _ _)

variable [Host σ] {s : Instant σ} {n : ℕ}

/-- The fault ends the active handler. -/
theorem Exhausted.step_eq (h : s.Exhausted n) : s.step
    = { s with registers := s.registers.count.2 }.leave (some (.stepLimitExceeded n)) := by
  have hcounted := h.counted
  unfold step act
  rw [dif_pos h.inside]
  generalize s.registers.count = counted at hcounted ⊢
  obtain ⟨result, registers⟩ := counted
  dsimp only at hcounted
  rw [hcounted]

/-- The budget stays used up behind the end of a handler. -/
theorem Exhausted.resume (h : s.Exhausted n) {w : Halted}
    (hinside : w.post.offset < w.post.chunk.size) (below : List Halted)
    (result : Except FaultReport Unit) (c : Context) (callerBase : ℕ) (host : Witnessed σ) :
    (w.resume below result c (s.registers.count.2.leave callerBase) host).Exhausted n := by
  obtain ⟨hlimit, hspent⟩ := Registers.count_eq_error_iff.1 h.counted
  constructor
  · rw [Halted.active_resume]
    exact hinside
  · rw [Halted.registers_resume, Registers.count_snd, Registers.count_eq_error_iff]
    cases result <;> exact ⟨hlimit, Nat.le_succ_of_le hspent⟩

/-- If every handler that waits has an instruction to go on with, then a run that exceeds its budget
ends with this fault of its outermost handler. The induction is on the handlers that wait. -/
theorem Exhausted.ends (h : s.Exhausted n)
    (hinside : ∀ w ∈ s.waiting, w.post.offset < w.post.chunk.size) :
    ∃ left, s.Ends left ∧ left.result = .error (s.outermost.report (.stepLimitExceeded n)) := by
  let result : Except FaultReport Unit := .error (s.active.report (.stepLimitExceeded n))
  let c : Context := s.active.release s.context
  let registers : Registers := s.registers.count.2.leave s.active.callerBase
  induction hwaiting : s.waiting generalizing s with
  | nil =>
    have houtermost : s.outermost = s.active := by
      unfold outermost
      simp only [hwaiting, List.map_nil, List.getLast_singleton]
    have hends : s.step = .ends ⟨result, c, registers, s.host⟩ := by
      rw [h.step_eq, leave, hwaiting]
      rfl
    exact ⟨_, ⟨s, .refl, hends⟩, houtermost ▸ rfl⟩
  | cons w below ih =>
    rw [hwaiting] at hinside
    obtain ⟨hin, hinside⟩ := List.forall_mem_cons.1 hinside
    let next : Instant σ := w.resume below result c registers s.host
    have hnext : s.Next next := by
      rw [Next, h.step_eq, leave, hwaiting]
      rfl
    have hactive : next.active = w.post := w.active_resume ..
    have hbelow : next.waiting = below := w.waiting_resume ..
    have houtermost : next.outermost = s.outermost := by
      unfold outermost
      simp only [hactive, hbelow, hwaiting, List.map_cons, List.getLast_cons_cons]
    have hexhausted : next.Exhausted n := h.resume hin below result c _ s.host
    rw [← hbelow] at hinside
    obtain ⟨left, ⟨last, hreaches, hlast⟩, hresult⟩ := ih hexhausted hinside hbelow
    exact ⟨left, ⟨last, .head hnext hreaches, hlast⟩, houtermost ▸ hresult⟩

end Instant

/-- A run that begins here keeps to such bounds. -/
structure Instant.Limited {σ : Type} [Host σ] (start : Instant σ) (limits : Limits) : Prop where
  /-- There are never more operands than may be, also where a handler ends amid an instruction. -/
  stack : ∀ s, start.Reaches s → s.registers.stack.size ≤ limits.stackSize ∧
    s.act.Holds fun s' => s'.registers.stack.size ≤ limits.stackSize
  /-- The active handler and those that wait are no more than may be, and than are counted. -/
  active : ∀ s, start.Reaches s → s.registers.depth = s.waiting.length + 1 ∧
    s.waiting.length + 1 ≤ max 1 limits.dispatchDepth
  /-- Over all handlers no more instructions are executed than the budget allows. -/
  executed : ∀ n, limits.steps = some n → ∀ rest, (start :: rest).IsChain Instant.Next →
    (start :: rest).countP Instant.executes ≤ n

/-- Every run on registers that are ready keeps to their bounds. -/
theorem Registers.Ready.limited {σ : Type} [Host σ] {limits : Limits} {g : Registers}
    (h : g.Ready limits) (chunk : Chunk) (before : Option (Table String Value)) (c : Context)
    (host : σ) : (g.start chunk before c host).Limited limits := by
  have hstart : (g.start chunk before c host).Bounded limits 0 :=
    Instant.bounded_start h.limits h.atRest.stack h.atRest.depth
  refine ⟨fun s hreaches => ?_, fun s hreaches => ?_, fun n hlimit rest hchain => ?_⟩
  · obtain ⟨steps, hbounded⟩ := hreaches.bounded hstart
    exact ⟨hbounded.stack, hbounded.act.imp fun s' h' => h'.stack⟩
  · obtain ⟨steps, hbounded⟩ := hreaches.bounded hstart
    exact ⟨hbounded.depth, hbounded.active⟩
  · exact Instant.countP_executes_le hlimit hstart rest hchain

/-- If all scripts are compiled, then every handler that is active has an instruction to go on with,
so that exceeding the budget ends the run. -/
theorem Registers.Ready.result_of_exhausted {σ : Type} [Host σ] {limits : Limits}
    {g : Registers} (h : g.Ready limits) {c : Context} (hc : c.definition.script.Compiled)
    {host : σ} (hlends : Host.LendsCompiled host) {event : String} {args : Arguments}
    {start s : Instant σ} (hstart : g.startEvent? c event args host = some start)
    (hreaches : start.Reaches s) {n : ℕ} (hexhausted : s.Exhausted n)
    {left : Left σ DispatchOutcome} (hran : g.dispatch c event args host = some left) :
    left.result = .error (s.outermost.report (.stepLimitExceeded n)) := by
  obtain ⟨chunk, hchunk, rfl⟩ := Option.map_eq_some_iff.1 hstart
  have hfirst : (g.first chunk (some c.bound) (c.bindArguments args) host).Proper :=
    ⟨List.forall_mem_cons.2 ⟨.start hc hchunk _, List.forall_mem_nil _⟩, hc,
      List.forall_mem_nil _, hlends⟩
  obtain ⟨m, requests, hm, -, -, rfl⟩ := h.atRest.exists_of_reaches hreaches
  have hproper : m.Proper := hm.keeps (fun hnext hl => hnext.proper hl) hfirst
  have hwaiting : ∀ w ∈ m.waiting, w.activation.Placed := fun w hw =>
    hproper.placed _ (List.mem_cons_of_mem _ (List.mem_map_of_mem hw))
  obtain ⟨ended, ⟨last, hlast, hends⟩, hresult⟩ :=
    hexhausted.ends (inside_of_mem_halted hwaiting)
  rw [dispatch_of_handler hchunk, Instant.Ends.run_eq ⟨last, hreaches.trans hlast, hends⟩] at hran
  cases hran
  unfold Left.handled
  rw [hresult]
  rfl

/-- The bounds hold in every run, whatever the code, the context and the host are: there are never
more operands on the stack than may be, no more handlers are active than may be, and over all
handlers together no more instructions are executed than the budget allows. If all scripts are
compiled, then no handler hides that the budget is exceeded: wherever this happens, the event that
the run began with is answered by this fault, raised by the next instruction of the outermost
handler. -/
theorem limits_bound_runs {limits : Limits} {g : Registers} (used : g.Used limits) {σ : Type}
    [Host σ] (c : Context) (host : σ) :
    (∀ chunk, (g.startChunk chunk c host).Limited limits ∧
      ∃ left, g.runChunk chunk c host = some left ∧
        left.outcome = g.machine.runChunk chunk c host) ∧
    ∀ event args start, g.startEvent? c event args host = some start → start.Limited limits ∧
      ∃ left, g.dispatch c event args host = some left ∧
        left.outcome = g.machine.dispatch c event args host ∧
          (c.definition.script.Compiled → Host.LendsCompiled host →
            ∀ n s, start.Reaches s → s.Exhausted n →
              left.result = .error (s.outermost.report (.stepLimitExceeded n))) := by
  have hready := used.ready
  constructor
  · intro chunk
    obtain ⟨left, hran, -, houtcome⟩ := hready.exists_runChunk chunk c host
    exact ⟨hready.limited chunk none c host, left, hran, houtcome⟩
  · intro event args start hstart
    obtain ⟨left, hran, -, houtcome⟩ := hready.exists_dispatch c event args host
    refine ⟨?_, left, hran, houtcome, fun hc hlends n s hreaches hexhausted => ?_⟩
    · obtain ⟨chunk, -, rfl⟩ := Option.map_eq_some_iff.1 hstart
      exact hready.limited chunk (some c.bound) (c.bindArguments args) host
    · exact hready.result_of_exhausted hc hlends hstart hreaches hexhausted hran

/-- An entity that trips for ever, once it trips. -/
def tumblerSource : String := "State up { OnEvent trip { FireEvent(trip, clown); } }"

/-- What the entity compiles to. -/
def tumblerScript : Script := (compile "tumbler" tumblerSource).toOption.getD default

/-- The tumbler compiles to its script. -/
theorem tumblerSource_compiles : compile "tumbler" tumblerSource = .ok tumblerScript := by
  have hsome : (compile "tumbler" tumblerSource).toOption.isSome = true := by decide +kernel
  exact compile_eq_getD hsome

/-- The entity that the ring knows as the clown. -/
def tumbler : Context := ⟨⟨0, tumblerScript⟩, "up", .empty, some 1⟩

/-- The second time that the entity trips exceeds a budget of two instructions. -/
theorem limits_bound_runs_tumbler : ∃ left,
    (Registers.new ⟨64, 1024, some 2⟩).dispatch tumbler "trip" .empty ring = some left ∧
      left.result = .error ⟨"up.trip", 6, 1, .stepLimitExceeded 2⟩ := by
  have hcheck : ((Registers.new ⟨64, 1024, some 2⟩).startEvent? tumbler "trip" .empty ring).any
      (fun start => (start.later? 2).any fun s => decide (s.Exhausted 2 ∧
        s.outermost.report (.stepLimitExceeded 2) = ⟨"up.trip", 6, 1, .stepLimitExceeded 2⟩))
      = true := by decide +kernel
  obtain ⟨start, hstart, hlater⟩ := (Option.any_eq_true ..).1 hcheck
  obtain ⟨s, hlater, hs⟩ := (Option.any_eq_true ..).1 hlater
  obtain ⟨hexhausted, hreport⟩ := of_decide_eq_true hs
  have hcompiled : tumbler.definition.script.Compiled :=
    ⟨"tumbler", tumblerSource, tumblerSource_compiles⟩
  have hlends : Host.LendsCompiled ring := World.lendsCompiled fun id c h => by cases h
  obtain ⟨-, left, hran, -, hresult⟩ :=
    (limits_bound_runs .new tumbler ring).2 "trip" .empty start hstart
  rw [← hreport]
  exact ⟨left, hran, hresult hcompiled hlends 2 s (.of_later? hlater) hexhausted⟩

end EntityScript
