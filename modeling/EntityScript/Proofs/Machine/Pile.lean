import EntityScript.Proofs.Machine.Contained
import EntityScript.Proofs.Machine.Registers

/-!
# Moments on one stack

At a moment of a run every handler has a stack of its own, and only knows how many operands lie
below them. Put on top of each other these stacks are the one stack of the registers, and the
numbers are the bases: `Moment.share` is the instant that belongs to a moment. One step of the
moment is one step of the instant, so that a run of the registers comes to its end, and to the
outcome of the machine.
-/

namespace EntityScript

section Resume

variable {σ α : Type} [Host σ] (w : Waiting) (below : List Waiting) (result : Except FaultReport α)
  (c : Context) (r : Run σ)

/-- The handler that waited is the active one when it goes on. -/
@[simp] theorem Waiting.active_resume : (w.resume below result c r).active = w.activation := by
  unfold resume
  split <;> rfl

/-- Those that waited below still wait when it goes on. -/
@[simp] theorem Waiting.waiting_resume : (w.resume below result c r).waiting = below := by
  unfold resume
  split <;> rfl

end Resume

/-- The operands of handlers on one stack, those of the first one on top. -/
def pile : List Activation → Array Value
  | [] => #[]
  | a :: below => pile below ++ a.stack

/-- The base of the first of some handlers, if there is one. -/
def floor : List Activation → ℕ
  | [] => 0
  | a :: _ => a.invocation.base

/-- Handlers are under the same bounds, and each knows how many operands lie below its own. -/
structure Stacked (limits : Limits) (a : Activation) (below : List Activation) : Prop where
  limits : a.invocation.limits = limits
  base : a.invocation.base = (pile below).size

/-- All handlers are stacked on those that began before them. -/
def Piled (limits : Limits) : List Activation → Prop
  | [] => True
  | a :: below => Stacked limits a below ∧ Piled limits below

namespace Moment

variable {σ : Type} [Host σ] {m m' : Moment σ}

/-- All handlers of a moment are stacked. -/
def IsPiled (m : Moment σ) : Prop := Piled m.limits m.activations

omit [Host σ] in
/-- Handlers stay stacked when the active one goes on. -/
theorem IsPiled.goOn (h : m.IsPiled) (next : ℕ) (f : Frame) (r : Run σ) :
    (m.goOn next f r).IsPiled :=
  ⟨⟨h.1.limits, h.1.base⟩, h.2⟩

/-- Handlers stay stacked when the active one calls another. -/
theorem IsPiled.call (h : m.IsPiled) (event : Event) (c : Context)
    (kept : Option (Context × EntityId)) : (m.call event c kept).IsPiled := by
  unfold Moment.call
  dsimp only
  split
  · unfold Waiting.resume
    dsimp only
    split <;> exact h
  · refine ⟨⟨rfl, ?_⟩, h⟩
    change _ = (pile m.activations).size
    unfold activations
    rw [pile, Array.size_append, ← h.1.base]
    rfl

/-- Handlers stay stacked when the last one that waits goes on. -/
theorem IsPiled.resume {α : Type} {w : Waiting} {below : List Waiting} (h : m.IsPiled)
    (hwaiting : m.waiting = w :: below) (result : Except FaultReport α) (c : Context) (r : Run σ) :
    (w.resume below result c r).IsPiled := by
  have hbelow : Piled m.limits ((w :: below).map (·.activation)) := hwaiting ▸ h.2
  have hlimits : w.activation.invocation.limits = m.limits := hbelow.1.limits
  unfold Waiting.resume
  split <;> (rw [← hlimits] at hbelow; exact hbelow)

/-- Handlers stay stacked from one moment to the next. -/
theorem Next.piled (hnext : m.Next m') (h : m.IsPiled) : m'.IsPiled := by
  obtain honward | ⟨result, c, r, w, below, -, hwaiting, rfl⟩ := hnext.cases
  · cases honward with
    | forward performs | fired performs _ | dropped sends _ _ _ => exact h.goOn _ _ _
    | reentered sends _ | lent sends _ _ => exact (h.goOn _ _ _).call _ _ _
  · exact h.resume hwaiting _ _ _

/-- The bounds are the same from one moment to the next. -/
theorem Next.limits_eq (hnext : m.Next m') (h : m.IsPiled) : m'.limits = m.limits := by
  obtain honward | ⟨result, c, r, w, below, -, hwaiting, rfl⟩ := hnext.cases
  · cases honward with
    | forward performs | fired performs _ | dropped sends _ _ _ => rfl
    | reentered sends _ | lent sends _ _ =>
      unfold call Waiting.resume
      dsimp only
      split <;> rfl
  · have hbelow : Piled m.limits ((w :: below).map (·.activation)) := hwaiting ▸ h.2
    unfold Waiting.resume
    split <;> exact hbelow.1.limits

end Moment

/-- A handler apart from its operands, over a caller with such a base. -/
def Activation.post (a : Activation) (callerBase : ℕ) : Post :=
  ⟨a.chunk, a.offset, callerBase, a.before⟩

/-- Handlers that wait, apart from their operands. -/
def halted : List Waiting → List Halted
  | [] => []
  | w :: below =>
    ⟨w.activation.post (floor (below.map (·.activation))), w.kept⟩ :: halted below

/-- What is left of a run under such bounds, with all that was asked of the host. No handler is
active any more, and so no operand is left. -/
def Ended.left {σ : Type} (e : Ended σ Unit) (limits : Limits) (requests : List Request) :
    Left σ Unit :=
  ⟨e.result, e.context, ⟨limits, #[], 0, 0, e.run.steps, e.run.faults⟩, ⟨e.run.host, requests⟩⟩

namespace Moment

variable {σ : Type}

section Share

variable [Host σ]

/-- The registers at a moment. -/
def registers (m : Moment σ) : Registers where
  limits := m.limits
  stack := pile m.activations
  base := m.active.invocation.base
  depth := m.waiting.length + 1
  steps := m.run.steps
  faults := m.run.faults

/-- The instant of a moment, with all that was asked of the host until then. -/
def share (m : Moment σ) (requests : List Request) : Instant σ where
  registers := m.registers
  active := m.active.post (floor (m.waiting.map (·.activation)))
  context := m.context
  waiting := halted m.waiting
  host := ⟨m.run.host, requests⟩

end Share

/-- The active handler with other operands and another context, where it is. -/
def withFrame (m : Moment σ) (f : Frame) (r : Run σ) : Moment σ :=
  ⟨{ m.active with stack := f.stack }, f.context, m.waiting, r⟩

/-- What became of the active handler if it ends where it is, with a fault or without one. -/
def verdict (m : Moment σ) : Option Fault → Except FaultReport Unit := (m.active.post 0).verdict

variable [Host σ] {m m' : Moment σ}

omit [Host σ] in
/-- Handlers stay stacked when the active one has other operands. -/
theorem IsPiled.withFrame (h : m.IsPiled) (f : Frame) (r : Run σ) : (m.withFrame f r).IsPiled :=
  ⟨⟨h.1.limits, h.1.base⟩, h.2⟩

/-- The instant does the same as the moment. -/
inductive Shares (m : Moment σ) : Deed σ → Turn σ → Prop
  | goes (m' : Moment σ) (requests : List Request) :
    Shares m (.goes m') (.goes (m'.share requests))
  | leaves (fault : Option Fault) (f : Frame) (r : Run σ) (requests : List Request) :
    Shares m (.leaves (m.verdict fault) f.context r)
      (.leaves fault ((m.withFrame f r).share requests))

/-- A handler that waits goes on in the same way. -/
theorem share_resume {α : Type} (w : Waiting) (below : List Waiting)
    (result : Except FaultReport α) (c : Context) (r : Run σ) (requests : List Request) :
    ∃ requests', Halted.resume ⟨w.activation.post (floor (below.map (·.activation))), w.kept⟩
        (halted below) result c
        ⟨w.activation.invocation.limits, pile ((w :: below).map (·.activation)),
          floor ((w :: below).map (·.activation)), below.length + 1, r.steps, r.faults⟩
        ⟨r.host, requests⟩
      = (w.resume below result c r).share requests' := by
  obtain ⟨a, kept⟩ := w
  cases kept with
  | none =>
    refine ⟨requests, ?_⟩
    cases result <;> rfl
  | some own =>
    refine ⟨.giveBack own.2 c :: requests, ?_⟩
    cases result <;> rfl

/-- An event is handled in the same way. -/
theorem share_call (h : m.IsPiled) (event : Event) (c : Context)
    (kept : Option (Context × EntityId)) (requests : List Request) : ∃ requests',
      (m.share requests).call event c kept = (m.call event c kept).share requests' := by
  unfold Instant.call Moment.call
  dsimp only
  cases c.definition.script.handler? c.state event.name with
  | none => exact share_resume ⟨m.active, kept⟩ m.waiting _ c m.run requests
  | some chunk =>
    let i : Invocation :=
      ⟨m.limits, m.active.invocation.base + m.active.stack.size, chunk⟩
    let callee : Moment σ := ⟨.start i (some c.bound), c.bindArguments event.args,
      ⟨m.active, kept⟩ :: m.waiting, m.run⟩
    have hregisters : m.registers.enter = callee.registers := by
      have hbase : (pile m.activations).size = i.base := by
        unfold activations
        rw [pile, Array.size_append, ← h.1.base]
      have hstack : pile callee.activations = pile m.activations := Array.append_empty
      unfold Registers.enter registers
      dsimp only
      rw [hbase, hstack]
      rfl
    refine ⟨requests, ?_⟩
    change Instant.mk m.registers.enter _ _ _ _ = _
    rw [hregisters]
    rfl

omit [Host σ] in
/-- An instruction is counted in the same way. -/
theorem share_count (m : Moment σ) (requests : List Request) {result : Except Fault Unit}
    {r : Run σ} (h : m.active.invocation.beginStep m.run = (result, r)) :
    (m.share requests).registers.count
      = (result, ((m.withFrame ⟨m.active.stack, m.context⟩ r).share requests).registers) := by
  have hlimits : (m.share requests).registers.limits = m.active.invocation.limits := rfl
  unfold Invocation.beginStep at h
  unfold Registers.count
  dsimp only
  rw [hlimits]
  cases hlimit : m.active.invocation.limits.steps with
  | some limit =>
    rw [hlimit] at h
    change (if limit < m.run.steps + 1 then _ else _) = _
    dsimp only at h
    split at h
    · rename_i hlt
      cases h
      rw [if_pos hlt]
      rfl
    · rename_i hle
      cases h
      rw [if_neg hle]
      rfl
  | none =>
    rw [hlimit] at h
    cases h
    rfl

omit [Host σ] in
/-- An instruction works in the same way. -/
theorem share_work (h : m.IsPiled) (requests : List Request) (x : Instruction) :
    (Operands.shared (m.share requests).invocation).work (m.share requests).invocation x
        ⟨(m.share requests).registers.stack, (m.share requests).context⟩
      = InPlace.raise (pile (m.waiting.map (·.activation)))
        (InPlace.work m.active.invocation x ⟨m.active.stack, m.context⟩) :=
  InPlace.over_work h.1.base x ⟨m.active.stack, m.context⟩

/-- An event is delivered in the same way. -/
theorem shares_deliver (h : m.IsPiled) (next : ℕ) (event : Event) (f : Frame) (r : Run σ)
    (requests : List Request) : m.Shares (m.deliver next event f r)
      (((m.withFrame f r).share requests).deliver next event) := by
  unfold deliver Instant.deliver
  cases event.target with
  | none => exact .goes (m.goOn next f { r with host := Host.fire r.host event.name event.args }) _
  | some target =>
  have hcall (host : σ) (c : Context) (kept : Option (Context × EntityId))
      (requests : List Request) :
      m.Shares (.goes ((m.goOn next f { r with host }).call event c kept))
        (.goes (((m.goOn next f { r with host }).share requests).call event c kept)) := by
    obtain ⟨requests', hrequests⟩ :=
      share_call (h.goOn next f { r with host }) event c kept requests
    rw [hrequests]
    exact .goes _ _
  let s : Instant σ := (m.withFrame f r).share requests
  have hresolve : s.host.resolve target
      = (Host.resolve r.host target, ⟨r.host, .resolve target :: requests⟩) := rfl
  have hdepth : s.registers.limits.dispatchDepth ≤ s.registers.depth
      ↔ m.limits.dispatchDepth ≤ m.waiting.length + 1 := .rfl
  have howner : s.context.owner = f.context.owner := rfl
  dsimp only
  rw [hresolve]
  cases Host.resolve r.host target with
  | none => exact .leaves (some _) f r _
  | some id =>
  dsimp only
  simp only [s] at hdepth howner
  rw [howner]
  simp only [hdepth]
  split
  · exact .leaves (some _) f r _
  split
  · exact hcall r.host f.context none _
  have htake : Witnessed.take ⟨r.host, .resolve target :: requests⟩ id = ((Host.take r.host id).1,
      ⟨(Host.take r.host id).2, .take id :: .resolve target :: requests⟩) := rfl
  rw [htake]
  cases Host.take r.host id with
  | mk lent host =>
  cases lent with
  | some c => exact hcall host c (some (f.context, id)) _
  | none =>
    dsimp only [Witnessed.hasScript]
    cases Host.hasScript host id with
    | true => exact .leaves (some _) f { r with host } _
    | false => exact .goes (m.goOn next f { r with host }) _

/-- What stands in the code is done in the same way. -/
theorem shares_obey (h : m.IsPiled) {x : Instruction} {r : Run σ} (requests : List Request) :
    m.Shares (match m.active.invocation.perform ⟨m.active.stack, m.context⟩ x with
        | .error fault => .leaves (.error (m.active.report fault)) m.context r
        | .ok (.finish, f) => .leaves (.ok ()) f.context r
        | .ok (.forward distance, f) => .goes (m.goOn (m.active.offset + x.size + distance) f r)
        | .ok (.fire event, f) => m.deliver (m.active.offset + x.size) event f r)
      (((m.withFrame ⟨m.active.stack, m.context⟩ r).share requests).obey (.instruction x)) := by
  have hwork := share_work (h.withFrame ⟨m.active.stack, m.context⟩ r) requests x
  have hsame : InPlace.work (m.withFrame ⟨m.active.stack, m.context⟩ r).active.invocation x
      ⟨(m.withFrame ⟨m.active.stack, m.context⟩ r).active.stack,
        (m.withFrame ⟨m.active.stack, m.context⟩ r).context⟩
      = InPlace.work m.active.invocation x ⟨m.active.stack, m.context⟩ := rfl
  have hcareful := InPlace.work_careful m.active.invocation x ⟨m.active.stack, m.context⟩
  unfold Instant.obey
  dsimp only
  rw [hwork, hsame, ← InPlace.outcome_work, InPlace.outcome]
  cases hown : InPlace.work m.active.invocation x ⟨m.active.stack, m.context⟩ with
  | error fault f =>
    rw [hown] at hcareful
    dsimp only at hcareful ⊢
    rw [← hcareful]
    exact .leaves (some fault) f r requests
  | ok flow f =>
    cases flow with
    | finish => exact .leaves none f r requests
    | forward distance => exact .goes (m.goOn (m.active.offset + x.size + distance) f r) requests
    | fire event => exact shares_deliver h (m.active.offset + x.size) event f r requests

/-- One instruction does the same at a moment and at its instant. -/
theorem shares_act (h : m.IsPiled) (requests : List Request) :
    m.Shares m.act (m.share requests).act := by
  have hleaves (fault : Option Fault) (r : Run σ) :
      m.Shares (.leaves (m.verdict fault) m.context r)
        (.leaves fault ((m.withFrame ⟨m.active.stack, m.context⟩ r).share requests)) :=
    .leaves fault ⟨m.active.stack, m.context⟩ r requests
  unfold act Instant.act
  dsimp only
  by_cases hin : m.active.offset < m.active.chunk.size
  · have hinside : (m.share requests).active.offset < (m.share requests).active.chunk.size := hin
    rw [if_neg (Nat.not_le_of_lt hin), dif_pos hinside]
    cases hbegun : m.active.invocation.beginStep m.run with
    | mk result r =>
    rw [share_count m requests hbegun, Chunk.fetch?_eq _ hin]
    obtain rfl := Invocation.beginStep_eq hbegun
    cases result with
    | error fault => exact hleaves (some fault) _
    | ok u =>
    have hfetch : (m.share requests).active.chunk.fetch (m.share requests).active.offset hinside
        = m.active.chunk.fetch m.active.offset hin := rfl
    dsimp only
    rw [hfetch]
    cases m.active.chunk.fetch m.active.offset hin with
    | truncated op => exact hleaves (some .truncatedInstruction) _
    | unknown byte => exact hleaves (some (.unknownOpcode byte)) _
    | instruction x => exact shares_obey h requests
  · have hout : ¬ (m.share requests).active.offset < (m.share requests).active.chunk.size := hin
    rw [if_pos (Nat.le_of_not_lt hin), dif_neg hout]
    exact hleaves none m.run

omit [Host σ] in
/-- The registers at a moment, when its active handler has ended. -/
theorem registers_leave (h : m.IsPiled) :
    m.registers.leave (floor (m.waiting.map (·.activation)))
      = ⟨m.limits, pile (m.waiting.map (·.activation)), floor (m.waiting.map (·.activation)),
        m.waiting.length, m.run.steps, m.run.faults⟩ := by
  have hcut : (pile m.activations).take m.active.invocation.base
      = pile (m.waiting.map (·.activation)) := by
    rw [h.1.base, Array.take_eq_extract]
    exact Array.extract_append_left.trans Array.extract_size
  unfold Registers.leave registers
  dsimp only
  rw [hcut]
  rfl

/-- A moment and its instant come to the same. -/
inductive Agrees (limits : Limits) : Change σ → Prospect σ → Prop
  | goes (m : Moment σ) (requests : List Request) :
    Agrees limits (.goes m) (.goes (m.share requests))
  | ends (e : Ended σ Unit) (requests : List Request) :
    Agrees limits (.ends e) (.ends (e.left limits requests))

/-- A handler ends in the same way. -/
theorem agrees_leave (h : m.IsPiled) (fault : Option Fault) (requests : List Request) :
    Agrees m.limits (match m.waiting with
      | [] => .ends ⟨m.verdict fault, m.active.release m.context, m.run⟩
      | w :: below => .goes (w.resume below (m.verdict fault) (m.active.release m.context) m.run))
      ((m.share requests).leave fault) := by
  have hregisters : (m.share requests).registers.leave (m.share requests).active.callerBase
      = m.registers.leave (floor (m.waiting.map (·.activation))) := rfl
  have hhalted : (m.share requests).waiting = halted m.waiting := rfl
  unfold Instant.leave
  dsimp only
  rw [hregisters, hhalted, registers_leave h]
  cases hwaiting : m.waiting with
  | nil => exact .ends ⟨m.verdict fault, m.active.release m.context, m.run⟩ requests
  | cons w below =>
    have hbelow : Piled m.limits ((w :: below).map (·.activation)) := hwaiting ▸ h.2
    obtain ⟨requests', hresume⟩ := share_resume w below (m.verdict fault)
      (m.active.release m.context) m.run requests
    rw [hbelow.1.limits] at hresume
    rw [halted, List.length_cons]
    change Agrees _ _ (.goes (Halted.resume _ _ (m.verdict fault) (m.active.release m.context) _
      ⟨m.run.host, requests⟩))
    rw [hresume]
    exact .goes _ requests'

/-- A moment with stacked handlers and its instant come to the same. -/
theorem agrees_step (h : m.IsPiled) (requests : List Request) :
    Agrees m.limits m.step (m.share requests).step := by
  have hshares := shares_act h requests
  unfold step Instant.step
  generalize m.act = deed, (m.share requests).act = turn at hshares ⊢
  cases hshares with
  | goes m' requests' => exact .goes m' requests'
  | leaves fault f r requests' => exact agrees_leave (h.withFrame f r) fault requests'

/-- Where one moment follows another, its instant follows the other's. -/
theorem Next.share (hnext : m.Next m') (h : m.IsPiled) (requests : List Request) :
    ∃ requests', (m.share requests).Next (m'.share requests') := by
  have hagrees := agrees_step h requests
  rw [hnext] at hagrees
  generalize hstep : (m.share requests).step = prospect at hagrees
  cases hagrees with
  | goes m requests' => exact ⟨requests', hstep⟩

/-- What follows the instant of a moment is the instant of what follows the moment. -/
theorem exists_of_next_share (h : m.IsPiled) {requests : List Request} {s : Instant σ}
    (hnext : (m.share requests).Next s) :
    ∃ m' requests', m.Next m' ∧ s = m'.share requests' := by
  have hagrees := agrees_step h requests
  rw [hnext] at hagrees
  generalize hstep : m.step = change at hagrees
  cases hagrees with
  | goes m' requests' => exact ⟨m', requests', hstep, rfl⟩

/-- Handlers stay stacked, and under the same bounds, as long as a run goes on. -/
theorem Reaches.piled (hreaches : m.Reaches m') (h : m.IsPiled) :
    m'.IsPiled ∧ m'.limits = m.limits :=
  hreaches.keeps (P := fun l => l.IsPiled ∧ l.limits = m.limits)
    (fun hnext hl => ⟨hnext.piled hl.1, (hnext.limits_eq hl.1).trans hl.2⟩) ⟨h, rfl⟩

/-- Where one moment reaches another, its instant reaches the other's. -/
theorem Reaches.share (hreaches : m.Reaches m') (h : m.IsPiled) (requests : List Request) :
    ∃ requests', (m.share requests).Reaches (m'.share requests') := by
  induction hreaches with
  | refl => exact ⟨requests, .refl⟩
  | tail hreaches' hnext ih =>
    obtain ⟨requests', hshared⟩ := ih
    obtain ⟨requests'', hnext'⟩ := hnext.share (Reaches.piled hreaches' h).1 requests'
    exact ⟨requests'', hshared.tail hnext'⟩

/-- Every instant of a run is the instant of a moment of it. -/
theorem exists_of_reaches_share (h : m.IsPiled) {requests : List Request} {s : Instant σ}
    (hreaches : (m.share requests).Reaches s) :
    ∃ m' requests', m.Reaches m' ∧ s = m'.share requests' := by
  induction hreaches with
  | refl => exact ⟨m, requests, .refl, rfl⟩
  | tail _ hnext ih =>
    obtain ⟨l, requests', hl, rfl⟩ := ih
    obtain ⟨m', requests'', hnext', rfl⟩ := exists_of_next_share (hl.piled h).1 hnext
    exact ⟨m', requests'', hl.tail hnext', rfl⟩

/-- A run that ends from a moment ends in the same way from its instant. -/
theorem Ends.share {e : Ended σ Unit} (hends : m.Ends e) (h : m.IsPiled)
    (requests : List Request) :
    ∃ requests', (m.share requests).Ends (e.left m.limits requests') := by
  obtain ⟨m', hreaches, hstep⟩ := hends
  obtain ⟨hpiled, hlimits⟩ := hreaches.piled h
  obtain ⟨requests', hshared⟩ := hreaches.share h requests
  have hagrees := agrees_step hpiled requests'
  rw [hstep, hlimits] at hagrees
  generalize hshare : (m'.share requests').step = prospect at hagrees
  cases hagrees with
  | ends e requests'' => exact ⟨requests'', m'.share requests', hshared, hshare⟩

end Moment

namespace Registers

/-- No handler is active. -/
structure AtRest (g : Registers) : Prop where
  stack : g.stack = #[]
  base : g.base = 0
  depth : g.depth = 0

variable {σ : Type} [Host σ] {g : Registers}

/-- The first moment of the same run by the machine. -/
def first (g : Registers) (chunk : Chunk) (before : Option (Table String Value)) (c : Context)
    (host : σ) : Moment σ :=
  ⟨.start ⟨g.limits, 0, chunk⟩ before, c, [], g.machine.begin host⟩

section First

variable {chunk : Chunk} {before : Option (Table String Value)} {c : Context} {host : σ}

omit [Host σ] in
/-- The first handler of a run is stacked on nothing. -/
theorem isPiled_first : (g.first chunk before c host).IsPiled := ⟨⟨rfl, rfl⟩, trivial⟩

omit [Host σ] in
/-- Registers at rest start as the first moment of the run. -/
theorem AtRest.start_eq (h : g.AtRest) :
    g.start chunk before c host = (g.first chunk before c host).share [] := by
  obtain ⟨limits, stack, base, depth, steps, faults⟩ := g
  obtain ⟨rfl, rfl, rfl⟩ := h
  rfl

/-- Every instant of a run is the instant of a moment of the run by the machine. -/
theorem AtRest.exists_of_reaches (h : g.AtRest) {s : Instant σ}
    (hreaches : (g.start chunk before c host).Reaches s) :
    ∃ m requests, (g.first chunk before c host).Reaches m ∧ m.IsPiled ∧ m.limits = g.limits ∧
      s = m.share requests := by
  rw [h.start_eq] at hreaches
  obtain ⟨m, requests, hm, rfl⟩ := Moment.exists_of_reaches_share isPiled_first hreaches
  exact ⟨m, requests, hm, (hm.piled isPiled_first).1, (hm.piled isPiled_first).2, rfl⟩

/-- Every run comes to its end, and leaves behind what the machine makes of it. -/
theorem AtRest.exists_ends (h : g.AtRest) (chunk : Chunk) (before : Option (Table String Value))
    (c : Context) (host : σ) : ∃ e requests, (g.first chunk before c host).Ends e ∧
      (g.start chunk before c host).Ends (e.left g.limits requests) := by
  have hends := (g.first chunk before c host).finishes.ends rfl
  obtain ⟨requests, hshared⟩ := hends.share isPiled_first []
  rw [h.start_eq]
  exact ⟨_, requests, hends, hshared⟩

end First

end Registers

end EntityScript
