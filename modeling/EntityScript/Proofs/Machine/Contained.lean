import EntityScript.Proofs.Bytecode.Compiled
import EntityScript.Proofs.Machine.Course
import Mathlib.Data.List.Nodup
import Mathlib.Data.List.Perm.Subperm

/-!
# Runs of arbitrary code

Nothing is asked of the code here: neither that a compiler wrote it, nor that its bytes are
instructions, nor that its jumps lead to instructions or its indices into its pool. Whatever it is,
every run of it ends. A handler performs its instructions in the order of their offsets, so none of
them twice; no byte is read outside of the code and no constant outside of the pool; and a fault
is reported where it happened.

Hosts are arbitrary as well. What they lend are contexts with handlers of any code.
-/

namespace EntityScript

/-- A report that names some code and a place inside of it, with the line that is known for the
place. -/
structure FaultReport.Within (report : FaultReport) (chunk : Chunk) : Prop where
  named : report.chunk = chunk.name
  inside : report.offset < chunk.size
  located : report.line = chunk.lines[report.offset]?.getD 0

/-- An instruction whose index lies outside of the pool faults because of it. -/
theorem Invocation.perform_outside (i : Invocation) (f : Frame) {x : Instruction} {index : UInt8}
    (hindex : x.index? = some index) (hout : i.chunk.constants.size ≤ index.toNat) :
    i.perform f x = .error (.badConstant index) := by
  have hconstant : i.constant index = .error (.badConstant index) := by
    unfold constant Chunk.constant?
    rw [Array.getElem?_eq_none hout]
  have hname : i.name index = .error (.badConstant index) := by
    unfold name
    rw [hconstant]
    rfl
  cases x with
  | constant k =>
    cases hindex
    simp only [perform, hconstant, bind, Except.bind]
  | getVariable k | setVariable k | getComponent k | changeState k =>
    cases hindex
    simp only [perform, hname, bind, Except.bind]
  | fireEvent k flags argc =>
    cases hindex
    simp only [perform, popEvent, hname, bind, Except.bind]
  | binary | negate | not | pop | jump | jumpIfFalse | ret => cases hindex

namespace Activation

/-- A fault is reported at a place inside of the code. -/
theorem report_within {a : Activation} (h : a.offset < a.chunk.size) (fault : Fault) :
    (a.report fault).Within a.chunk := by
  refine ⟨rfl, h, ?_⟩
  change a.chunk.lines.getD a.offset 0 = _
  rw [Array.getD_eq_getD_getElem?]
  rfl

/-- A handler performed its instructions in the order of their offsets, and goes on behind all of
them. -/
structure Ordered (a : Activation) : Prop where
  descending : (a.offset :: a.performed).Pairwise (· > ·)
  inside : ∀ offset ∈ a.performed, offset < a.chunk.size

/-- A handler that begins has performed nothing yet. -/
theorem ordered_start (i : Invocation) (before : Option (Table String Value)) :
    (start i before).Ordered :=
  ⟨List.pairwise_singleton _ _, fun _ h => absurd h List.not_mem_nil⟩

namespace Ordered

variable {a : Activation}

/-- An instruction is followed by one that stands behind it, and so behind all before. -/
theorem goOn (h : a.Ordered) (hin : a.offset < a.chunk.size) {next : ℕ} (hnext : a.offset < next)
    (stack : Array Value) : (a.goOn next stack).Ordered := by
  refine ⟨List.pairwise_cons.2 ⟨?_, h.descending⟩, ?_⟩
  · intro offset hoffset
    obtain rfl | hbefore := List.mem_cons.1 hoffset
    · exact hnext
    · exact Nat.lt_trans (List.rel_of_pairwise_cons h.descending hbefore) hnext
  · intro offset hoffset
    obtain rfl | hbefore := List.mem_cons.1 hoffset
    · exact hin
    · exact h.inside offset hbefore

/-- So many different offsets lie inside of the code that there is one for every instruction that
was performed. -/
theorem length_le (h : a.Ordered) : a.performed.length ≤ a.chunk.size := by
  have hdistinct : a.performed.Nodup :=
    (List.pairwise_cons.1 h.descending).2.imp fun hgt => Nat.ne_of_gt hgt
  have hinside : a.performed ⊆ List.range a.chunk.size := fun offset hoffset =>
    List.mem_range.2 (h.inside offset hoffset)
  calc a.performed.length ≤ (List.range a.chunk.size).length :=
        (hdistinct.subperm hinside).length_le
    _ = a.chunk.size := List.length_range

/-- Where an instruction is next, there is one for it as well. -/
theorem length_lt (h : a.Ordered) (hin : a.offset < a.chunk.size) :
    a.performed.length < a.chunk.size :=
  (h.goOn hin (Nat.lt_succ_self _) a.stack).length_le

end Ordered

end Activation

namespace Moment

variable {σ : Type}

/-- The handlers that have begun and not yet ended, the last one first. -/
def activations (m : Moment σ) : List Activation := m.active :: m.waiting.map (·.activation)

variable [Host σ] {m m' : Moment σ}

/-- What is true of a run of any code, at one of its moments. -/
structure Contained (m : Moment σ) : Prop where
  /-- All handlers performed their instructions in order, -/
  ordered : ∀ a ∈ m.activations, a.Ordered
  /-- and not more of them than their code has bytes, with the next one if there is one. -/
  counted : ∀ a ∈ m.activations, a.performed.length ≤ a.chunk.size ∧
    (a.offset < a.chunk.size → a.performed.length < a.chunk.size)
  /-- The next instruction asks for no byte outside of the code, -/
  reads : m.act ≠ .crashes
  /-- and faults if its index lies outside of the pool. -/
  pooled : ∀ x index, m.active.chunk.fetch? m.active.offset = some (.instruction x) →
    x.index? = some index → m.active.chunk.constants.size ≤ index.toNat →
      m.active.invocation.perform ⟨m.active.stack, m.context⟩ x = .error (.badConstant index)
  /-- If it faults, the report says where. -/
  reported : ∀ report c r, m.act = .leaves (.error report) c r →
    report.offset = m.active.offset ∧ report.Within m.active.chunk

/-- A handler that leaves with a fault reports the place where it is. -/
theorem Leaves.within {report : FaultReport} {c : Context} {r : Run σ}
    (h : m.Leaves (.error report) c r) :
    report.offset = m.active.offset ∧ report.Within m.active.chunk := by
  obtain hok | ⟨hin, fault, hreport⟩ := h.result
  · cases hok
  · cases hreport
    exact ⟨rfl, Activation.report_within hin fault⟩

/-- That handlers are in order is all that depends on what came before. -/
theorem contained_of_ordered (h : ∀ a ∈ m.activations, a.Ordered) : m.Contained where
  ordered := h
  counted a ha := ⟨(h a ha).length_le, (h a ha).length_lt⟩
  reads := m.act_ne_crashes
  pooled _ _ _ hindex hout := m.active.invocation.perform_outside _ hindex hout
  reported _ _ _ hact := (leaves_of_act hact).within

/-- To have an event handled begins at most one handler. -/
theorem ordered_call (event : Event) (c : Context) (kept : Option (Context × EntityId))
    (h : ∀ a ∈ m.activations, a.Ordered) : ∀ a ∈ (m.call event c kept).activations, a.Ordered := by
  unfold call
  dsimp only
  split
  · unfold Waiting.resume
    dsimp only
    split <;> exact h
  · intro a ha
    obtain rfl | ha := List.mem_cons.1 ha
    · exact Activation.ordered_start _ _
    · exact h a ha

omit [Host σ] in
/-- Going on behind an instruction keeps the offsets in order. -/
theorem Performs.ordered_goOn {x : Instruction} {flow : Flow} {f f' : Frame} {r r' : Run σ}
    (hperforms : m.Performs x flow f r) (distance : ℕ) (h : ∀ a ∈ m.activations, a.Ordered) :
    ∀ a ∈ (m.goOn (m.active.offset + x.size + distance) f' r').activations, a.Ordered := by
  have hpos := x.size_pos
  obtain ⟨hactive, hwaiting⟩ := List.forall_mem_cons.1 h
  exact List.forall_mem_cons.2
    ⟨hactive.goOn hperforms.inside (by omega) f'.stack, hwaiting⟩

/-- One instruction keeps all handlers in order, and so does the end of a handler. -/
theorem Next.ordered (hnext : m.Next m') (h : ∀ a ∈ m.activations, a.Ordered) :
    ∀ a ∈ m'.activations, a.Ordered := by
  obtain honward | ⟨result, c, r, w, below, -, hwaiting, rfl⟩ := hnext.cases
  · cases honward with
    | forward performs => exact performs.ordered_goOn _ h
    | fired performs _ => exact performs.ordered_goOn 0 h
    | reentered sends _ => exact ordered_call _ _ _ (sends.performs.ordered_goOn 0 h)
    | lent sends _ _ => exact ordered_call _ _ _ (sends.performs.ordered_goOn 0 h)
    | dropped sends _ _ _ => exact sends.performs.ordered_goOn 0 h
  · have hresumed : (w.resume below result (m.active.release m.context) r).activations
        = m.waiting.map (·.activation) := by
      rw [hwaiting]
      unfold Waiting.resume
      dsimp only
      split <;> rfl
    rw [hresumed]
    exact (List.forall_mem_cons.1 h).2

/-- From a moment on at which all handlers are in order, a run is contained. -/
theorem Reaches.contained (hreaches : m.Reaches m') (h : ∀ a ∈ m.activations, a.Ordered) :
    m'.Contained :=
  contained_of_ordered (hreaches.keeps Next.ordered h)

/-- A handler that finishes with a fault reports a place inside of its code. -/
theorem Finishes.within {report : FaultReport} {c : Context} {r : Run σ}
    (h : m.Finishes (.error report) c r) : report.Within m.active.chunk := by
  obtain ⟨m', -, hinvocation, -, -, hact⟩ := h
  have hwithin := (leaves_of_act hact).within.2
  rw [Activation.chunk, hinvocation] at hwithin
  exact hwithin

/-- If no handler waits, a fault at the end of the run is one of the active handler. -/
theorem Ends.within {e : Ended σ Unit} {report : FaultReport} (h : m.Ends e)
    (hwaiting : m.waiting = []) (hreport : e.result = .error report) :
    report.Within m.active.chunk := by
  obtain rfl := h.unique (m.finishes.ends hwaiting)
  have hfinishes := m.finishes
  dsimp only at hreport
  rw [hreport] at hfinishes
  exact hfinishes.within

/-- What is promised of a run from some moment on. -/
structure Concludes (m : Moment σ) (e : Ended σ Unit) : Prop where
  /-- It ends, in one way only. -/
  ends : m.Ends e
  only : ∀ e', m.Ends e' → e' = e
  /-- Until then it is contained, with all handlers that are caused. -/
  contained : ∀ m', m.Reaches m' → m'.Contained

/-- A run that begins with one handler, at its first instruction, comes to its end. -/
theorem Ends.concludes {i : Invocation} {before : Option (Table String Value)} {e : Ended σ Unit}
    (h : m.Ends e) (hactive : m.active = .start i before) (hwaiting : m.waiting = []) :
    m.Concludes e where
  ends := h
  only _ h' := h'.unique h
  contained _ hreaches := by
    refine hreaches.contained (List.forall_mem_cons.2 ⟨?_, ?_⟩)
    · rw [hactive]
      exact Activation.ordered_start i before
    · rw [hwaiting]
      exact fun _ h => absurd h List.not_mem_nil

end Moment

/-- Whatever the code, the context, the bounds and the host: running code and handling an event both
come to an end, a fault is one of an instruction inside of the code that ran, and until then no
handler leaves its code and its pool or performs an instruction twice. An event without a handler
does nothing. -/
theorem runs_conclude {σ : Type} [Host σ] (m : Machine) (c : Context) (host : σ) :
    (∀ chunk, (∃ e, m.runChunk chunk c host = m.finish e ∧
        (Moment.ofChunk m chunk c host).Concludes e) ∧
      ∀ report, (m.runChunk chunk c host).result = .error report → report.Within chunk) ∧
    ∀ event args, match c.definition.script.handler? c.state event with
      | none => m.dispatch c event args host = ⟨.ok .noHandler, c, m, host⟩
      | some chunk => (∃ start e, Moment.ofEvent? m c event args host = some start ∧
          m.dispatch c event args host = m.finish e.handled ∧ start.Concludes e) ∧
        ∀ report, (m.dispatch c event args host).result = .error report →
          report.Within chunk := by
  refine ⟨fun chunk => ?_, fun event args => ?_⟩
  · obtain ⟨e, hends, hrun⟩ := m.exists_ends_chunk chunk c host
    refine ⟨⟨e, hrun, hends.concludes rfl rfl⟩, fun report hreport => ?_⟩
    rw [hrun] at hreport
    exact hends.within rfl hreport
  · split
    · rename_i hnone
      exact m.dispatch_of_no_handler args host hnone
    · rename_i chunk hchunk
      have hstart : Moment.ofEvent? m c event args host
          = some ⟨.start ⟨m.limits, 0, chunk⟩ (some c.bound), c.bindArguments args, [],
            m.begin host⟩ := by
        rw [Moment.ofEvent?, hchunk]
        rfl
      obtain ⟨e, hends, hdispatch⟩ := m.exists_ends_event hstart
      refine ⟨⟨_, e, hstart, hdispatch, hends.concludes rfl rfl⟩, fun report hreport => ?_⟩
      rw [hdispatch] at hreport
      exact hends.within rfl (Ended.error_of_handled hreport)

/-- Code that jumps over one of its instructions and then ends in the middle of another. Lines are
known for its first byte only. -/
def cutShort : Chunk := ⟨"cut.short", #[0x50, 0x00, 0x01, 0x33, 0x01], #[], #[7]⟩

/-- Code that is cut short is run to the instruction that is not whole, and the report lies within
it. -/
theorem runs_conclude_cutShort :
    ((Machine.new {}).runChunk cutShort lampOff EmptyHost.mk).result
        = .error ⟨"cut.short", 4, 0, .truncatedInstruction⟩ ∧
      FaultReport.Within ⟨"cut.short", 4, 0, .truncatedInstruction⟩ cutShort := by
  have hresult : ((Machine.new {}).runChunk cutShort lampOff EmptyHost.mk).result
      = .error ⟨"cut.short", 4, 0, .truncatedInstruction⟩ := by decide +kernel
  exact ⟨hresult, ((runs_conclude (Machine.new {}) lampOff EmptyHost.mk).1 cutShort).2 _ hresult⟩

end EntityScript
