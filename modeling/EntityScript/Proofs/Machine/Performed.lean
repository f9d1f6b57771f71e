import EntityScript.Machine.Perform
import EntityScript.Proofs.Bytecode.LaidOut

/-!
# Performing an instruction of a layout

An instruction that finds operands of its shape is performed without a structural fault, and leaves
operands of the shape that it moves to. Structural faults are those that only malformed code can
raise; whether operands have the types that an operator takes is not a matter of structure.
-/

namespace EntityScript

open Grammar

/-- A fault that only code raises that is not well formed: operands, names, constants, states or
instructions are missing. -/
def Fault.Structural : Fault → Prop
  | .stackUnderflow | .unknownOpcode _ | .truncatedInstruction | .badConstant _
  | .unknownState _ => True
  | .unaryTypeMismatch use _ => use = .argumentName ∨ use = .targetName
  | .notAComponent _ got => got = .vec2
  | _ => False

/-- What is known of an operand is true of a value. -/
def Grammar.Cell.Allows : Cell → Value → Prop
  | .value, _ => True
  | .text, v => ∃ s, v = .string s

namespace Frame

variable {f : Frame} {a : Shape} {k : Cell}

/-- The operands of a handler have a shape. -/
def Has (f : Frame) (a : Shape) : Prop := List.Forall₂ Cell.Allows a f.stack.toList.reverse

/-- The operand that was pushed last is the one that is popped. -/
@[simp] theorem pop_push (s : Array Value) (v : Value) (c : Context) :
    pop ⟨s.push v, c⟩ = .ok (v, ⟨s, c⟩) := by
  simp [pop]

/-- The operand that was pushed last is the topmost one. -/
@[simp] theorem top_push (s : Array Value) (v : Value) (c : Context) :
    top ⟨s.push v, c⟩ = .ok v := by
  simp [top]

/-- A value that is allowed adds its cell to the shape. -/
theorem Has.push {s : Array Value} {v : Value} {c : Context} (h : Has ⟨s, c⟩ a)
    (hv : k.Allows v) : Has ⟨s.push v, c⟩ (k :: a) := by
  unfold Has
  rw [Array.toList_push, List.reverse_append]
  exact .cons hv h

/-- Where operands are known, there are operands. -/
theorem Has.exists_push (h : f.Has (k :: a)) :
    ∃ s v, f = ⟨s.push v, f.context⟩ ∧ k.Allows v ∧ Has ⟨s, f.context⟩ a := by
  obtain ⟨stack, context⟩ := f
  unfold Has at h
  obtain ⟨v, vs, hv, hrest, hstack⟩ := List.forall₂_cons_left_iff.1 h
  refine ⟨vs.reverse.toArray, v, ?_, hv, by simpa [Has] using hrest⟩
  have hlist : stack.toList = vs.reverse ++ [v] := by
    rw [← List.reverse_reverse stack.toList, hstack, List.reverse_cons]
  have harray : stack = vs.reverse.toArray.push v := by
    apply Array.toList_inj.1
    rw [hlist, Array.toList_push]
  rw [harray]

/-- A shape with a text on top is that of a text on a stack. -/
theorem Has.exists_push_text (h : f.Has (.text :: a)) :
    ∃ s t, f = ⟨s.push (.string t), f.context⟩ ∧ Has ⟨s, f.context⟩ a := by
  obtain ⟨s, v, hf, ⟨t, rfl⟩, hs⟩ := h.exists_push
  exact ⟨s, t, hf, hs⟩

/-- A text that was pushed is popped for any use. -/
@[simp] theorem popText_push (s : Array Value) (t : String) (c : Context) (use : Use) :
    popText ⟨s.push (.string t), c⟩ use = .ok (t, ⟨s, c⟩) := by
  simp [popText, Value.textFor, bind, Except.bind, pure, Except.pure]

/-- Arguments that are there can be taken. -/
theorem Has.popArguments {count : ℕ} (h : f.Has (argumentShape count a))
    (taken : List (String × Value)) : ∃ entries s,
      f.popArguments taken count = .ok (entries, ⟨s, f.context⟩) ∧ Has ⟨s, f.context⟩ a := by
  induction count generalizing f taken with
  | zero => exact ⟨taken, f.stack, rfl, h⟩
  | succ count ih =>
    obtain ⟨s, v, hf, -, hs⟩ := h.exists_push
    obtain ⟨s', t, hs', hrest⟩ := hs.exists_push_text
    obtain ⟨entries, s'', heq, hall⟩ := ih hrest ((t, v) :: taken)
    refine ⟨entries, s'', ?_, hall⟩
    obtain rfl : s = s'.push (.string t) := congrArg Frame.stack hs'
    rw [hf, Frame.popArguments]
    simp only [pop_push, popText_push, bind, Except.bind]
    exact heq

end Frame

namespace Invocation

variable {i : Invocation} {f : Frame} {a b : Shape} {k : Cell} {x : Symbolic}

/-- A constant of the chunk is found by its index. -/
theorem constant_of {index : UInt8} {v : Value} (h : i.chunk.constant? index = some v) :
    i.constant index = .ok v := by
  rw [constant, h]

/-- A text of the chunk is found as a name. -/
theorem name_of {index : UInt8} {s : String}
    (h : i.chunk.constant? index = some (.string s)) : i.name index = .ok s := by
  rw [name, constant_of h]
  rfl

/-- How an instruction goes on. -/
def Goes (x : Symbolic) : Flow → Prop
  | .forward distance => distance ∈ x.exits
  | .fire _ => 0 ∈ x.exits
  | .finish => True

/-- What performing an instruction answers is no structural fault, and if it is a frame, then with
operands of a shape and the script as before. -/
def Keeps (x : Symbolic) (b : Shape) (f : Frame) : Except Fault (Flow × Frame) → Prop
  | .error fault => ¬ fault.Structural
  | .ok (flow, f') => Goes x flow ∧ f'.Has b ∧ f'.context.definition = f.context.definition

/-- A value is put on the stack, or there is no room for it. -/
theorem keeps_push {s : Array Value} {v : Value} (hzero : 0 ∈ x.exits)
    (h : Frame.Has ⟨s, f.context⟩ a) (hv : k.Allows v) :
    Keeps x (k :: a) f (do return (.forward 0, ← i.push ⟨s, f.context⟩ v)) := by
  unfold Invocation.push
  split
  · exact id
  · exact ⟨hzero, h.push hv, rfl⟩

/-- The result of an operator is put on the stack, or the operator faults. -/
theorem keeps_apply {s : Array Value} {result : Except Fault Value} (hzero : 0 ∈ x.exits)
    (h : Frame.Has ⟨s, f.context⟩ a)
    (hfault : ∀ fault, result = .error fault → ¬ fault.Structural) :
    Keeps x (.value :: a) f
      (do let v ← result; return (.forward 0, ← i.push ⟨s, f.context⟩ v)) := by
  cases result with
  | error fault => exact hfault fault rfl
  | ok v => exact keeps_push (k := .value) hzero h trivial

end Invocation

/-- Operators only fault over the types of their operands, or divide by zero. -/
theorem Operator.not_structural_of_apply {op : Operator} {left right : Value} {fault : Fault}
    (h : op.apply left right = .error fault) : ¬ fault.Structural := by
  unfold apply at h
  split at h <;> (try split at h) <;> cases h <;> exact id

/-- A fault of changing a sign is not structural. -/
theorem Value.not_structural_of_negate {v : Value} {fault : Fault}
    (h : v.negate = .error fault) : ¬ fault.Structural := by
  cases v <;> cases h <;> rintro (h | h) <;> cases h

/-- A fault of asking for a truth value is not structural. -/
theorem Value.not_structural_of_truth {v : Value} {use : Use} {fault : Fault}
    (huse : use ≠ .argumentName ∧ use ≠ .targetName) (h : v.truth use = .error fault) :
    ¬ fault.Structural := by
  cases v <;> cases h <;> rintro (h | h) <;> first | exact huse.1 h | exact huse.2 h

/-- A fault of asking for a component that vectors have is not structural. -/
theorem Value.not_structural_of_component {v : Value} {name : String} {fault : Fault}
    (hname : name = "x" ∨ name = "y") (h : v.component name = .error fault) :
    ¬ fault.Structural := by
  cases v with
  | vec2 x y => rcases hname with rfl | rfl <;> cases h
  | number n | bool b | string s => cases h; intro h; cases h

namespace Invocation

variable {i : Invocation} {f : Frame} {a b : Shape} {x : Symbolic}

/-- Firing takes the operands of an event off the stack, which are all there. -/
theorem popEvent_of_has {event : String} {targeted : Bool} {count : ℕ} (hcount : count ≤ 255)
    (hname : ∀ v, (Symbolic.fireEvent event targeted count).constant? = some v →
      i.chunk.constant? (slot i.chunk.constants.toList v) = some v)
    (h : f.Has (argumentShape count (targetShape targeted))) : ∃ e,
      i.popEvent f (slot i.chunk.constants.toList (.string event))
        (if targeted then Instruction.targetFlag else 0) (UInt8.ofNat count)
        = .ok (e, ⟨#[], f.context⟩) := by
  obtain ⟨entries, s, hentries, hs⟩ := h.popArguments []
  unfold popEvent
  rw [name_of (hname _ rfl), Symbolic.toNat_count hcount, hentries]
  simp only [bind, Except.bind, Symbolic.isTargeted_flag, pure, Except.pure]
  cases targeted with
  | false =>
    obtain rfl : s = #[] := by simpa [Frame.Has, targetShape] using hs
    exact ⟨_, rfl⟩
  | true =>
    obtain ⟨s', t, hs', hrest⟩ := hs.exists_push_text
    obtain rfl : s' = #[] := by simpa [Frame.Has] using hrest
    rw [hs', if_pos rfl, Frame.popText_push]
    exact ⟨_, rfl⟩

/-- Performing an instruction that finds its operands raises no structural fault and leaves the
operands that it moves to. -/
theorem keeps_perform (hmoves : x.Moves a b) (hfits : x.Fits)
    (hnames : x.Names f.context.definition.script.states)
    (hconstant : ∀ v, x.constant? = some v →
      i.chunk.constant? (slot i.chunk.constants.toList v) = some v) (h : f.Has a) :
    Keeps x b f (i.perform f (x.assemble i.chunk.constants.toList)) := by
  cases hmoves with
  | constant v =>
    simp only [Symbolic.assemble, perform, constant_of (hconstant v rfl)]
    exact keeps_push (k := .value) (List.mem_singleton_self 0) h trivial
  | text s =>
    simp only [Symbolic.assemble, perform, constant_of (hconstant _ rfl)]
    exact keeps_push (k := .text) (List.mem_singleton_self 0) h ⟨s, rfl⟩
  | binary op =>
    obtain ⟨s, right, hf, -, hs⟩ := h.exists_push
    obtain ⟨s', left, hs', -, hrest⟩ := hs.exists_push
    obtain rfl : s = s'.push left := congrArg Frame.stack hs'
    rw [hf]
    simp only [Symbolic.assemble, perform, Frame.pop_push, bind, Except.bind]
    exact keeps_apply (List.mem_singleton_self 0) hrest fun fault => op.not_structural_of_apply
  | negate =>
    obtain ⟨s, v, hf, -, hs⟩ := h.exists_push
    rw [hf]
    simp only [Symbolic.assemble, perform, Frame.pop_push, bind, Except.bind]
    exact keeps_apply (List.mem_singleton_self 0) hs fun fault => Value.not_structural_of_negate
  | not =>
    obtain ⟨s, v, hf, -, hs⟩ := h.exists_push
    rw [hf]
    simp only [Symbolic.assemble, perform, Frame.pop_push, bind, Except.bind]
    cases htruth : v.truth .complement with
    | error fault => exact Value.not_structural_of_truth (by decide) htruth
    | ok t => exact keeps_push (k := .value) (List.mem_singleton_self 0) hs trivial
  | getVariable name =>
    simp only [Symbolic.assemble, perform, name_of (hconstant _ rfl)]
    exact keeps_push (k := .value) (List.mem_singleton_self 0) h trivial
  | setVariable name =>
    obtain ⟨s, v, hf, -, hs⟩ := h.exists_push
    rw [hf]
    simp only [Symbolic.assemble, perform, name_of (hconstant _ rfl), Frame.top_push, bind,
      Except.bind]
    exact ⟨List.mem_singleton_self 0, hs.push trivial, rfl⟩
  | getComponent name =>
    obtain ⟨s, v, hf, -, hs⟩ := h.exists_push
    rw [hf]
    simp only [Symbolic.assemble, perform, name_of (hconstant _ rfl), Frame.pop_push, bind,
      Except.bind]
    exact keeps_apply (List.mem_singleton_self 0) hs fun fault =>
      Value.not_structural_of_component hnames
  | pop =>
    obtain ⟨s, v, hf, -, hs⟩ := h.exists_push
    rw [hf]
    simp only [Symbolic.assemble, perform, Frame.pop_push, bind, Except.bind]
    exact ⟨List.mem_singleton_self 0, hs, rfl⟩
  | fireEvent event targeted count =>
    obtain ⟨e, he⟩ := popEvent_of_has hfits hconstant h
    simp only [Symbolic.assemble, perform, he, bind, Except.bind]
    exact ⟨List.mem_singleton_self 0, .nil, rfl⟩
  | changeState state =>
    have hstate : f.context.definition.script.hasState state = true :=
      List.contains_iff_mem.2 hnames
    simp only [Symbolic.assemble, perform, name_of (hconstant _ rfl), Context.changeState, hstate,
      bind, Except.bind, if_true]
    exact ⟨List.mem_singleton_self 0, h, rfl⟩
  | jump distance =>
    refine ⟨?_, h, rfl⟩
    simp [Goes, Symbolic.exits, Symbolic.toNat_distance hfits]
  | jumpIfFalse distance =>
    obtain ⟨s, v, hf, -, hs⟩ := h.exists_push
    rw [hf]
    simp only [Symbolic.assemble, perform, Frame.top_push, bind, Except.bind]
    cases htruth : v.truth .condition with
    | error fault => exact Value.not_structural_of_truth (by decide) htruth
    | ok t =>
      refine ⟨?_, hs.push trivial, rfl⟩
      cases t <;> simp [Goes, Symbolic.exits, Symbolic.toNat_distance hfits]
  | ret => exact ⟨trivial, h, rfl⟩

end Invocation

end EntityScript
