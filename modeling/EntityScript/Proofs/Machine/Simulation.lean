import EntityScript.Proofs.Bytecode.Held
import EntityScript.Proofs.Machine.Likeness
import EntityScript.Proofs.Machine.Performed
import EntityScript.Proofs.Meaning.Evaluation

/-!
# Expressions in code

The code of an expression comes to what the expression evaluates to: with its value on the stack and
the context as it is left, or to the fault of the evaluation. It may also come to the bound of
the stack, which trees do not have.

Running code to its end is a function, so that code comes from one place to another if running from
both comes to the same. All statements about code here are equations of that kind: they compose
by rewriting, and no fuel is counted. There is no bound on steps.
-/

namespace EntityScript

open Grammar

variable {σ : Type}

/-- The run after so many more steps. -/
def Run.after (r : Run σ) (count : ℕ) : Run σ := { r with steps := r.steps + count }

/-- No more steps change nothing. -/
@[simp] theorem Run.after_zero (r : Run σ) : r.after 0 = r := rfl

/-- Steps are counted one after another. -/
@[simp] theorem Run.after_after (r : Run σ) (m n : ℕ) : (r.after m).after n = r.after (m + n) := by
  simp [Run.after, Nat.add_assoc]

namespace Invocation

variable [Host σ] {i : Invocation} {nested : Option (Dispatcher σ)} {offset : ℕ} {x : Symbolic}
  {xs ys : List Symbolic}

/-- Running from an instruction performs it, and goes on as it says. -/
theorem execute_held (hsteps : i.limits.steps = none) (h : Holds i.chunk offset (x :: xs))
    (f : Frame) (r : Run σ) : i.execute nested offset f r =
      match i.perform f (x.assemble i.chunk.constants.toList) with
      | .error fault => (some (offset, fault), f.context, r.after 1)
      | .ok (.finish, f) => (none, f.context, r.after 1)
      | .ok (.forward distance, f) => i.execute nested (offset + x.size + distance) f (r.after 1)
      | .ok (.fire event, f) =>
        match i.deliver nested event f (r.after 1) with
        | (.error fault, f, r) => (some (offset, fault), f.context, r)
        | (.ok (), f, r) => i.execute nested (offset + x.size) f r := by
  obtain ⟨hlt, hfetch⟩ := h.fetch
  have hbegin : i.beginStep r = (.ok (), r.after 1) := by
    simp only [beginStep, hsteps, Run.after]
  rw [execute, dif_pos hlt, hbegin]
  dsimp only
  rw [hfetch]
  dsimp only
  rcases i.perform f (x.assemble i.chunk.constants.toList) with
    fault | ⟨distance | event | _, f'⟩
  · rfl
  · simp only [Symbolic.size_assemble]
  · dsimp only
    rcases i.deliver nested event f' (r.after 1) with ⟨fault | _, f'', r'⟩
    · rfl
    · simp only [Symbolic.size_assemble]
  · rfl

/-- Held code goes on behind an instruction that is performed. -/
theorem execute_forward (hsteps : i.limits.steps = none) (h : Holds i.chunk offset (x :: xs))
    {f f' : Frame} {d : ℕ}
    (hf : i.perform f (x.assemble i.chunk.constants.toList) = .ok (.forward d, f'))
    (r : Run σ) : i.execute nested offset f r =
      i.execute nested (offset + x.size + d) f' (r.after 1) := by
  rw [execute_held hsteps h, hf]

/-- Held code ends at an instruction that faults. -/
theorem execute_fault (hsteps : i.limits.steps = none) (h : Holds i.chunk offset (x :: xs))
    {f : Frame} {fault : Fault}
    (hf : i.perform f (x.assemble i.chunk.constants.toList) = .error fault) (r : Run σ) :
    i.execute nested offset f r = (some (offset, fault), f.context, r.after 1) := by
  rw [execute_held hsteps h, hf]

/-- A constant is put on top of the operands. -/
theorem execute_constant (hsteps : i.limits.steps = none) {v : Value}
    (h : Holds i.chunk offset (.constant v :: xs)) {s : Array Value}
    (hroom : i.base + s.size < i.limits.stackSize) (c : Context) (r : Run σ) :
    i.execute nested offset ⟨s, c⟩ r
      = i.execute nested (offset + 2) ⟨s.push v, c⟩ (r.after 1) := by
  refine execute_forward hsteps h (d := 0) ?_ r
  simp [Symbolic.assemble, perform, constant_of (h.constant? List.mem_cons_self rfl), push,
    Nat.not_le.2 hroom, bind, Except.bind, pure, Except.pure]

/-- The sign of the topmost operand is changed. -/
theorem execute_negate (hsteps : i.limits.steps = none)
    (h : Holds i.chunk offset (.negate :: xs)) {s : Array Value}
    (hroom : i.base + s.size < i.limits.stackSize) {v w : Value} (hv : v.negate = .ok w)
    (c : Context) (r : Run σ) : i.execute nested offset ⟨s.push v, c⟩ r
      = i.execute nested (offset + 1) ⟨s.push w, c⟩ (r.after 1) := by
  refine execute_forward hsteps h (d := 0) ?_ r
  simp [Symbolic.assemble, perform, hv, push, Nat.not_le.2 hroom, bind, Except.bind, pure,
    Except.pure]

/-- The topmost operand is dropped. -/
theorem execute_pop (hsteps : i.limits.steps = none) (h : Holds i.chunk offset (.pop :: xs))
    (s : Array Value) (v : Value) (c : Context) (r : Run σ) :
    i.execute nested offset ⟨s.push v, c⟩ r
      = i.execute nested (offset + 1) ⟨s, c⟩ (r.after 1) := by
  refine execute_forward hsteps h (d := 0) ?_ r
  simp [Symbolic.assemble, perform, bind, Except.bind, pure, Except.pure]

/-- The topmost operand is assigned to a variable and stays where it is. -/
theorem execute_setVariable (hsteps : i.limits.steps = none) {name : String}
    (h : Holds i.chunk offset (.setVariable name :: xs)) (s : Array Value) (v : Value) (c : Context)
    (r : Run σ) : i.execute nested offset ⟨s.push v, c⟩ r
      = i.execute nested (offset + 2) ⟨s.push v, c.set name v⟩ (r.after 1) := by
  refine execute_forward hsteps h (d := 0) ?_ r
  simp [Symbolic.assemble, perform, name_of (h.constant? List.mem_cons_self rfl), bind, Except.bind,
    pure, Except.pure]

/-- A jump goes on as far behind it as it says. -/
theorem execute_jump (hsteps : i.limits.steps = none) {distance : ℕ}
    (h : Holds i.chunk offset (.jump distance :: xs)) (f : Frame) (r : Run σ) :
    i.execute nested offset f r = i.execute nested (offset + 3 + distance) f (r.after 1) := by
  refine execute_forward hsteps h (d := distance) ?_ r
  have hdistance := Symbolic.toNat_distance (h.fits (.jump distance) List.mem_cons_self)
  simp [Symbolic.assemble, perform, hdistance, pure, Except.pure]

/-- A decision leaves the value that decides on the stack. -/
theorem execute_jumpIfFalse (hsteps : i.limits.steps = none) {distance : ℕ}
    (h : Holds i.chunk offset (.jumpIfFalse distance :: xs)) (s : Array Value) {v : Value}
    {b : Bool} (htruth : v.truth .condition = .ok b) (c : Context) (r : Run σ) :
    i.execute nested offset ⟨s.push v, c⟩ r
      = i.execute nested (offset + 3 + if b then 0 else distance) ⟨s.push v, c⟩ (r.after 1) := by
  refine execute_forward hsteps h (d := if b then 0 else distance) ?_ r
  have hdistance := Symbolic.toNat_distance (h.fits (.jumpIfFalse distance) List.mem_cons_self)
  simp [Symbolic.assemble, perform, htruth, hdistance, bind, Except.bind, pure, Except.pure]

/-- A value that cannot decide. -/
theorem execute_jumpIfFalse_fault (hsteps : i.limits.steps = none) {distance : ℕ}
    (h : Holds i.chunk offset (.jumpIfFalse distance :: xs)) (s : Array Value) {v : Value}
    {fault : Fault} (htruth : v.truth .condition = .error fault) (c : Context) (r : Run σ) :
    i.execute nested offset ⟨s.push v, c⟩ r = (some (offset, fault), c, r.after 1) := by
  refine execute_fault hsteps h ?_ r
  simp [Symbolic.assemble, perform, htruth, bind, Except.bind]

end Invocation

/-- A handler was aborted because there was no room on the stack. -/
def Answer.Overflows (a : Answer σ) : Prop :=
  ∃ offset limit, a.1 = some (offset, .stackOverflow limit)

/-- Running code came to what an evaluation comes to: to an offset with the answer in a frame, or to
its fault, in either case after some steps. -/
def Comes [Host σ] (i : Invocation) (nested : Option (Dispatcher σ)) {α : Type} (next : ℕ)
    (frame : α → Context → Frame) (r : Run σ) (a : Answer σ) : Evaluated α → Prop
  | (.ok v, c) => ∃ count, a = i.execute nested next (frame v c) (r.after count)
  | (.error fault, c) => ∃ count offset, a = (some (offset, fault), c, r.after count)

/-- Running code came to what an evaluation comes to, unless the stack overflowed. -/
def Evaluates [Host σ] (i : Invocation) (nested : Option (Dispatcher σ)) {α : Type} (next : ℕ)
    (frame : α → Context → Frame) (r : Run σ) (a : Answer σ) (x : Evaluated α) : Prop :=
  a.Overflows ∨ Comes i nested next frame r a x

namespace Evaluates

variable [Host σ] {i : Invocation} {nested : Option (Dispatcher σ)} {offset next mid : ℕ}
  {x : Symbolic} {xs ys : List Symbolic} {r : Run σ} {a : Answer σ} {α β : Type}
  {frame : α → Context → Frame} {frame' : β → Context → Frame}

/-- Steps taken before do not matter. -/
theorem of_after {y : Evaluated α} {count : ℕ}
    (h : Evaluates i nested next frame (r.after count) a y) :
    Evaluates i nested next frame r a y := by
  refine h.imp_right fun h => ?_
  obtain ⟨_ | v, c⟩ := y
  · obtain ⟨more, o, heq⟩ := h
    exact ⟨count + more, o, by rw [heq, Run.after_after]⟩
  · obtain ⟨more, heq⟩ := h
    exact ⟨count + more, by rw [heq, Run.after_after]⟩

/-- One evaluation after another. -/
theorem andThen {y : Evaluated α} {k : α → Context → Evaluated β}
    (h : Evaluates i nested mid frame r a y)
    (hk : ∀ v c count, y = (.ok v, c) → Evaluates i nested next frame' (r.after count)
      (i.execute nested mid (frame v c) (r.after count)) (k v c)) :
    Evaluates i nested next frame' r a (y.andThen k) := by
  rcases h with h | h
  · exact .inl h
  · obtain ⟨_ | v, c⟩ := y
    · exact .inr h
    · obtain ⟨count, rfl⟩ := h
      exact (hk v c count rfl).of_after

/-- An answer that is there already. -/
theorem ok (hnext : next = offset) (v : α) (c : Context) :
    Evaluates i nested next frame r (i.execute nested offset (frame v c) r) (.ok v, c) :=
  .inr ⟨0, by rw [hnext, Run.after_zero]⟩

/-- An instruction that puts what it makes of its operands on the stack. -/
theorem of_push (hsteps : i.limits.steps = none) (h : Holds i.chunk offset (x :: xs)) {f : Frame}
    {s : Array Value} {c : Context} (hc : f.context = c) (result : Except Fault Value)
    (hf : i.perform f (x.assemble i.chunk.constants.toList)
      = do let v ← result; return (.forward 0, ← i.push ⟨s, c⟩ v))
    (hnext : next = offset + x.size) :
    Evaluates i nested next (fun v c => ⟨s.push v, c⟩) r (i.execute nested offset f r)
      (result, c) := by
  subst hnext hc
  cases result with
  | error fault => exact .inr ⟨1, offset, Invocation.execute_fault hsteps h hf r⟩
  | ok v =>
    by_cases hroom : i.limits.stackSize ≤ i.base + s.size
    · left
      have hfault : i.perform f (x.assemble i.chunk.constants.toList)
          = .error (.stackOverflow i.limits.stackSize) := by
        rw [hf]
        simp [Invocation.push, hroom, bind, Except.bind]
      exact ⟨offset, i.limits.stackSize, by rw [Invocation.execute_fault hsteps h hfault]⟩
    · have hforward : i.perform f (x.assemble i.chunk.constants.toList)
          = .ok (.forward 0, ⟨s.push v, f.context⟩) := by
        rw [hf]
        simp [Invocation.push, hroom, bind, Except.bind, pure, Except.pure]
      exact .inr ⟨1, Invocation.execute_forward hsteps h hforward r⟩

/-- A constant. -/
theorem of_constant (hsteps : i.limits.steps = none) {v : Value}
    (h : Holds i.chunk offset (.constant v :: xs)) (s : Array Value) (c : Context)
    (hnext : next = offset + 2) : Evaluates i nested next (fun v c => ⟨s.push v, c⟩) r
      (i.execute nested offset ⟨s, c⟩ r) (.ok v, c) := by
  refine of_push hsteps h rfl (.ok v) ?_ hnext
  simp only [Symbolic.assemble, Invocation.perform,
    Invocation.constant_of (h.constant? List.mem_cons_self rfl)]

/-- A decision of the topmost operand, which stays on the stack. -/
theorem of_decide (hsteps : i.limits.steps = none) {distance : ℕ}
    (h : Holds i.chunk offset (.jumpIfFalse distance :: xs)) {s : Array Value} {v : Value}
    {c : Context} {k : Bool → Evaluated α}
    (htrue : Evaluates i nested next frame (r.after 1)
      (i.execute nested (offset + 3) ⟨s.push v, c⟩ (r.after 1)) (k true))
    (hfalse : Evaluates i nested next frame (r.after 1)
      (i.execute nested (offset + 3 + distance) ⟨s.push v, c⟩ (r.after 1)) (k false)) :
    Evaluates i nested next frame r (i.execute nested offset ⟨s.push v, c⟩ r)
      (.decide v c k) := by
  unfold Evaluated.decide
  cases htruth : v.truth .condition with
  | error fault =>
    exact .inr ⟨1, offset, Invocation.execute_jumpIfFalse_fault hsteps h s htruth c r⟩
  | ok b =>
    rw [Invocation.execute_jumpIfFalse hsteps h s htruth]
    cases b with
    | true => exact htrue.of_after
    | false => exact hfalse.of_after

end Evaluates

section Trees

variable [Host σ] {i : Invocation} {nested : Option (Dispatcher σ)}

/-- The code of an expression comes to the value of the expression, on top of what lay there. -/
theorem Grammar.Expression.evaluates (hsteps : i.limits.steps = none) (e : Expression) :
    ∀ offset next s c (r : Run σ), Holds i.chunk offset e.code →
      next = offset + codeSize e.code →
      Evaluates i nested next (fun v c => ⟨s.push v, c⟩) r
        (i.execute nested offset ⟨s, c⟩ r) (e.eval c) := by
  -- A right operand is evaluated on top of the left one, so the stack is not fixed.
  induction e with
  | literal l =>
    rintro offset next s c r h rfl
    exact .of_constant hsteps h s c rfl
  | var name =>
    rintro offset next s c r h rfl
    refine .of_push hsteps h rfl (.ok (c.read name)) ?_ rfl
    simp only [Symbolic.assemble, Invocation.perform,
      Invocation.name_of (h.constant? List.mem_cons_self rfl), bind, Except.bind]
  | assign name e ih =>
    rintro offset next s c r h rfl
    refine (ih offset _ s c r h.left rfl).andThen fun v c count _ => ?_
    rw [Invocation.execute_setVariable hsteps h.right]
    refine .of_after (.ok ?_ v (c.set name v))
    simp [Expression.code, Symbolic.size, Nat.add_assoc]
  | negate e ih =>
    rintro offset next s c r h rfl
    refine (ih offset _ s c r h.left rfl).andThen fun v c count _ => ?_
    refine .of_push hsteps h.right rfl v.negate ?_ (by simp [Expression.code, Nat.add_assoc])
    simp only [Symbolic.assemble, Invocation.perform, Frame.pop_push, bind, Except.bind]
  | not e ih =>
    rintro offset next s c r h rfl
    refine (ih offset _ s c r h.left rfl).andThen fun v c count _ => ?_
    refine .of_push hsteps h.right rfl _ ?_ (by simp [Expression.code, Nat.add_assoc])
    simp only [Symbolic.assemble, Invocation.perform, Frame.pop_push, bind, Except.bind]
    cases v.truth .complement <;> rfl
  | component e name ih =>
    rintro offset next s c r h rfl
    refine (ih offset _ s c r h.left rfl).andThen fun v c count _ => ?_
    refine .of_push hsteps h.right rfl (v.component name) ?_
      (by simp [Expression.code, Nat.add_assoc])
    simp only [Symbolic.assemble, Invocation.perform, Frame.pop_push,
      Invocation.name_of (h.right.constant? List.mem_cons_self rfl), bind, Except.bind]
  | binary op left right ihl ihr =>
    rintro offset next s c r h rfl
    refine (ihl offset _ s c r h.left.left rfl).andThen fun v c count _ => ?_
    refine (ihr _ _ (s.push v) c _ h.left.right rfl).andThen fun w c count' _ => ?_
    have hop := h.right
    rw [codeSize_append, ← Nat.add_assoc] at hop
    refine .of_push hsteps hop rfl (op.apply v w) ?_ (by simp [Expression.code, Nat.add_assoc])
    simp only [Symbolic.assemble, Invocation.perform, Frame.pop_push, bind, Except.bind]
  | and left right ihl ihr =>
    rintro offset next s c r h rfl
    have hpop : Holds i.chunk (offset + codeSize left.code + 3) [.pop] := h.right.left.tail
    refine (ihl offset _ s c r h.left rfl).andThen fun v c count _ => ?_
    refine .of_decide hsteps h.right.left ?_ ?_
    · rw [Invocation.execute_pop hsteps hpop]
      refine .of_after (ihr _ _ s c _ h.right.right ?_)
      simp [Expression.code, Symbolic.size]
      omega
    · refine .ok ?_ v c
      simp [Expression.code, Symbolic.size]
      omega
  | or left right ihl ihr =>
    rintro offset next s c r h rfl
    have hjump : Holds i.chunk (offset + codeSize left.code + 3)
        [.jump (1 + codeSize right.code), .pop] := h.right.left.tail
    have hpop : Holds i.chunk (offset + codeSize left.code + 3 + 3) [.pop] := hjump.tail
    refine (ihl offset _ s c r h.left rfl).andThen fun v c count _ => ?_
    refine .of_decide hsteps h.right.left ?_ ?_
    · rw [Invocation.execute_jump hsteps hjump]
      refine .of_after (.ok ?_ v c)
      simp [Expression.code, Symbolic.size]
      omega
    · rw [Invocation.execute_pop hsteps hpop]
      refine .of_after (ihr _ _ s c _ h.right.right ?_)
      simp [Expression.code, Symbolic.size]
      omega

/-- Each argument on a stack, its name below its value. -/
def pushArguments (s : Array Value) (entries : List (String × Value)) : Array Value :=
  entries.foldl (fun s e => (s.push (.string e.1)).push e.2) s

/-- Arguments are taken off the stack in the order in which they were put there. -/
theorem Frame.popArguments_pushArguments (s : Array Value) (c : Context)
    (entries : List (String × Value)) : ∀ taken,
      popArguments ⟨pushArguments s entries, c⟩ taken entries.length
        = .ok (entries ++ taken, ⟨s, c⟩) := by
  induction entries using List.reverseRecOn with
  | nil => exact fun taken => rfl
  | append_singleton entries e ih =>
    intro taken
    have hpush : pushArguments s (entries ++ [e])
        = ((pushArguments s entries).push (.string e.1)).push e.2 := List.foldl_append ..
    rw [hpush, List.length_append, List.length_singleton, popArguments]
    simp only [pop_push, popText_push, bind, Except.bind]
    rw [ih]
    simp

/-- There are as many values of arguments as there are arguments. -/
theorem Grammar.Statement.length_evalArguments (args : List (String × Expression)) :
    ∀ c c' entries, evalArguments args c = (.ok entries, c') → entries.length = args.length := by
  induction args with
  | nil =>
    intro c c' entries h
    cases h
    rfl
  | cons x rest ih =>
    intro c c' entries h
    rw [evalArguments, Evaluated.andThen_eq_ok] at h
    obtain ⟨v, c₁, -, h⟩ := h
    rw [Evaluated.andThen_eq_ok] at h
    obtain ⟨entries', c₂, hrest, h⟩ := h
    cases h
    rw [List.length_cons, ih _ _ entries' hrest, List.length_cons]

/-- The code of arguments comes to their values, with a name below each. -/
theorem Grammar.Statement.evaluates_argumentCode (hsteps : i.limits.steps = none)
    (args : List (String × Expression)) : ∀ offset next s c (r : Run σ),
      Holds i.chunk offset (argumentCode args) → next = offset + codeSize (argumentCode args) →
      Evaluates i nested next (fun entries c => ⟨pushArguments s entries, c⟩) r
        (i.execute nested offset ⟨s, c⟩ r) (evalArguments args c) := by
  induction args with
  | nil =>
    rintro offset next s c r h rfl
    exact .ok rfl [] c
  | cons x rest ih =>
    rintro offset next s c r h rfl
    have hname : Holds i.chunk offset [.constant (.string x.1)] := h.left.left
    have hvalue : Holds i.chunk (offset + 2) x.2.code := h.left.right
    have hrest := h.right
    have hpush : Evaluates i nested (offset + 2) (fun v c => ⟨s.push v, c⟩) r
        (i.execute nested offset ⟨s, c⟩ r) (.ok (.string x.1), c) :=
      .of_constant hsteps hname s c rfl
    refine hpush.andThen (k := fun _ c => evalArguments (x :: rest) c) fun v c count hv => ?_
    cases hv
    refine (x.2.evaluates hsteps _ _ _ c _ hvalue rfl).andThen fun v c count _ => ?_
    have hoffset : offset + 2 + codeSize x.2.code
        = offset + codeSize ([.constant (.string x.1)] ++ x.2.code) := by
      simp [Symbolic.size, Nat.add_assoc]
    rw [hoffset]
    refine (ih _ _ _ c _ hrest ?_).andThen fun entries c count _ => .ok rfl ((x.1, v) :: entries) c
    simp [argumentCode, Nat.add_assoc]

end Trees

end EntityScript
