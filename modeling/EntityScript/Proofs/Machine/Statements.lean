import EntityScript.Proofs.Machine.Simulation

/-!
# Statements in code

The code of a statement comes to what performing the statement comes to, on a stack that is empty
before and after. The nested handlers of the machine need not be those that the statement is
performed with; it is enough that they are like them.
-/

namespace EntityScript

open Grammar

variable {σ : Type}

/-- Likeness does not depend on the number of steps. -/
theorem Run.Like.after {r r' : Run σ} (h : r.Like r') (count : ℕ) : (r.after count).Like r' :=
  ⟨h.host, h.causes⟩

/-- No fault is lost by counting steps. -/
theorem Run.Grows.after (r : Run σ) (count : ℕ) : r.Grows (r.after count) := .of_eq rfl

/-- The stack overflow is one of the bounds. -/
theorem Answer.Overflows.limited {a : Answer σ} (h : a.Overflows) (r : Run σ) : a.Limited r := by
  obtain ⟨offset, limit, heq⟩ := h
  exact .inl ⟨offset, _, heq, trivial⟩

variable [Host σ] {i : Invocation} {nested nested' : Option (Dispatcher σ)}

/-- Running code came to an offset with nothing on the stack, or to a fault, as performing
statements did. -/
def Arrives (i : Invocation) (nested : Option (Dispatcher σ)) (next : ℕ) (a : Answer σ)
    (c : Context) (r : Run σ) : Except Fault Unit → Prop
  | .ok () => a = i.execute nested next ⟨#[], c⟩ r
  | .error fault => ∃ offset, a = (some (offset, fault), c, r)

/-- Running code came to what performing statements comes to, unless a bound was met. -/
def Follows (i : Invocation) (nested : Option (Dispatcher σ)) (next : ℕ) (r : Run σ)
    (a : Answer σ) (p : Performed σ) : Prop :=
  a.Limited r ∨ ∃ r₁, r.Grows r₁ ∧ r₁.Like p.2.2 ∧ Arrives i nested next a p.2.1 r₁ p.1

namespace Follows

variable {offset mid next : ℕ} {x : Symbolic} {xs : List Symbolic} {r r' r₁ : Run σ}
  {a : Answer σ} {p : Performed σ} {c : Context}

/-- What happened before does not matter. -/
theorem of_grows (hg : r.Grows r₁) (h : Follows i nested next r₁ a p) :
    Follows i nested next r a p := by
  rcases h with hlimited | ⟨r₂, hgrows, hrest⟩
  · exact .inl (hlimited.of_grows hg)
  · exact .inr ⟨r₂, hg.trans hgrows, hrest⟩

/-- All statements are performed. -/
theorem ok (hr : r.Like r') (hnext : next = offset) :
    Follows i nested next r (i.execute nested offset ⟨#[], c⟩ r) (.ok (), c, r') :=
  .inr ⟨r, .of_eq rfl, hr, by rw [hnext]; rfl⟩

/-- A fault of the instruction that is performed. -/
theorem error {count o : ℕ} {fault : Fault} (hr : r.Like r')
    (ha : a = (some (o, fault), c, r.after count)) :
    Follows i nested next r a (.error fault, c, r') :=
  .inr ⟨r.after count, .after r count, hr.after count, o, ha⟩

/-- One statement after another. -/
theorem andThen {k : Context → Run σ → Performed σ} (h : Follows i nested mid r a p)
    (hk : ∀ c r₁ r', r₁.Like r' → Follows i nested next r₁
      (i.execute nested mid ⟨#[], c⟩ r₁) (k c r')) :
    Follows i nested next r a (p.andThen k) := by
  rcases h with hlimited | ⟨r₁, hg, hr, harrives⟩
  · exact .inl hlimited
  · obtain ⟨fault | _, c, r'⟩ := p
    · exact .inr ⟨r₁, hg, hr, harrives⟩
    · rw [show a = i.execute nested mid ⟨#[], c⟩ r₁ from harrives]
      exact (hk c r₁ r' hr).of_grows hg

/-- A statement after an evaluation. -/
theorem of_evaluates {α : Type} {frame : α → Context → Frame} {y : Evaluated α}
    {k : α → Context → Performed σ} (h : Evaluates i nested mid frame r a y) (hr : r.Like r')
    (hk : ∀ v c count, y = (.ok v, c) → Follows i nested next (r.after count)
      (i.execute nested mid (frame v c) (r.after count)) (k v c)) :
    Follows i nested next r a (y.perform r' k) := by
  rcases h with hoverflows | hcomes
  · exact .inl (hoverflows.limited r)
  · obtain ⟨fault | v, c⟩ := y
    · obtain ⟨count, o, ha⟩ := hcomes
      exact error hr ha
    · obtain ⟨count, rfl⟩ := hcomes
      exact (hk v c count rfl).of_grows (.after r count)

/-- A decision of the topmost operand, which stays on the stack. -/
theorem of_decide (hsteps : i.limits.steps = none) {distance : ℕ}
    (h : Holds i.chunk offset (.jumpIfFalse distance :: xs)) {s : Array Value} {v : Value}
    {k : Bool → Performed σ} (hr : r.Like r')
    (htrue : Follows i nested next (r.after 1)
      (i.execute nested (offset + 3) ⟨s.push v, c⟩ (r.after 1)) (k true))
    (hfalse : Follows i nested next (r.after 1)
      (i.execute nested (offset + 3 + distance) ⟨s.push v, c⟩ (r.after 1)) (k false)) :
    Follows i nested next r (i.execute nested offset ⟨s.push v, c⟩ r) (.decide v c r' k) := by
  unfold Performed.decide
  cases htruth : v.truth .condition with
  | error fault => exact error hr (Invocation.execute_jumpIfFalse_fault hsteps h s htruth c r)
  | ok b =>
    rw [Invocation.execute_jumpIfFalse hsteps h s htruth]
    cases b with
    | true => exact htrue.of_grows (.after r 1)
    | false => exact hfalse.of_grows (.after r 1)

/-- The topmost operand is assigned and dropped. -/
theorem of_assign (hsteps : i.limits.steps = none) {name : String}
    (h : Holds i.chunk offset [.setVariable name, .pop]) (hr : r.Like r') (v : Value)
    (hnext : next = offset + 3) :
    Follows i nested next r (i.execute nested offset ⟨#[].push v, c⟩ r)
      (.ok (), c.set name v, r') := by
  have hpop : Holds i.chunk (offset + 2) [.pop] := h.tail
  rw [Invocation.execute_setVariable hsteps h, Invocation.execute_pop hsteps hpop]
  refine of_grows ((Run.Grows.after r 1).trans (.after _ 1)) (ok ((hr.after 1).after 1) ?_)
  rw [hnext]

/-- A conditional statement behind its condition: one of two parts, and then what follows both. -/
theorem of_branch (hsteps : i.limits.steps = none) {whenTrue whenFalse : List Symbolic}
    (h : Holds i.chunk offset (Statement.branchCode whenTrue whenFalse)) (hr : r.Like r')
    {v : Value} {k : Bool → Performed σ}
    (htrue : ∀ r : Run σ, r.Like r' → Holds i.chunk (offset + 4) whenTrue →
      Follows i nested (offset + 4 + codeSize whenTrue) r
        (i.execute nested (offset + 4) ⟨#[], c⟩ r) (k true))
    (hfalse : ∀ r : Run σ, r.Like r' →
      Holds i.chunk (offset + 4 + codeSize whenTrue + 4) whenFalse →
      Follows i nested (offset + 4 + codeSize whenTrue + 4 + codeSize whenFalse) r
        (i.execute nested (offset + 4 + codeSize whenTrue + 4) ⟨#[], c⟩ r) (k false)) :
    Follows i nested (offset + codeSize (Statement.branchCode whenTrue whenFalse)) r
      (i.execute nested offset ⟨#[].push v, c⟩ r) (.decide v c r' k) := by
  have hpop : Holds i.chunk (offset + 3) [.pop] := h.left.left.tail
  have hrest : Holds i.chunk (offset + 4 + codeSize whenTrue)
      ([.jump (1 + codeSize whenFalse), .pop] ++ whenFalse) := by
    have hright := h.right
    rw [codeSize_append, ← Nat.add_assoc] at hright
    exact hright
  have hpop' : Holds i.chunk (offset + 4 + codeSize whenTrue + 3) [.pop] := hrest.left.tail
  have hnext : offset + codeSize (Statement.branchCode whenTrue whenFalse)
      = offset + 4 + codeSize whenTrue + 4 + codeSize whenFalse := by
    simp [Statement.branchCode, Symbolic.size]
    omega
  have hskip : offset + 3 + (1 + codeSize whenTrue + 3) = offset + 4 + codeSize whenTrue + 3 := by
    omega
  rw [hnext]
  refine of_decide hsteps h.left.left hr ?_ ?_
  · rw [Invocation.execute_pop hsteps hpop, ← Performed.andThen_ok (k true)]
    have hwhole := htrue _ ((hr.after 1).after 1) h.left.right
    refine of_grows (.after _ 1) (hwhole.andThen fun c r₁ r' hr => ?_)
    rw [Invocation.execute_jump hsteps hrest.left]
    refine of_grows (.after r₁ 1) (ok (hr.after 1) ?_)
    omega
  · rw [hskip, Invocation.execute_pop hsteps hpop']
    exact of_grows (.after _ 1) (hfalse _ ((hr.after 1).after 1) hrest.right)

end Follows

/-- With nothing on its stack, the machine delivers an event as it is delivered without a stack. -/
theorem Invocation.deliver_eq_directly (i : Invocation) (nested : Option (Dispatcher σ))
    (event : Event) (c : Context) (r : Run σ) : i.deliver nested event ⟨#[], c⟩ r =
      ((deliverDirectly i.limits nested i.base event c r).1,
        ⟨#[], (deliverDirectly i.limits nested i.base event c r).2.1⟩,
        (deliverDirectly i.limits nested i.base event c r).2.2) := by
  unfold deliver deliverDirectly
  cases event.target with
  | none => rfl
  | some target =>
    dsimp only
    unfold deliverTo
    cases Host.resolve r.host target with
    | none => rfl
    | some id =>
      cases nested with
      | none => rfl
      | some d =>
        dsimp only
        by_cases howner : c.owner = some id
        · rw [if_pos howner, if_pos howner]
          rfl
        · rw [if_neg howner, if_neg howner]
          rcases Host.take r.host id with ⟨_ | other, host⟩
          · dsimp only
            split <;> rfl
          · rfl

/-- An instruction that fires an event. -/
theorem Follows.of_fire (hsteps : i.limits.steps = none) (hnested : NestedLike nested nested')
    {offset next : ℕ} {x : Symbolic} {xs : List Symbolic} (h : Holds i.chunk offset (x :: xs))
    {f : Frame} {event : Event} {c : Context} {r r' : Run σ} (hr : r.Like r')
    (hf : i.perform f (x.assemble i.chunk.constants.toList) = .ok (.fire event, ⟨#[], c⟩))
    (hnext : next = offset + x.size) :
    Follows i nested next r (i.execute nested offset f r)
      (deliverDirectly i.limits nested' i.base event c r') := by
  subst hnext
  have hgrows : ∀ d, nested = some d → d.Grows := fun d hd => (hnested d hd).1
  have hafter : r.Grows (r.after 1) := .after r 1
  have hdelivered := i.deliver_grows hgrows event ⟨#[], c⟩ (r.after 1)
  have hlike := i.deliver_like hnested event ⟨#[], c⟩ (hr.after 1)
  rw [Invocation.execute_held hsteps h, hf]
  dsimp only
  rw [i.deliver_eq_directly nested' event c r'] at hlike
  generalize i.deliver nested event ⟨#[], c⟩ (r.after 1) = y at *
  obtain ⟨fault | _, f₁, r₁⟩ := y
  · rcases hlike with ⟨_, heq, hlimit⟩ | hhit | ⟨hresult, hframe, hrun⟩
    · cases heq
      exact .inl (.inl ⟨offset, fault, rfl, hlimit⟩)
    · exact .inl (.inr (hhit.of_grows hafter))
    · refine .inr ⟨r₁, hafter.trans hdelivered, hrun, ?_⟩
      dsimp only at hresult hframe
      rw [← hresult, hframe]
      exact ⟨offset, rfl⟩
  · rcases hlike with ⟨_, heq, -⟩ | hhit | ⟨hresult, hframe, hrun⟩
    · cases heq
    · refine .inl (.inr ((hhit.of_grows hafter).mono ?_))
      exact Invocation.execute_grows hgrows _ _ f₁ r₁ rfl
    · refine .inr ⟨r₁, hafter.trans hdelivered, hrun, ?_⟩
      dsimp only at hresult hframe
      rw [← hresult, hframe]
      rfl

/-- The instruction that leaves the name of the entity that an event is meant for. -/
def targetCode (target : Option Target) : List Symbolic :=
  (target.map fun t => Symbolic.constant (.string t.text)).toList

/-- What an event is meant for, on a stack of its own. -/
def targetStack (target : Option String) : Array Value := (target.map Value.string).toArray

/-- The code of a target and of arguments comes to the values of the arguments, above the target. -/
theorem evaluates_arguments (hsteps : i.limits.steps = none) (target : Option Target)
    (args : List (String × Expression)) {offset : ℕ} {c : Context} {r : Run σ}
    (htarget : Holds i.chunk offset (targetCode target))
    (hargs : Holds i.chunk (offset + codeSize (targetCode target)) (Statement.argumentCode args)) :
    Evaluates i nested
      (offset + codeSize (targetCode target) + codeSize (Statement.argumentCode args))
      (fun entries c => ⟨pushArguments (targetStack (target.map Target.text)) entries, c⟩) r
      (i.execute nested offset ⟨#[], c⟩ r) (Statement.evalArguments args c) := by
  have hevaluates : ∀ r, Evaluates i nested _ _ r _ (Statement.evalArguments args c) := fun r =>
    Statement.evaluates_argumentCode hsteps args _ _ (targetStack (target.map Target.text)) c r
      hargs rfl
  cases target with
  | none => exact hevaluates r
  | some t =>
    have hpush : Evaluates i nested (offset + 2) (fun v c => ⟨#[].push v, c⟩) r
        (i.execute nested offset ⟨#[], c⟩ r) (.ok (.string t.text), c) :=
      .of_constant hsteps htarget #[] c rfl
    refine hpush.andThen (k := fun _ c => Statement.evalArguments args c) fun v c count hv => ?_
    cases hv
    exact hevaluates _

/-- Arguments, and below them the name of the entity that an event is meant for, make the event. -/
theorem Invocation.perform_fireEvent {event : String} {target : Option String}
    {entries : List (String × Value)} {offset count : ℕ} {xs : List Symbolic} {c : Context}
    (h : Holds i.chunk offset (.fireEvent event target.isSome count :: xs))
    (hcount : entries.length = count) :
    i.perform ⟨pushArguments (targetStack target) entries, c⟩
        ((Symbolic.fireEvent event target.isSome count).assemble i.chunk.constants.toList)
      = .ok (.fire ⟨event, target, .ofList entries⟩, ⟨#[], c⟩) := by
  have hfits : count ≤ 255 := h.fits _ List.mem_cons_self
  have hname := name_of (h.constant? List.mem_cons_self rfl)
  have htoNat : (UInt8.ofNat count).toNat = entries.length := by
    rw [hcount, Symbolic.toNat_count hfits]
  simp only [Symbolic.assemble, perform, popEvent, hname, htoNat, bind, Except.bind,
    Frame.popArguments_pushArguments, List.append_nil]
  cases target with
  | none => rfl
  | some t =>
    have htext : Frame.popText ⟨targetStack (some t), c⟩ .targetName
        = .ok (t, ⟨#[], c⟩) := Frame.popText_push #[] t c .targetName
    rw [Symbolic.isTargeted_flag, htext]
    rfl

/-- The code of a statement comes to what performing the statement comes to. -/
theorem Grammar.Statement.follows (hsteps : i.limits.steps = none)
    (hnested : NestedLike nested nested') (s : Statement) : ∀ offset next c (r r' : Run σ),
      Holds i.chunk offset s.code → next = offset + codeSize s.code → r.Like r' →
      Follows i nested next r (i.execute nested offset ⟨#[], c⟩ r)
        (s.eval (deliverDirectly i.limits nested' i.base) c r') := by
  -- Context and run are what the statements before have left, so they are not fixed.
  induction s with
  | skip =>
    rintro offset next c r r' - rfl hr
    exact .ok hr rfl
  | seq first rest ihf ihr =>
    rintro offset next c r r' h rfl hr
    refine (ihf offset _ c r r' h.left rfl hr).andThen fun c r₁ r' hr => ?_
    refine ihr _ _ c r₁ r' h.right ?_ hr
    simp only [code, codeSize_append, Nat.add_assoc]
  | declare name type value =>
    rintro offset next c r r' h rfl hr
    cases value with
    | none =>
      have hpush : Evaluates i nested (offset + 2) (fun v c => ⟨#[].push v, c⟩) r
          (i.execute nested offset ⟨#[], c⟩ r) (.ok (unset type), c) :=
        .of_constant hsteps h #[] c rfl
      refine Follows.of_evaluates (k := fun v c => (.ok (), c.set name v, r')) hpush hr ?_
      intro v c count _
      refine .of_assign hsteps h.tail (hr.after count) v ?_
      simp [code, Symbolic.size]
    | some e =>
      refine .of_evaluates (e.evaluates hsteps offset _ #[] c r h.left rfl) hr ?_
      intro v c count _
      refine .of_assign hsteps h.right (hr.after count) v ?_
      simp [code, Symbolic.size, Nat.add_assoc]
  | branch condition whenTrue whenFalse iht ihf =>
    rintro offset next c r r' h rfl hr
    refine .of_evaluates (condition.evaluates hsteps offset _ #[] c r h.left rfl) hr ?_
    intro v c count _
    have hnext : offset + codeSize (branch condition whenTrue whenFalse).code
        = offset + codeSize condition.code
          + codeSize (branchCode whenTrue.code whenFalse.code) := by
      rw [code, codeSize_append, Nat.add_assoc]
    rw [hnext]
    exact .of_branch hsteps h.right (hr.after count)
      (fun r hr h => iht _ _ c r r' h rfl hr) (fun r hr h => ihf _ _ c r r' h rfl hr)
  | fire event target args =>
    rintro offset next c r r' h rfl hr
    have hfire : Holds i.chunk
        (offset + codeSize (targetCode target) + codeSize (argumentCode args))
        [.fireEvent event (target.map Target.text).isSome args.length] := by
      rw [Option.isSome_map]
      exact h.right.right
    refine .of_evaluates (evaluates_arguments hsteps target args h.left h.right.left) hr ?_
    intro entries c count hentries
    have hlength := length_evalArguments args _ _ entries hentries
    refine .of_fire hsteps hnested hfire (hr.after count) ?_ ?_
    · exact Invocation.perform_fireEvent hfire hlength
    · simp only [code, codeSize_append, codeSize_cons, codeSize_nil, targetCode, Symbolic.size]
      omega
  | change state =>
    rintro offset next c r r' h rfl hr
    have hname := Invocation.name_of (h.constant? List.mem_cons_self rfl)
    unfold eval
    cases hchange : c.changeState state with
    | ok c' =>
      have hperform : i.perform ⟨#[], c⟩
          ((Symbolic.changeState state).assemble i.chunk.constants.toList)
            = .ok (.forward 0, ⟨#[], c'⟩) := by
        simp only [Symbolic.assemble, Invocation.perform, hname, hchange, bind, Except.bind, pure,
          Except.pure]
      rw [Invocation.execute_forward hsteps h hperform]
      exact .of_grows (.after r 1) (.ok (hr.after 1) rfl)
    | error fault =>
      refine .error hr (Invocation.execute_fault hsteps h ?_ r)
      simp only [Symbolic.assemble, Invocation.perform, hname, hchange, bind, Except.bind]
  | evaluate e =>
    rintro offset next c r r' h rfl hr
    refine .of_evaluates (e.evaluates hsteps offset _ #[] c r h.left rfl) hr fun v c count _ => ?_
    rw [Invocation.execute_pop hsteps h.right]
    refine .of_grows (.after _ 1) (.ok ((hr.after count).after 1) ?_)
    simp [code, Symbolic.size, Nat.add_assoc]

end EntityScript
