import EntityScript.Proofs.Machine.Recast
import EntityScript.Proofs.Machine.Refinement
import EntityScript.Proofs.Machine.Stepping
import EntityScript.Proofs.Meaning.Applied

/-!
# Operators do not coerce

The code of an expression, run under any bounds, applies the operators that the evaluation of the
expression applies, in the same order. If an operator does not take the values that it is applied
to, the handler faults at its instruction; otherwise the value of the expression is on the stack at
the end. A run may also meet a bound on its way, and all operators before that place have taken
their values.

The right operand of a logical operator is no exception to this but has no part in it: no
instruction looks at its value, and a handler in which it is a number ends without a fault.
-/

namespace EntityScript

open Grammar

variable {σ : Type}

/-- What running code from a place came to, where the end of the code is given, and the operators
that the evaluation of the code applies: the value of the evaluation in a frame at the end of the
code, or its fault at the last one of the operators, or the fault of a bound. -/
inductive Located [Host σ] (i : Invocation) (nested : Option (Dispatcher σ)) {α : Type}
    (first last : ℕ) (frame : α → Context → Frame) (r : Run σ) (applied : List (ℕ × Application))
    (a : Answer σ) : Evaluated α → Prop
  /-- All operators took their values. -/
  | ends {v : α} {c : Context} {count : ℕ} (allowed : ∀ x ∈ applied, x.2.Allowed)
    (goes : a = i.execute nested last (frame v c) (r.after count)) :
    Located i nested first last frame r applied a (.ok v, c)
  /-- The last operator did not, and the handler faulted at its instruction. -/
  | refused {before : List (ℕ × Application)} {offset : ℕ} {refusal : Application} {fault : Fault}
    {c : Context} {count : ℕ} (split : applied = before ++ [(offset, refusal)])
    (allowed : ∀ x ∈ before, x.2.Allowed) (refuses : refusal.fault? = some fault)
    (stops : a = (some (offset, fault), c, r.after count)) :
    Located i nested first last frame r applied a (.error fault, c)
  /-- A bound was met, and all operators before it took their values. -/
  | bounded {offset : ℕ} {fault : Fault} {c : Context} {count : ℕ} {x : Evaluated α}
    (bound : fault.OfBound) (inside : first ≤ offset ∧ offset < last)
    (allowed : ∀ x ∈ applied, x.1 < offset → x.2.Allowed)
    (stops : a = (some (offset, fault), c, r.after count)) :
    Located i nested first last frame r applied a x

namespace Located

variable [Host σ] {i : Invocation} {nested : Option (Dispatcher σ)} {offset first mid last : ℕ}
  {x : Symbolic} {xs : List Symbolic} {f f' : Frame} {r : Run σ} {a : Answer σ} {α β : Type}
  {frame : α → Context → Frame} {frame' : β → Context → Frame}
  {applied : List (ℕ × Application)} {y : Evaluated α}

/-- Steps taken before do not matter. -/
theorem of_after {count : ℕ}
    (h : Located i nested first last frame (r.after count) applied a y) :
    Located i nested first last frame r applied a y := by
  cases h with
  | ends allowed goes => exact .ends allowed (by rw [goes, Run.after_after])
  | refused split allowed refuses stops =>
    exact .refused split allowed refuses (by rw [stops, Run.after_after])
  | bounded bound inside allowed stops =>
    exact .bounded bound inside allowed (by rw [stops, Run.after_after])

/-- Code before the beginning does not matter. -/
theorem widen (hle : first ≤ mid) (h : Located i nested mid last frame r applied a y) :
    Located i nested first last frame r applied a y := by
  cases h with
  | ends allowed goes => exact .ends allowed goes
  | refused split allowed refuses stops => exact .refused split allowed refuses stops
  | bounded bound inside allowed stops =>
    exact .bounded bound ⟨Nat.le_trans hle inside.1, inside.2⟩ allowed stops

/-- One evaluation after another. -/
theorem andThen {k : α → Context → Evaluated β}
    {behind : α → Context → List (ℕ × Application)}
    (h : Located i nested first mid frame r applied a y) (hfirst : first ≤ mid) (hmid : mid ≤ last)
    (hplace : ∀ v c, ∀ x ∈ behind v c, mid ≤ x.1)
    (hk : ∀ v c count, Located i nested mid last frame' (r.after count) (behind v c)
      (i.execute nested mid (frame v c) (r.after count)) (k v c)) :
    Located i nested first last frame' r (applied ++ y.behind behind) a (y.andThen k) := by
  cases h with
  | @ends v c count allowed goes =>
    change Located i nested first last frame' r (applied ++ behind v c) a (k v c)
    have hrest := hk v c count
    rw [← goes] at hrest
    generalize k v c = z at hrest ⊢
    cases hrest with
    | ends allowed' goes' =>
      rw [Run.after_after] at goes'
      exact .ends (List.forall_mem_append.2 ⟨allowed, allowed'⟩) goes'
    | refused split allowed' refuses stops =>
      rw [Run.after_after] at stops
      rw [split, ← List.append_assoc]
      exact .refused rfl (List.forall_mem_append.2 ⟨allowed, allowed'⟩) refuses stops
    | bounded bound inside allowed' stops =>
      rw [Run.after_after] at stops
      exact .bounded bound ⟨Nat.le_trans hfirst inside.1, inside.2⟩
        (List.forall_mem_append.2 ⟨fun x hx _ => allowed x hx, allowed'⟩) stops
  | refused split allowed refuses stops =>
    exact .refused ((List.append_nil _).trans split) allowed refuses stops
  | bounded bound inside allowed stops =>
    refine .bounded bound ⟨inside.1, Nat.lt_of_lt_of_le inside.2 hmid⟩
      (List.forall_mem_append.2 ⟨allowed, fun x hx hlt => ?_⟩) stops
    have hle := Expression.forall_mem_behind (x := y) hplace x hx
    omega

/-- An instruction is performed, or it is one too many. -/
theorem execute_begun (nested : Option (Dispatcher σ)) (h : Holds i.chunk offset (x :: xs))
    (f : Frame) (r : Run σ) :
    (∃ fault, fault.OfBound ∧
      i.execute nested offset f r = (some (offset, fault), f.context, r.after 1)) ∨
    (∀ fault, i.perform f (x.assemble i.chunk.constants.toList) = .error fault →
      i.execute nested offset f r = (some (offset, fault), f.context, r.after 1)) ∧
    ∀ d f', i.perform f (x.assemble i.chunk.constants.toList) = .ok (.forward d, f') →
      i.execute nested offset f r = i.execute nested (offset + x.size + d) f' (r.after 1) := by
  obtain ⟨hlt, hfetch⟩ := h.fetch
  rw [Invocation.execute, dif_pos hlt]
  cases hbegin : i.beginStep r with
  | mk begun r' =>
  have hafter : r' = r.after 1 := Invocation.beginStep_eq hbegin
  subst hafter
  cases begun with
  | error fault =>
    refine .inl ⟨fault, ?_, rfl⟩
    unfold Invocation.beginStep at hbegin
    dsimp only at hbegin
    split at hbegin
    · split at hbegin <;> cases hbegin
      trivial
    · cases hbegin
  | ok u =>
    refine .inr ⟨fun fault hf => ?_, fun d f' hf => ?_⟩
    · dsimp only
      rw [hfetch]
      dsimp only
      rw [hf]
    · dsimp only
      rw [hfetch]
      dsimp only
      rw [hf]
      simp only [Symbolic.size_assemble]

/-- The end of the code. -/
theorem ended {place : ℕ} (hplace : place = last) (hallowed : ∀ x ∈ applied, x.2.Allowed) (v : α)
    (c : Context) :
    Located i nested first last frame r applied (i.execute nested place (frame v c) r)
      (.ok v, c) := by
  subst hplace
  have hgoes : i.execute nested place (frame v c) r
      = i.execute nested place (frame v c) (r.after 0) := rfl
  exact .ends hallowed hgoes

/-- An instruction that leads to another place, where code goes on. -/
theorem of_forward (h : Holds i.chunk offset (x :: xs)) {d : ℕ}
    (hf : i.perform f (x.assemble i.chunk.constants.toList) = .ok (.forward d, f'))
    (hlast : offset < last) (hplace : ∀ x ∈ applied, offset ≤ x.1) (hle : offset ≤ mid)
    (hrest : Located i nested mid last frame (r.after 1) applied
      (i.execute nested (offset + x.size + d) f' (r.after 1)) y) :
    Located i nested offset last frame r applied (i.execute nested offset f r) y := by
  obtain ⟨fault, hbound, hstops⟩ | ⟨-, hgoes⟩ := execute_begun nested h f r
  · refine .bounded hbound ⟨Nat.le_refl _, hlast⟩ (fun x hx hlt => ?_) hstops
    exact absurd (hplace x hx) (Nat.not_le_of_lt hlt)
  · rw [hgoes d f' hf]
    exact .of_after (.widen hle hrest)

/-- An operator that does not take its values. -/
theorem of_refused (h : Holds i.chunk offset (x :: xs)) {fault : Fault} {refusal : Application}
    (hf : i.perform f (x.assemble i.chunk.constants.toList) = .error fault)
    (hrefuses : refusal.fault? = some fault) (hlast : offset < last) :
    Located i nested offset last frame r [(offset, refusal)] (i.execute nested offset f r)
      (.error fault, f.context) := by
  obtain ⟨fault', hbound, hstops⟩ | ⟨hfaults, -⟩ := execute_begun nested h f r
  · refine .bounded hbound ⟨Nat.le_refl _, hlast⟩ (fun x hx hlt => ?_) hstops
    rw [List.mem_singleton.1 hx] at hlt
    exact absurd hlt (Nat.lt_irrefl _)
  · have hsplit : [(offset, refusal)] = [] ++ [(offset, refusal)] := rfl
    exact .refused hsplit (fun x hx => nomatch hx) hrefuses (hfaults fault hf)

/-- A value is put on the stack, or there is no room for it. -/
theorem of_value (h : Holds i.chunk offset (x :: xs)) {s : Array Value} {c : Context} {v : Value}
    (hf : i.perform f (x.assemble i.chunk.constants.toList)
      = do return (.forward 0, ← i.push ⟨s, c⟩ v))
    (hallowed : ∀ x ∈ applied, x.2.Allowed) (hplace : ∀ x ∈ applied, offset ≤ x.1)
    (hlast : last = offset + x.size) :
    Located i nested offset last (fun v c => ⟨s.push v, c⟩) r applied
      (i.execute nested offset f r) (.ok v, c) := by
  subst hlast
  have hlt : offset < offset + x.size := Nat.lt_add_of_pos_right x.size_pos
  by_cases hroom : i.limits.stackSize ≤ i.base + s.size
  · have hfault : i.perform f (x.assemble i.chunk.constants.toList)
        = .error (.stackOverflow i.limits.stackSize) := by
      rw [hf]
      simp [Invocation.push, hroom, bind, Except.bind]
    have hbehind : ∀ x ∈ applied, x.1 < offset → x.2.Allowed := fun x hx _ => hallowed x hx
    obtain ⟨fault, hbound, hstops⟩ | ⟨hfaults, -⟩ := execute_begun nested h f r
    · exact .bounded hbound ⟨Nat.le_refl _, hlt⟩ hbehind hstops
    · have hbound : (Fault.stackOverflow i.limits.stackSize).OfBound := trivial
      exact .bounded hbound ⟨Nat.le_refl _, hlt⟩ hbehind (hfaults _ hfault)
  · have hforward : i.perform f (x.assemble i.chunk.constants.toList)
        = .ok (.forward 0, ⟨s.push v, c⟩) := by
      rw [hf]
      simp [Invocation.push, hroom, bind, Except.bind, pure, Except.pure]
    exact of_forward h hforward hlt hplace (Nat.le_refl _) (ended rfl hallowed v c)

/-- An operator puts what it makes of its values on the stack, or it does not take them. -/
theorem of_application (h : Holds i.chunk offset (x :: xs)) {s : Array Value} {c : Context}
    (hc : f.context = c) {result : Except Fault Value} {application : Application}
    (hresult : application.fault? = refusal? result)
    (hf : i.perform f (x.assemble i.chunk.constants.toList)
      = do let v ← result; return (.forward 0, ← i.push ⟨s, c⟩ v))
    (hlast : last = offset + x.size) :
    Located i nested offset last (fun v c => ⟨s.push v, c⟩) r [(offset, application)]
      (i.execute nested offset f r) (result, c) := by
  subst hc
  cases result with
  | error fault =>
    exact of_refused h hf hresult (hlast ▸ Nat.lt_add_of_pos_right x.size_pos)
  | ok v =>
    refine of_value h hf (fun x hx => ?_) (fun x hx => ?_) hlast
    · rw [List.mem_singleton.1 hx]
      exact application.fault?_eq_none_iff.1 hresult
    · rw [List.mem_singleton.1 hx]

/-- A logical operator decides by its left operand, which stays on the stack. -/
theorem of_decide {distance : ℕ} (h : Holds i.chunk offset (.jumpIfFalse distance :: xs))
    {s : Array Value} {v : Value} {c : Context} {k : Bool → Evaluated α}
    {behind : Bool → List (ℕ × Application)} (hlast : offset + 3 ≤ last)
    (hplace : ∀ b, ∀ x ∈ behind b, offset ≤ x.1)
    (hk : ∀ b, Located i nested (offset + 3) last frame (r.after 1) (behind b)
      (i.execute nested (offset + 3 + if b then 0 else distance) ⟨s.push v, c⟩ (r.after 1))
      (k b)) :
    Located i nested offset last frame r ((offset, .decide v) :: v.decided behind)
      (i.execute nested offset ⟨s.push v, c⟩ r) (.decide v c k) := by
  have hdistance := Symbolic.toNat_distance (h.fits (.jumpIfFalse distance) List.mem_cons_self)
  have hlt : offset < last := by omega
  cases v with
  | bool b =>
    have hf : i.perform ⟨s.push (.bool b), c⟩
        (Symbolic.assemble i.chunk.constants.toList (.jumpIfFalse distance))
        = .ok (.forward (if b then 0 else distance), ⟨s.push (.bool b), c⟩) := by
      simp [Symbolic.assemble, Invocation.perform, Value.truth, hdistance, bind, Except.bind, pure,
        Except.pure]
    have hrest : Located i nested (offset + 3) last frame (r.after 1)
        ((offset, .decide (.bool b)) :: behind b) (i.execute nested
          (offset + 3 + if b then 0 else distance) ⟨s.push (.bool b), c⟩ (r.after 1)) (k b) := by
      have hallowed : (Application.decide (.bool b)).Allowed := ⟨rfl, id⟩
      have hk := hk b
      generalize k b = z at hk ⊢
      cases hk with
      | ends allowed goes => exact .ends (List.forall_mem_cons.2 ⟨hallowed, allowed⟩) goes
      | refused split allowed refuses stops =>
        rw [split, ← List.cons_append]
        exact .refused rfl (List.forall_mem_cons.2 ⟨hallowed, allowed⟩) refuses stops
      | bounded bound inside allowed stops =>
        exact .bounded bound inside
          (List.forall_mem_cons.2 ⟨fun _ => hallowed, allowed⟩) stops
    exact of_forward h hf hlt (List.forall_mem_cons.2 ⟨Nat.le_refl _, hplace b⟩)
      (Nat.le_add_right ..) hrest
  | number | vec2 | string =>
    refine of_refused h ?_ rfl hlt
    simp [Symbolic.assemble, Invocation.perform, Value.truth, bind, Except.bind]

/-- A value that is not needed any more is taken off the stack. -/
theorem of_pop (h : Holds i.chunk offset (.pop :: xs)) {s : Array Value} {v : Value} {c : Context}
    (hlast : offset < last) (hplace : ∀ x ∈ applied, offset ≤ x.1)
    (hrest : Located i nested (offset + 1) last frame (r.after 1) applied
      (i.execute nested (offset + 1) ⟨s, c⟩ (r.after 1)) y) :
    Located i nested offset last frame r applied (i.execute nested offset ⟨s.push v, c⟩ r) y := by
  have hf : i.perform ⟨s.push v, c⟩ (Symbolic.pop.assemble i.chunk.constants.toList)
      = .ok (.forward 0, ⟨s, c⟩) := by
    simp [Symbolic.assemble, Invocation.perform, bind, Except.bind, pure, Except.pure]
  exact of_forward h hf hlast hplace (Nat.le_add_right ..) hrest

/-- A jump. -/
theorem of_jump {distance : ℕ} (h : Holds i.chunk offset (.jump distance :: xs))
    (hlast : offset < last) (hplace : ∀ x ∈ applied, offset ≤ x.1)
    (hrest : Located i nested offset last frame (r.after 1) applied
      (i.execute nested (offset + 3 + distance) f (r.after 1)) y) :
    Located i nested offset last frame r applied (i.execute nested offset f r) y := by
  have hdistance := Symbolic.toNat_distance (h.fits (.jump distance) List.mem_cons_self)
  have hf : i.perform f ((Symbolic.jump distance).assemble i.chunk.constants.toList)
      = .ok (.forward distance, f) := by
    simp [Symbolic.assemble, Invocation.perform, hdistance, pure, Except.pure]
  exact of_forward h hf hlast hplace (Nat.le_refl _) hrest

end Located

variable [Host σ] {i : Invocation} {nested : Option (Dispatcher σ)}

namespace Grammar.Expression

/-- The code of an expression, wherever it stands and whatever lies on the stack, applies the
operators that the evaluation of the expression applies, and faults where one does not take its
values. -/
def Locates (i : Invocation) (nested : Option (Dispatcher σ)) (e : Expression) : Prop :=
  ∀ offset last s c (r : Run σ), Holds i.chunk offset e.code → last = offset + codeSize e.code →
    Located i nested offset last (fun v c => ⟨s.push v, c⟩) r (e.applied offset c)
      (i.execute nested offset ⟨s, c⟩ r) (e.eval c)

namespace Locates

variable {e left right : Expression}

/-- A literal applies no operator. -/
theorem literal (l : Literal) : (Expression.literal l).Locates i nested := by
  rintro offset last s c r h rfl
  refine .of_value h ?_ (List.forall_mem_nil _) (List.forall_mem_nil _) rfl
  simp only [Symbolic.assemble, Invocation.perform,
    Invocation.constant_of (h.constant? List.mem_cons_self rfl), bind, Except.bind]

/-- A variable applies no operator. -/
theorem var (name : String) : (Expression.var name).Locates i nested := by
  rintro offset last s c r h rfl
  refine .of_value h ?_ (List.forall_mem_nil _) (List.forall_mem_nil _) rfl
  simp only [Symbolic.assemble, Invocation.perform,
    Invocation.name_of (h.constant? List.mem_cons_self rfl), bind, Except.bind]

/-- An assignment applies no operator of its own. -/
theorem assign (name : String) (he : e.Locates i nested) :
    (Expression.assign name e).Locates i nested := by
  rintro offset last s c r h rfl
  have hsize : offset + codeSize e.code < offset + codeSize (Expression.assign name e).code := by
    simp [code, Symbolic.size]
  have hall : Located i nested offset (offset + codeSize (Expression.assign name e).code)
      (fun v c => ⟨s.push v, c⟩) r (e.applied offset c ++ (e.eval c).behind fun _ _ => [])
      (i.execute nested offset ⟨s, c⟩ r) ((Expression.assign name e).eval c) := by
    refine (he offset _ s c r h.left rfl).andThen (Nat.le_add_right ..) (Nat.le_of_lt hsize)
      (fun v c => List.forall_mem_nil _) fun v c count => ?_
    have hf : i.perform ⟨s.push v, c⟩
        ((Symbolic.setVariable name).assemble i.chunk.constants.toList)
        = .ok (.forward 0, ⟨s.push v, c.set name v⟩) := by
      simp [Symbolic.assemble, Invocation.perform,
        Invocation.name_of (h.right.constant? List.mem_cons_self rfl), bind, Except.bind, pure,
        Except.pure]
    refine .of_forward h.right hf hsize (List.forall_mem_nil _) (Nat.le_refl _) ?_
    exact .ended (by simp [code, Symbolic.size, Nat.add_assoc]) (List.forall_mem_nil _) v
      (c.set name v)
  rwa [behind_nil, List.append_nil] at hall

/-- An operator behind its last operand, whose value lies on `below`. What the operator makes of
its values comes on `s`, which is all that lay below its operands. -/
theorem operator (he : e.Locates i nested) {x : Symbolic} {result : Value → Except Fault Value}
    {application : Value → Application}
    (hresult : ∀ v, (application v).fault? = refusal? (result v))
    {offset last : ℕ} (h : Holds i.chunk offset (e.code ++ [x]))
    (hlast : last = offset + codeSize (e.code ++ [x])) {below s : Array Value}
    (hf : ∀ v c, i.perform ⟨below.push v, c⟩ (x.assemble i.chunk.constants.toList)
      = do let w ← result v; return (.forward 0, ← i.push ⟨s, c⟩ w)) (c : Context) (r : Run σ) :
    Located i nested offset last (fun v c => ⟨s.push v, c⟩) r
      (e.applied offset c ++
        (e.eval c).behind fun v _ => [(offset + codeSize e.code, application v)])
      (i.execute nested offset ⟨below, c⟩ r) ((e.eval c).andThen fun v c => (result v, c)) := by
  have hsize : last = offset + codeSize e.code + x.size := by
    simp [hlast, Nat.add_assoc]
  refine (he offset _ below c r h.left rfl).andThen (Nat.le_add_right ..) (by omega)
    (fun v c => ?_) fun v c count => ?_
  · exact List.forall_mem_singleton.2 (Nat.le_refl _)
  · exact .of_application h.right rfl (hresult v) (hf v c) hsize

/-- A change of sign is applied last, to the value of its operand. -/
theorem negate (he : e.Locates i nested) : (Expression.negate e).Locates i nested := by
  intro offset last s c r h hlast
  refine he.operator (fun v => rfl) h hlast (fun v c => ?_) c r
  simp only [Symbolic.assemble, Invocation.perform, Frame.pop_push, bind, Except.bind]

/-- A negation is applied last, to the value of its operand. -/
theorem not (he : e.Locates i nested) : (Expression.not e).Locates i nested := by
  intro offset last s c r h hlast
  refine he.operator (fun v => ?_) h hlast (fun v c => ?_) c r
  · cases v <;> rfl
  · simp only [Symbolic.assemble, Invocation.perform, Frame.pop_push, bind, Except.bind]
    cases v.truth .complement <;> rfl

/-- A component is asked for last, of the value of its operand. -/
theorem component (name : String) (he : e.Locates i nested) :
    (Expression.component e name).Locates i nested := by
  intro offset last s c r h hlast
  refine he.operator (fun v => rfl) h hlast (fun v c => ?_) c r
  simp only [Symbolic.assemble, Invocation.perform, Frame.pop_push,
    Invocation.name_of (h.right.constant? List.mem_cons_self rfl), bind, Except.bind]

/-- The left operand lies below the right one while that is evaluated. -/
theorem binary (op : Operator) (hl : left.Locates i nested) (hr : right.Locates i nested) :
    (Expression.binary op left right).Locates i nested := by
  rintro offset last s c r h rfl
  have hcode : Holds i.chunk offset (left.code ++ (right.code ++ [.binary op])) := by
    rw [← List.append_assoc]
    exact h
  have hsize : offset + codeSize (Expression.binary op left right).code
      = offset + codeSize left.code + codeSize (right.code ++ [.binary op]) := by
    simp [code, Nat.add_assoc]
  refine (hl offset _ s c r h.left.left rfl).andThen (Nat.le_add_right ..)
    (by simp [code]) (fun v c => ?_) fun v c count => ?_
  · exact List.forall_mem_append.2 ⟨right.le_of_mem_applied _ c,
      forall_mem_behind fun w c => List.forall_mem_singleton.2 (Nat.le_add_right ..)⟩
  · have hresult (w : Value) : (Application.binary op v w).fault? = refusal? (op.apply v w) := rfl
    refine hr.operator hresult hcode.right hsize (fun w c => ?_) c _
    simp only [Symbolic.assemble, Invocation.perform, Frame.pop_push, bind, Except.bind]

/-- A logical operator between its operands, where `k` says how it goes on with its decision. -/
theorem decided (hl : left.Locates i nested) {distance : ℕ} {xs : List Symbolic} {offset last : ℕ}
    (h : Holds i.chunk offset (left.code ++ (.jumpIfFalse distance :: xs)))
    (hlast : offset + codeSize left.code + 3 ≤ last) (s : Array Value) (c : Context) (r : Run σ)
    {behind : Context → Bool → List (ℕ × Application)}
    {k : Value → Context → Bool → Evaluated Value}
    (hplace : ∀ c b, ∀ x ∈ behind c b, offset + codeSize left.code ≤ x.1)
    (hk : ∀ v c b (r : Run σ), Located i nested (offset + codeSize left.code + 3) last
      (fun v c => ⟨s.push v, c⟩) r (behind c b)
      (i.execute nested (offset + codeSize left.code + 3 + if b then 0 else distance)
        ⟨s.push v, c⟩ r) (k v c b)) :
    Located i nested offset last (fun v c => ⟨s.push v, c⟩) r
      (left.applied offset c ++ (left.eval c).behind fun v c =>
        (offset + codeSize left.code, .decide v) :: v.decided (behind c))
      (i.execute nested offset ⟨s, c⟩ r)
      ((left.eval c).andThen fun v c => .decide v c (k v c)) := by
  refine (hl offset _ s c r h.left rfl).andThen (Nat.le_add_right ..) (by omega)
    (fun v c => ?_) fun v c count => ?_
  · exact List.forall_mem_cons.2 ⟨Nat.le_refl _, forall_mem_decided (hplace c)⟩
  · exact .of_decide h.right hlast (hplace c) fun b => hk v c b _

/-- The right operand takes the place of the left one. -/
theorem behind_pop (hr : right.Locates i nested) {offset last : ℕ}
    (h : Holds i.chunk offset (.pop :: right.code))
    (hlast : last = offset + 1 + codeSize right.code) (s : Array Value) (v : Value) (c : Context)
    (r : Run σ) : Located i nested offset last (fun v c => ⟨s.push v, c⟩) r
      (right.applied (offset + 1) c) (i.execute nested offset ⟨s.push v, c⟩ r) (right.eval c) := by
  refine .of_pop h (by omega) (fun x hx => ?_) (hr (offset + 1) last s c _ h.tail hlast)
  exact Nat.le_of_succ_le (right.le_of_mem_applied _ c x hx)

/-- A conjunction decides by its left operand whether the operators of its right one are applied. -/
theorem and (hl : left.Locates i nested) (hr : right.Locates i nested) :
    (Expression.and left right).Locates i nested := by
  rintro offset last s c r h rfl
  have hsize : codeSize (Expression.and left right).code
      = codeSize left.code + 4 + codeSize right.code := by
    simp [code, Symbolic.size]
    omega
  have hpop : Holds i.chunk (offset + codeSize left.code + 3) (.pop :: right.code) := h.right.tail
  refine hl.decided h (by omega) s c r (fun c b => ?_) fun v c b r => ?_
  · cases b with
    | true => exact fun x hx => Nat.le_trans (by omega) (right.le_of_mem_applied _ c x hx)
    | false => exact List.forall_mem_nil _
  · cases b with
    | true => exact hr.behind_pop hpop (by omega) s v c r
    | false =>
      refine .ended ?_ (List.forall_mem_nil _) v c
      rw [if_neg Bool.false_ne_true]
      omega

/-- A disjunction decides by its left operand whether the operators of its right one are applied. -/
theorem or (hl : left.Locates i nested) (hr : right.Locates i nested) :
    (Expression.or left right).Locates i nested := by
  rintro offset last s c r h rfl
  have hsize : codeSize (Expression.or left right).code
      = codeSize left.code + 7 + codeSize right.code := by
    simp [code, Symbolic.size]
    omega
  have hjump : Holds i.chunk (offset + codeSize left.code + 3)
      (.jump (1 + codeSize right.code) :: .pop :: right.code) := h.right.tail
  have hpop : Holds i.chunk (offset + codeSize left.code + 3 + 3) (.pop :: right.code) := hjump.tail
  refine hl.decided h (by omega) s c r (fun c b => ?_) fun v c b r => ?_
  · cases b with
    | true => exact List.forall_mem_nil _
    | false => exact fun x hx => Nat.le_trans (by omega) (right.le_of_mem_applied _ c x hx)
  · cases b with
    | true =>
      refine .of_jump hjump (by omega) (List.forall_mem_nil _) ?_
      exact .ended (by omega) (List.forall_mem_nil _) v c
    | false => exact .widen (Nat.le_add_right _ 3) (hr.behind_pop hpop (by omega) s v c r)

end Locates

/-- The code of an expression applies the operators that the evaluation of the expression applies,
and faults where one does not take its values. -/
theorem located (e : Expression) : e.Locates i nested := by
  induction e with
  | literal l => exact .literal l
  | var name => exact .var name
  | assign name e ih => exact ih.assign name
  | negate e ih => exact ih.negate
  | not e ih => exact ih.not
  | component e name ih => exact ih.component name
  | binary op left right ihl ihr => exact ihl.binary op ihr
  | and left right ihl ihr => exact ihl.and ihr
  | or left right ihl ihr => exact ihl.or ihr

end Grammar.Expression

omit [Host σ] in
/-- Code that holds the arguments of an event holds each of their expressions. -/
theorem Grammar.Statement.holds_argumentExpressions {chunk : Chunk}
    (args : List (String × Expression)) : ∀ offset, Holds chunk offset (argumentCode args) →
      ∀ x ∈ argumentExpressions args offset, Holds chunk x.1 x.2.code := by
  induction args with
  | nil => exact fun offset _ x hx => nomatch hx
  | cons a rest ih =>
    intro offset h
    have hvalue : Holds chunk (offset + 2) a.2.code := h.left.right
    have hrest : Holds chunk (offset + 2 + codeSize a.2.code) (argumentCode rest) := by
      have hright := h.right
      rwa [codeSize_append, ← Nat.add_assoc] at hright
    exact List.forall_mem_cons.2 ⟨hvalue, ih _ hrest⟩

/-- The code of a statement has the code of its expressions at their places. -/
theorem Grammar.Statement.holds_expressions {chunk : Chunk} (s : Statement) :
    ∀ offset, Holds chunk offset s.code → ∀ x ∈ s.expressions offset, Holds chunk x.1 x.2.code := by
  induction s with
  | skip | change state => exact fun offset _ x hx => nomatch hx
  | evaluate e =>
    intro offset h x hx
    rw [List.mem_singleton.1 hx]
    exact h.left
  | declare name type init =>
    cases init with
    | none => exact fun offset _ x hx => nomatch hx
    | some e =>
      intro offset h x hx
      rw [List.mem_singleton.1 hx]
      exact h.left
  | fire event target args =>
    intro offset h
    cases target with
    | none => exact holds_argumentExpressions args offset h.right.left
    | some t => exact holds_argumentExpressions args (offset + 2) h.right.left
  | seq first rest ihf ihr =>
    exact fun offset h => List.forall_mem_append.2 ⟨ihf _ h.left, ihr _ h.right⟩
  | branch condition whenTrue whenFalse iht ihf =>
    intro offset h
    have hbranch : Holds chunk (offset + codeSize condition.code)
      (([.jumpIfFalse (1 + codeSize whenTrue.code + 3), .pop] ++ whenTrue.code)
        ++ ([.jump (1 + codeSize whenFalse.code), .pop] ++ whenFalse.code)) := h.right
    have htrue := iht (offset + codeSize condition.code + 4) hbranch.left.right
    have hfalse := ihf _ hbranch.right.right
    refine List.forall_mem_cons.2 ⟨h.left, List.forall_mem_append.2 ⟨htrue, ?_⟩⟩
    rw [codeSize_append, ← Nat.add_assoc] at hfalse
    exact hfalse

/-- Operators do not coerce. Whatever expression a handler of a compiled script comes to, and
whatever the context and the bounds are, its operators are applied to values that they take, or the
handler faults at the instruction of the first one that is not. They take values by their types,
and no zero of either sign as a divisor. Comparisons and complements answer truth values. Logical
operators decide by a truth value, and answer it or what their right operand answers. -/
theorem operators_never_coerce {script : Script} (h : script.Compiled) :
    ∃ f, SourceTree f script ∧
    (∀ state event chunk, script.handler? state event = some chunk →
      ∃ handler, f.handler? state event = some handler ∧
        ∀ x ∈ handler.body.expressions 0, ∀ (i : Invocation) (nested : Option (Dispatcher σ))
          (s : Array Value) (c : Context) (r : Run σ), i.chunk = chunk →
          Located i nested x.1 (x.1 + codeSize x.2.code) (fun v c => ⟨s.push v, c⟩) r
            (x.2.applied x.1 c) (i.execute nested x.1 ⟨s, c⟩ r) (x.2.eval c)) ∧
    (∀ a : Application, a.fault? = none ↔ a.Typed ∧ ¬ a.DividesByZero) ∧
    ∀ (e : Expression) c v c', e.eval c = (.ok v, c') → e.Yields c v c' := by
  obtain ⟨f, htree⟩ := exists_sourceTree_iff.2 h
  refine ⟨f, htree, fun state event chunk hchunk => ?_, Application.fault?_eq_none_iff,
    fun e c v c' => Expression.yields_of_eval⟩
  obtain ⟨-, hnone⟩ | ⟨handler, chunk', hhandler, hchunk', hassembled⟩ :=
    htree.represents.handler state event
  · cases hnone.symm.trans hchunk
  · obtain rfl := Option.some.inj (hchunk'.symm.trans hchunk)
    refine ⟨handler, hhandler, fun x hx i nested s c r hi => ?_⟩
    subst hi
    have hholds := handler.body.holds_expressions 0 hassembled.holds.left x hx
    exact x.2.located x.1 _ s c r hholds rfl

/-- A handler that takes a number for a truth value. -/
def laxSource : String := "State idle { OnEvent go { x = true && 5; } }"

/-- What it compiles to. -/
def laxScript : Script := (compile "lax" laxSource).toOption.getD default

/-- The lax source compiles to its script. -/
theorem laxSource_compiles : compile "lax" laxSource = .ok laxScript := by
  have hsome : (compile "lax" laxSource).toOption.isSome = true := by decide +kernel
  exact compile_eq_getD hsome

/-- An entity that has not handled any event. -/
def laxIdle : Context := ⟨⟨0, laxScript⟩, "idle", .empty, none⟩

/-- The operators of the handler take their values, whatever the entity holds, or it faults. -/
theorem operators_never_coerce_lax : laxScript.Compiled ∧ ∃ f handler,
    SourceTree f laxScript ∧ f.handler? "idle" "go" = some handler ∧
    ∃ chunk, laxScript.handler? "idle" "go" = some chunk ∧
      ∀ x ∈ handler.body.expressions 0, ∀ c (r : Run EmptyHost),
        Located ⟨{}, 0, chunk⟩ none x.1 (x.1 + codeSize x.2.code) (fun v c => ⟨#[v], c⟩) r
          (x.2.applied x.1 c) (Invocation.execute ⟨{}, 0, chunk⟩ none x.1 ⟨#[], c⟩ r)
          (x.2.eval c) := by
  have hcompiled : laxScript.Compiled := ⟨"lax", laxSource, laxSource_compiles⟩
  have hsome : (laxScript.handler? "idle" "go").isSome = true := by decide +kernel
  obtain ⟨chunk, hchunk⟩ := Option.isSome_iff_exists.1 hsome
  obtain ⟨f, htree, hhandlers, -⟩ := operators_never_coerce (σ := EmptyHost) hcompiled
  obtain ⟨handler, hhandler, hlocated⟩ := hhandlers "idle" "go" chunk hchunk
  exact ⟨hcompiled, f, handler, htree, hhandler, chunk, hchunk,
    fun x hx c r => hlocated x hx ⟨{}, 0, chunk⟩ none #[] c r rfl⟩

/-- Nothing takes the right operand of a logical operator for a truth value: the handler ends
without a fault, and the value of the operator is a number. -/
theorem right_operand_not_taken : compile "lax" laxSource = .ok laxScript ∧
    let o := (Machine.new {}).dispatch laxIdle "go" .empty EmptyHost.mk
    o.result.toOption = some .handled ∧ (o.context.read "x").type = .number :=
  ⟨laxSource_compiles, by decide +kernel⟩

end EntityScript
