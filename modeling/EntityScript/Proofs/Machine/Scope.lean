import EntityScript.Proofs.Machine.Binding
import EntityScript.Proofs.Machine.Contained
import EntityScript.Proofs.Machine.Custody

/-!
# The scope of arguments

The arguments of an event are bound while its handler runs, and a handler that is run by another on
the same entity binds its own in their place. All of them are variables of one context, which code
may also assign to by name. Still a handler begins with the arguments of its event and no others,
finds them again as it left them behind every event that came back to its context, and leaves what
was bound before it. So it is whatever the code does, and wherever a fault ends a handler.

The other variables of a context are not touched by any of this. While a context is in the hands of
handlers, a variable of it changes only where an instruction assigns to it in a handler that works
on this very context, and none is ever removed.
-/

namespace EntityScript

/-- What an instruction does to the variables of its context: nothing, unless it assigns the topmost
operand to one. -/
theorem Invocation.perform_variables {i : Invocation} {f f' : Frame} {x : Instruction} {flow : Flow}
    (h : i.perform f x = .ok (flow, f')) : f'.context.bindings = f.context.bindings ∨
      ∃ index name v, x = .setVariable index ∧ i.name index = .ok name ∧
        f.stack.back? = some v ∧ f'.context = f.context.set name v := by
  cases x with
  | setVariable index =>
    simp only [perform, bind, Except.bind] at h
    split at h
    · cases h
    · rename_i name hname
      unfold Frame.top at h
      cases hback : f.stack.back? with
      | none =>
        rw [hback] at h
        cases h
      | some v =>
        rw [hback] at h
        cases h
        exact .inr ⟨index, name, v, rfl, hname, rfl, rfl⟩
  | changeState index =>
    simp only [perform, bind, Except.bind] at h
    split at h
    · cases h
    · unfold Context.changeState at h
      split at h <;> cases h
      rename_i heq
      split at heq <;> cases heq
      exact .inl rfl
  | _ =>
    have hsame := (InPlace.quiet_work i (fun _ h => by cases h) fun _ h => by cases h).same
      ((InPlace.outcome_work i f _).trans h)
    exact .inl (congrArg Context.bindings hsame)

section Dispatch

variable {σ : Type} [Host σ]

/-- When an event has been handled, the arguments are bound that were bound before. -/
theorem bound_dispatchWith (limits : Limits) (nested : Option (Dispatcher σ)) (base : ℕ)
    (c : Context) (event : String) (args : Arguments) (r : Run σ) :
    (dispatchWith limits nested base c event args r).context.bound = c.bound := by
  unfold dispatchWith
  split
  · rfl
  · exact Context.bound_restoreArguments _ c

end Dispatch

namespace Moment

variable {σ : Type}

/-- The contexts in the hands of handlers that have not ended, that of the active one first. -/
def held (m : Moment σ) : List Context :=
  m.context :: m.waiting.filterMap fun w => w.kept.map (·.1)

/-- The context that came into hand when so many others were in hand already. -/
def heldAt (m : Moment σ) (k : ℕ) : Option Context := m.held.reverse[k]?

/-- Where the context of the active handler is among those in hand. -/
def height (m : Moment σ) : ℕ := m.held.tail.length

/-- The next instruction of the active handler assigns a value to a variable of its context. -/
def Assigns (m : Moment σ) (name : String) (v : Value) : Prop :=
  ∃ index flow f r, m.Performs (.setVariable index) flow f r ∧
    m.active.invocation.name index = .ok name ∧ m.active.stack.back? = some v

/-- The variables of a context that have no reserved names are those of the active context, up to
one that the next instruction assigns. -/
def Assigned (m : Moment σ) (c : Context) : Prop :=
  ∀ x, Arguments.isReserved x = false →
    c.get? x = m.context.get? x ∨ ∃ v, m.Assigns x v ∧ c.get? x = some v

variable {m m' : Moment σ}

/-- A context with the same variables is assigned to at most by the next instruction. -/
theorem assigned_of_sameApart {c : Context} (h : m.context.SameApart c) : m.Assigned c :=
  fun x hx => .inl (h x hx)

/-- An instruction assigns at most to the one variable that it names. -/
theorem Performs.assigned {x : Instruction} {flow : Flow} {f : Frame} {r : Run σ}
    (h : m.Performs x flow f r) : m.Assigned f.context := by
  intro y _
  obtain hsame | ⟨index, name, v, rfl, hname, hback, hset⟩ :=
    Invocation.perform_variables h.performed
  · exact .inl (congrArg (·.get? y) hsame)
  · rw [hset]
    by_cases hy : y = name
    · rw [hy]
      exact .inr ⟨v, ⟨index, flow, f, r, h, hname, hback⟩, Table.get?_insert_self ..⟩
    · exact .inl (Table.get?_insert_of_ne _ hy v)

variable [Host σ]

/-- What was bound before each handler has been the arguments bound in some context. -/
def Bracketed (m : Moment σ) : Prop :=
  ∀ a ∈ m.activations, ∀ before, a.before = some before → ∃ c : Context, before = c.bound

/-- Releasing arguments leaves all variables without reserved names alone. -/
theorem sameApart_release {a : Activation} (h : ∀ before, a.before = some before →
    ∃ c : Context, before = c.bound) (c : Context) : c.SameApart (a.release c) := by
  unfold Activation.release
  split
  · exact .refl c
  · rename_i before hbefore
    obtain ⟨c₀, rfl⟩ := h before hbefore
    exact c.sameApart_restoreArguments c₀

/-- What one step does to the contexts in hand. -/
inductive Hands (m m' : Moment σ) : Prop
  /-- The active context stays in hand, and so do the others, as they are. -/
  | keeps {c : Context} (held : m'.held = c :: m.held.tail) (assigned : m.Assigned c)
  /-- A handler begins on a context that the host lends. -/
  | takes {c : Context} {id : EntityId} {host : σ} {args : Arguments}
    (taken : Host.take m.run.host id = (some c, host))
    (held : m'.held = c.bindArguments args :: m.held)
  /-- A handler ends, and its context is given back to the host. -/
  | gives {c : Context} {id : EntityId} {host : σ} (held : m'.held = m.held.tail)
    (given : m'.run.host = Host.giveBack host id c) (apart : m.context.SameApart c)

/-- Having an event handled by the active context. -/
theorem hands_reentry {next : ℕ} {f : Frame} {r : Run σ} (event : Event)
    (hsame : f.context = m.context) :
    m.Hands ((m.goOn next f r).call event f.context none) := by
  unfold call
  dsimp only
  split
  · exact .keeps (c := f.context) rfl (hsame ▸ assigned_of_sameApart (.refl _))
  · refine .keeps (c := f.context.bindArguments event.args) rfl ?_
    exact assigned_of_sameApart (hsame ▸ f.context.sameApart_bindArguments event.args)

/-- Having an event handled by a context that the host lends. -/
theorem hands_loan {next : ℕ} {f : Frame} {r : Run σ} {c : Context} {id : EntityId} {host : σ}
    (event : Event) (hsame : f.context = m.context)
    (htaken : Host.take m.run.host id = (some c, host)) :
    m.Hands ((m.goOn next f r).call event c (some (f.context, id))) := by
  unfold call
  dsimp only
  split
  · exact .keeps (c := f.context) rfl (hsame ▸ assigned_of_sameApart (.refl _))
  · apply Hands.takes htaken
    unfold held
    rw [← hsame]
    rfl

/-- The end of a handler, for which another waits. -/
theorem hands_resume {α : Type} {w : Waiting} {below : List Waiting} (result : Except FaultReport α)
    {c : Context} (r : Run σ) (hwaiting : m.waiting = w :: below) (h : m.context.SameApart c) :
    m.Hands (w.resume below result c r) := by
  unfold Waiting.resume
  cases hkept : w.kept with
  | none =>
    refine .keeps (c := c) ?_ (assigned_of_sameApart h)
    unfold held
    rw [hwaiting]
    simp [hkept]
  | some own =>
    refine .gives ?_ rfl h
    unfold held
    rw [hwaiting]
    simp [hkept]

/-- From one moment to the next the context in the hand of the active handler is kept, another is
taken, or it is given back. -/
theorem Next.hands (hbracketed : m.Bracketed) (hnext : m.Next m') : m.Hands m' := by
  obtain honward | ⟨result, c, r, w, below, hact, hwaiting, rfl⟩ := hnext.cases
  · cases honward with
    | forward performs => exact .keeps rfl performs.assigned
    | fired performs _ => exact .keeps rfl performs.assigned
    | reentered sends _ => exact hands_reentry _ sends.performs.context_eq
    | lent sends _ taken =>
      rw [sends.performs.steps] at taken
      exact hands_loan _ sends.performs.context_eq taken
    | dropped sends _ _ _ => exact .keeps rfl sends.performs.assigned
  · apply hands_resume result r hwaiting
    exact sameApart_release (hbracketed m.active List.mem_cons_self) m.context

/-- A call binds arguments where those bound before are known. -/
theorem bracketed_call {event : Event} {c : Context} {kept : Option (Context × EntityId)}
    (h : m.Bracketed) : (m.call event c kept).Bracketed := by
  unfold call
  dsimp only
  split
  · unfold Waiting.resume
    dsimp only
    split <;> exact h
  · intro a ha before hbefore
    obtain rfl | ha := List.mem_cons.1 ha
    · cases hbefore
      exact ⟨c, rfl⟩
    · exact h a ha before hbefore

/-- What was bound before each handler stays known from one moment to the next. -/
theorem Next.bracketed (hnext : m.Next m') (h : m.Bracketed) : m'.Bracketed := by
  have hgoOn (next : ℕ) (f : Frame) (r : Run σ) : (m.goOn next f r).Bracketed := by
    intro a ha before hbefore
    obtain rfl | ha := List.mem_cons.1 ha
    · exact h m.active List.mem_cons_self before hbefore
    · exact h a (List.mem_cons_of_mem _ ha) before hbefore
  obtain honward | ⟨result, c, r, w, below, -, hwaiting, rfl⟩ := hnext.cases
  · cases honward with
    | forward => exact hgoOn _ _ _
    | fired => exact hgoOn _ _ _
    | reentered => exact bracketed_call (hgoOn _ _ _)
    | lent => exact bracketed_call (hgoOn _ _ _)
    | dropped => exact hgoOn _ _ _
  · intro a ha before hbefore
    refine h a (List.mem_cons_of_mem _ ?_) before hbefore
    rw [hwaiting]
    unfold Waiting.resume at ha
    split at ha <;> exact ha

/-- Counted from the last, the first of a list has the highest place. -/
theorem getElem?_reverse_cons {α : Type} (a : α) (l : List α) (k : ℕ) :
    (a :: l).reverse[k]? = if k = l.length then some a else l.reverse[k]? := by
  rw [List.reverse_cons, List.getElem?_append, List.length_reverse]
  by_cases hk : k < l.length
  · rw [if_pos hk, if_neg (Nat.ne_of_lt hk)]
  · rw [if_neg hk]
    by_cases heq : k = l.length
    · simp [heq]
    · have hnone : l.reverse[k]? = none := List.getElem?_eq_none (by simpa using hk)
      rw [if_neg heq, hnone]
      exact List.getElem?_eq_none (by simp; omega)

omit [Host σ] in
/-- At the height of the active handler is its context, and below are those that are kept. -/
theorem heldAt_eq (m : Moment σ) (k : ℕ) :
    m.heldAt k = if k = m.height then some m.context else m.held.tail.reverse[k]? :=
  getElem?_reverse_cons m.context m.held.tail k

/-- From one step to the next, a context in hand changes only where an instruction assigns to a
variable of it, reserved names apart. -/
theorem Hands.get?_eq_or (h : m.Hands m') {k : ℕ} {c c' : Context} (hc : m.heldAt k = some c)
    (hc' : m'.heldAt k = some c') {x : String} (hx : Arguments.isReserved x = false) :
    c'.get? x = c.get? x ∨ ∃ v, m.height = k ∧ m.Assigns x v ∧ c'.get? x = some v := by
  have hold : m.heldAt k = m.held.reverse[k]? := rfl
  have hnew : m'.heldAt k = m'.held.reverse[k]? := rfl
  cases h with
  | @keeps d held assigned =>
    have hnew : m'.heldAt k = if k = m.height then some d else m.held.tail.reverse[k]? := by
      rw [hnew, held]
      exact getElem?_reverse_cons d m.held.tail k
    rw [hnew] at hc'
    rw [heldAt_eq] at hc
    by_cases hk : k = m.height
    · rw [if_pos hk] at hc
      rw [if_pos hk] at hc'
      cases hc
      cases hc'
      obtain hsame | ⟨v, hassigns, hv⟩ := assigned x hx
      · exact .inl hsame
      · exact .inr ⟨v, hk.symm, hassigns, hv⟩
    · rw [if_neg hk] at hc
      rw [if_neg hk] at hc'
      cases hc.symm.trans hc'
      exact .inl rfl
  | takes taken held =>
    rw [held, getElem?_reverse_cons] at hnew
    rw [hnew] at hc'
    rw [hold] at hc
    -- The new context has a place of its own.
    have hk : k < m.held.length := by simpa using (List.getElem?_eq_some_iff.1 hc).1
    rw [if_neg (Nat.ne_of_lt hk), hc] at hc'
    cases hc'
    exact .inl rfl
  | gives held given apart =>
    rw [hnew, held] at hc'
    rw [heldAt_eq] at hc
    have hk : k < m.height := by simpa [height] using (List.getElem?_eq_some_iff.1 hc').1
    rw [if_neg (Nat.ne_of_lt hk), hc'] at hc
    cases hc
    exact .inl rfl

/-- Up to some later moment, the context at some place stays in hand. -/
def KeepsHeld (k : ℕ) (m m' : Moment σ) : Prop :=
  Relation.ReflTransGen (fun l l' => l.Next l' ∧ (l'.heldAt k).isSome) m m'

/-- A place that stays in hand up to a moment is one of the run up to it. -/
theorem KeepsHeld.reaches {k : ℕ} (h : m.KeepsHeld k m') : m.Reaches m' :=
  Relation.ReflTransGen.mono (fun _ _ => And.left) m m' h

omit [Host σ] in
/-- There always is a context in hand at the bottom. -/
theorem isSome_heldAt_zero (m : Moment σ) : (m.heldAt 0).isSome := by
  unfold heldAt held
  rw [List.reverse_cons, List.getElem?_append]
  split <;> simp_all

/-- The context that came into hand first always stays there. -/
theorem keepsHeld_zero (h : m.Reaches m') : m.KeepsHeld 0 m' :=
  Relation.ReflTransGen.mono (fun _ l' hnext => ⟨hnext, l'.isSome_heldAt_zero⟩) m m' h

/-- As long as a context stays in hand, a variable of it keeps its value or has the one that an
instruction assigned last in a handler that worked on this context. -/
theorem KeepsHeld.get?_eq_or (hbracketed : m.Bracketed) {k : ℕ} (h : m.KeepsHeld k m')
    {c c' : Context} (hc : m.heldAt k = some c) (hc' : m'.heldAt k = some c') {x : String}
    (hx : Arguments.isReserved x = false) : c'.get? x = c.get? x ∨ ∃ l v, m.KeepsHeld k l ∧
      l.KeepsHeld k m' ∧ l.height = k ∧ l.Assigns x v ∧ c'.get? x = some v := by
  induction h generalizing c' with
  | refl =>
    cases hc.symm.trans hc'
    exact .inl rfl
  | @tail l l' before next ih =>
    have hsome : (l.heldAt k).isSome := by
      obtain rfl | ⟨_, -, hlast⟩ := Relation.ReflTransGen.cases_tail before
      · rw [hc]
        rfl
      · exact hlast.2
    obtain ⟨d, hd⟩ := Option.isSome_iff_exists.1 hsome
    have hl : l.Bracketed := (KeepsHeld.reaches before).keeps Next.bracketed hbracketed
    obtain hsame | ⟨v, hheight, hassigns, hv⟩ := (next.1.hands hl).get?_eq_or hd hc' hx
    · rw [hsame]
      obtain hsame | ⟨l₀, v, hto, hfrom, hassigned⟩ := ih hd
      · exact .inl hsame
      · exact .inr ⟨l₀, v, hto, hfrom.tail next, hassigned⟩
    · exact .inr ⟨l, v, before, .single next, hheight, hassigns, hv⟩

/-- There is room for one more handler to be active behind the instruction as well. -/
theorem Sends.room {x : Instruction} {event : Event} {target : String} {id : EntityId} {f : Frame}
    {r : Run σ} (h : m.Sends x event target id f r) {next : ℕ} {f' : Frame} {r' : Run σ} :
    0 < (m.goOn next f' r').room := by
  have hshallow := h.shallow
  change 0 < m.limits.dispatchDepth - 1 - m.waiting.length
  omega

/-- What is promised of arguments and variables in a run from some moment on. -/
structure Scoped (start : Moment σ) : Prop where
  /-- A handler that an event begins has the arguments of the event bound and no others. -/
  begins : ∀ m m' x event target id f r, start.Reaches m → m.Sends x event target id f r →
    m.Next m' → m'.waiting.length = m.waiting.length + 1 → m'.context.Binds event.args
  /-- Once an event has been handled that came back to the active context, the handler that fired
  it goes on with its own arguments bound as they were. -/
  returns : ∀ m x event target id f r, start.Reaches m → m.Sends x event target id f r →
    m.context.owner = some id → ∃ c r',
      m.Reaches (m.goOn (m.active.offset + x.size) ⟨f.stack, c⟩ r') ∧ c.bound = m.context.bound
  /-- A context that is lent for an event is given back with the arguments bound as they were. -/
  lends : ∀ m x event target id f r c lent, start.Reaches m → m.Sends x event target id f r →
    m.context.owner ≠ some id → Host.take m.run.host id = (some c, lent) →
    ∃ (c' : Context) (r' : Run σ) (host : σ),
      m.Reaches (m.goOn (m.active.offset + x.size) ⟨f.stack, m.context⟩
        { r' with host := Host.giveBack host id c' }) ∧ c'.bound = c.bound
  /-- One step changes variables without reserved names only by an assignment, in the active
  context, also where it takes a context or gives one back. -/
  hands : ∀ m m', start.Reaches m → m.Next m' → m.Hands m'
  /-- So does a run, in every context for as long as it stays in hand. -/
  unreserved : ∀ m m' k c c', start.Reaches m → m.KeepsHeld k m' → m.heldAt k = some c →
    m'.heldAt k = some c' → ∀ x, Arguments.isReserved x = false →
      c'.get? x = c.get? x ∨ ∃ l v, m.KeepsHeld k l ∧ l.KeepsHeld k m' ∧ l.height = k ∧
        l.Assigns x v ∧ c'.get? x = some v

/-- An event begins a handler at most. -/
theorem binds_call {b : Moment σ} (event : Event) (c : Context) (kept : Option (Context × EntityId))
    (h : (b.call event c kept).waiting.length = b.waiting.length + 1) :
    (b.call event c kept).context.Binds event.args := by
  unfold call at h ⊢
  dsimp only at h ⊢
  split at h
  · unfold Waiting.resume at h
    split at h <;> exact absurd h (Nat.ne_of_lt (Nat.lt_succ_self _))
  · exact c.binds_bindArguments event.args

/-- The handler of an event for an entity begins with the arguments of the event bound. -/
theorem Sends.binds {x : Instruction} {event : Event} {target : String} {id : EntityId} {f : Frame}
    {r : Run σ} (h : m.Sends x event target id f r) (hnext : m.Next m')
    (hlength : m'.waiting.length = m.waiting.length + 1) : m'.context.Binds event.args := by
  have hact := h.act_eq
  rw [Next, step] at hnext
  dsimp only at hact
  by_cases hown : m.context.owner = some id
  · rw [if_pos hown] at hact
    rw [hact] at hnext
    cases hnext
    exact binds_call event m.context none hlength
  · rw [if_neg hown] at hact
    generalize Host.take m.run.host id = taken at hact
    obtain ⟨_ | c, host⟩ := taken
    · dsimp only at hact
      -- Nobody is there to handle the event, and so no handler begins.
      split at hact
      · rw [hact] at hnext
        dsimp only at hnext
        cases hwaiting : m.waiting with
        | nil =>
          rw [hwaiting] at hnext
          cases hnext
        | cons w below =>
          rw [hwaiting] at hnext hlength
          cases hnext
          have hshort : below.length = below.length + 1 + 1 := by
            unfold Waiting.resume at hlength
            split at hlength <;> exact hlength
          omega
      · rw [hact] at hnext
        cases hnext
        exact absurd hlength (Nat.ne_of_lt (Nat.lt_succ_self _))
    · rw [hact] at hnext
      cases hnext
      exact binds_call event c (some (m.context, id)) hlength

/-- Once an event for the entity of the active context has been handled, what was bound is bound
again. -/
theorem Sends.returns {x : Instruction} {event : Event} {target : String} {id : EntityId}
    {f : Frame} {r : Run σ} (h : m.Sends x event target id f r) (hown : m.context.owner = some id) :
    ∃ c r', m.Reaches (m.goOn (m.active.offset + x.size) ⟨f.stack, c⟩ r') ∧
      c.bound = m.context.bound := by
  have hact := h.act_eq
  dsimp only at hact
  rw [if_pos hown] at hact
  let before := m.goOn (m.active.offset + x.size) ⟨f.stack, m.context⟩ m.counted
  let e := before.handling event m.context
  exact ⟨e.context, e.run.note e.result, (reaches_of_act hact).trans
    (reaches_handling (m := before) h.room event m.context none), bound_dispatchWith ..⟩

/-- Once an event for another entity has been handled, its context is given back with what was bound
bound again. -/
theorem Sends.lends {x : Instruction} {event : Event} {target : String} {id : EntityId}
    {f : Frame} {r : Run σ} (h : m.Sends x event target id f r) (hown : m.context.owner ≠ some id)
    {c : Context} {lent : σ} (htaken : Host.take m.run.host id = (some c, lent)) :
    ∃ (c' : Context) (r' : Run σ) (host : σ),
      m.Reaches (m.goOn (m.active.offset + x.size) ⟨f.stack, m.context⟩
        { r' with host := Host.giveBack host id c' }) ∧ c'.bound = c.bound := by
  have hact := h.act_eq
  dsimp only at hact
  rw [if_neg hown, htaken] at hact
  let before := m.goOn (m.active.offset + x.size) ⟨f.stack, m.context⟩
    { m.counted with host := lent }
  let e := before.handling event c
  exact ⟨e.context, e.run.note e.result, (e.run.note e.result).host,
    (reaches_of_act hact).trans
      (reaches_handling (m := before) h.room event c (some (m.context, id))),
    bound_dispatchWith ..⟩

/-- Arguments and variables are scoped in every run whose handlers are bracketed. -/
theorem scoped_of_bracketed {start : Moment σ} (h : start.Bracketed) : start.Scoped where
  begins _ _ _ _ _ _ _ _ _ hsends hnext hlength := hsends.binds hnext hlength
  returns _ _ _ _ _ _ _ _ hsends hown := hsends.returns hown
  lends _ _ _ _ _ _ _ _ _ _ hsends hown htaken := hsends.lends hown htaken
  hands _ _ hreaches hnext := hnext.hands (hreaches.keeps Next.bracketed h)
  unreserved _ _ _ _ _ hreaches hkeeps hc hc' _ hx :=
    hkeeps.get?_eq_or (hreaches.keeps Next.bracketed h) hc hc' hx

/-- What is left of the context of an outermost handler. -/
theorem Ends.get?_eq_or (hbracketed : m.Bracketed) {e : Ended σ Unit} (hends : m.Ends e)
    (hwaiting : m.waiting = []) {x : String} (hx : Arguments.isReserved x = false) :
    e.context.get? x = m.context.get? x ∨ ∃ l v, m.Reaches l ∧ l.height = 0 ∧ l.Assigns x v ∧
      e.context.get? x = some v := by
  obtain ⟨m', hreaches, hstep⟩ := hends
  have hfirst {l : Moment σ} (hl : l.waiting = []) : l.heldAt 0 = some l.context := by
    rw [heldAt_eq, if_pos]
    unfold height held
    rw [hl]
    rfl
  unfold step at hstep
  split at hstep
  · cases hstep
  · cases hstep
  · rename_i result c r hact
    split at hstep
    · rename_i hlast
      cases hstep
      obtain rfl := (leaves_of_act hact).context
      have hbracketed' : m'.Bracketed := hreaches.keeps Next.bracketed hbracketed
      have hreleased := sameApart_release (hbracketed' m'.active List.mem_cons_self) m'.context x hx
      dsimp only
      rw [hreleased]
      obtain hsame | ⟨l, v, hkeeps, -, hheight, hassigns, hv⟩ :=
        (keepsHeld_zero hreaches).get?_eq_or hbracketed (hfirst hwaiting) (hfirst hlast) hx
      · exact .inl hsame
      · exact .inr ⟨l, v, hkeeps.reaches, hheight, hassigns, hv⟩
    · cases hstep

end Moment

/-- Arguments are scoped to their handler, and no other variable is touched by them. When an event
has been handled, whatever became of its handler, the arguments are bound that were bound before.
The handler began with those of its event and no others, and so does every handler that is run
meanwhile. All other variables are as before, unless an instruction assigned to them in a handler
that worked on this context, the first in hand. -/
theorem arguments_scoped {σ : Type} [Host σ] (m : Machine) (c : Context) (event : String)
    (args : Arguments) (host : σ) :
    let o := m.dispatch c event args host
    o.context.bound = c.bound ∧
    match Moment.ofEvent? m c event args host with
    | none => o.context = c
    | some start => start.context.Binds args ∧ start.Scoped ∧
        ∀ x, Arguments.isReserved x = false → o.context.get? x = c.get? x ∨ ∃ l v,
          start.Reaches l ∧ l.height = 0 ∧ l.Assigns x v ∧ o.context.get? x = some v := by
  dsimp only
  refine ⟨bound_dispatchWith .., ?_⟩
  split
  · rename_i hnone
    rw [m.dispatch_of_no_handler args host (Option.map_eq_none_iff.1 hnone)]
  · rename_i start hstart
    obtain ⟨e, hends, hdispatch⟩ := m.exists_ends_event hstart
    rw [hdispatch]
    obtain ⟨chunk, -, rfl⟩ := Option.map_eq_some_iff.1 hstart
    let start : Moment σ := ⟨.start ⟨m.limits, 0, chunk⟩ (some c.bound), c.bindArguments args, [],
      m.begin host⟩
    have hbracketed : start.Bracketed := by
      intro a ha before hbefore
      obtain rfl := List.mem_singleton.1 ha
      cases hbefore
      exact ⟨c, rfl⟩
    refine ⟨c.binds_bindArguments args, Moment.scoped_of_bracketed hbracketed, fun x hx => ?_⟩
    have hbound : start.context.get? x = c.get? x := c.sameApart_bindArguments args x hx
    rw [← hbound]
    exact hends.get?_eq_or hbracketed rfl hx

/-- An entity that is already handling an event, with an argument bound. When it is hit it heals
itself, and healing assigns to a variable with the name of an argument. -/
def patient : Context where
  definition := ⟨0, {
    name := "patient"
    path := "patient"
    states := ["idle"]
    handlers := .ofList [("idle", .ofList [
      ("heal", ⟨"idle.heal", #[0x01, 0x00, 0x31, 0x01], #[.bool true, .string "args.by"], #[]⟩),
      ("hit", ⟨"idle.hit", #[0x01, 0x00, 0x40, 0x01, 0x01, 0x00],
        #[.string "patient", .string "heal"], #[]⟩)])]
    declared := .empty }⟩
  state := "idle"
  bindings := .ofList [("args.by", .string "rain"), ("hurt", .bool false)]
  owner := some 1

/-- A world in which the patient is lent out. -/
def ward : World := ⟨.ofList [("patient", 1)], .empty, .ofList [(1, ())], #[], 1⟩

/-- The patient heals itself while hit, and what was bound and assigned is as scopes have it. -/
theorem arguments_scoped_patient :
    let o := (Machine.new {}).dispatch patient "hit" (.ofList [("by", .string "orc")]) ward
    o.result = .ok .handled ∧ o.machine.faults = #[] ∧ o.context.bound = patient.bound ∧
      patient.bound.get? "args.by" = some (.string "rain") := by
  refine ⟨by decide +kernel, by decide +kernel, ?_, by decide +kernel⟩
  exact (arguments_scoped (Machine.new {}) patient "hit" (.ofList [("by", .string "orc")]) ward).1

end EntityScript
