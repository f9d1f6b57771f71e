import EntityScript.Proofs.Machine.Lived

/-!
# Scenes

What goes on in a world: entities are added, with scripts that the host has at hand or without,
events are dispatched and queued, code is run, variables are assigned, states are entered, and
entities are moved to other scripts, in any order.

What one act may do to the contexts of a world is said by `Scene.turns_after`. Whatever the handlers
do, the same entities have contexts afterwards, with the scripts that they had; only a new entity,
or one that is moved, has a script that it did not have before.
-/

namespace EntityScript

/-- A world some time later: the same entities have contexts, and none was moved to another
script. -/
structure World.Descends (w w' : World) : Prop where
  contexts : ∀ id, Option.Rel Context.Descends (w.contexts.get? id) (w'.contexts.get? id)
  population : w'.population = w.population

namespace World

variable {w w' w'' : World}

/-- A world descends from itself. -/
theorem Descends.refl (w : World) : w.Descends w := by
  refine ⟨fun id => ?_, rfl⟩
  cases w.contexts.get? id with
  | none => exact .none
  | some c => exact .some (.refl c)

/-- Descent of worlds is by steps. -/
theorem Descends.trans (h : w.Descends w') (h' : w'.Descends w'') : w.Descends w'' := by
  refine ⟨fun id => ?_, h'.population.trans h.population⟩
  have hid := h.contexts id
  have hid' := h'.contexts id
  generalize w.contexts.get? id = c at hid
  generalize w'.contexts.get? id = c' at hid hid'
  generalize w''.contexts.get? id = c'' at hid'
  cases hid with
  | none =>
    cases hid' with
    | none => exact .none
  | some hc =>
    cases hid' with
    | some hc' => exact .some (hc.trans hc')

/-- Every context of a later world descends from one of the world before. -/
theorem Descends.exists_before (h : w.Descends w') {id : EntityId} {c' : Context}
    (hc' : w'.contexts.get? id = some c') :
    ∃ c, w.contexts.get? id = some c ∧ c.Descends c' := by
  have hid := h.contexts id
  rw [hc'] at hid
  generalize w.contexts.get? id = before at hid
  cases hid with
  | some hdescends => exact ⟨_, rfl, hdescends⟩

/-- Every context of a world has one that descends from it later. -/
theorem Descends.exists_after (h : w.Descends w') {id : EntityId} {c : Context}
    (hc : w.contexts.get? id = some c) :
    ∃ c', w'.contexts.get? id = some c' ∧ c.Descends c' := by
  have hid := h.contexts id
  rw [hc] at hid
  generalize w'.contexts.get? id = later at hid
  cases hid with
  | some hdescends => exact ⟨_, rfl, hdescends⟩

/-- Runs of handlers move no entity to another script, and none comes or goes. -/
theorem carrying_descends : Carrying Context.Descends World.Descends where
  refl := .refl
  trans := .trans
  worked := .of_worked
  rebound _ _ := ⟨⟨rfl, rfl⟩, id⟩
  host_refl := .refl
  host_trans := .trans
  fired w _ _ := ⟨(Descends.refl w).contexts, rfl⟩
  refused htaken := (Lender.away_of_refused htaken).2 ▸ .refl _
  loaned {w lent w' id c c'} htaken hlent hc := by
    have hhere : w.contexts.get? id = some c := Lender.here_of_taken htaken
    rw [World.take_of_get? hhere] at htaken
    cases htaken
    refine ⟨fun id' => ?_, hlent.population⟩
    change Option.Rel _ _ ((w'.contexts.insert id c').get? id')
    by_cases heq : id' = id
    · rw [heq, hhere, Table.get?_insert_self]
      exact .some hc
    · rw [Table.get?_insert_of_ne _ heq]
      have hothers := hlent.contexts id'
      rwa [Table.get?_erase_of_ne _ heq] at hothers

end World

/-- What goes on without a library. -/
structure Scene where
  machine : Machine
  world : World
  /-- The events that wait. -/
  queue : EventQueue
  /-- What came of all events and code so far. -/
  answers : List (Except FaultReport DispatchOutcome)

/-- What a host does that needs no library. Scripts are those that it has at hand. -/
inductive Scene.Act where
  | configure (limits : Limits)
  /-- Adds an entity without a script. -/
  | add (name : String)
  /-- Adds an entity with a script, if the script has the state. -/
  | spawn (name : String) (definition : Edition) (state : String) (owned : Bool)
  | assign (id : EntityId) (name : String) (v : Value)
  | enter (id : EntityId) (state : String)
  | rebindTo (id : EntityId) (definition : Edition)
  | dispatch (id : EntityId) (event : String) (args : Arguments)
  | execute (id : EntityId) (chunk : Chunk)
  | push (id : EntityId) (event : String) (args : Arguments)
  | drain
  /-- Forgets the events fired for everyone, and the faults of nested handlers. -/
  | collect

namespace Scene

/-- The script that an act brings to an entity. -/
def Act.brings? : Act → Option Edition
  | spawn _ definition _ _ | rebindTo _ definition => some definition
  | _ => none

/-- The entity that an act moves to another script. -/
def Act.moves? : Act → Option EntityId
  | rebindTo id _ => some id
  | _ => none

/-- The scene at the beginning. -/
def start (limits : Limits) : Scene := ⟨.new limits, .empty, .empty, []⟩

/-- Works on the context of an entity, if it has one. -/
def work (s : Scene) (id : EntityId) (f : Context → Context) : Scene :=
  { s with world := (s.world.borrow id fun c w => ((), f c, w)).2 }

/-- Runs something on the context of an entity, if it has one. -/
def running {α : Type} (s : Scene) (id : EntityId) (answer : α → DispatchOutcome)
    (run : Machine → Context → World → Outcome World α) : Scene :=
  match s.world.borrow id fun c w =>
    let o := run s.machine c w
    ((o.machine, o.result), o.context, o.host) with
  | (none, world) => { s with world }
  | (some (machine, result), world) =>
    { s with machine, world, answers := s.answers ++ [result.map answer] }

/-- The scene after an act. -/
def after (s : Scene) : Act → Scene
  | .configure limits => { s with machine := .new limits }
  | .add name => { s with world := (s.world.spawn name).2 }
  | .spawn name definition state owned =>
    match Context.new definition state with
    | .error _ => s
    | .ok c => { s with
        world := (s.world.spawnWith name fun id => if owned then c.withOwner id else c).2 }
  | .assign id name v => s.work id (·.set name v)
  | .enter id state => s.work id fun c => (c.changeState state).toOption.getD c
  | .rebindTo id definition => s.work id fun c => (c.rebind definition).2
  | .dispatch id event args => s.running id (fun o => o) fun m c w => m.dispatch c event args w
  | .execute id chunk => s.running id (fun _ => .handled) fun m c w => m.runChunk chunk c w
  | .push id event args => { s with queue := s.queue.push id event args }
  | .drain =>
    let (d, queue) := s.queue.drain s.machine s.world
    { machine := d.machine
      world := d.host
      queue
      answers := s.answers ++ d.faults.toList.map .error }
  | .collect => { s with machine := s.machine.takeFaults.2, world := s.world.takeFired.2 }

variable {s : Scene} {id id' : EntityId} {c c' : Context}

/-- The context of an entity. -/
def context? (s : Scene) (id : EntityId) : Option Context := s.world.contexts.get? id

/-- Borrowing a context works on it and puts it back. -/
theorem borrow_of_some {α : Type} {w : World} (h : w.contexts.get? id = some c)
    (work : Context → World → α × Context × World) : w.borrow id work =
      let lent := { w with contexts := w.contexts.erase id, lent := w.lent.insert id () }
      (some (work c lent).1, (work c lent).2.2.giveBack id (work c lent).2.1) := by
  unfold World.borrow World.take
  rw [h]

/-- Without a context there is nothing to work on. -/
theorem borrow_of_none {α : Type} {w : World} (h : w.contexts.get? id = none)
    (work : Context → World → α × Context × World) : w.borrow id work = (none, w) := by
  unfold World.borrow World.take
  rw [h]

/-- Working on the context of one entity leaves the others alone. -/
theorem context?_work (s : Scene) (id : EntityId) (f : Context → Context) (id' : EntityId) :
    (s.work id f).context? id' = if id' = id then (s.context? id).map f else s.context? id' := by
  unfold work context?
  cases h : s.world.contexts.get? id with
  | none =>
    rw [borrow_of_none h]
    split
    · rename_i heq
      rw [heq, h]
      rfl
    · rfl
  | some c =>
    rw [borrow_of_some h]
    change ((s.world.contexts.erase id).insert id (f c)).get? id' = _
    split
    · rename_i heq
      rw [heq, Table.get?_insert_self]
      rfl
    · rename_i hne
      rw [Table.get?_insert_of_ne _ hne, Table.get?_erase_of_ne _ hne]

/-- Working on a context leaves the number of entities alone. -/
theorem population_work (s : Scene) (id : EntityId) (f : Context → Context) :
    (s.work id f).world.population = s.world.population := by
  unfold work
  cases h : s.world.contexts.get? id with
  | none => rw [borrow_of_none h]
  | some c =>
    rw [borrow_of_some h]
    rfl

/-- Work that moves no entity to another script. -/
theorem descends_work {f : Context → Context} (h : ∀ c : Context, c.Descends (f c)) (s : Scene)
    (id : EntityId) : s.world.Descends (s.work id f).world := by
  refine ⟨fun id' => ?_, population_work s id f⟩
  change Option.Rel _ (s.context? id') ((s.work id f).context? id')
  rw [context?_work]
  split
  · rename_i heq
    rw [heq]
    cases s.context? id with
    | none => exact .none
    | some c => exact .some (h c)
  · exact (World.Descends.refl s.world).contexts id'

/-- What is run on a context of a scene leaves a world that descends from the one before. -/
theorem descends_running {α : Type} (answer : α → DispatchOutcome)
    {run : Machine → Context → World → Outcome World α}
    (hrun : ∀ m c w, Context.Descends c (run m c w).context ∧ World.Descends w (run m c w).host)
    (s : Scene) (id : EntityId) : s.world.Descends (s.running id answer run).world := by
  unfold running
  cases h : s.world.contexts.get? id with
  | none =>
    rw [borrow_of_none h]
    exact .refl _
  | some c =>
    rw [borrow_of_some h]
    obtain ⟨hcontext, hhost⟩ := hrun s.machine c
      { s.world with contexts := s.world.contexts.erase id, lent := s.world.lent.insert id () }
    exact World.carrying_descends.loaned (World.take_of_get? h) hhost hcontext

/-- What an act may do to the world. -/
inductive Act.Turns (w : World) : Act → World → Prop
  /-- No entity is moved to another script, and none comes or goes. -/
  | same {a : Act} {w' : World} (h : w.Descends w') : Turns w a w'
  /-- There is one more entity, without a script. -/
  | named {a : Act} {w' : World} (contexts : w'.contexts = w.contexts)
    (population : w'.population = w.population + 1) : Turns w a w'
  /-- There is one more entity, with a script that came with the act. -/
  | joined {a : Act} {w' : World} {c : Context} (brought : a.brings? = some c.definition)
    (rooted : c.Rooted) (contexts : w'.contexts = w.contexts.insert (w.population + 1) c)
    (population : w'.population = w.population + 1) : Turns w a w'
  /-- One entity is moved to another script. -/
  | moved {id : EntityId} {definition : Edition} {w' : World}
    (contexts : ∀ id', w'.contexts.get? id' = if id' = id then
      (w.contexts.get? id).map fun c => (c.rebind definition).2 else w.contexts.get? id')
    (population : w'.population = w.population) : Turns w (.rebindTo id definition) w'

/-- An act does to the world what it may do. -/
theorem turns_after (s : Scene) (a : Act) : a.Turns s.world (s.after a).world := by
  cases a with
  | configure limits => exact .same (.refl _)
  | add name => exact .named rfl rfl
  | spawn name definition state owned =>
    unfold after
    dsimp only
    split
    · exact .same (.refl _)
    · rename_i c hnew
      obtain ⟨rfl, hrooted⟩ := Context.rooted_new hnew
      cases owned with
      | true => exact .joined (c := c.withOwner (s.world.population + 1)) rfl hrooted rfl rfl
      | false => exact .joined rfl hrooted rfl rfl
  | assign id name v => exact .same (descends_work (fun c => .set c name v) s id)
  | enter id state =>
    refine .same (descends_work (fun c => ?_) s id)
    cases hentered : c.changeState state with
    | error fault => exact .refl c
    | ok c' => exact .changeState hentered
  | rebindTo id definition => exact .moved (context?_work s id _) (population_work s id _)
  | dispatch id event args =>
    exact .same (descends_running _ (fun m c w =>
      World.carrying_descends.machine_dispatch m c event args w) s id)
  | execute id chunk =>
    exact .same (descends_running _ (fun m c w =>
      World.carrying_descends.machine_runChunk m chunk c w) s id)
  | push id event args => exact .same (.refl _)
  | drain => exact .same (World.carrying_descends.drain s.queue s.machine s.world)
  | collect => exact .same ⟨(World.Descends.refl s.world).contexts, rfl⟩

namespace Act.Turns

variable {a : Act} {w w' : World}

/-- A context comes from one that the entity had before, or runs a script that came with the act. -/
theorem context_cases (h : a.Turns w w') {id : EntityId} {c' : Context}
    (hc' : w'.contexts.get? id = some c') :
    (∃ c, w.contexts.get? id = some c ∧ c.Descends c') ∨
      a.brings? = some c'.definition ∧ c'.Rooted := by
  cases h with
  | same h => exact .inl (h.exists_before hc')
  | named contexts _ => exact .inl ⟨c', contexts ▸ hc', .refl c'⟩
  | @joined a w' c brought rooted contexts _ =>
    rw [contexts] at hc'
    by_cases heq : id = w.population + 1
    · rw [heq, Table.get?_insert_self] at hc'
      cases hc'
      exact .inr ⟨brought, rooted⟩
    · rw [Table.get?_insert_of_ne _ heq] at hc'
      exact .inl ⟨c', hc', .refl c'⟩
  | @moved id' definition w' contexts _ =>
    rw [contexts] at hc'
    split at hc'
    · obtain ⟨c, -, rfl⟩ := Option.map_eq_some_iff.1 hc'
      obtain ⟨hdefinition, hrooted⟩ := c.rooted_rebind definition
      exact .inr ⟨congrArg some hdefinition.symm, hrooted⟩
    · exact .inl ⟨c', hc', .refl c'⟩

end Act.Turns

/-- Every entity with a context was counted. -/
def Populated (w : World) : Prop :=
  ∀ id c, w.contexts.get? id = some c → id ≤ w.population

namespace Act.Turns

variable {a : Act} {w w' : World}

/-- An entity that is not moved keeps what is left of its context. -/
theorem exists_context (h : a.Turns w w') (hw : Populated w) {id : EntityId} {c : Context}
    (hc : w.contexts.get? id = some c) (hstays : a.moves? ≠ some id) :
    ∃ c', w'.contexts.get? id = some c' ∧ c.Descends c' := by
  cases h with
  | same h => exact h.exists_after hc
  | named contexts _ => exact ⟨c, contexts ▸ hc, .refl c⟩
  | joined _ _ contexts _ =>
    have hle := hw id c hc
    refine ⟨c, ?_, .refl c⟩
    rw [contexts, Table.get?_insert_of_ne _ (Nat.ne_of_lt (Nat.lt_succ_of_le hle))]
    exact hc
  | @moved id' definition w' contexts _ =>
    refine ⟨c, ?_, .refl c⟩
    rw [contexts, if_neg fun heq => hstays (congrArg some heq.symm)]
    exact hc

/-- Every act leaves entities with contexts counted. -/
theorem populated (h : a.Turns w w') (hw : Populated w) : Populated w' := by
  intro id c' hc'
  cases h with
  | same h =>
    obtain ⟨c, hc, -⟩ := h.exists_before hc'
    exact h.population ▸ hw id c hc
  | named contexts population =>
    rw [contexts] at hc'
    rw [population]
    exact Nat.le_succ_of_le (hw id c' hc')
  | joined _ _ contexts population =>
    rw [contexts] at hc'
    rw [population]
    by_cases heq : id = w.population + 1
    · exact Nat.le_of_eq heq
    · rw [Table.get?_insert_of_ne _ heq] at hc'
      exact Nat.le_succ_of_le (hw id c' hc')
  | @moved id' definition w' contexts population =>
    rw [contexts] at hc'
    rw [population]
    split at hc'
    · rename_i heq
      obtain ⟨c, hc, -⟩ := Option.map_eq_some_iff.1 hc'
      exact heq ▸ hw id' c hc
    · exact hw id c' hc'

end Act.Turns

end Scene

end EntityScript
