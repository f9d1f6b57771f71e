import EntityScript.Library
import EntityScript.Proofs.Bytecode.Compiled
import EntityScript.Proofs.Machine.Carried
import EntityScript.Proofs.Machine.Lending

/-!
# The states of contexts

A context begins in a state of its script, and whatever becomes of it later, it is in a state of
the script that it runs by then, provided that this script has a state at all. Nothing that a
handler does can break that, however deeply events are nested, and neither can another script, to
which a context moves: a state that the new script does not have gives way to its first one.

Compiled scripts have states. Baked ones need not: `stateless` is what five zero bytes are read as,
and a context that moves to it is in a state that does not exist.
-/

namespace EntityScript

/-- The state of a context is one of its script, or the one that the script begins in. -/
def Context.Rooted (c : Context) : Prop :=
  c.definition.script.hasState c.state = true ∨ c.state = c.definition.script.initialState

/-- What may become of a context that is not moved to another script. -/
structure Context.Descends (c c' : Context) : Prop extends Context.Continues c c' where
  rooted : c.Rooted → c'.Rooted

namespace Context

variable {c c' c'' : Context}

/-- The state that a script begins in is one of its states, if there are any. -/
theorem Rooted.hasState (h : c.Rooted) (hstates : c.definition.script.states ≠ []) :
    c.definition.script.hasState c.state = true := by
  obtain hknown | hinitial := h
  · exact hknown
  · rw [hinitial]
    change c.definition.script.states.contains (c.definition.script.states.head?.getD "") = true
    cases hlist : c.definition.script.states with
    | nil => exact absurd hlist hstates
    | cons state states => exact List.elem_cons_self

namespace Descends

/-- A context descends from itself. -/
theorem refl (c : Context) : c.Descends c := ⟨.refl c, id⟩

/-- Descent is by steps. -/
theorem trans (h : c.Descends c') (h' : c'.Descends c'') : c.Descends c'' :=
  ⟨h.toContinues.trans h'.toContinues, fun hc => h'.rooted (h.rooted hc)⟩

/-- What an instruction makes of a context descends from it. -/
theorem of_worked (h : c.Worked c') : c.Descends c' := by
  refine ⟨.of_worked h, fun hc => ?_⟩
  cases h with
  | same => exact hc
  | assigned name v => exact hc
  | changed known => exact .inl known

/-- A context with a variable that was set descends from the one before. -/
theorem set (c : Context) (name : String) (v : Value) : c.Descends (c.set name v) :=
  ⟨⟨rfl, rfl⟩, id⟩

/-- A context that has changed its state descends from the one before. -/
theorem changeState {state : String} (h : c.changeState state = .ok c') : c.Descends c' := by
  unfold Context.changeState at h
  split at h
  · rename_i hknown
    cases h
    exact ⟨⟨rfl, rfl⟩, fun _ => .inl hknown⟩
  · cases h

end Descends

/-- A new context runs its definition in a state of its script. -/
theorem rooted_new {definition : Edition} {state : String}
    (h : Context.new definition state = .ok c) : c.definition = definition ∧ c.Rooted := by
  unfold Context.new at h
  split at h
  · rename_i hknown
    cases h
    exact ⟨rfl, .inl hknown⟩
  · cases h

/-- A context that was moved to another script is in a state of it, or in the one it begins in. -/
theorem rooted_rebind (c : Context) (definition : Edition) :
    (c.rebind definition).2.definition = definition ∧ (c.rebind definition).2.Rooted := by
  unfold Context.rebind
  split
  · rename_i hknown
    exact ⟨rfl, .inl hknown⟩
  · exact ⟨rfl, .inr rfl⟩

end Context

/-- Handlers move no context to another script, whatever the host does. -/
theorem carrying_of_any_host {σ : Type} [Host σ] :
    Carrying Context.Descends fun (_ _ : σ) => True where
  refl := .refl
  trans h h' := h.trans h'
  worked := .of_worked
  rebound _ _ := ⟨⟨rfl, rfl⟩, id⟩
  host_refl _ := trivial
  host_trans _ _ := trivial
  fired _ _ _ := trivial
  refused _ := trivial
  loaned _ _ _ := trivial

namespace Library

variable {l : Library} {c : Context}

/-- Nothing is rebound when the library keeps nothing for the path. -/
theorem rebind_of_none (h : l.get? c.definition.script.path = none) :
    l.rebind c = (false, c) := by
  unfold get? at h
  unfold rebind
  rw [h]

/-- A context is moved to the script that the library keeps, unless it runs that one. -/
theorem rebind_of_some {edition : Edition} (h : l.get? c.definition.script.path = some edition) :
    l.rebind c = if edition.serial = c.definition.serial then (true, c)
      else (true, (c.rebind edition).2) := by
  unfold get? at h
  unfold rebind
  rw [h]

/-- A context stays as it is, or moves to a script that is kept. -/
theorem rebind_cases (l : Library) (c : Context) : (l.rebind c).2 = c ∨
    ∃ path edition, l.get? path = some edition ∧ (l.rebind c).2 = (c.rebind edition).2 := by
  cases hget : l.get? c.definition.script.path with
  | none =>
    rw [rebind_of_none hget]
    exact .inl rfl
  | some edition =>
    rw [rebind_of_some hget]
    split
    · exact .inl rfl
    · exact .inr ⟨_, edition, hget, rfl⟩

end Library

/-- A script that was compiled or unbaked, by itself or by a library. -/
inductive Script.Made : Script → Prop
  | compiled {s : Script} (compiled : s.Compiled) : Made s
  | unbaked {bytes : List UInt8} {s : Script} (h : Script.unbake bytes = .ok s) : Made s
  | built {files : Files} {path : String} {origin : Origin} {s : Script}
    (h : origin.build files path = .ok s) : Made s

/-- A context that began in a state of its script and went through all that can become of a context,
in any order, with scripts of some kind. -/
inductive Context.Lived (kind : Script → Prop) : Context → Prop
  | new {definition : Edition} {state : String} {c : Context} (made : kind definition.script)
    (h : Context.new definition state = .ok c) : Lived kind c
  | withOwner {c : Context} (before : Lived kind c) (owner : EntityId) :
    Lived kind (c.withOwner owner)
  | set {c : Context} (before : Lived kind c) (name : String) (v : Value) :
    Lived kind (c.set name v)
  | changeState {c c' : Context} {state : String} (before : Lived kind c)
    (h : c.changeState state = .ok c') : Lived kind c'
  /-- An event from outside. -/
  | dispatch {σ : Type} [Host σ] {c : Context} (before : Lived kind c) (m : Machine)
    (event : String) (args : Arguments) (host : σ) :
    Lived kind (m.dispatch c event args host).context
  /-- An event that was fired by some handler. -/
  | nested {σ : Type} [Host σ] {c : Context} (before : Lived kind c) (limits : Limits)
    (depth base : ℕ) (event : String) (args : Arguments) (r : Run σ) :
    Lived kind (dispatchWith limits (nestedDispatcher limits depth) base c event args r).context
  | runChunk {σ : Type} [Host σ] {c : Context} (before : Lived kind c) (m : Machine)
    (chunk : Chunk) (host : σ) : Lived kind (m.runChunk chunk c host).context
  | rebind {c : Context} (before : Lived kind c) {definition : Edition}
    (made : kind definition.script) : Lived kind (c.rebind definition).2
  | rebindFrom {c : Context} (before : Lived kind c) {l : Library}
    (made : ∀ path definition, l.get? path = some definition → kind definition.script) :
    Lived kind (l.rebind c).2

namespace Context.Lived

variable {kind : Script → Prop} {c : Context}

/-- The script of a context is of the kind of scripts that it moved to, and its state is one of
them or the one that the script begins in. -/
theorem sound (h : c.Lived kind) : kind c.definition.script ∧ c.Rooted := by
  have hdescends {c c' : Context} (h : c.Descends c')
      (hc : kind c.definition.script ∧ c.Rooted) : kind c'.definition.script ∧ c'.Rooted :=
    ⟨h.definition ▸ hc.1, h.rooted hc.2⟩
  have hrebind (c : Context) (definition : Edition) (made : kind definition.script) :
      kind (c.rebind definition).2.definition.script ∧ (c.rebind definition).2.Rooted := by
    obtain ⟨hdefinition, hrooted⟩ := c.rooted_rebind definition
    refine ⟨?_, hrooted⟩
    rw [hdefinition]
    exact made
  induction h with
  | new made h =>
    obtain ⟨hdefinition, hrooted⟩ := rooted_new h
    exact ⟨hdefinition ▸ made, hrooted⟩
  | withOwner _ _ ih => exact ih
  | set _ name v ih => exact hdescends (.set _ name v) ih
  | changeState _ h ih => exact hdescends (.changeState h) ih
  | dispatch _ m event args host ih =>
    exact hdescends (carrying_of_any_host.machine_dispatch m _ event args host).1 ih
  | nested _ limits depth base event args r ih =>
    exact hdescends (carrying_of_any_host.dispatchWith limits
      (carrying_of_any_host.nestedDispatcher limits depth) base _ event args r).1 ih
  | runChunk _ m chunk host ih =>
    exact hdescends (carrying_of_any_host.machine_runChunk m chunk _ host).1 ih
  | @rebind c _ definition made _ => exact hrebind c definition made
  | @rebindFrom c _ l made ih =>
    obtain hsame | ⟨path, definition, hget, hmoved⟩ := l.rebind_cases c
    · rw [hsame]
      exact ih
    · rw [hmoved]
      exact hrebind c definition (made path definition hget)

end Context.Lived

/-- A compiled script has a state. -/
theorem Script.Compiled.states_ne_nil {s : Script} (h : s.Compiled) : s.states ≠ [] := by
  obtain ⟨file, source, hcompile⟩ := h
  obtain ⟨f, -, hvalid, hrepresents⟩ := compile_represents hcompile
  rw [hrepresents.states]
  exact fun hnil => hvalid.inhabited (List.map_eq_nil_iff.1 hnil)

/-- Whatever a context went through, its state is one of its script exactly if the script has states
at all. -/
theorem state_declared_iff {kind : Script → Prop} {c : Context} (h : c.Lived kind) :
    c.definition.script.hasState c.state = true ↔ c.definition.script.states ≠ [] := by
  refine ⟨fun hknown hnil => ?_, h.sound.2.hasState⟩
  unfold Script.hasState at hknown
  rw [hnil] at hknown
  cases hknown

/-- The lamp that is off has lived with a script that was compiled. -/
theorem lived_lampOff : lampOff.Lived Script.Made := by
  have hoff : lampScript.hasState "off" = true := by decide +kernel
  have hnew : Context.new ⟨0, lampScript⟩ "off" = .ok lampOff := if_pos hoff
  exact .new (.compiled ⟨"lamp", lampSource, lampSource_compiles⟩) hnew

/-- A lamp after it was pressed, and moved to the script of a bulb, which has no state `on`. -/
def lampMoved : Context :=
  (((Machine.new {}).dispatch lampOff "press" .empty EmptyHost.mk).context.rebind
    ⟨1, bulbScript⟩).2

/-- The lamp was on before it moved, and is in the first state of the bulb then. -/
theorem state_declared_iff_lampMoved :
    ((Machine.new {}).dispatch lampOff "press" .empty EmptyHost.mk).context.state = "on" ∧
    lampMoved.Lived Script.Made ∧ lampMoved.state = "off" ∧
    (lampMoved.definition.script.hasState lampMoved.state = true ↔
      lampMoved.definition.script.states ≠ []) := by
  have hlived : lampMoved.Lived Script.Made :=
    (lived_lampOff.dispatch _ _ _ _).rebind (.compiled ⟨"bulb", bulbSource, bulbSource_compiles⟩)
  exact ⟨by decide +kernel, hlived, by decide +kernel, state_declared_iff hlived⟩

/-- As long as all scripts are compiled, the state is one of them. -/
theorem Context.Lived.declared_of_compiled {c : Context} (h : c.Lived Script.Compiled) :
    c.definition.script.hasState c.state = true := by
  obtain ⟨hcompiled, hrooted⟩ := h.sound
  exact hrooted.hasState hcompiled.states_ne_nil

/-- What five zero bytes are read as: no name, no path, no states, no handlers, no types. -/
def stateless : Script := ⟨"", "", [], .empty, .empty⟩

/-- A lamp that moves to a script without states is in a state that does not exist. -/
theorem stateless_undeclared : Script.unbake [0, 0, 0, 0, 0] = .ok stateless ∧
    (lampOff.rebind ⟨1, stateless⟩).2.Lived Script.Made ∧
    (lampOff.rebind ⟨1, stateless⟩).2.definition.script.hasState
      (lampOff.rebind ⟨1, stateless⟩).2.state = false := by
  have hunbake : Script.unbake [0, 0, 0, 0, 0] = .ok stateless := by decide +kernel
  exact ⟨hunbake, lived_lampOff.rebind (.unbaked hunbake), rfl⟩

end EntityScript
