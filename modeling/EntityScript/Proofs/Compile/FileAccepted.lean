import EntityScript.Proofs.Compile.FileReading
import EntityScript.Proofs.Compile.StatementAccepted
import EntityScript.Proofs.Compile.Walked

/-!
# Every source of the grammar compiles

Declarations of the grammar compile without a problem if their handlers are legal and have room for
what they need, and if nothing is declared twice. As for single handlers, the conditions are stated
for an outline that has gathered something already (`Outline.Prepared`), so that they can be
divided among the declarations. This makes a walk of them (`Outline.gathering`).
-/

namespace EntityScript.Compile.Outline

open Grammar Draft

/-- A variable has a type already, or one of the handlers to come gives it one. -/
def Typed (o : Outline) (handlers : List (String × Handler)) (name : String) (type : ValueType) :
    Prop :=
  o.draft.declared.get? name = some type ∨
    (name, type) ∈ handlers.flatMap (·.2.body.annotations)

/-- Nothing is declared twice by states and handlers to come, and the handlers can be written. -/
structure Declarable (o : Outline) (names : List String) (handlers : List (String × Handler)) :
    Prop where
  names : (o.states.toList ++ names).Nodup
  fresh : ∀ x ∈ handlers, o.handler? x.1 x.2.event = none
  keys : (handlers.map key).Nodup
  legal : ∀ x ∈ handlers, x.2.body.Legal
  fits : ∀ x ∈ handlers, ∀ i ∈ x.2.body.code, i.Fits
  types : ∀ name type type', o.Typed handlers name type → o.Typed handlers name type' →
    type = type'

/-- Everything is there for states and handlers to be compiled without a problem. -/
structure Prepared (o : Outline) (ts rest : List Token) (names : List String)
    (handlers : List (String × Handler)) : Prop where
  ready : o.draft.Ready
  clear : o.draft.Clear
  upcoming : o.draft.upcoming = ts ++ rest
  names : (o.states.toList ++ names).Nodup
  fresh : ∀ x ∈ handlers, o.handler? x.1 x.2.event = none
  keys : (handlers.map key).Nodup
  legal : ∀ x ∈ handlers, x.2.body.Legal
  room : ∀ x ∈ handlers, (pooled [] x.2.body.constants).length ≤ Chunk.maxConstants
  fits : ∀ x ∈ handlers, ∀ i ∈ x.2.body.code, i.Fits
  types : ∀ name type type', o.Typed handlers name type → o.Typed handlers name type' →
    type = type'

variable {o o₁ : Outline} {t : Token} {ts us rest : List Token} {names more : List String}
  {handlers others : List (String × Handler)}

namespace Declarable

/-- A state that is to be declared is not declared yet. -/
theorem not_mem {name : String} (h : Declarable o [name] []) : name ∉ o.states.toList :=
  fun hmem => (List.nodup_append.1 h.names).2.2 _ hmem _ (List.mem_singleton_self _) rfl

variable (h : Declarable o (names ++ more) (handlers ++ others))
include h

/-- The first declarations come first. -/
theorem first : Declarable o names handlers where
  names := by
    have hnames := h.names
    rw [← List.append_assoc] at hnames
    exact (List.nodup_append.1 hnames).1
  fresh x hx := h.fresh x (List.mem_append_left _ hx)
  keys := by
    have hkeys := h.keys
    rw [List.map_append] at hkeys
    exact (List.nodup_append.1 hkeys).1
  legal x hx := h.legal x (List.mem_append_left _ hx)
  fits x hx := h.fits x (List.mem_append_left _ hx)
  types name type type' ht ht' := by
    have hmono : ∀ type, o.Typed handlers name type → o.Typed (handlers ++ others) name type := by
      rintro type (ht | ht)
      · exact .inl ht
      · exact .inr (by rw [List.flatMap_append]; exact List.mem_append_left _ ht)
    exact h.types name type type' (hmono type ht) (hmono type' ht')

/-- The other declarations come where the first ones, and no others, were declared. -/
theorem second (hstates : o₁.states.toList = o.states.toList ++ names)
    (horigin : ∀ state event, o.handler? state event = none →
      (state, event) ∉ handlers.map key → o₁.handler? state event = none)
    (hdeclared : ∀ name type, o₁.draft.declared.get? name = some type ↔
      o.Typed handlers name type) :
    Declarable o₁ more others where
  names := by
    rw [hstates, List.append_assoc]
    exact h.names
  fresh x hx := by
    have hkeys := h.keys
    rw [List.map_append] at hkeys
    refine horigin _ _ (h.fresh x (List.mem_append_right _ hx)) fun hmem => ?_
    exact (List.nodup_append.1 hkeys).2.2 _ hmem _ (List.mem_map_of_mem hx) rfl
  keys := by
    have hkeys := h.keys
    rw [List.map_append] at hkeys
    exact (List.nodup_append.1 hkeys).2.1
  legal x hx := h.legal x (List.mem_append_right _ hx)
  fits x hx := h.fits x (List.mem_append_right _ hx)
  types name type type' ht ht' := by
    have hback : ∀ type, o₁.Typed others name type → o.Typed (handlers ++ others) name type := by
      intro type ht
      unfold Typed at ht ⊢
      rw [List.flatMap_append, List.mem_append, ← or_assoc]
      exact ht.imp_left fun h => (hdeclared name type).1 h
    exact h.types name type type' (hback type ht) (hback type' ht')

end Declarable

/-- What is prepared can be declared. -/
theorem Prepared.declarable (h : Prepared o ts rest names handlers) :
    Declarable o names handlers :=
  ⟨h.names, h.fresh, h.keys, h.legal, h.fits, h.types⟩

/-- Tokens, states and handlers may be written in another way. -/
theorem Prepared.congr {a : List Token} {m : List String} {k : List (String × Handler)}
    (h : Prepared o ts rest names handlers) (hts : ts = a) (hnames : names = m)
    (hhandlers : handlers = k) : Prepared o a rest m k := by
  subst hts hnames hhandlers
  exact h

/-- The first declarations can be compiled first. -/
theorem Prepared.first (h : Prepared o (ts ++ us) rest (names ++ more) (handlers ++ others)) :
    Prepared o ts (us ++ rest) names handlers where
  __ := h.declarable.first
  ready := h.ready
  clear := h.clear
  upcoming := by rw [h.upcoming, List.append_assoc]
  room x hx := h.room x (List.mem_append_left _ hx)

/-- A handler that is neither kept nor gathered is not kept afterwards. -/
theorem Gathered.handler?_eq_none (hg : Gathered o ts names handlers o₁) {state event : String}
    (hnone : o.handler? state event = none) (hkey : (state, event) ∉ handlers.map key) :
    o₁.handler? state event = none := by
  cases hlookup : o₁.handler? state event with
  | none => rfl
  | some chunk =>
    rcases hg.origin _ _ _ hlookup with hold | ⟨x, hx, hx', -⟩
    · rw [hnone] at hold
      cases hold
    · exact absurd (List.mem_map.2 ⟨x, hx, hx'⟩) hkey

/-- The other declarations can be compiled once the first are gathered. -/
theorem Prepared.second (h : Prepared o (ts ++ us) rest (names ++ more) (handlers ++ others))
    (hg : Gathered o ts names handlers o₁) : Prepared o₁ us rest more others where
  __ := h.declarable.second hg.states (fun _ _ => hg.handler?_eq_none) hg.declared
  ready := hg.ready
  clear t ht := h.clear t (hg.upcoming ▸ List.mem_append_right _ ht)
  upcoming := by
    have hup := h.upcoming
    rw [hg.upcoming, List.append_assoc] at hup
    exact List.append_cancel_left hup
  room x hx := h.room x (List.mem_append_right _ hx)

/-- The draft of a prepared outline is prepared for reading the first of its tokens. -/
theorem Prepared.draft (h : Prepared o (t :: ts) rest names handlers) :
    Draft.Prepared o.draft [t] (ts ++ rest) .none where
  ready := h.ready
  clear := h.clear
  upcoming := h.upcoming
  room := h.ready.room
  fits := by simp
  types name type type' ht ht' :=
    h.types name type type' (ht.imp_right (by simp)) (ht'.imp_right (by simp))

/-- The next token is read. -/
theorem Prepared.advance (h : Prepared o (t :: ts) rest names handlers) :
    Gathered o [t] [] [] o.advance ∧ o.advance.draft.previous = t ∧
      Prepared o.advance ts rest names handlers := by
  obtain ⟨hw, hprevious, -⟩ := h.draft.advance
  have hg : Gathered o [t] [] [] o.advance := .of_wrote hw
  have h' : Prepared o ([t] ++ ts) rest ([] ++ names) ([] ++ handlers) := h
  exact ⟨hg, hprevious, h'.second hg⟩

/-- A prepared handler is compiled and kept under its state and event. -/
theorem Prepared.handlerTail {state : String} {n l r : Token} {body : Statement}
    (h : Prepared o (n :: l :: (ts ++ [r])) rest [] [(state, ⟨n.lexeme, body⟩)])
    (hn : n.kind = .identifier) (hl : l.kind = .leftBrace) (hc : Clause .body body ts)
    (hr : r.kind = .rightBrace) :
    Gathered o (n :: l :: (ts ++ [r])) [] [(state, ⟨n.lexeme, body⟩)] (o.handlerTail state) := by
  obtain ⟨-, hprevious, h₁⟩ := h.advance
  have hmem := List.mem_singleton_self (state, (⟨n.lexeme, body⟩ : Handler))
  have hbody : Draft.Prepared { o.advance.draft with chunk := .empty (state ++ "." ++ n.lexeme) }
      (l :: (ts ++ [r])) rest body.work := {
    ready := ⟨h₁.ready.diagnostics, h₁.ready.panicking, Nat.zero_le _⟩
    clear := h₁.clear
    upcoming := h₁.upcoming
    room := h.room _ hmem
    fits := h.fits _ hmem
    types := fun name type type' ht ht' => h₁.types name type type'
      (ht.imp_right fun h => by simpa [Statement.work] using h)
      (ht'.imp_right fun h => by simpa [Statement.work] using h) }
  obtain ⟨hw₂, -, h₂⟩ := hbody.advance
  have hw₃ := hw₂.trans (h₂.blockBody hc hr (h.legal _ hmem))
  have hwritten := hw₃.congr rfl (Work.none_append _)
  obtain ⟨-, -, hready, -, -⟩ := hwritten.handlerChunk
  have hread : ReadsHandler o state n l r ts body o.advance.draft := {
    name := hn
    opening := hl
    block := hc
    closing := hr
    legal := h.legal _ hmem
    named := h.draft.advance.1
    written := hwritten
    fresh := h.fresh _ hmem
    kept := by
      rw [handlerTail_eq (h.draft.sees hn) (h₁.draft.sees hl), hprevious]
      dsimp only
      rw [if_pos (by rw [hready.diagnostics, h.ready.diagnostics])] }
  exact hread.gathered

/-- A prepared state is declared under its name. -/
theorem Prepared.declareState (h : Prepared o ts rest [o.draft.previous.lexeme] []) :
    o.declareState.1 = o.draft.previous.lexeme ∧
      Gathered o [] [o.draft.previous.lexeme] [] o.declareState.2 := by
  have hfresh := h.declarable.not_mem
  rw [declareState_of_not_mem hfresh]
  exact ⟨rfl, .declare h.ready hfresh⟩

/-- Declarations of the grammar are walked through with everything there for those to come, and what
was compiled gathered. -/
def gathering : Walk Spelled where
  Before := Prepared
  After o ts names handlers _ o' := Gathered o ts names handlers o'
  upcoming h := h.upcoming
  panicking h := h.ready.panicking
  refl h := .refl h.ready
  trans h₁ h₂ := h₁.trans h₂
  first h := h.first
  second h hg := h.second hg
  advance h := ⟨h.advance.1, h.advance.2.1⟩
  declareState h := h.declareState
  rename h name := h.rename name
  handlerTail h name opening block closing := h.handlerTail name opening block.1 closing

/-- Declarations of the grammar compile up to the end of the source. -/
theorem Prepared.declarations {f : File} (hts : FileSpelling f ts)
    (h : Prepared o ts [] (f.states.map (·.name)) f.handlers) :
    Gathered o ts (f.states.map (·.name)) f.handlers o.declarations :=
  gathering.declarations hts.framed h

end EntityScript.Compile.Outline
