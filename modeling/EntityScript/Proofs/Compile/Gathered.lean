import EntityScript.Proofs.Compile.Jumps

/-!
# What an outline has gathered

`Gathered o ts names handlers o'` says that compiling took the tokens `ts` off the outline `o`,
declared the states `names`, compiled the handlers `handlers`, found nothing wrong, and ended as
the outline `o'`. Nothing that is gathered is lost or replaced: the names are distinct, and so are
the pairs of state and event, each of which leads to the code of its own handler.
-/

namespace EntityScript.Compile

open Grammar

/-- A chunk holds the code of a handler, with the constants in the order of interning. -/
structure Assembled (name : String) (body : Statement) (chunk : Chunk) : Prop where
  name : chunk.name = name
  constants : chunk.constants.toList = pooled [] body.constants
  code : chunk.code.toList = bytes (pooled [] body.constants) (body.code ++ [.ret])
  room : (pooled [] body.constants).length ≤ Chunk.maxConstants
  pooled : Pooled (pooled [] body.constants) body.code
  fits : ∀ i ∈ body.code, i.Fits

/-- A block that was compiled into a chunk of its own. -/
theorem Draft.Wrote.handlerChunk {s : Draft} {name : String} {ts : List Token} {body : Statement}
    (h : Draft.Wrote { s with chunk := .empty name } ts body.work
      ({ s with chunk := .empty name }.advance).blockBody.1) :
    Assembled name body (Outline.handlerChunk s name).1 ∧
      s.upcoming = ts ++ (Outline.handlerChunk s name).2.upcoming ∧
      (Outline.handlerChunk s name).2.Ready ∧
      (∀ name' type, (Outline.handlerChunk s name).2.declared.get? name' = some type ↔
        s.declared.get? name' = some type ∨ (name', type) ∈ body.annotations) ∧
      (Outline.handlerChunk s name).2.targets.toList.map (·.1)
        = s.targets.toList.map (·.1) ++ body.targets := by
  have hret := h.emitPlain (i := .ret) trivial rfl (fun _ => rfl)
  have hpool := hret.pool
  have hconstants : (body.work ++ Work.emit [.ret]).constants = body.constants := by
    simp [Work.append_def, Statement.work]
  have hcode : (body.work ++ Work.emit [.ret]).code = body.code ++ [.ret] := rfl
  rw [hconstants] at hpool
  refine ⟨?_, hret.upcoming, ⟨hret.ready.diagnostics, hret.ready.panicking, Nat.zero_le _⟩,
    ?_, ?_⟩
  · have hwritten := hret.written
    rw [hcode, hpool] at hwritten
    exact {
      name := hret.name
      constants := hpool
      code := hwritten
      room := hpool ▸ hret.ready.room
      pooled := by
        have := h.pooled
        rwa [h.pool] at this
      fits := h.fits }
  · intro name' type
    refine (hret.declared name' type).trans ?_
    simp [Work.append_def, Statement.work]
  · refine hret.targets.trans ?_
    simp [Work.append_def, Statement.work]

namespace Outline

/-- The chunk that is kept for an event in a state. -/
def handler? (o : Outline) (state event : String) : Option Chunk :=
  (o.handlers.get? state).bind (·.get? event)

/-- Where a handler is kept. -/
def key (x : String × Handler) : String × String := (x.1, x.2.event)

/-- How a handler is called in listings and reports. -/
def label (x : String × Handler) : String := x.1 ++ "." ++ x.2.event

/-- Tokens read, states declared and handlers compiled without a problem. -/
structure Gathered (o : Outline) (ts : List Token) (names : List String)
    (handlers : List (String × Handler)) (o' : Outline) : Prop where
  upcoming : o.draft.upcoming = ts ++ o'.draft.upcoming
  ready : o'.draft.Ready
  states : o'.states.toList = o.states.toList ++ names
  distinct : o.states.toList.Nodup → o'.states.toList.Nodup
  kept : ∀ state event chunk, o.handler? state event = some chunk →
    o'.handler? state event = some chunk
  found : ∀ x ∈ handlers, ∃ chunk, o'.handler? x.1 x.2.event = some chunk ∧
    Assembled (label x) x.2.body chunk
  origin : ∀ state event chunk, o'.handler? state event = some chunk →
    o.handler? state event = some chunk ∨
      ∃ x ∈ handlers, key x = (state, event) ∧ Assembled (label x) x.2.body chunk
  fresh : ∀ x ∈ handlers, o.handler? x.1 x.2.event = none
  keys : (handlers.map key).Nodup
  declared : ∀ name type, o'.draft.declared.get? name = some type ↔
    o.draft.declared.get? name = some type ∨
      (name, type) ∈ handlers.flatMap (·.2.body.annotations)
  targets : o'.draft.targets.toList.map (·.1)
    = o.draft.targets.toList.map (·.1) ++ handlers.flatMap (·.2.body.targets)

variable {o o₁ o₂ : Outline} {ts us : List Token} {names more : List String}
  {handlers others : List (String × Handler)}

/-- What is gathered in two steps lies end to end. -/
theorem Gathered.trans (h₁ : Gathered o ts names handlers o₁)
    (h₂ : Gathered o₁ us more others o₂) :
    Gathered o (ts ++ us) (names ++ more) (handlers ++ others) o₂ where
  upcoming := by rw [h₁.upcoming, h₂.upcoming, List.append_assoc]
  ready := h₂.ready
  states := by rw [h₂.states, h₁.states, List.append_assoc]
  distinct h := h₂.distinct (h₁.distinct h)
  kept state event chunk h := h₂.kept state event chunk (h₁.kept state event chunk h)
  found := by
    intro x hx
    rcases List.mem_append.1 hx with hx | hx
    · obtain ⟨chunk, hchunk, hassembled⟩ := h₁.found x hx
      exact ⟨chunk, h₂.kept _ _ _ hchunk, hassembled⟩
    · exact h₂.found x hx
  origin := by
    intro state event chunk h
    rcases h₂.origin state event chunk h with h | ⟨x, hx, hchunk⟩
    · rcases h₁.origin state event chunk h with h | ⟨x, hx, hchunk⟩
      · exact .inl h
      · exact .inr ⟨x, List.mem_append_left _ hx, hchunk⟩
    · exact .inr ⟨x, List.mem_append_right _ hx, hchunk⟩
  fresh := by
    intro x hx
    rcases List.mem_append.1 hx with hx | hx
    · exact h₁.fresh x hx
    · cases hlookup : o.handler? x.1 x.2.event with
      | none => rfl
      | some chunk =>
        have hkept := h₁.kept _ _ _ hlookup
        rw [h₂.fresh x hx] at hkept
        cases hkept
  keys := by
    rw [List.map_append]
    refine List.nodup_append.2 ⟨h₁.keys, h₂.keys, ?_⟩
    rintro _ ha _ hb rfl
    obtain ⟨x, hx, hkx⟩ := List.mem_map.1 ha
    obtain ⟨y, hy, hky⟩ := List.mem_map.1 hb
    obtain ⟨chunk, hchunk, -⟩ := h₁.found x hx
    have hsame : x.1 = y.1 ∧ x.2.event = y.2.event := by
      simpa [key] using hkx.trans hky.symm
    have hfresh := h₂.fresh y hy
    rw [← hsame.1, ← hsame.2, hchunk] at hfresh
    cases hfresh
  declared := by
    intro name type
    rw [h₂.declared, h₁.declared, List.flatMap_append, List.mem_append, or_assoc]
  targets := by rw [h₂.targets, h₁.targets, List.flatMap_append, List.append_assoc]

/-- Tokens, states and handlers may be written in another way. -/
theorem Gathered.congr {ts' : List Token} {names' : List String}
    {handlers' : List (String × Handler)} (h : Gathered o ts names handlers o₁) (hts : ts = ts')
    (hnames : names = names') (hhandlers : handlers = handlers') :
    Gathered o ts' names' handlers' o₁ := by
  subst hts hnames hhandlers
  exact h

/-- Tokens that were read and nothing else. -/
theorem Gathered.of_wrote {s : Draft} (h : Draft.Wrote o.draft ts .none s) :
    Gathered o ts [] [] { o with draft := s } where
  upcoming := h.upcoming
  ready := h.ready
  states := by simp
  distinct h := h
  kept _ _ _ h := h
  found := by simp
  origin _ _ _ h := .inl h
  fresh := by simp
  keys := by simp
  declared := h.declared
  targets := h.targets

/-- Nothing is gathered where a ready outline stays as it is. -/
theorem Gathered.refl (h : o.draft.Ready) : Gathered o [] [] [] o := .of_wrote (.refl h)

/-- Declaring a state that is not declared yet. -/
theorem Gathered.declare (h : o.draft.Ready) {name : String} (hname : name ∉ o.states.toList) :
    Gathered o [] [name] [] { o with states := o.states.push name } where
  upcoming := rfl
  ready := h
  states := by simp
  distinct h := by
    rw [Array.toList_push]
    exact List.nodup_append.2 ⟨h, by simp, by
      rintro a ha _ hb rfl
      exact hname (List.mem_singleton.1 hb ▸ ha)⟩
  kept _ _ _ h := h
  found := by simp
  origin _ _ _ h := .inl h
  fresh := by simp
  keys := by simp
  declared := by simp
  targets := by simp

/-- The outline with one more handler. -/
def keep (o : Outline) (state event : String) (chunk : Chunk) : Outline :=
  let events := (o.handlers.get? state).getD .empty
  { o with handlers := o.handlers.insert state (events.insert event chunk) }

/-- Keeping a handler changes what is found under its own key only. -/
theorem handler?_keep (state event : String) (chunk : Chunk) (state' event' : String) :
    (o.keep state event chunk).handler? state' event' =
      if (state', event') = (state, event) then some chunk else o.handler? state' event' := by
  unfold handler? keep
  dsimp only
  by_cases hstate : state' = state
  · subst hstate
    rw [Table.get?_insert_self, Option.bind_some]
    by_cases hevent : event' = event
    · subst hevent
      simp
    · rw [Table.get?_insert_of_ne _ hevent]
      cases h : o.handlers.get? state' <;> simp [hevent]
  · rw [Table.get?_insert_of_ne _ hstate]
    simp [hstate]

/-- A state has an event if a handler is kept for it. -/
theorem contains_events (state event : String) :
    ((o.handlers.get? state).getD .empty).contains event = (o.handler? state event).isSome := by
  unfold handler? Table.contains
  cases o.handlers.get? state <;> simp

/-- A handler that is the first of its event is added by keeping it. -/
theorem addHandler_of_none {state event : String} (hfresh : o.handler? state event = none)
    (s : Draft) (chunk : Chunk) : Outline.addHandler { o with draft := s } state event chunk =
      { o.keep state event chunk with draft := s } := by
  unfold Outline.addHandler
  dsimp only
  rw [contains_events, hfresh]
  rfl

/-- Adding the first handler of an event changes what is found under its key only. -/
theorem handler?_addHandler {state event : String} (hfresh : o.handler? state event = none)
    (s : Draft) (chunk : Chunk) (state' event' : String) :
    (Outline.addHandler { o with draft := s } state event chunk).handler? state' event' =
      if (state', event') = (state, event) then some chunk else o.handler? state' event' := by
  rw [addHandler_of_none hfresh]
  exact handler?_keep (o := o) state event chunk state' event'

/-- Keeping a handler for an event that its state does not handle yet. -/
theorem Gathered.addHandler {x : String × Handler} {chunk : Chunk} {s : Draft}
    (hfresh : o.handler? x.1 x.2.event = none) (hassembled : Assembled (label x) x.2.body chunk)
    (hup : o.draft.upcoming = ts ++ s.upcoming) (hready : s.Ready)
    (hdeclared : ∀ name type, s.declared.get? name = some type ↔
      o.draft.declared.get? name = some type ∨ (name, type) ∈ x.2.body.annotations)
    (htargets : s.targets.toList.map (·.1)
      = o.draft.targets.toList.map (·.1) ++ x.2.body.targets) :
    Gathered o ts [] [x] (Outline.addHandler { o with draft := s } x.1 x.2.event chunk) := by
  have hlookup := handler?_addHandler hfresh s chunk
  rw [addHandler_of_none hfresh] at hlookup ⊢
  exact {
    upcoming := hup
    ready := hready
    states := (List.append_nil _).symm
    distinct := fun h => h
    kept := by
      intro state event c hc
      rw [hlookup, if_neg]
      · exact hc
      · intro heq
        cases heq
        rw [hfresh] at hc
        cases hc
    found := by
      intro y hy
      obtain rfl := List.mem_singleton.1 hy
      exact ⟨chunk, by rw [hlookup, if_pos rfl], hassembled⟩
    origin := by
      intro state event c hc
      rw [hlookup] at hc
      split at hc
      · rename_i heq
        cases hc
        exact .inr ⟨x, List.mem_singleton_self x, heq.symm, hassembled⟩
      · exact .inl hc
    fresh := by
      intro y hy
      obtain rfl := List.mem_singleton.1 hy
      exact hfresh
    keys := by simp
    declared := by simpa using hdeclared
    targets := by simpa using htargets }

end Outline

end EntityScript.Compile
