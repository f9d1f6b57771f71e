import EntityScript.Proofs.Grammar.Spelling

/-!
# Sources around their blocks

States, machines and the heads of handlers are spelled in one way, whatever stands for the blocks of
the handlers. `FramedFile Block f ts zs` is that frame: `Block` says which tokens stand for a block,
and which of them are listed in `zs`. With the clauses of the grammar as blocks it is the spelling
of a source (`FileSpelling.framed`).
-/

namespace EntityScript.Grammar

section Frames

variable (Block : Statement → List Token → List Token → Prop)

/-- The tokens of handlers around their blocks. -/
inductive FramedHandlers : List Handler → List Token → List Token → Prop where
  | nil : FramedHandlers [] [] []
  | cons {w n l r : Token} {body : Statement} {ts us xs ys : List Token} {handlers : List Handler}
      (word : w.kind = .onEvent) (name : n.kind = .identifier) (opening : l.kind = .leftBrace)
      (block : Block body ts xs) (closing : r.kind = .rightBrace)
      (rest : FramedHandlers handlers us ys) :
      FramedHandlers (⟨n.lexeme, body⟩ :: handlers) (w :: n :: l :: (ts ++ r :: us)) (xs ++ ys)

/-- The tokens of a state around its blocks. -/
inductive FramedState : State → List Token → List Token → Prop where
  | mk {w n l r : Token} {handlers : List Handler} {ts zs : List Token} (word : w.kind = .state)
      (name : n.kind = .identifier) (opening : l.kind = .leftBrace)
      (inner : FramedHandlers Block handlers ts zs) (closing : r.kind = .rightBrace) :
      FramedState ⟨n.lexeme, handlers⟩ (w :: n :: l :: (ts ++ [r])) zs

/-- The tokens of the states of a machine around their blocks. -/
inductive FramedStates : List State → List Token → List Token → Prop where
  | nil : FramedStates [] [] []
  | cons {s : State} {states : List State} {ts us xs ys : List Token}
      (head : FramedState Block s ts xs) (tail : FramedStates states us ys) :
      FramedStates (s :: states) (ts ++ us) (xs ++ ys)

/-- The tokens of a source around its blocks. -/
inductive FramedFile : File → List Token → List Token → Prop where
  | nil : FramedFile [] [] []
  | state {s : State} {f : File} {ts us xs ys : List Token} (head : FramedState Block s ts xs)
      (tail : FramedFile f us ys) : FramedFile (.state s :: f) (ts ++ us) (xs ++ ys)
  | machine {w l r : Token} {states : List State} {f : File} {ts us xs ys : List Token}
      (word : w.kind = .stateMachine) (opening : l.kind = .leftBrace)
      (inner : FramedStates Block states ts xs) (closing : r.kind = .rightBrace)
      (tail : FramedFile f us ys) :
      FramedFile (.machine none states :: f) (w :: l :: (ts ++ r :: us)) (xs ++ ys)
  | namedMachine {w n l r : Token} {states : List State} {f : File} {ts us xs ys : List Token}
      (word : w.kind = .stateMachine) (name : n.kind = .identifier) (opening : l.kind = .leftBrace)
      (inner : FramedStates Block states ts xs) (closing : r.kind = .rightBrace)
      (tail : FramedFile f us ys) :
      FramedFile (.machine (some n.lexeme) states :: f) (w :: n :: l :: (ts ++ r :: us)) (xs ++ ys)

end Frames

/-- The tokens that spell a block, none of them listed. -/
def Spelled (body : Statement) (ts zs : List Token) : Prop := Clause .body body ts ∧ zs = []

/-- The tokens of handlers are those around their blocks and those that spell the blocks. -/
theorem HandlerSpelling.framed {handlers : List Handler} {ts : List Token}
    (h : HandlerSpelling handlers ts) : FramedHandlers Spelled handlers ts [] := by
  induction h with
  | nil => exact .nil
  | cons word name opening block closing _ ih =>
    exact .cons word name opening ⟨block, rfl⟩ closing ih

/-- The tokens of a state are those around its blocks and those that spell the blocks. -/
theorem StateSpelling.framed {s : State} {ts : List Token} (h : StateSpelling s ts) :
    FramedState Spelled s ts [] := by
  cases h with
  | mk word name opening inner closing => exact .mk word name opening inner.framed closing

/-- The tokens of the states of a machine are those around their blocks and those that spell the
blocks. -/
theorem StatesSpelling.framed {states : List State} {ts : List Token}
    (h : StatesSpelling states ts) : FramedStates Spelled states ts [] := by
  induction h with
  | nil => exact .nil
  | cons head _ ih => exact .cons head.framed ih

/-- The tokens of a source are those around its blocks and those that spell the blocks. -/
theorem FileSpelling.framed {f : File} {ts : List Token} (h : FileSpelling f ts) :
    FramedFile Spelled f ts [] := by
  induction h with
  | nil => exact .nil
  | state head _ ih => exact .state head.framed ih
  | machine word opening inner closing _ ih => exact .machine word opening inner.framed closing ih
  | namedMachine word name opening inner closing _ ih =>
    exact .namedMachine word name opening inner.framed closing ih

variable {Block : Statement → List Token → List Token → Prop} {ts zs : List Token}

section Bodies

variable {P : Statement → Prop}

/-- What holds of the bodies of handlers may be added to what is asked of their blocks. -/
theorem FramedHandlers.with_bodies {handlers : List Handler}
    (h : FramedHandlers Block handlers ts zs) (hall : ∀ x ∈ handlers, P x.body) :
    FramedHandlers (fun body ts zs => Block body ts zs ∧ P body) handlers ts zs := by
  induction h with
  | nil => exact .nil
  | cons word name opening block closing _ ih =>
    obtain ⟨hfirst, hrest⟩ := List.forall_mem_cons.1 hall
    exact .cons word name opening ⟨block, hfirst⟩ closing (ih hrest)

/-- What holds of the bodies of a state may be added to what is asked of its blocks. -/
theorem FramedState.with_bodies {s : State} (h : FramedState Block s ts zs)
    (hall : ∀ x ∈ s.handlers, P x.body) :
    FramedState (fun body ts zs => Block body ts zs ∧ P body) s ts zs := by
  cases h with
  | mk word name opening inner closing =>
    exact .mk word name opening (inner.with_bodies hall) closing

/-- What holds of the bodies of the states of a machine may be added to what is asked of their
blocks. -/
theorem FramedStates.with_bodies {states : List State} (h : FramedStates Block states ts zs)
    (hall : ∀ s ∈ states, ∀ x ∈ s.handlers, P x.body) :
    FramedStates (fun body ts zs => Block body ts zs ∧ P body) states ts zs := by
  induction h with
  | nil => exact .nil
  | cons head _ ih =>
    obtain ⟨hfirst, hrest⟩ := List.forall_mem_cons.1 hall
    exact .cons (head.with_bodies hfirst) (ih hrest)

/-- What holds of all bodies of a source may be added to what is asked of its blocks. -/
theorem FramedFile.with_bodies_of_states {f : File} (h : FramedFile Block f ts zs)
    (hall : ∀ d ∈ f, ∀ s ∈ d.states, ∀ x ∈ s.handlers, P x.body) :
    FramedFile (fun body ts zs => Block body ts zs ∧ P body) f ts zs := by
  induction h with
  | nil => exact .nil
  | state head _ ih =>
    obtain ⟨hfirst, hrest⟩ := List.forall_mem_cons.1 hall
    exact .state (head.with_bodies (hfirst _ (List.mem_singleton_self _))) (ih hrest)
  | machine word opening inner closing _ ih =>
    obtain ⟨hfirst, hrest⟩ := List.forall_mem_cons.1 hall
    exact .machine word opening (inner.with_bodies hfirst) closing (ih hrest)
  | namedMachine word name opening inner closing _ ih =>
    obtain ⟨hfirst, hrest⟩ := List.forall_mem_cons.1 hall
    exact .namedMachine word name opening (inner.with_bodies hfirst) closing (ih hrest)

/-- What holds of the bodies of all handlers of a source may be asked of its blocks. -/
theorem FramedFile.with_bodies {f : File} (h : FramedFile Block f ts zs)
    (hall : ∀ x ∈ f.handlers, P x.2.body) :
    FramedFile (fun body ts zs => Block body ts zs ∧ P body) f ts zs := by
  refine h.with_bodies_of_states fun d hd s hs x hx => hall (s.name, x) ?_
  exact List.mem_flatMap.2 ⟨s, List.mem_flatMap.2 ⟨d, hd, hs⟩, List.mem_map_of_mem hx⟩

end Bodies

/-- A state begins with its word. -/
theorem FramedState.exists_cons {s : State} (h : FramedState Block s ts zs) :
    ∃ w us, ts = w :: us ∧ w.kind = .state := by
  cases h with
  | mk word _ _ _ _ => exact ⟨_, _, rfl, word⟩

/-- What holds of single readable tokens other than strings, none of them listed, and of tokens put
together. -/
structure Accrues (R : List Token → List Token → Prop) : Prop where
  nil : R [] []
  cons {t : Token} {ts zs : List Token} (ht : t.kind ≠ .error) (hfree : t.kind ≠ .string)
      (h : R ts zs) : R (t :: ts) zs
  append {ts us xs ys : List Token} (h₁ : R ts xs) (h₂ : R us ys) : R (ts ++ us) (xs ++ ys)

namespace Accrues

variable {R : List Token → List Token → Prop} (hR : Accrues R)
include hR

/-- A token in front, other than strings and unreadable ones, changes nothing. -/
theorem kind {t : Token} {k : Token.Kind} (ht : t.kind = k) (hk : k ≠ .error ∧ k ≠ .string)
    (h : R ts zs) : R (t :: ts) zs :=
  hR.cons (ht ▸ hk.1) (ht ▸ hk.2) h

/-- What holds of a block and of what follows holds of both with the braces. -/
theorem braced {l r : Token} {us xs ys : List Token} (hl : l.kind = .leftBrace) (h₁ : R ts xs)
    (hr : r.kind = .rightBrace) (h₂ : R us ys) : R (l :: (ts ++ r :: us)) (xs ++ ys) :=
  hR.kind hl (by decide) (hR.append h₁ (hR.kind hr (by decide) h₂))

variable (hblock : ∀ {body ts zs}, Block body ts zs → R ts zs)
include hblock

/-- What accrues in blocks accrues in the handlers around them. -/
theorem handlers {handlers : List Handler} (h : FramedHandlers Block handlers ts zs) :
    R ts zs := by
  induction h with
  | nil => exact hR.nil
  | cons word name opening block closing _ ih =>
    have hbraced := hR.braced opening (hblock block) closing ih
    exact hR.kind word (by decide) (hR.kind name (by decide) hbraced)

/-- What accrues in blocks accrues in a state around them. -/
theorem state {s : State} (h : FramedState Block s ts zs) : R ts zs := by
  cases h with
  | mk word name opening inner closing =>
    have hbraced := hR.braced opening (hR.handlers hblock inner) closing hR.nil
    rw [List.append_nil] at hbraced
    exact hR.kind word (by decide) (hR.kind name (by decide) hbraced)

/-- What accrues in blocks accrues in the states of a machine around them. -/
theorem states {states : List State} (h : FramedStates Block states ts zs) : R ts zs := by
  induction h with
  | nil => exact hR.nil
  | cons head _ ih => exact hR.append (hR.state hblock head) ih

/-- What accrues and holds of the blocks of a source holds of the source. -/
theorem file {f : File} (h : FramedFile Block f ts zs) : R ts zs := by
  induction h with
  | nil => exact hR.nil
  | state head _ ih => exact hR.append (hR.state hblock head) ih
  | machine word opening inner closing _ ih =>
    exact hR.kind word (by decide) (hR.braced opening (hR.states hblock inner) closing ih)
  | namedMachine word name opening inner closing _ ih =>
    have hbraced := hR.braced opening (hR.states hblock inner) closing ih
    exact hR.kind word (by decide) (hR.kind name (by decide) hbraced)

end Accrues

/-- That tokens are readable accrues from single tokens. -/
theorem accrues_readable : Accrues fun ts _ => AllReadable ts where
  nil := allReadable_nil
  cons ht _ h := (allReadable_cons _ _).2 ⟨ht, h⟩
  append h₁ h₂ := (allReadable_append _ _).2 ⟨h₁, h₂⟩

/-- All tokens of a source of the grammar are readable. -/
theorem FileSpelling.readable {f : File} (h : FileSpelling f ts) : AllReadable ts :=
  accrues_readable.file (fun hblock => hblock.1.readable) h.framed

end EntityScript.Grammar
