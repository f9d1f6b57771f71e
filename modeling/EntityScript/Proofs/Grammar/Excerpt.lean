import EntityScript.Proofs.Grammar.Rendering
import EntityScript.Proofs.Grammar.Valid

/-!
# Sources with one handler left

What remains of a source if all handlers but one are taken out: the same states in the same order,
in the same machines. Taking handlers out only takes their tokens out, and what is left is valid if
the source was.

Every handler of a source comes from a block of its own that begins with `OnEvent`, and no such word
stands anywhere else.
-/

namespace EntityScript.Grammar

/-- A state with only the handler that is kept under a key. -/
def State.only (key : String × String) (s : State) : State :=
  { s with handlers := s.handlers.filter fun h => (s.name, h.event) == key }

/-- A declaration with only the handler that is kept under a key. -/
def Declaration.only (key : String × String) : Declaration → Declaration
  | state s => .state (s.only key)
  | machine name states => .machine name (states.map (State.only key))

/-- A source with only the handler that is kept under a key. -/
def File.only (key : String × String) (f : File) : File := f.map (Declaration.only key)

namespace File

/-- A source with only one of its handlers has all of its states, in their order. -/
theorem states_only (key : String × String) (f : File) :
    (f.only key).states = f.states.map (State.only key) := by
  unfold states only
  rw [List.flatMap_map, List.map_flatMap]
  congr 1
  funext d
  cases d <;> rfl

/-- All states are still there. -/
theorem names_only (key : String × String) (f : File) :
    (f.only key).states.map (·.name) = f.states.map (·.name) := by
  rw [states_only, List.map_map]
  rfl

/-- A source with only one of its handlers has those that are kept under the key. -/
theorem handlers_only (key : String × String) (f : File) :
    (f.only key).handlers = f.handlers.filter fun x => (x.1, x.2.event) == key := by
  unfold handlers
  rw [states_only, List.flatMap_map, List.filter_flatMap]
  congr 1
  funext s
  simp [State.entries, State.only, List.filter_map, Function.comp_def]

/-- Where no state handles an event twice, one handler is left of those that are there. -/
theorem handlers_only_of_mem {f : File}
    (hf : (f.handlers.map fun x => (x.1, x.2.event)).Nodup) {x : String × Handler}
    (hx : x ∈ f.handlers) : (f.only (x.1, x.2.event)).handlers = [x] := by
  rw [handlers_only]
  generalize f.handlers = l at hf hx
  induction l with
  | nil => cases hx
  | cons y l ih =>
    rw [List.map_cons, List.nodup_cons] at hf
    obtain rfl | hx := List.mem_cons.1 hx
    · rw [List.filter_cons_of_pos (by simp), List.filter_eq_nil_iff.2]
      intro z hz hkey
      exact hf.1 (List.mem_map.2 ⟨z, hz, beq_iff_eq.1 hkey⟩)
    · rw [List.filter_cons_of_neg, ih hf.2 hx]
      intro hkey
      exact hf.1 (List.mem_map.2 ⟨x, hx, (beq_iff_eq.1 hkey).symm⟩)

end File

/-- A source with the states of a valid one and one of its handlers is valid. -/
theorem Valid.of_handler {f f' : File} (h : Valid f)
    (hstates : f'.states.map (·.name) = f.states.map (·.name)) {x : String × Handler}
    (hx : x ∈ f.handlers) (hf' : f'.handlers = [x]) : Valid f' where
  inhabited := by
    intro hempty
    rw [hempty] at hstates
    exact h.inhabited (List.map_eq_nil_iff.1 hstates.symm)
  states := by
    rw [hstates]
    exact h.states
  handlers := by rw [hf']; exact List.nodup_singleton _
  targets := by
    intro t ht
    rw [File.targets, hf', List.flatMap_singleton] at ht
    rw [hstates]
    exact h.targets t (List.mem_flatMap.2 ⟨x, hx, ht⟩)
  legal := by
    rw [hf']
    exact List.forall_mem_singleton.2 (h.legal x hx)
  types := by
    have hmem : ∀ name type, (name, type) ∈ f'.annotations → (name, type) ∈ f.annotations := by
      intro name type ht
      rw [File.annotations, hf', List.flatMap_singleton] at ht
      exact List.mem_flatMap.2 ⟨x, hx, ht⟩
    exact fun name type type' ht ht' => h.types name type type' (hmem _ _ ht) (hmem _ _ ht')
  constants := by
    rw [hf']
    exact List.forall_mem_singleton.2 (h.constants x hx)
  arguments := by
    rw [hf']
    exact List.forall_mem_singleton.2 (h.arguments x hx)
  jumps := by
    rw [hf']
    exact List.forall_mem_singleton.2 (h.jumps x hx)

/-- Leaving out handlers leaves out tokens, and what is left spells the other handlers. -/
theorem HandlerSpelling.exists_filter {handlers : List Handler} {ts : List Token}
    (h : HandlerSpelling handlers ts) (p : Handler → Bool) :
    ∃ us, us.Sublist ts ∧ HandlerSpelling (handlers.filter p) us := by
  induction h with
  | nil => exact ⟨[], List.Sublist.refl _, .nil⟩
  | @cons w n l r body ts us handlers word name opening block closing rest ih =>
    obtain ⟨vs, hvs, hspelling⟩ := ih
    by_cases hp : p ⟨n.lexeme, body⟩ = true
    · rw [List.filter_cons_of_pos hp]
      exact ⟨w :: n :: l :: (ts ++ r :: vs),
        (((hvs.cons_cons r).append_left ts).cons_cons l).cons_cons n |>.cons_cons w,
        .cons word name opening block closing hspelling⟩
    · rw [List.filter_cons_of_neg hp]
      refine ⟨vs, ?_, hspelling⟩
      have hrest : vs.Sublist (ts ++ r :: us) := (hvs.cons r).trans (List.sublist_append_right ..)
      exact ((hrest.cons l).cons n).cons w

/-- Leaving out the other handlers of a state leaves out tokens. -/
theorem StateSpelling.exists_only {s : State} {ts : List Token} (h : StateSpelling s ts)
    (key : String × String) : ∃ us, us.Sublist ts ∧ StateSpelling (s.only key) us := by
  cases h with
  | @mk w n l r handlers ts word name opening inner closing =>
    obtain ⟨us, hus, hspelling⟩ := inner.exists_filter fun h => (n.lexeme, h.event) == key
    exact ⟨w :: n :: l :: (us ++ [r]),
      ((hus.append_right [r]).cons_cons l).cons_cons n |>.cons_cons w,
      .mk word name opening hspelling closing⟩

/-- Leaving out the other handlers of the states of a machine leaves out tokens. -/
theorem StatesSpelling.exists_only {states : List State} {ts : List Token}
    (h : StatesSpelling states ts) (key : String × String) :
    ∃ us, us.Sublist ts ∧ StatesSpelling (states.map (State.only key)) us := by
  induction h with
  | nil => exact ⟨[], List.Sublist.refl _, .nil⟩
  | cons head tail ih =>
    obtain ⟨us, hus, hstate⟩ := head.exists_only key
    obtain ⟨vs, hvs, hstates⟩ := ih
    exact ⟨us ++ vs, hus.append hvs, .cons hstate hstates⟩

/-- Taking handlers out of a source leaves some of its tokens, in their order. -/
theorem FileSpelling.exists_only {f : File} {ts : List Token} (h : FileSpelling f ts)
    (key : String × String) : ∃ us, us.Sublist ts ∧ FileSpelling (f.only key) us := by
  induction h with
  | nil => exact ⟨[], List.Sublist.refl _, .nil⟩
  | state head tail ih =>
    obtain ⟨us, hus, hstate⟩ := head.exists_only key
    obtain ⟨vs, hvs, hfile⟩ := ih
    exact ⟨us ++ vs, hus.append hvs, .state hstate hfile⟩
  | @machine w l r states f ts us word opening inner closing tail ih =>
    obtain ⟨vs, hvs, hstates⟩ := inner.exists_only key
    obtain ⟨ws, hws, hfile⟩ := ih
    exact ⟨w :: l :: (vs ++ r :: ws), ((hvs.append (hws.cons_cons r)).cons_cons l).cons_cons w,
      .machine word opening hstates closing hfile⟩
  | @namedMachine w n l r states f ts us word name opening inner closing tail ih =>
    obtain ⟨vs, hvs, hstates⟩ := inner.exists_only key
    obtain ⟨ws, hws, hfile⟩ := ih
    exact ⟨w :: n :: l :: (vs ++ r :: ws),
      ((hvs.append (hws.cons_cons r)).cons_cons l).cons_cons n |>.cons_cons w,
      .namedMachine word name opening hstates closing hfile⟩

/-- A token moved to the first line. -/
def onFirstLine (t : Token) : Token := { t with line := 1 }

/-- The tokens of a name are such on the first line as well. -/
theorem Name.onFirstLine {name : String} {ts : List Token} (h : Name name ts) :
    Name name (ts.map onFirstLine) := by
  cases h with
  | @plain t kind free => exact .plain (t := Grammar.onFirstLine t) kind free
  | @argument a d t akind word dkind kind =>
    exact .argument (a := Grammar.onFirstLine a) (d := Grammar.onFirstLine d)
      (t := Grammar.onFirstLine t) akind word dkind kind

/-- Moving tokens to the first line does not change what they begin with. -/
theorem begins_onFirstLine (kind : Token.Kind) (ts : List Token) :
    Begins kind (ts.map onFirstLine) ↔ Begins kind ts := by
  cases ts <;> rfl

/-- The tokens of an expression are such on the first line as well. -/
theorem Phrase.onFirstLine {level : Compile.Level} {e : Expression} {ts : List Token}
    (h : Phrase level e ts) : Phrase level e (ts.map onFirstLine) := by
  induction h with
  | @number level t kind => exact .number (t := Grammar.onFirstLine t) kind
  | @vector level t kind => exact .vector (t := Grammar.onFirstLine t) kind
  | @negatedVector level m t sign kind =>
    exact .negatedVector (m := Grammar.onFirstLine m) (t := Grammar.onFirstLine t) sign kind
  | @text level t kind => exact .text (t := Grammar.onFirstLine t) kind
  | @yes level t kind => exact .yes (t := Grammar.onFirstLine t) kind
  | @no level t kind => exact .no (t := Grammar.onFirstLine t) kind
  | var spelled => exact .var spelled.onFirstLine
  | @group level e l r ts opening inner closing ih =>
    rw [List.map_cons, List.map_append]
    exact .group (r := Grammar.onFirstLine r) opening ih closing
  | @component level e d t ts operand dot kind ih =>
    rw [List.map_append]
    exact .component (d := Grammar.onFirstLine d) (t := Grammar.onFirstLine t) ih dot kind
  | negate loose sign free operand ih =>
    exact .negate loose sign (fun hbegins => free ((begins_onFirstLine _ _).1 hbegins)) ih
  | not loose sign operand ih => exact .not loose sign ih
  | binary loose left sign right iha ihb =>
    rw [List.map_append]
    exact .binary loose iha sign ihb
  | and loose left sign right iha ihb =>
    rw [List.map_append]
    exact .and loose iha sign ihb
  | or loose left sign right iha ihb =>
    rw [List.map_append]
    exact .or loose iha sign ihb
  | assign target sign value ih =>
    rw [List.map_append]
    exact .assign target.onFirstLine sign ih

/-- The tokens of a target are such on the first line as well. -/
theorem TargetSpelling.onFirstLine {target : Option Target} {ts : List Token}
    (h : TargetSpelling target ts) : TargetSpelling target (ts.map onFirstLine) := by
  cases h with
  | none => exact .none
  | @named c t comma kind =>
    exact .named (c := Grammar.onFirstLine c) (t := Grammar.onFirstLine t) comma kind
  | @quoted c t comma kind =>
    exact .quoted (c := Grammar.onFirstLine c) (t := Grammar.onFirstLine t) comma kind

/-- The tokens of arguments are such on the first line as well. -/
theorem ArgumentSpelling.onFirstLine {args : List (String × Expression)} {ts : List Token}
    (h : ArgumentSpelling args ts) : ArgumentSpelling args (ts.map onFirstLine) := by
  induction h with
  | nil => exact .nil
  | @cons c n q e ts us args comma name sign value rest ih =>
    simp only [List.map_cons, List.map_append]
    exact .cons (c := Grammar.onFirstLine c) (n := Grammar.onFirstLine n)
      (q := Grammar.onFirstLine q) comma name sign value.onFirstLine ih

/-- The tokens of an annotation are such on the first line as well. -/
theorem AnnotationSpelling.onFirstLine {type : Option String} {ts : List Token}
    (h : AnnotationSpelling type ts) : AnnotationSpelling type (ts.map onFirstLine) := by
  cases h with
  | none => exact .none
  | @some c t colon kind =>
    exact .some (c := Grammar.onFirstLine c) (t := Grammar.onFirstLine t) colon kind

/-- The tokens of what a variable begins with are such on the first line as well. -/
theorem InitialSpelling.onFirstLine {init : Option Expression} {ts : List Token}
    (h : InitialSpelling init ts) : InitialSpelling init (ts.map onFirstLine) := by
  cases h with
  | none => exact .none
  | some sign value => exact .some sign value.onFirstLine

/-- The tokens of a statement are such on the first line as well. -/
theorem Clause.onFirstLine {site : Site} {s : Statement} {ts : List Token} (h : Clause site s ts) :
    Clause site s (ts.map onFirstLine) := by
  induction h with
  | done => exact .done
  | next head tail ih ih' =>
    rw [List.map_append]
    exact .next ih ih'
  | @declare w n z type init ts us word name typed initial semicolon =>
    simp only [List.map_cons, List.map_append]
    exact .declare (w := Grammar.onFirstLine w) (n := Grammar.onFirstLine n) word name
      typed.onFirstLine initial.onFirstLine semicolon
  | @branch condition whenTrue whenFalse w l r ts us vs word test opening block closing otherwise
      ih ih' =>
    simp only [List.map_cons, List.map_append]
    exact .branch (w := Grammar.onFirstLine w) (l := Grammar.onFirstLine l)
      (r := Grammar.onFirstLine r) word test.onFirstLine opening ih closing ih'
  | conditional inner ih => exact .conditional ih
  | nothing => exact .nothing
  | elseIf word inner ih => exact .elseIf word ih
  | @elseBlock s w l r ts word opening block closing ih =>
    simp only [List.map_cons, List.map_append]
    exact .elseBlock (w := Grammar.onFirstLine w) (l := Grammar.onFirstLine l)
      (r := Grammar.onFirstLine r) word opening ih closing
  | @fire w n z word name semicolon =>
    exact .fire (w := Grammar.onFirstLine w) (n := Grammar.onFirstLine n)
      (z := Grammar.onFirstLine z) word name semicolon
  | @fireWith w l n r z target args ts us word opening name goal arguments closing semicolon =>
    simp only [List.map_cons, List.map_append]
    exact .fireWith (w := Grammar.onFirstLine w) (l := Grammar.onFirstLine l)
      (n := Grammar.onFirstLine n) (r := Grammar.onFirstLine r) (z := Grammar.onFirstLine z) word
      opening name goal.onFirstLine arguments.onFirstLine closing semicolon
  | @change w n z word name semicolon =>
    exact .change (w := Grammar.onFirstLine w) (n := Grammar.onFirstLine n)
      (z := Grammar.onFirstLine z) word name semicolon
  | @changeTo w l n r z word opening name closing semicolon =>
    exact .changeTo (w := Grammar.onFirstLine w) (l := Grammar.onFirstLine l)
      (n := Grammar.onFirstLine n) (r := Grammar.onFirstLine r) (z := Grammar.onFirstLine z) word
      opening name closing semicolon
  | @block s l r ts opening inner closing ih =>
    simp only [List.map_cons, List.map_append]
    exact .block (l := Grammar.onFirstLine l) (r := Grammar.onFirstLine r) opening ih closing
  | @evaluate e z ts value semicolon =>
    rw [List.map_append]
    exact .evaluate (z := Grammar.onFirstLine z) value.onFirstLine semicolon

/-- The tokens of handlers are such on the first line as well. -/
theorem HandlerSpelling.onFirstLine {handlers : List Handler} {ts : List Token}
    (h : HandlerSpelling handlers ts) : HandlerSpelling handlers (ts.map onFirstLine) := by
  induction h with
  | nil => exact .nil
  | @cons w n l r body ts us handlers word name opening block closing rest ih =>
    simp only [List.map_cons, List.map_append]
    exact .cons (w := Grammar.onFirstLine w) (n := Grammar.onFirstLine n)
      (l := Grammar.onFirstLine l) (r := Grammar.onFirstLine r) word name opening
      block.onFirstLine closing ih

/-- The tokens of a state are such on the first line as well. -/
theorem StateSpelling.onFirstLine {s : State} {ts : List Token} (h : StateSpelling s ts) :
    StateSpelling s (ts.map onFirstLine) := by
  cases h with
  | @mk w n l r handlers ts word name opening inner closing =>
    simp only [List.map_cons, List.map_append]
    exact .mk (w := Grammar.onFirstLine w) (n := Grammar.onFirstLine n)
      (l := Grammar.onFirstLine l) (r := Grammar.onFirstLine r) word name opening
      inner.onFirstLine closing

/-- The tokens of the states of a machine are such on the first line as well. -/
theorem StatesSpelling.onFirstLine {states : List State} {ts : List Token}
    (h : StatesSpelling states ts) : StatesSpelling states (ts.map onFirstLine) := by
  induction h with
  | nil => exact .nil
  | cons head tail ih =>
    rw [List.map_append]
    exact .cons head.onFirstLine ih

/-- Where its tokens stand does not matter to what a source spells. -/
theorem FileSpelling.onFirstLine {f : File} {ts : List Token} (h : FileSpelling f ts) :
    FileSpelling f (ts.map onFirstLine) := by
  induction h with
  | nil => exact .nil
  | state head tail ih =>
    rw [List.map_append]
    exact .state head.onFirstLine ih
  | @machine w l r states f ts us word opening inner closing tail ih =>
    simp only [List.map_cons, List.map_append]
    exact .machine (w := Grammar.onFirstLine w) (l := Grammar.onFirstLine l)
      (r := Grammar.onFirstLine r) word opening inner.onFirstLine closing ih
  | @namedMachine w n l r states f ts us word name opening inner closing tail ih =>
    simp only [List.map_cons, List.map_append]
    exact .namedMachine (w := Grammar.onFirstLine w) (n := Grammar.onFirstLine n)
      (l := Grammar.onFirstLine l) (r := Grammar.onFirstLine r) word name opening
      inner.onFirstLine closing ih

/-- No handler begins in a name. -/
theorem Name.no_handler {name : String} {ts : List Token} (h : Name name ts) :
    occurrences .onEvent ts = 0 := by
  cases h <;> simp [*]

/-- No operator is written as the word that begins a handler. -/
theorem operatorKind_ne_onEvent (op : Operator) : operatorKind op ≠ .onEvent := by
  cases op <;> decide

/-- No handler begins in an expression. -/
theorem Phrase.no_handler {level : Compile.Level} {e : Expression} {ts : List Token}
    (h : Phrase level e ts) : occurrences .onEvent ts = 0 := by
  induction h with
  | var spelled => exact spelled.no_handler
  | assign target _ _ ih =>
    have := target.no_handler
    simp [*]
  | binary => simp [*, operatorKind_ne_onEvent]
  | number | vector | negatedVector | text | yes | no | group | component | negate | not | and
  | or => simp [*]

/-- No handler begins in a target. -/
theorem TargetSpelling.no_handler {target : Option Target} {ts : List Token}
    (h : TargetSpelling target ts) : occurrences .onEvent ts = 0 := by
  cases h <;> simp [*]

/-- No handler begins among arguments. -/
theorem ArgumentSpelling.no_handler {args : List (String × Expression)} {ts : List Token}
    (h : ArgumentSpelling args ts) : occurrences .onEvent ts = 0 := by
  induction h with
  | nil => rfl
  | cons _ _ _ value _ ih =>
    have := value.no_handler
    simp [*]

/-- No handler begins in an annotation. -/
theorem AnnotationSpelling.no_handler {type : Option String} {ts : List Token}
    (h : AnnotationSpelling type ts) : occurrences .onEvent ts = 0 := by
  cases h <;> simp [*]

/-- No handler begins in what a variable begins with. -/
theorem InitialSpelling.no_handler {init : Option Expression} {ts : List Token}
    (h : InitialSpelling init ts) : occurrences .onEvent ts = 0 := by
  cases h with
  | none => rfl
  | some _ value =>
    have := value.no_handler
    simp [*]

/-- No handler begins in a statement. -/
theorem Clause.no_handler {site : Site} {s : Statement} {ts : List Token} (h : Clause site s ts) :
    occurrences .onEvent ts = 0 := by
  induction h with
  | declare _ _ annotation initial _ =>
    have := annotation.no_handler
    have := initial.no_handler
    simp [*]
  | branch _ test _ _ _ _ _ _ =>
    have := test.no_handler
    simp [*]
  | fireWith _ _ _ goal arguments _ _ =>
    have := goal.no_handler
    have := arguments.no_handler
    simp [*]
  | evaluate value _ =>
    have := value.no_handler
    simp [*]
  | done | next | conditional | nothing | elseIf | elseBlock | fire | change | changeTo | block =>
    simp [*]

/-- As many handlers begin among the tokens of handlers as there are. -/
theorem HandlerSpelling.occurrences_eq {handlers : List Handler} {ts : List Token}
    (h : HandlerSpelling handlers ts) : occurrences .onEvent ts = handlers.length := by
  induction h with
  | nil => rfl
  | cons _ _ _ block _ _ ih =>
    have := block.no_handler
    simp [*]

/-- As many handlers begin in a state as it has. -/
theorem StateSpelling.occurrences_eq {s : State} {ts : List Token} (h : StateSpelling s ts) :
    occurrences .onEvent ts = s.entries.length := by
  cases h with
  | mk _ _ _ inner _ =>
    have := inner.occurrences_eq
    simp [*, State.entries]

/-- As many handlers begin in the states of a machine as they have together. -/
theorem StatesSpelling.occurrences_eq {states : List State} {ts : List Token}
    (h : StatesSpelling states ts) :
    occurrences .onEvent ts = (states.flatMap State.entries).length := by
  induction h with
  | nil => rfl
  | cons head _ ih =>
    have := head.occurrences_eq
    simp only [occurrences_append, List.flatMap_cons, List.length_append, *]

/-- A source has a handler for each `OnEvent`. -/
theorem FileSpelling.occurrences_eq {f : File} {ts : List Token} (h : FileSpelling f ts) :
    occurrences .onEvent ts = f.handlers.length := by
  have hcons (d : Declaration) (f : File) :
      File.handlers (d :: f) = d.states.flatMap State.entries ++ File.handlers f := by
    simp [File.handlers, File.states]
  induction h with
  | nil => rfl
  | state head _ ih =>
    have := head.occurrences_eq
    rw [hcons, List.length_append, occurrences_append, ih, this]
    simp [Declaration.states]
  | machine _ _ inner _ _ ih | namedMachine _ _ _ inner _ _ ih =>
    have := inner.occurrences_eq
    rw [hcons, List.length_append]
    simp [*, Declaration.states]

end EntityScript.Grammar
