import EntityScript.Proofs.Compile.ExpressionAccepted
import EntityScript.Proofs.Compile.StatementReading

/-!
# Every statement compiles

A legal statement of the grammar compiles without a problem wherever the draft is prepared for its
work. The one thing that what follows has to do with it is `else`, which would belong to a
conditional statement at its end.
-/

namespace EntityScript.Compile.Draft

open Grammar

variable {s s' : Draft} {rest : List Token}

/-- An annotation that is prepared for is noted with its type. -/
theorem Prepared.annotation {name : String} {type : Option String} {ts : List Token}
    (h : Prepared s ts rest (annotationWork name type)) (hts : AnnotationSpelling type ts)
    (htype : ∀ t, type = some t → (ValueType.ofName? t).isSome = true)
    (hnext : nextKind rest ≠ .colon) : ∃ s', s.annotation name = (some (annotatedType type), s') ∧
      Wrote s ts (annotationWork name type) s' := by
  unfold Draft.annotation
  cases hts with
  | none =>
    rw [accept_of_ne (by rw [h.upcoming]; exact hnext)]
    exact ⟨s, rfl, .refl h.ready⟩
  | @some c t colon kind =>
    obtain ⟨hw₁, -, h₁⟩ := h.advance
    obtain ⟨hw₂, hprevious, h₂⟩ := h₁.advance
    rw [h.accept colon]
    dsimp only
    rw [h₁.expect kind]
    dsimp only
    obtain ⟨type, hknown⟩ := Option.isSome_iff_exists.1 (htype _ rfl)
    have htyped : annotatedType (some t.lexeme) = some type := hknown
    have hwork : annotationWork name (some t.lexeme) = ⟨[], [], [(name, type)], []⟩ := by
      simp [annotationWork, htyped]
    rw [hwork] at h₂ ⊢
    have hdeclared : ∀ earlier, s.advance.advance.declared.get? name = some earlier →
        earlier = type :=
      fun earlier hearlier =>
        h₂.types name earlier type (.inl hearlier) (.inr (List.mem_singleton_self _))
    obtain ⟨hanswer, hw₃⟩ := h₂.ready.annotate_of_declared (hprevious ▸ hknown) hdeclared
    rcases heq : s.advance.advance.annotate name with ⟨answer, s₃⟩
    rw [heq] at hanswer hw₃
    obtain rfl : answer = some type := hanswer
    exact ⟨s₃, by rw [htyped], (hw₁.trans (hw₂.trans hw₃)).congr rfl rfl⟩

/-- What a variable begins with is written where it is prepared for. -/
theorem Prepared.initialValue {type : Option String} {init : Option Expression} {ts : List Token}
    (h : Prepared s ts rest (initialWork type init)) (hts : InitialSpelling init ts)
    (hlegal : ∀ e, init = some e → e.Legal) (hnext : nextKind rest = .semicolon) :
    Wrote s ts (initialWork type init) (s.initialValue (annotatedType type)) := by
  unfold Draft.initialValue
  cases hts with
  | none =>
    rw [accept_of_ne (by rw [h.upcoming, List.nil_append, hnext]; decide)]
    exact (Prepared.emitConstant (w := .none) h).1
  | @some e q ts sign value =>
    obtain ⟨hw₁, -, h₁⟩ := h.advance
    rw [h.accept sign]
    exact hw₁.trans (h₁.expression value (hlegal e rfl) (by rw [hnext]; rfl)
      (by rw [hnext]; decide))

/-- A variable is written where it is prepared for. -/
theorem Prepared.varTail {n z : Token} {type : Option String} {init : Option Expression}
    {ts us : List Token}
    (h : Prepared s (n :: (ts ++ (us ++ [z]))) rest (Statement.declare n.lexeme type init).work)
    (hn : n.kind = .identifier) (hts : AnnotationSpelling type ts) (hus : InitialSpelling init us)
    (hz : z.kind = .semicolon) (hlegal : (Statement.declare n.lexeme type init).Legal) :
    Wrote s (n :: (ts ++ (us ++ [z]))) (Statement.declare n.lexeme type init).work s.varTail := by
  rw [work_declare] at h ⊢
  obtain ⟨hw₁, hprevious, h₁⟩ := h.advance
  have hcolon : nextKind ((us ++ [z]) ++ rest) ≠ .colon := by
    cases hus with
    | none => exact fun heq => absurd (hz.symm.trans heq) (by decide)
    | some sign _ => exact fun heq => absurd (sign.symm.trans heq) (by decide)
  obtain ⟨s₂, heq, hw₂⟩ := Prepared.annotation h₁.first hts hlegal.2.1 hcolon
  have h₂ := h₁.second hw₂ rfl rfl
  have hw₃ := h₂.first.initialValue hus hlegal.2.2 hz
  have h₃ := h₂.second hw₃ rfl rfl
  obtain ⟨hw₄, hindex, hmem, h₄⟩ := h₃.intern
  have hset := hw₄.emitNamed (i := .setVariable n.lexeme) (fun _ => rfl) rfl trivial hmem hindex
  have hpop := hset.emitPlain (i := .pop) trivial rfl (fun _ => rfl)
  rw [Work.append_assoc] at hpop
  have h₅ := Prepared.second (a := []) (b := [z]) (w := .none)
    (h₃.congr rfl (Work.append_none _).symm) hpop rfl rfl
  obtain ⟨hw₅, -, -⟩ := h₅.advance
  have htail : s.varTail = (((s₂.initialValue (annotatedType type)).intern
      (.string n.lexeme)).2.emit (.setVariable ((s₂.initialValue (annotatedType type)).intern
        (.string n.lexeme)).1) |>.emit .pop).advance := by
    unfold Draft.varTail
    rw [h.expect hn]
    dsimp only
    rw [hprevious, if_neg hlegal.1, heq]
    dsimp only [internName]
    rw [h₅.expect hz]
  rw [htail]
  exact (hw₁.trans (hw₂.trans (hw₃.trans (hpop.trans hw₅)))).congr rfl
    (by simp [Work.append_def])

/-- An argument behind a comma is followed by the arguments to come. -/
theorem arguments_of_sees {a b : EventOperands} (h : s.sees .comma = true)
    (harg : argument a s.advance = (some b, s')) : arguments a s = arguments b s' := by
  rw [arguments, dif_pos h]
  split <;> simp_all

/-- There are no more arguments where no comma comes next. -/
theorem arguments_of_not_sees {a : EventOperands} (h : ¬ s.sees .comma = true) :
    arguments a s = (some a, s) := by
  rw [arguments, dif_neg h]

/-- What may stand behind a target or an argument. -/
def endsArgument (kind : Token.Kind) : Prop := kind = .comma ∨ kind = .rightParen

/-- What ends an argument is no equals sign. -/
theorem endsArgument.ne_equal {kind : Token.Kind} (h : endsArgument kind) : kind ≠ .equal := by
  rcases h with rfl | rfl <;> decide

/-- What ends an argument continues no phrase. -/
theorem endsArgument.ofKind? {kind : Token.Kind} (h : endsArgument kind) :
    Continuation.ofKind? kind = none := by
  rcases h with rfl | rfl <;> rfl

/-- The arguments to come, or the closing parenthesis, end an argument. -/
theorem endsArgument_of_spelling {args : List (String × Expression)} {us : List Token}
    (hus : ArgumentSpelling args us) (hnext : nextKind rest = .rightParen) :
    endsArgument (nextKind (us ++ rest)) := by
  cases hus with
  | nil => exact .inr hnext
  | cons comma _ _ _ _ => exact .inl comma

/-- One argument, behind its comma. -/
theorem Prepared.argument {n q : Token} {e : Expression} {ts : List Token} (a : EventOperands)
    (h : Prepared s (n :: q :: ts) rest (.push (.string n.lexeme) ++ e.work))
    (hn : n.kind = .identifier) (hq : q.kind = .equal) (hp : Phrase .assignment e ts)
    (hl : e.Legal) (hnext : endsArgument (nextKind rest)) :
    Draft.argument a s = (some { a with count := a.count + 1 },
        (s.advance.advance.emitConstant (.string n.lexeme)).expression) ∧
      Wrote s (n :: q :: ts) (.push (.string n.lexeme) ++ e.work)
        (s.advance.advance.emitConstant (.string n.lexeme)).expression := by
  obtain ⟨hw₁, hprevious, h₁⟩ := h.advance
  obtain ⟨hw₂, -, h₂⟩ := h₁.advance
  obtain ⟨hw₃, h₃⟩ := h₂.emitConstant
  have hw₄ := h₃.expression hp hl hnext.ofKind? hnext.ne_equal
  refine ⟨?_, (hw₁.trans (hw₂.trans (hw₃.trans hw₄))).congr rfl rfl⟩
  unfold Draft.argument
  have hstring : ¬ (s.sees .string && a.mayTarget) = true := by
    rw [Draft.sees, h.current, hn]
    simp
  rw [if_neg hstring, h.accept hn]
  dsimp only
  rw [h₁.accept hq, hprevious]

/-- Arguments that are prepared for are written and counted. -/
theorem Prepared.arguments {args : List (String × Expression)} {us : List Token}
    (hus : ArgumentSpelling args us) (hlegal : ∀ x ∈ args, x.2.Legal)
    (hnext : nextKind rest = .rightParen) :
    ∀ {s : Draft} (a : EventOperands), Prepared s us rest (argumentsWork args) →
      ∃ s', Draft.arguments a s = (some { a with count := a.count + args.length }, s') ∧
        Wrote s us (argumentsWork args) s' := by
  induction hus with
  | nil =>
    intro s a h
    have hsees : ¬ s.sees .comma = true := by
      refine sees_of_ne ?_
      rw [h.upcoming, List.nil_append, hnext]
      decide
    exact ⟨s, arguments_of_not_sees hsees, .refl h.ready⟩
  | @cons c n q e ts us args comma name sign value rest' ih =>
    intro s a h
    rw [argumentsWork_cons] at h ⊢
    obtain ⟨hw₁, -, h₁⟩ := h.advance
    have h₁' := h₁.congr (a := (n :: q :: ts) ++ us) rfl rfl
    obtain ⟨hone, hw₂⟩ := h₁'.first.argument a name sign value (hlegal (n.lexeme, e)
      List.mem_cons_self) (endsArgument_of_spelling rest' hnext)
    obtain ⟨s', heq, hw₃⟩ := ih (fun x hx => hlegal x (List.mem_cons_of_mem _ hx)) _
      (h₁'.second hw₂ rfl rfl)
    refine ⟨s', ?_, (hw₁.trans (hw₂.trans hw₃)).congr rfl rfl⟩
    rw [arguments_of_sees (h.sees comma) hone, heq]
    simp [Nat.add_assoc, Nat.add_comm 1]

/-- A target, behind its comma. -/
theorem Prepared.target {target : Target} {c t : Token} {a : EventOperands}
    (h : Prepared s [t] rest (targetWork (some target)))
    (hts : TargetSpelling (some target) [c, t]) (hr : target.Legal)
    (hmay : a.mayTarget = true) (hnext : endsArgument (nextKind rest)) :
    ∃ s', Draft.argument a s = (some { a with targeted := true }, s') ∧
      Wrote s [t] (targetWork (some target)) s' := by
  obtain ⟨hw₁, hprevious, h₁⟩ := h.advance
  obtain ⟨hw₂, -⟩ := Prepared.emitConstant (w := .none) h₁
  refine ⟨s.advance.emitConstant (.string target.text), ?_, hw₁.trans hw₂⟩
  unfold Draft.argument
  cases hts with
  | named comma kind =>
    have hstring : ¬ (s.sees .string && a.mayTarget) = true := by
      rw [Draft.sees, h.current, kind]
      simp
    rw [if_neg hstring, h.accept kind]
    dsimp only
    rw [accept_of_ne (by rw [h₁.upcoming]; exact hnext.ne_equal), hprevious]
    dsimp only
    rw [if_pos hmay]
    rfl
  | quoted comma kind =>
    rw [if_pos (by rw [h.sees kind, hmay]; rfl)]
    dsimp only
    have hread : readText t.lexeme = .ok (Target.quoted t.lexeme).text := 
      Target.read_eq_text ((Target.readable_iff_legal _).2 hr)
    rw [hprevious, hread]

/-- A target and arguments that are prepared for are written and counted. -/
theorem Prepared.targetAndArguments {target : Option Target} {args : List (String × Expression)}
    {ts us : List Token} (h : Prepared s (ts ++ us) rest (targetWork target ++ argumentsWork args))
    (hts : TargetSpelling target ts) (hus : ArgumentSpelling args us)
    (htarget : ∀ t, target = some t → t.Legal) (hargs : ∀ x ∈ args, x.2.Legal)
    (hnext : nextKind rest = .rightParen) :
    ∃ s', Draft.arguments .none s = (some ⟨target.isSome, args.length⟩, s') ∧
      Wrote s (ts ++ us) (targetWork target ++ argumentsWork args) s' := by
  have hone : ∀ {target : Target} {c t : Token} {ts : List Token},
      TargetSpelling (some target) ts → ts = [c, t] → c.kind = .comma → target.Legal →
      Prepared s ([c, t] ++ us) rest (targetWork (some target) ++ argumentsWork args) →
      ∃ s', Draft.arguments .none s = (some ⟨true, args.length⟩, s') ∧
        Wrote s ([c, t] ++ us) (targetWork (some target) ++ argumentsWork args) s' := by
    intro target c t ts hts heq comma hr h
    subst heq
    obtain ⟨hw₁, -, h₁⟩ := h.advance
    have h₁' := h₁.congr (a := [t] ++ us) rfl rfl
    obtain ⟨s₂, harg, hw₂⟩ := h₁'.first.target hts hr (a := .none) rfl
      (endsArgument_of_spelling hus hnext)
    obtain ⟨s₃, heq, hw₃⟩ := Prepared.arguments hus hargs hnext { EventOperands.none with
      targeted := true } (h₁'.second hw₂ rfl rfl)
    refine ⟨s₃, ?_, (hw₁.trans (hw₂.trans hw₃)).congr rfl rfl⟩
    rw [arguments_of_sees (h.sees comma) harg, heq]
    simp [EventOperands.none]
  cases hts with
  | none =>
    obtain ⟨s', heq, hw⟩ := Prepared.arguments hus hargs hnext .none h
    refine ⟨s', ?_, hw⟩
    rw [heq]
    simp [EventOperands.none]
  | named comma kind => exact hone (.named comma kind) rfl comma (htarget _ rfl) h
  | quoted comma kind => exact hone (.quoted comma kind) rfl comma (htarget _ rfl) h

/-- A statement that fires an event, from its name on, whatever its operands are. -/
theorem Prepared.fireName {n z : Token} {target : Option Target}
    {args : List (String × Expression)} {a : List Token} {p : Bool}
    (h : Prepared s (n :: (a ++ [z])) rest (Statement.fire n.lexeme target args).work)
    (hn : n.kind = .identifier) (hz : z.kind = .semicolon)
    (hlist : ∀ t, Prepared t a (z :: rest) (targetWork target ++ argumentsWork args) →
      ∃ t', argumentList p t = (some ⟨target.isSome, args.length⟩, t') ∧
        Wrote t a (targetWork target ++ argumentsWork args) t') :
    Wrote s (n :: (a ++ [z])) (Statement.fire n.lexeme target args).work
      (Draft.fireName p s) := by
  rw [work_fire, Work.append_assoc] at h ⊢
  obtain ⟨hw₁, hprevious, h₁⟩ := h.advance
  obtain ⟨hw₂, hindex, hmem, h₂⟩ := h₁.intern
  obtain ⟨s₃, heq, hw₃⟩ := hlist _ h₂.first
  have h₃ := h₂.second hw₃ rfl rfl
  obtain ⟨hw₄, -, h₄⟩ := h₃.advance
  have hcount : args.length ≤ 255 :=
    h₄.fits (.fireEvent n.lexeme target.isSome args.length) (by simp)
  have hw₃₄ := hw₃.trans hw₄
  have hw₅ := hw₄.emitNamed (i := .fireEvent n.lexeme target.isSome args.length)
    (f := fun index => .fireEvent index
      (if target.isSome then Instruction.targetFlag else 0) (UInt8.ofNat args.length))
    (fun _ => rfl) rfl hcount (hw₃₄.mem_pool hmem) (hindex.trans (hw₃₄.slot hmem).symm)
  have hfire : Draft.fireName p s = s₃.advance.emit (.fireEvent
      (s.advance.intern (.string n.lexeme)).1
      (if target.isSome then Instruction.targetFlag else 0) (UInt8.ofNat args.length)) := by
    unfold Draft.fireName
    rw [h.expect hn]
    dsimp only [internName]
    rw [hprevious, heq]
    dsimp only
    rw [if_pos (Nat.lt_succ_of_le hcount), h₃.expect hz]
  rw [hfire]
  exact (hw₁.trans (hw₂.trans (hw₃.trans hw₅))).congr rfl (by simp [Work.append_def])

/-- An event without anything else is fired where it is prepared for. -/
theorem Prepared.fireTail {n z : Token}
    (h : Prepared s [n, z] rest (Statement.fire n.lexeme none []).work)
    (hn : n.kind = .identifier) (hz : z.kind = .semicolon) :
    Wrote s [n, z] (Statement.fire n.lexeme none []).work s.fireTail := by
  have hparen : nextKind s.upcoming ≠ .leftParen := by
    rw [h.upcoming]
    exact fun heq => absurd (hn.symm.trans heq) (by decide)
  rw [fireTail_eq, accept_of_ne hparen]
  exact Prepared.fireName (a := []) h hn hz fun t ht => ⟨t, rfl, .refl ht.ready⟩

/-- An event with its target and arguments is fired where it is prepared for. -/
theorem Prepared.fireTail_with {l n r z : Token} {target : Option Target}
    {args : List (String × Expression)} {ts us : List Token}
    (h : Prepared s (l :: n :: (ts ++ (us ++ [r, z]))) rest
      (Statement.fire n.lexeme target args).work)
    (hl : l.kind = .leftParen) (hn : n.kind = .identifier) (hts : TargetSpelling target ts)
    (hus : ArgumentSpelling args us) (hr : r.kind = .rightParen) (hz : z.kind = .semicolon)
    (hlegal : (Statement.fire n.lexeme target args).Legal) :
    Wrote s (l :: n :: (ts ++ (us ++ [r, z]))) (Statement.fire n.lexeme target args).work
      s.fireTail := by
  obtain ⟨hw₁, -, h₁⟩ := h.advance
  rw [fireTail_eq, h.accept hl]
  have hsplit : n :: (ts ++ (us ++ [r, z])) = n :: ((ts ++ us ++ [r]) ++ [z]) := by simp
  rw [hsplit] at h₁
  have hw₂ := Prepared.fireName (p := true) h₁ hn hz fun t ht => by
    rw [← Work.append_none (targetWork target ++ argumentsWork args)] at ht
    obtain ⟨t₁, heq, hv₁⟩ := ht.first.targetAndArguments hts hus hlegal.1 hlegal.2 hr
    have ht₁ := ht.second hv₁ rfl rfl
    obtain ⟨hv₂, -, -⟩ := ht₁.advance
    refine ⟨t₁.advance, ?_, (hv₁.trans hv₂).congr rfl (Work.append_none _)⟩
    unfold argumentList
    rw [if_pos rfl, heq]
    dsimp only
    rw [ht₁.expect hr]
  exact (hw₁.trans hw₂).congr (by simp) rfl

/-- A statement that changes the state, from its name on. -/
theorem Prepared.changeName {n z : Token} {a : List Token} {p : Bool}
    (h : Prepared s (n :: (a ++ [z])) rest (Statement.change n.lexeme).work)
    (hn : n.kind = .identifier) (hz : z.kind = .semicolon)
    (hclose : ∀ t, Prepared t a (z :: rest) .none →
      ∃ t', closeName p t = (true, t') ∧ Wrote t a .none t') :
    Wrote s (n :: (a ++ [z])) (Statement.change n.lexeme).work
      (Draft.changeName p s) := by
  have hwork : (Statement.change n.lexeme).work = ⟨[], [], [], [n.lexeme]⟩
      ++ (.intern (.string n.lexeme) ++ (.none ++ .emit [.changeState n.lexeme])) := rfl
  rw [hwork] at h ⊢
  obtain ⟨hw₁, hprevious, h₁⟩ := h.advance
  have hw₂ := h₁.ready.noteTarget
  rw [hprevious] at hw₂
  have h₂ := Prepared.second (a := []) h₁ hw₂ rfl rfl
  obtain ⟨hw₃, hindex, hmem, h₃⟩ := h₂.intern
  obtain ⟨s₄, heq, hw₄⟩ := hclose _ h₃.first
  have h₄ := h₃.second hw₄ rfl rfl
  obtain ⟨hw₅, -, -⟩ := h₄.advance
  have hw₄₅ := hw₄.trans hw₅
  have hw₆ := hw₅.emitNamed (i := .changeState n.lexeme) (fun _ => rfl) rfl trivial
    (hw₄₅.mem_pool hmem) (hindex.trans (hw₄₅.slot hmem).symm)
  have hchange : Draft.changeName p s = s₄.advance.emit
      (.changeState (s.advance.noteTarget.intern (.string n.lexeme)).1) := by
    unfold Draft.changeName
    rw [h.expect hn]
    dsimp only [internName]
    rw [hprevious, heq]
    dsimp only
    rw [h₄.expect hz]
  rw [hchange]
  exact (hw₁.trans (hw₂.trans (hw₃.trans (hw₄.trans hw₆)))).congr rfl rfl

/-- A change of state without parentheses is written where it is prepared for. -/
theorem Prepared.changeTail {n z : Token}
    (h : Prepared s [n, z] rest (Statement.change n.lexeme).work) (hn : n.kind = .identifier)
    (hz : z.kind = .semicolon) : Wrote s [n, z] (Statement.change n.lexeme).work s.changeTail := by
  have hparen : nextKind s.upcoming ≠ .leftParen := by
    rw [h.upcoming]
    exact fun heq => absurd (hn.symm.trans heq) (by decide)
  rw [changeTail_eq, accept_of_ne hparen]
  exact Prepared.changeName (a := []) h hn hz fun t ht => ⟨t, rfl, .refl ht.ready⟩

/-- A change of state in parentheses is written where it is prepared for. -/
theorem Prepared.changeTail_to {l n r z : Token}
    (h : Prepared s [l, n, r, z] rest (Statement.change n.lexeme).work) (hl : l.kind = .leftParen)
    (hn : n.kind = .identifier) (hr : r.kind = .rightParen) (hz : z.kind = .semicolon) :
    Wrote s [l, n, r, z] (Statement.change n.lexeme).work s.changeTail := by
  obtain ⟨hw₁, -, h₁⟩ := h.advance
  rw [changeTail_eq, h.accept hl]
  refine hw₁.trans (Prepared.changeName (a := [r]) (p := true) h₁ hn hz ?_)
  intro t ht
  refine ⟨t.advance, ?_, ht.advance.1⟩
  unfold closeName
  rw [if_pos rfl, ht.expect hr]

/-- An expression that is a statement is written where it is prepared for, and its value dropped. -/
theorem Prepared.expressionStatement {e : Expression} {z : Token} {ts : List Token}
    (h : Prepared s (ts ++ [z]) rest (Statement.evaluate e).work) (hp : Phrase .assignment e ts)
    (hz : z.kind = .semicolon) (hl : e.Legal) :
    Wrote s (ts ++ [z]) (Statement.evaluate e).work s.expressionStatement := by
  have hwork : (Statement.evaluate e).work = e.work ++ .emit [.pop] := by
    simp [Statement.work, Expression.work, Statement.constants, Statement.code,
      Statement.annotations, Statement.targets]
  rw [hwork] at h ⊢
  have hnext : nextKind ([z] ++ rest) = .semicolon := hz
  have hw₁ := h.first.expression hp hl (by rw [hnext]; rfl) (by rw [hnext]; decide)
  have h₁ := h.second hw₁ rfl rfl
  obtain ⟨hw₂, -, -⟩ := h₁.advance
  unfold Draft.expressionStatement
  rw [h₁.expect hz]
  exact (hw₁.trans hw₂).emitPlain (i := .pop) trivial rfl (fun _ => rfl) |>.congr rfl
    (by simp [Work.append_def])

/-- A word or a brace that begins a statement, or the first token of an expression. -/
def beginsStatement (kind : Token.Kind) : Prop :=
  beginsOther kind = true ∨ (Operand.ofKind? kind).isSome = true

/-- A token that begins a statement ends no block. -/
theorem beginsStatement.not_ends {kind : Token.Kind} (h : beginsStatement kind) :
    ¬ endsBlock kind = true := by
  rcases h with h | h <;> cases kind <;> revert h <;> decide

/-- A token that begins a statement begins no other branch. -/
theorem beginsStatement.ne_else {kind : Token.Kind} (h : beginsStatement kind) :
    kind ≠ .elseWord := by
  rcases h with h | h <;> cases kind <;> revert h <;> decide

/-- A token that begins an operand begins a statement of no other kind. -/
theorem not_beginsOther_of_isSome {kind : Token.Kind} (h : (Operand.ofKind? kind).isSome = true) :
    ¬ beginsOther kind = true := by
  cases kind <;> revert h <;> decide

/-- A statement has a first token, and that begins a statement. -/
theorem exists_begin_of_clause {stmt : Statement} {ts : List Token}
    (h : Clause .statement stmt ts) : ∃ t us, ts = t :: us ∧ beginsStatement t.kind := by
  cases h with
  | declare word _ _ _ _ | fire word _ _ | fireWith word _ _ _ _ _ _ | change word _ _
  | changeTo word _ _ _ _ => exact ⟨_, _, rfl, .inl (by rw [word]; rfl)⟩
  | block opening _ _ => exact ⟨_, _, rfl, .inl (by rw [opening]; rfl)⟩
  | conditional inner =>
    cases inner with
    | branch word _ _ _ _ _ => exact ⟨_, _, rfl, .inl (by rw [word]; rfl)⟩
  | evaluate value _ =>
    obtain ⟨t, us, rfl, ht⟩ := exists_operand_of_phrase value
    exact ⟨t, _, rfl, .inr ht⟩

/-- The first token behind a statement of a block is no `else`. -/
theorem nextKind_of_body {stmt : Statement} {ts : List Token} {r : Token}
    (h : Clause .body stmt ts) (hr : r.kind = .rightBrace) :
    nextKind (ts ++ r :: rest) ≠ .elseWord := by
  cases h with
  | done => exact fun heq => absurd (hr.symm.trans heq) (by decide)
  | next head _ =>
    obtain ⟨t, us, rfl, ht⟩ := exists_begin_of_clause head
    exact ht.ne_else

/-- What it means that a clause compiles, by the site that it has. -/
def Compiles : Site → Statement → List Token → Prop
  | .statement, stmt, ts => ∀ s rest, Prepared s ts rest stmt.work →
    nextKind rest ≠ .elseWord → Wrote s ts stmt.work s.statement.1
  | .body, stmt, ts => ∀ s r rest, r.kind = .rightBrace → Prepared s (ts ++ [r]) rest stmt.work →
    Wrote s (ts ++ [r]) stmt.work s.blockBody.1
  | .conditional, stmt, ts => ∀ s rest w us, ts = w :: us → Prepared s us rest stmt.work →
    nextKind rest ≠ .elseWord → Wrote s us stmt.work s.ifTail.1
  | .alternative, stmt, ts => ∀ s rest, Prepared s ts rest stmt.work →
    nextKind rest ≠ .elseWord → Wrote s ts stmt.work s.elseTail.1

/-- A statement that compiles may stand in front of a body that does. -/
theorem Compiles.next {first rest : Statement} {ts us : List Token}
    (head : Clause .statement first ts) (tail : Clause .body rest us)
    (ih₁ : Compiles .statement first ts) (ih₂ : Compiles .body rest us) :
    Compiles .body (.seq first rest) (ts ++ us) := by
  intro s r more hr h
  obtain ⟨t, vs, hts, hbegin⟩ := exists_begin_of_clause head
  have hcurrent : s.current.kind = t.kind := by
    rw [current_kind, h.upcoming, hts]
    rfl
  rw [blockBody_of_not_ends (by rw [hcurrent]; exact hbegin.not_ends)]
  have h' := h.congr (a := ts ++ (us ++ [r])) (by simp) (v := first.work ++ rest.work) rfl
  have hnext : nextKind ((us ++ [r]) ++ more) ≠ .elseWord := by
    rw [List.append_assoc]
    exact nextKind_of_body tail hr
  have hw₁ := ih₁ s _ h'.first hnext
  have hrecover : s.statement.1.recover = s.statement.1 := by
    simp [recover, hw₁.ready.panicking]
  rw [hrecover]
  exact (hw₁.trans (ih₂ _ r more hr (h'.second hw₁ rfl rfl))).congr (by simp) rfl

/-- A conditional statement compiles if its branches do. -/
theorem Compiles.branch {condition : Expression} {whenTrue whenFalse : Statement}
    {w l r : Token} {ts us vs : List Token} (test : Phrase .assignment condition ts)
    (opening : l.kind = .leftBrace) (closing : r.kind = .rightBrace)
    (ih₁ : Compiles .body whenTrue us) (ih₂ : Compiles .alternative whenFalse vs)
    (hlegal : condition.Legal) :
    Compiles .conditional (.branch condition whenTrue whenFalse)
      (w :: (ts ++ l :: (us ++ r :: vs))) := by
  rintro s rest _ _ ⟨⟩ h hnext
  have hwork : (Statement.branch condition whenTrue whenFalse).work = condition.work ++
      (.emit [.jumpIfFalse (1 + codeSize whenTrue.code + 3), .pop] ++ (whenTrue.work ++
        (.emit [.jump (1 + codeSize whenFalse.code), .pop] ++ whenFalse.work))) := by
    simp [Statement.work, Expression.work, Statement.constants, Statement.code,
      Statement.branchCode, Statement.annotations, Statement.targets]
  have hfits₁ : codeSize (.pop :: whenTrue.code) + 3 ≤ 65535 :=
    h.fits (.jumpIfFalse (1 + codeSize whenTrue.code + 3)) (by rw [hwork]; simp [Work.append_def])
  have hfits₂ : codeSize (.pop :: whenFalse.code) ≤ 65535 :=
    h.fits (.jump (1 + codeSize whenFalse.code)) (by rw [hwork]; simp [Work.append_def])
  have h₀ := h.congr (a := ts ++ (l :: ((us ++ [r]) ++ vs))) (by simp) hwork
  have hbrace : nextKind (l :: ((us ++ [r]) ++ vs) ++ rest) = .leftBrace := opening
  have hw₁ := h₀.first.expression test hlegal (by rw [hbrace]; rfl) (by rw [hbrace]; decide)
  have h₁ := h₀.second hw₁ rfl rfl
  obtain ⟨hotherwise, hw₂⟩ := hw₁.beginBranch
  have hbegin := (Wrote.refl hw₁.ready).beginBranch.2
  have h₂ := Prepared.second (a := []) h₁ hbegin rfl rfl
  obtain ⟨hw₃, -, h₃⟩ := h₂.advance
  have hw₄ := ih₁ _ r _ closing h₃.first
  have h₄ := h₃.second hw₄ rfl rfl
  have hoperand₁ : s.expression.beginBranch.1
      = s.written.length + codeSize condition.code + 1 := by
    rw [hotherwise, hw₁.length_written]
    rfl
  obtain ⟨hdone, hfit₁, -⟩ := (hw₂.trans (hw₃.trans hw₄)).switchBranch (a := condition.code)
    (b := .pop :: whenTrue.code)
    (by simp [Work.append_def, Expression.work, Statement.work]) hoperand₁
  have hw₅ := hfit₁ hfits₁
  -- The jump is corrected in what was written before, so the other branch is prepared from `s` on.
  have hwhole : Prepared s ((ts ++ ([l] ++ (us ++ [r]))) ++ vs) rest
      ((condition.work ++ (.emit [.jumpIfFalse (1 + codeSize whenTrue.code + 3), .pop]
        ++ (whenTrue.work ++ .emit [.jump (1 + codeSize whenFalse.code), .pop])))
        ++ whenFalse.work) :=
    h₀.congr (by simp) (by simp [Work.append_def])
  have hw₆ := ih₂ _ rest (hwhole.second hw₅ (by simp [Work.append_def])
    (by simp [Work.append_def])) hnext
  have hoperand₂ : (s.expression.beginBranch.2.advance.blockBody.1.switchBranch
      s.expression.beginBranch.1).1 = s.written.length + codeSize (condition.code
        ++ [.jumpIfFalse (codeSize (.pop :: whenTrue.code) + 3)] ++ .pop :: whenTrue.code)
        + 1 := by
    rw [hdone, (hw₂.trans (hw₃.trans hw₄)).length_written]
    simp [Work.append_def, Expression.work, Statement.work, Symbolic.size, Nat.add_assoc]
  have hw₇ := ((hw₅.trans hw₆).patch .jump
    (a := condition.code ++ [.jumpIfFalse (codeSize (.pop :: whenTrue.code) + 3)]
      ++ .pop :: whenTrue.code) (b := .pop :: whenFalse.code)
    (by simp [Work.append_def, Statement.work]) hoperand₂).1 hfits₂
  have htail : s.ifTail.1 = (s.expression.beginBranch.2.advance.blockBody.1.switchBranch
      s.expression.beginBranch.1).2.elseTail.1.patchJump
        (s.expression.beginBranch.2.advance.blockBody.1.switchBranch
          s.expression.beginBranch.1).1 := by
    rw [ifTail_eq]
    exact if_pos (h₂.sees opening)
  rw [htail]
  refine hw₇.congr (by simp) ?_
  simp [Work.append_def, Expression.work, Statement.work, Statement.constants, Statement.code,
    Statement.branchCode, Statement.annotations, Statement.targets, Symbolic.size]

/-- Every legal clause compiles. -/
theorem Compiles.of_clause {site : Site} {stmt : Statement} {ts : List Token}
    (h : Clause site stmt ts) (hl : stmt.Legal) : Compiles site stmt ts := by
  -- The words that a statement begins with choose the function that reads the rest of it.
  induction h with
  | done =>
    intro s r rest hr h
    have hkind : s.current.kind = .rightBrace := by rw [h.current, hr]
    rw [blockBody_of_ends (by rw [hkind]; rfl), h.expect hr]
    exact h.advance.1
  | next head tail ih₁ ih₂ => exact .next head tail (ih₁ hl.1) (ih₂ hl.2)
  | declare word name annotation initial semicolon =>
    intro s rest h _
    obtain ⟨hw, -, h₁⟩ := h.advance
    rw [statement_var (by rw [h.current, word])]
    exact hw.trans (h₁.varTail name annotation initial semicolon hl)
  | branch _ test opening _ closing _ ih₁ ih₂ =>
    exact .branch test opening closing (ih₁ hl.2.1) (ih₂ hl.2.2) hl.1
  | conditional inner ih =>
    intro s rest h hnext
    cases inner with
    | branch word _ _ _ _ _ =>
      obtain ⟨hw, -, h₁⟩ := h.advance
      rw [statement_if (by rw [h.current, word])]
      exact hw.trans (ih hl s.advance rest _ _ rfl h₁ hnext)
  | nothing =>
    intro s rest h hnext
    rw [elseTail_eq, accept_of_ne (by rw [h.upcoming]; exact hnext)]
    exact .refl h.ready
  | elseIf word inner ih =>
    intro s rest h hnext
    cases inner with
    | branch wordIf _ _ _ _ _ =>
      obtain ⟨hw₁, -, h₁⟩ := h.advance
      obtain ⟨hw₂, -, h₂⟩ := h₁.advance
      rw [elseTail_eq, h.accept word]
      dsimp only
      rw [if_pos (h₁.sees wordIf)]
      exact hw₁.trans (hw₂.trans (ih hl _ rest _ _ rfl h₂ hnext))
  | elseBlock word opening _ closing ih =>
    intro s rest h hnext
    obtain ⟨hw₁, -, h₁⟩ := h.advance
    obtain ⟨hw₂, -, h₂⟩ := h₁.advance
    have hif : ¬ s.advance.sees .ifWord = true := by
      rw [Draft.sees, h₁.current, opening]
      decide
    rw [elseTail_eq, h.accept word]
    dsimp only
    rw [if_neg hif, if_pos (h₁.sees opening)]
    exact hw₁.trans (hw₂.trans (ih hl _ _ rest closing h₂))
  | fire word name semicolon =>
    intro s rest h _
    obtain ⟨hw, -, h₁⟩ := h.advance
    rw [statement_fire (by rw [h.current, word])]
    exact hw.trans (h₁.fireTail name semicolon)
  | fireWith word opening name goal arguments closing semicolon =>
    intro s rest h _
    obtain ⟨hw, -, h₁⟩ := h.advance
    rw [statement_fire (by rw [h.current, word])]
    exact hw.trans (h₁.fireTail_with opening name goal arguments closing semicolon hl)
  | change word name semicolon =>
    intro s rest h _
    obtain ⟨hw, -, h₁⟩ := h.advance
    rw [statement_change (by rw [h.current, word])]
    exact hw.trans (h₁.changeTail name semicolon)
  | changeTo word opening name closing semicolon =>
    intro s rest h _
    obtain ⟨hw, -, h₁⟩ := h.advance
    rw [statement_change (by rw [h.current, word])]
    exact hw.trans (h₁.changeTail_to opening name closing semicolon)
  | block opening _ closing ih =>
    intro s rest h _
    obtain ⟨hw, -, h₁⟩ := h.advance
    rw [statement_block (by rw [h.current, opening])]
    exact hw.trans (ih hl _ _ rest closing h₁)
  | evaluate value semicolon =>
    intro s rest h _
    obtain ⟨t, us, hts, ht⟩ := exists_operand_of_phrase value
    have hcurrent : s.current.kind = t.kind := by
      rw [current_kind, h.upcoming, hts]
      rfl
    rw [statement_expression (by rw [hcurrent]; exact not_beginsOther_of_isSome ht)]
    exact h.expressionStatement value semicolon hl

/-- A legal block compiles to its end. -/
theorem Prepared.blockBody {stmt : Statement} {ts : List Token} {r : Token}
    (h : Prepared s (ts ++ [r]) rest stmt.work) (hc : Clause .body stmt ts)
    (hr : r.kind = .rightBrace) (hl : stmt.Legal) :
    Wrote s (ts ++ [r]) stmt.work s.blockBody.1 :=
  Compiles.of_clause hc hl s r rest hr h

end EntityScript.Compile.Draft
