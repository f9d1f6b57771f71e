import EntityScript.Proofs.Compile.ExpressionReading
import EntityScript.Proofs.Compile.Prepared

/-!
# Every expression compiles

A legal expression of the grammar compiles without a problem wherever the draft is prepared for its
work and nothing behind it belongs to it.

The statement that carries the induction does not speak of the level at which the phrase is
compiled. A phrase of a level may stand at the front of a longer one of a looser level; what is
said is that compiling from its first token on comes to the place behind it, and that only what
follows remains to be done (`Accepted.of_phrase`).
-/

namespace EntityScript.Compile

open Grammar

/-- A looser level has no higher edge. -/
theorem Level.edge_le_edge {l m : Level} (h : l ≤ m) : l.edge ≤ m.edge := by
  cases l <;> cases m <;> first | decide | exact absurd h (by decide)

/-- What follows a phrase of a level follows one of a tighter level too. -/
theorem Follows.mono {l m : Level} {kind : Token.Kind} (h : Follows l kind) (hl : l ≤ m) :
    Follows m kind :=
  fun c hc => Nat.lt_of_lt_of_le (h c hc) (Level.edge_le_edge hl)

/-- What follows an assignment stops the chain behind it. -/
theorem Follows.stops_assignment {kind : Token.Kind} (h : Follows .assignment kind) :
    Stops .assignment kind := by
  intro c hc
  have hlt : c.level.rank < 1 := h c hc
  cases c with
  | binary op => cases op <;> exact absurd hlt (by decide)
  | or | and | component => exact absurd hlt (by decide)

/-- What follows a disjunction stops the chain behind it. -/
theorem Follows.stops_or {kind : Token.Kind} (h : Follows .or kind) : Stops .or kind :=
  fun c hc => Nat.not_le_of_lt (h c hc)

/-- What follows a conjunction stops the chain behind it. -/
theorem Follows.stops_and {kind : Token.Kind} (h : Follows .and kind) : Stops .and kind :=
  fun c hc => Nat.not_le_of_lt (h c hc)

/-- What follows an operand with its signs stops the chain behind it. -/
theorem Follows.stops_unary {kind : Token.Kind} (h : Follows .unary kind) :
    Stops .unary kind := by
  intro c hc
  have hlt : c.level.rank < 8 := h c hc
  cases c with
  | binary op => cases op <;> decide
  | or | and => decide
  | component => exact absurd hlt (by decide)

/-- What follows an operation of the operator stops the chain behind its right operand. -/
theorem Follows.stops_operator {kind : Token.Kind} {op : Operator}
    (h : Follows (operatorLevel op) kind) : Stops (rightLevel op) kind := by
  intro c hc
  have hlt := h c hc
  have hedge : (operatorLevel op).edge = (rightLevel op).rank := by cases op <;> rfl
  rw [hedge] at hlt
  exact Nat.not_le_of_lt hlt

/-- A token that continues nothing follows a phrase of any level. -/
theorem follows_of_none {l : Level} {kind : Token.Kind} (h : Continuation.ofKind? kind = none) :
    Follows l kind :=
  fun c hc => by rw [h] at hc; cases hc

/-- The token of an operator continues a phrase with that operator. -/
theorem ofKind?_operatorKind (op : Operator) :
    Continuation.ofKind? (operatorKind op) = some (.binary op) := by
  cases op <;> rfl

/-- No operator is written as an equals sign. -/
theorem operatorKind_ne_equal (op : Operator) : operatorKind op ≠ .equal := by
  cases op <;> decide

namespace Draft

variable {s s' : Draft} {rest : List Token}

/-- Continuations that stop leave the draft alone. -/
theorem continuations_of_stops {level : Level} (h : Stops level s.current.kind) :
    (continuations level s).1 = s := by
  cases hc : Continuation.ofKind? s.current.kind with
  | none => exact continuations_of_none hc
  | some c => exact continuations_of_loose hc (h c hc)

/-- Continuations of a tighter level are continuations of a looser one. -/
theorem continuations_continuations {l m : Level} (h : l ≤ m) (s : Draft) :
    (continuations l (continuations m s).1).1 = (continuations l s).1 := by
  cases hc : Continuation.ofKind? s.current.kind with
  | none => rw [continuations_of_none hc]
  | some c =>
    by_cases hm : m ≤ c.level
    · have hlt : s.advance.left < s.left := left_advance_lt fun heof => by simp [heof] at hc
      rw [continuations_of_tight hc hm, continuations_of_tight hc (Nat.le_trans h hm)]
      exact continuations_continuations h _
    · rw [continuations_of_loose hc hm]
termination_by s.left
decreasing_by exact Nat.lt_of_le_of_lt (continuation c s.advance).2 hlt

/-- Nothing is refused at the end of a phrase unless an equals sign comes next. -/
theorem closeAt_of_ne (level : Level) (h : s.current.kind ≠ .equal) : closeAt level s = s := by
  unfold closeAt refuseAssignment
  split
  · rw [current_kind] at h
    rw [accept_of_ne h]
  · rfl

/-- Compiling from `s` comes to `s'`, and what follows remains to be done. -/
def Comes (level : Level) (s s' : Draft) : Prop :=
  ∀ l, l ≤ level → l ≤ .unary → (expressionAt l s).1 = closeAt l (continuations l s').1

/-- An expression is complete where nothing behind it belongs to it. -/
theorem Comes.complete {level l : Level} (h : Comes level s s') (hl : l ≤ level)
    (hunary : l ≤ .unary) (hstops : Stops l s'.current.kind) (hne : s'.current.kind ≠ .equal) :
    (expressionAt l s).1 = s' := by
  rw [h l hl hunary, continuations_of_stops hstops, closeAt_of_ne l hne]

/-- An operand that is compiled from its first token on comes to what follows it. -/
theorem comes_of_operand {level : Level} {o : Operand}
    (ho : Operand.ofKind? s.current.kind = some o)
    (h : ∀ b, (operand o b s.advance).1 = s') : Comes level s s' := by
  intro l _ _
  rw [expressionAt_of_some ho, h]

/-- What binds at least as tightly as a level belongs to what comes before it. -/
theorem Comes.continue {level : Level} {c : Continuation} {s₁ : Draft} (h : Comes c.leftLevel s s₁)
    (hc : Continuation.ofKind? s₁.current.kind = some c) (hle : level ≤ c.level)
    (heq : (continuation c s₁.advance).1 = s') : Comes level s s' := by
  intro l hl hunary
  have hleft : c.level ≤ c.leftLevel := by
    cases c with
    | binary op => exact Nat.le_refl _
    | or | and | component => decide
  have hlc := Nat.le_trans hl hle
  rw [h l (Nat.le_trans hlc hleft) hunary, continuations_of_tight hc hlc, heq]

/-- A literal of a readable text is compiled at any level. -/
theorem Prepared.literal {l : Literal} {t : Token} {level : Level} {o : Operand}
    (h : Prepared s [t] rest (Expression.literal l).work) (hl : l.Readable)
    (ho : Operand.ofKind? t.kind = some o)
    (hoperand : ∀ b u, u.previous = t → (operand o b u).1 = u.emitLiteral l.read) :
    ∃ s', Wrote s [t] (Expression.literal l).work s' ∧ Comes level s s' := by
  obtain ⟨hw₁, hprevious, h₁⟩ := h.advance
  obtain ⟨hw₂, -⟩ := Prepared.emitConstant (w := .none) h₁
  refine ⟨_, (hw₁.trans hw₂).congr rfl rfl, comes_of_operand (o := o) (by rw [h.current, ho]) ?_⟩
  intro b
  rw [hoperand b _ hprevious, Literal.read_eq_value hl]
  rfl

/-- The tokens of a name are read as that name and nothing else is done. -/
theorem Prepared.name {name : String} {ts : List Token} {w : Work} (hname : Name name ts)
    (h : Prepared s ts rest w) : ∃ s₁, Wrote s ts .none s₁ ∧
      s.advance.variableName = (some name, s₁) ∧
      Operand.ofKind? s.current.kind = some .name ∧ Prepared s₁ [] rest w := by
  cases hname with
  | @plain t kind free =>
    obtain ⟨hw₁, hprevious, h₁⟩ := h.advance
    refine ⟨s.advance, hw₁, ?_, by rw [h.current, kind]; rfl, h₁⟩
    unfold variableName
    rw [hprevious, if_neg free]
  | @argument a d t akind word dkind kind =>
    obtain ⟨hw₁, hprevious, h₁⟩ := h.advance
    obtain ⟨hw₂, -, h₂⟩ := h₁.advance
    obtain ⟨hw₃, hprevious₃, h₃⟩ := h₂.advance
    refine ⟨s.advance.advance.advance, hw₁.trans (hw₂.trans hw₃), ?_,
      by rw [h.current, akind]; rfl, h₃⟩
    unfold variableName
    rw [hprevious, if_pos word, h₁.expect dkind]
    dsimp only
    rw [h₂.expect kind]
    dsimp only
    rw [hprevious₃]

/-- A variable is compiled at any level, unless it is assigned to. -/
theorem Prepared.var {name : String} {ts : List Token} {level : Level} (hname : Name name ts)
    (h : Prepared s ts rest (Expression.var name).work) (hne : nextKind rest ≠ .equal) :
    ∃ s', Wrote s ts (Expression.var name).work s' ∧ Comes level s s' := by
  obtain ⟨s₁, hw₁, heq, ho, h₁⟩ := h.name hname
  obtain ⟨hw₂, hindex, hmem, h₂⟩ := Prepared.intern (w := .emit [.getVariable name]) h₁
  have hw₃ := hw₂.emitNamed (i := .getVariable name) (fun _ => rfl) rfl trivial hmem hindex
  refine ⟨_, (hw₁.trans hw₃).congr (List.append_nil ts) rfl, comes_of_operand ho ?_⟩
  intro b
  have hsees : ¬ (s₁.intern (.string name)).2.sees .equal = true := by
    refine sees_of_ne ?_
    rw [h₂.upcoming]
    exact hne
  rw [operand_name, heq]
  exact if_neg fun hand => hsees hand.2

/-- A vector behind a minus sign is compiled as the vector of the opposite sign. -/
theorem Prepared.negatedVector {m t : Token} {level : Level} (sign : m.kind = .minus)
    (kind : t.kind = .vec2)
    (h : Prepared s [m, t] rest (Expression.literal (.negatedVector t.lexeme)).work) :
    ∃ s', Wrote s [m, t] (Expression.literal (.negatedVector t.lexeme)).work s' ∧
      Comes level s s' := by
  obtain ⟨hw₁, -, h₁⟩ := h.advance
  obtain ⟨hw₂, hprevious, h₂⟩ := h₁.advance
  obtain ⟨hw₃, -⟩ := Prepared.emitConstant (w := .none) h₂
  refine ⟨_, (hw₁.trans (hw₂.trans hw₃)).congr rfl rfl, ?_⟩
  intro l _ hunary
  have ho : Operand.ofKind? s.current.kind = some .minus := by rw [h.current, sign]; rfl
  have hread : (readVector t.lexeme).map (fun v => Value.vec2 (-v.1) v.2)
      = .ok (Literal.negatedVector t.lexeme).value :=
    Literal.read_eq_value (h₁.readable.negatedVector kind)
  rw [expressionAt_of_some ho, operand_minus_of_sees _ (h₁.sees kind), hprevious, hread,
    continuations_continuations hunary]
  rfl

/-- An expression compiles wherever the draft is prepared for it and nothing behind it belongs to
it. -/
def Accepted (level : Level) (e : Expression) (ts : List Token) : Prop :=
  ∀ s rest, Prepared s ts rest e.work → Follows level (nextKind rest) →
    nextKind rest ≠ .equal → ∃ s', Wrote s ts e.work s' ∧ Comes level s s'

/-- An expression compiles up to its end. -/
theorem Accepted.complete {level l : Level} {e : Expression} {ts : List Token}
    (ih : Accepted level e ts) (h : Prepared s ts rest e.work)
    (hf : Follows level (nextKind rest)) (hne : nextKind rest ≠ .equal) (hl : l ≤ level)
    (hunary : l ≤ .unary) (hstops : Stops l (nextKind rest)) :
    Wrote s ts e.work (expressionAt l s).1 := by
  obtain ⟨s', hw, hcomes⟩ := ih s rest h hf hne
  have hkind : s'.current.kind = nextKind rest := by rw [current_kind, h.rest_upcoming hw]
  rw [hcomes.complete hl hunary (by rwa [hkind]) (by rwa [hkind])]
  exact hw

/-- A phrase in parentheses compiles at any level. -/
theorem Accepted.group {level : Level} {e : Expression} {l r : Token} {ts : List Token}
    (opening : l.kind = .leftParen) (ih : Accepted .assignment e ts)
    (closing : r.kind = .rightParen) : Accepted level e (l :: (ts ++ [r])) := by
  intro s rest h _ _
  obtain ⟨hw₁, -, h₁⟩ := h.advance
  rw [← Work.append_none e.work] at h₁
  have h₂ := h₁.first
  have hnext : nextKind ([r] ++ rest) = .rightParen := closing
  have hw₂ := ih.complete (l := .assignment) h₂ (by rw [hnext]; exact follows_of_none rfl)
    (by rw [hnext]; decide) (by decide) (by decide) (by rw [hnext]; exact nofun)
  have h₃ := h₁.second hw₂ rfl rfl
  obtain ⟨hw₃, -⟩ := h₃.advance
  refine ⟨_, (hw₁.trans (hw₂.trans hw₃)).congr rfl (Work.append_none _),
    comes_of_operand (o := .group) (by rw [h.current, opening]; rfl) ?_⟩
  intro b
  rw [operand_group, h₃.expect closing]

/-- A component behind a phrase that compiles does so too. -/
theorem Accepted.component {level : Level} {e : Expression} {d t : Token} {ts : List Token}
    (ih : Accepted .call e ts) (dot : d.kind = .dot) (kind : t.kind = .identifier)
    (hname : t.lexeme = "x" ∨ t.lexeme = "y") :
    Accepted level (.component e t.lexeme) (ts ++ [d, t]) := by
  intro s rest h _ _
  have hwork : (Expression.component e t.lexeme).work
      = e.work ++ (.intern (.string t.lexeme) ++ .emit [.getComponent t.lexeme]) := by
    simp [Expression.work, Expression.constants, Expression.code]
  rw [hwork] at h
  obtain ⟨s₁, hw₁, hcomes⟩ := ih s _ h.first (follows_call _) (by
    rw [List.cons_append, nextKind, List.head?_cons, Option.map_some, dot]
    decide)
  have h₁ := h.second hw₁ rfl rfl
  obtain ⟨hw₂, -, h₂⟩ := h₁.advance
  obtain ⟨hw₃, hprevious, h₃⟩ := h₂.advance
  obtain ⟨hw₄, hindex, hmem, -⟩ := h₃.intern
  have hw₅ := hw₄.emitNamed (i := .getComponent t.lexeme) (fun _ => rfl) rfl trivial hmem hindex
  refine ⟨_, (hw₁.trans (hw₂.trans (hw₃.trans hw₅))).congr (by simp) ?_,
    hcomes.continue (c := .component) (by rw [h₁.current, dot]; rfl) ?_ ?_⟩
  · rw [hwork]
    rfl
  · cases level <;> decide
  · rw [continuation_component]
    unfold Draft.component
    rw [h₂.expect kind]
    dsimp only
    rw [hprevious, if_pos hname]
    rfl

/-- An operator in front of one operand. -/
theorem Accepted.unary {level : Level} {e e' : Expression} {m : Token} {ts : List Token}
    {o : Operand} {i : Symbolic} {instruction : Instruction} (hle : level ≤ .unary)
    (ih : Accepted .unary e ts) (ho : Operand.ofKind? m.kind = some o)
    (hoperand : ∀ b (u : Draft) rest, Prepared u ts rest e.work →
      (operand o b u).1 = (expressionAt .unary u).1.emit instruction)
    (hwork : e'.work = e.work ++ .emit [i]) (hfits : i.Fits) (hplain : i.constant? = none)
    (hi : ∀ pool, i.assemble pool = instruction) : Accepted level e' (m :: ts) := by
  intro s rest h hf hne
  obtain ⟨hw₁, -, h₁⟩ := h.advance
  rw [hwork] at h₁
  have h₂ := Prepared.first (b := []) (h₁.congr (List.append_nil ts).symm rfl)
  have hf' := hf.mono hle
  have hw₂ := ih.complete h₂ hf' hne (Nat.le_refl _) (Nat.le_refl _) hf'.stops_unary
  refine ⟨_, (hw₁.trans (hw₂.emitPlain hfits hplain hi)).congr rfl (by rw [hwork]; rfl),
    comes_of_operand (by rw [h.current, ho]) fun b => hoperand b _ _ h₂⟩

/-- A minus sign in front of a phrase that compiles does so too, if no vector comes behind it. -/
theorem Accepted.negate {level : Level} {e : Expression} {m : Token} {ts : List Token}
    (loose : level ≤ .unary) (sign : m.kind = .minus) (free : ¬ Begins .vec2 ts)
    (hts : ts ≠ []) (ih : Accepted .unary e ts) : Accepted level (.negate e) (m :: ts) := by
  refine Accepted.unary (i := .negate) loose ih (o := .minus) (by rw [sign]; rfl) ?_
    (by simp [Expression.work, Expression.constants, Expression.code]) trivial rfl (fun _ => rfl)
  intro b u rest hu
  refine operand_minus b ?_
  obtain ⟨t, ts, rfl⟩ := List.exists_cons_of_ne_nil hts
  rw [sees, hu.current]
  simpa [Begins] using free

/-- A negation in front of a phrase that compiles does so too. -/
theorem Accepted.not {level : Level} {e : Expression} {m : Token} {ts : List Token}
    (loose : level ≤ .unary) (sign : m.kind = .bang) (ih : Accepted .unary e ts) :
    Accepted level (.not e) (m :: ts) :=
  Accepted.unary (i := .not) loose ih (o := .bang) (by rw [sign]; rfl)
    (fun b u _ _ => operand_bang b u)
    (by simp [Expression.work, Expression.constants, Expression.code]) trivial rfl (fun _ => rfl)

/-- An operation whose operands compile does so too. -/
theorem Accepted.binary {level : Level} {op : Operator} {a b : Expression} {o : Token}
    {ts us : List Token} (loose : level ≤ operatorLevel op)
    (iha : Accepted (operatorLevel op) a ts) (sign : o.kind = operatorKind op)
    (ihb : Accepted (tighter (operatorLevel op)) b us) :
    Accepted level (.binary op a b) (ts ++ o :: us) := by
  intro s rest h hf hne
  have hwork : (Expression.binary op a b).work = a.work ++ (b.work ++ .emit [.binary op]) := by
    simp [Expression.work, Expression.constants, Expression.code]
  rw [hwork] at h
  have hnext : nextKind (o :: (us ++ rest)) = operatorKind op := sign
  have hlt : (operatorLevel op).rank < (operatorLevel op).edge := by cases op <;> decide
  obtain ⟨s₁, hw₁, hcomes⟩ := iha s _ h.first (by
    rw [List.cons_append, hnext]
    intro c hc
    rw [ofKind?_operatorKind] at hc
    cases hc
    exact hlt) (by rw [List.cons_append, hnext]; exact operatorKind_ne_equal op)
  have h₁ := h.second hw₁ rfl rfl
  obtain ⟨hw₂, -, h₂⟩ := h₁.advance
  have h₃ := Prepared.first (b := []) (h₂.congr (List.append_nil us).symm rfl)
  have hf' := hf.mono loose
  rw [← rightLevel_eq] at ihb
  have hle : operatorLevel op ≤ rightLevel op := by cases op <;> decide
  have hw₃ := ihb.complete h₃ (hf'.mono hle) hne (Nat.le_refl _) (rightLevel_le_unary op)
    hf'.stops_operator
  have hw₄ := hw₃.emitPlain (i := .binary op) trivial rfl (fun _ => rfl)
  refine ⟨_, (hw₁.trans (hw₂.trans hw₄)).congr (by simp) (by rw [hwork]; rfl),
    hcomes.continue (c := .binary op) ?_ loose (continuation_binary op _)⟩
  rw [h₁.current, sign, ofKind?_operatorKind]

/-- A conjunction whose operands compile does so too. -/
theorem Accepted.and {level : Level} {a b : Expression} {o : Token} {ts us : List Token}
    (loose : level ≤ .and) (iha : Accepted .equality a ts) (sign : o.kind = .andAnd)
    (ihb : Accepted .and b us) : Accepted level (.and a b) (ts ++ o :: us) := by
  intro s rest h hf hne
  have hwork : (Expression.and a b).work = a.work ++
      (.emit [.jumpIfFalse (1 + codeSize b.code), .pop] ++ b.work) := by
    simp [Expression.work, Expression.constants, Expression.code]
  rw [hwork] at h
  have hnext : nextKind (o :: (us ++ rest)) = .andAnd := sign
  obtain ⟨s₁, hw₁, hcomes⟩ := iha s _ h.first
    (by rw [List.cons_append, hnext]; rintro c ⟨⟩; decide)
    (by rw [List.cons_append, hnext]; decide)
  have h₁ := h.second hw₁ rfl rfl
  obtain ⟨hw₂, -, h₂⟩ := h₁.advance
  obtain ⟨hdone, hw₃⟩ := (Wrote.refl hw₂.ready).beginBranch
  have h₃ := Prepared.second (a := []) h₂ hw₃ rfl rfl
  have hf' := hf.mono loose
  have hw₄ := ihb.complete h₃ hf' hne (Nat.le_refl _) (by decide) hf'.stops_and
  have hfits : codeSize (.pop :: b.code) ≤ 65535 :=
    h.fits (.jumpIfFalse (1 + codeSize b.code)) (by simp [Work.append_def, Expression.work])
  have hw₅ := ((hw₃.trans hw₄).patch .jumpIfFalse (a := []) (b := .pop :: b.code) rfl hdone).1
    hfits
  refine ⟨_, (hw₁.trans (hw₂.trans hw₅)).congr (by simp) ?_,
    hcomes.continue (c := .and) (by rw [h₁.current, sign]; rfl) loose (continuation_and _)⟩
  rw [hwork]
  simp [Expression.work, Symbolic.size]

/-- A disjunction whose operands compile does so too. -/
theorem Accepted.or {level : Level} {a b : Expression} {o : Token} {ts us : List Token}
    (loose : level ≤ .or) (iha : Accepted .and a ts) (sign : o.kind = .orOr)
    (ihb : Accepted .or b us) : Accepted level (.or a b) (ts ++ o :: us) := by
  intro s rest h hf hne
  have hwork : (Expression.or a b).work = a.work ++
      (.emit [.jumpIfFalse 3, .jump (1 + codeSize b.code), .pop] ++ b.work) := by
    simp [Expression.work, Expression.constants, Expression.code]
  rw [hwork] at h
  have hnext : nextKind (o :: (us ++ rest)) = .orOr := sign
  obtain ⟨s₁, hw₁, hcomes⟩ := iha s _ h.first
    (by rw [List.cons_append, hnext]; rintro c ⟨⟩; decide)
    (by rw [List.cons_append, hnext]; decide)
  have h₁ := h.second hw₁ rfl rfl
  obtain ⟨hw₂, -, h₂⟩ := h₁.advance
  obtain ⟨hright, hw₃⟩ := (Wrote.refl hw₂.ready).emitJump .jumpIfFalse
  obtain ⟨hdone, hfit, -⟩ := hw₃.switchBranch (a := []) (b := []) rfl hright
  have hw₄ := hfit (by decide)
  have h₄ := Prepared.second (a := []) h₂ hw₄ rfl rfl
  have hf' := hf.mono loose
  have hw₅ := ihb.complete h₄ hf' hne (Nat.le_refl _) (by decide) hf'.stops_or
  have hfits : codeSize (.pop :: b.code) ≤ 65535 :=
    h.fits (.jump (1 + codeSize b.code)) (by simp [Work.append_def, Expression.work])
  have hoperand : ((s₁.advance.emitJump .jumpIfFalse).2.switchBranch
      (s₁.advance.emitJump .jumpIfFalse).1).1
      = s₁.advance.written.length + codeSize [Symbolic.jumpIfFalse 3] + 1 := by
    rw [hdone, hw₃.length_written]
    simp [Symbolic.size]
  have hw₆ := ((hw₄.trans hw₅).patch .jump (a := [.jumpIfFalse 3]) (b := .pop :: b.code) rfl
    hoperand).1 hfits
  refine ⟨_, (hw₁.trans (hw₂.trans hw₆)).congr (by simp) ?_,
    hcomes.continue (c := .or) (by rw [h₁.current, sign]; rfl) loose (continuation_or _)⟩
  rw [hwork]
  simp [Expression.work, Symbolic.size]

/-- An assignment whose value compiles does so too. -/
theorem Accepted.assign {name : String} {e : Expression} {q : Token} {ts us : List Token}
    (target : Name name ts) (sign : q.kind = .equal) (ih : Accepted .assignment e us) :
    Accepted .assignment (.assign name e) (ts ++ q :: us) := by
  intro s rest h hf hne
  have hwork : (Expression.assign name e).work
      = .none ++ (.intern (.string name) ++ (e.work ++ .emit [.setVariable name])) := by
    simp [Expression.work, Expression.constants, Expression.code]
  rw [hwork] at h
  obtain ⟨s₁, hw₁, heq, ho, -⟩ := h.first.name target
  have h₁ := h.second hw₁ rfl rfl
  obtain ⟨hw₂, hindex, hmem, h₂⟩ := h₁.intern
  obtain ⟨hw₃, -, h₃⟩ := h₂.advance
  have h₄ := Prepared.first (b := []) (h₃.congr (List.append_nil us).symm rfl)
  have hw₄ := ih.complete h₄ hf hne (Nat.le_refl _) (by decide) hf.stops_assignment
  have hw₃₄ := hw₃.trans hw₄
  have hw₅ := hw₄.emitNamed (i := .setVariable name) (fun _ => rfl) rfl trivial
    (hw₃₄.mem_pool hmem) (hindex.trans (hw₃₄.slot hmem).symm)
  refine ⟨_, (hw₁.trans (hw₂.trans (hw₃.trans hw₅))).congr (by simp) (by rw [hwork]; rfl), ?_⟩
  intro l hl _
  have hlevel : l = .assignment := by
    cases l <;> first | rfl | exact absurd hl (by decide)
  subst hlevel
  have hoperand : (operand .name true s.advance).1 =
      ((expressionAt .assignment (s₁.intern (.string name)).2.advance).1.emit
        (.setVariable (s₁.intern (.string name)).1)) := by
    rw [operand_name, heq]
    exact if_pos ⟨rfl, h₂.sees sign⟩
  rw [expressionAt_of_some ho, decide_eq_true rfl, hoperand]

/-- A phrase has a first token, and that begins an operand. -/
theorem exists_operand_of_phrase {level : Level} {e : Expression} {ts : List Token}
    (h : Phrase level e ts) : ∃ t us, ts = t :: us ∧ (Operand.ofKind? t.kind).isSome = true := by
  have name : ∀ {name : String} {ts : List Token}, Name name ts →
      ∃ t us, ts = t :: us ∧ (Operand.ofKind? t.kind).isSome = true := by
    intro name ts h
    cases h with
    | plain kind _ => exact ⟨_, _, rfl, by rw [kind]; rfl⟩
    | argument akind _ _ _ => exact ⟨_, _, rfl, by rw [akind]; rfl⟩
  induction h with
  | number kind | vector kind | text kind | yes kind | no kind =>
    exact ⟨_, _, rfl, by rw [kind]; rfl⟩
  | negatedVector sign _ | negate _ sign _ _ | not _ sign _ =>
    exact ⟨_, _, rfl, by rw [sign]; rfl⟩
  | var spelled => exact name spelled
  | group opening _ _ => exact ⟨_, _, rfl, by rw [opening]; rfl⟩
  | component _ _ _ ih | binary _ _ _ _ ih | and _ _ _ _ ih | or _ _ _ _ ih =>
    obtain ⟨t, us, rfl, ht⟩ := ih
    exact ⟨t, _, rfl, ht⟩
  | assign target _ _ =>
    obtain ⟨t, us, rfl, ht⟩ := name target
    exact ⟨t, _, rfl, ht⟩

/-- Every legal phrase compiles wherever nothing behind it belongs to it. -/
theorem Accepted.of_phrase {level : Level} {e : Expression} {ts : List Token}
    (h : Phrase level e ts) (hl : e.Legal) : Accepted level e ts := by
  induction h with
  | number kind =>
    intro s rest h _ _
    exact h.literal (h.readable.number kind) (o := .number) (by rw [kind]; rfl) fun b u hu => by
      rw [operand_number, hu]; rfl
  | vector kind =>
    intro s rest h _ _
    exact h.literal (h.readable.vector kind) (o := .vector) (by rw [kind]; rfl) fun b u hu => by
      rw [operand_vector, hu]; rfl
  | negatedVector sign kind =>
    intro s rest h _ _
    exact h.negatedVector sign kind
  | text kind =>
    intro s rest h _ _
    exact h.literal ((Literal.readable_text_iff _).2 hl) (o := .text) (by rw [kind]; rfl)
      fun b u hu => by rw [operand_text, hu]; rfl
  | yes kind =>
    intro s rest h _ _
    exact h.literal ⟨_, rfl⟩ (o := .truth true) (by rw [kind]; rfl) fun b u _ => by
      rw [operand_truth]; rfl
  | no kind =>
    intro s rest h _ _
    exact h.literal ⟨_, rfl⟩ (o := .truth false) (by rw [kind]; rfl) fun b u _ => by
      rw [operand_truth]; rfl
  | var spelled =>
    intro s rest h _ hne
    exact h.var spelled hne
  | group opening _ closing ih => exact .group opening (ih hl) closing
  | component _ dot kind ih => exact .component (ih hl.1) dot kind hl.2
  | negate loose sign free operand ih =>
    obtain ⟨t, us, hts, -⟩ := exists_operand_of_phrase operand
    exact .negate loose sign free (by rw [hts]; exact List.cons_ne_nil _ _) (ih hl)
  | not loose sign _ ih => exact .not loose sign (ih hl)
  | binary loose _ sign _ iha ihb => exact .binary loose (iha hl.1) sign (ihb hl.2)
  | and loose _ sign _ iha ihb => exact .and loose (iha hl.1) sign (ihb hl.2)
  | or loose _ sign _ iha ihb => exact .or loose (iha hl.1) sign (ihb hl.2)
  | assign target sign _ ih => exact .assign target sign (ih hl)

/-- A legal expression compiles wherever neither an operator nor an equals sign follows. -/
theorem Prepared.expression {e : Expression} {ts : List Token} (h : Prepared s ts rest e.work)
    (hp : Phrase .assignment e ts) (hl : e.Legal)
    (hnone : Continuation.ofKind? (nextKind rest) = none) (hne : nextKind rest ≠ .equal) :
    Wrote s ts e.work s.expression :=
  (Accepted.of_phrase hp hl).complete h (follows_of_none hnone) hne (Nat.le_refl _) (by decide)
    (Follows.stops_assignment (follows_of_none hnone))

end Draft

end EntityScript.Compile
