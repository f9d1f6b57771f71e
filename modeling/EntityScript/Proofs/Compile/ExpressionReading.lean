import EntityScript.Proofs.Compile.Jumps
import EntityScript.Proofs.Grammar.Spelling

/-!
# What compiles as an expression is one

If compiling an expression finds nothing wrong, then the tokens that it took spell an expression of
the grammar, and what it wrote is the code of that expression.

The compiler knows of no levels of phrases: it goes on as long as operators bind tightly enough.
What ties the two together is how a phrase may be followed. A phrase of a level is complete only
where no tighter operator comes next (`Follows`), and then whatever operator does come next takes
the whole phrase as its left operand (`leftOperand_of_follows`).
-/

namespace EntityScript.Compile

open Grammar

/-- The rank below which operators behind a phrase of a level must stay. -/
def Level.edge : Level → ℕ
  | assignment | or => 1
  | and => 2
  | level => level.rank + 1

/-- Whether a token behind a phrase of a level does not belong to it. -/
def Follows (level : Level) (kind : Token.Kind) : Prop :=
  ∀ c, Continuation.ofKind? kind = some c → c.level.rank < level.edge

/-- Whether a token ends the continuations that a level allows. -/
def Stops (level : Level) (kind : Token.Kind) : Prop :=
  ∀ c, Continuation.ofKind? kind = some c → ¬ level ≤ c.level

/-- The level of the phrase that a continuation takes as its left operand. -/
def Continuation.leftLevel : Continuation → Level
  | or => .and
  | and => .equality
  | binary op => operatorLevel op
  | component => .call

/-- Any token may follow an operand with its components. -/
theorem follows_call (kind : Token.Kind) : Follows .call kind := by
  intro c _
  cases c with
  | binary op => cases op <;> decide
  | or | and | component => decide

/-- What stops the chain behind an operand with its signs follows one. -/
theorem Stops.follows_unary {kind : Token.Kind} (h : Stops .unary kind) : Follows .unary kind := by
  intro c hc
  exact Nat.lt_succ_of_lt (Nat.lt_of_not_le (h c hc))

/-- What stops the chain behind a conjunction follows one. -/
theorem Stops.follows_and {kind : Token.Kind} (h : Stops .and kind) : Follows .and kind :=
  fun c hc => Nat.lt_of_not_le (h c hc)

/-- What stops the chain behind a disjunction follows one. -/
theorem Stops.follows_or {kind : Token.Kind} (h : Stops .or kind) : Follows .or kind :=
  fun c hc => Nat.lt_of_not_le (h c hc)

/-- What stops the chain behind an assignment follows one. -/
theorem Stops.follows_assignment {kind : Token.Kind} (h : Stops .assignment kind) :
    Follows .assignment kind :=
  fun c hc => absurd (Nat.zero_le _) (h c hc)

/-- What stops the chain behind the right operand of an operator follows its operation. -/
theorem Stops.follows_operator {kind : Token.Kind} {op : Operator}
    (h : Stops (rightLevel op) kind) : Follows (operatorLevel op) kind := by
  intro c hc
  have hlt : c.level.rank < (rightLevel op).rank := Nat.lt_of_not_le (h c hc)
  have hedge : (operatorLevel op).edge = (rightLevel op).rank := by cases op <;> rfl
  rwa [hedge]

/-- The right operand of an operator begins one level tighter. -/
theorem rightLevel_eq (op : Operator) : rightLevel op = tighter (operatorLevel op) := by
  cases op <;> rfl

/-- The right operand of an operator stands at a level that is at most that of signs. -/
theorem rightLevel_le_unary (op : Operator) : rightLevel op ≤ .unary := by
  cases op <;> decide

/-- The token of an operator is the one that writes it. -/
theorem kind_of_ofKind?_binary {kind : Token.Kind} {op : Operator}
    (h : Continuation.ofKind? kind = some (.binary op)) : kind = operatorKind op := by
  cases kind <;> simp [Continuation.ofKind?] at h <;> subst h <;> rfl

/-- A complete phrase is the left operand of the operator behind it. -/
theorem leftOperand_of_follows {m : Level} {e : Expression} {ts : List Token}
    {c : Continuation} {kind : Token.Kind} (h : Phrase m e ts) (hf : Follows m kind)
    (hc : Continuation.ofKind? kind = some c) : Phrase c.leftLevel e ts := by
  have hlt := hf c hc
  refine h.loosen ?_
  cases c with
  | or => cases m <;> first | decide | exact absurd hlt (by decide)
  | and => cases m <;> first | decide | exact absurd hlt (by decide)
  | component => cases m <;> first | decide | exact absurd hlt (by decide)
  | binary op =>
    cases m <;> cases op <;> first | decide | exact absurd hlt (by decide)

namespace Draft

variable {s : Draft}

/-- After advancing either something is wrong or the draft is still ready. -/
theorem Ready.advance_ready_or (hs : s.Ready) : s.advance.Troubled ∨ s.advance.Ready := by
  cases hup : s.upcoming with
  | nil =>
    right
    have : s.advance = { s with previous := s.current, upcoming := [] } := by
      simp [Draft.advance, hup, settle]
    rw [this]
    exact ⟨hs.diagnostics, hs.panicking, hs.room⟩
  | cons t rest => exact (hs.advance_or hup).imp_right (·.ready)

/-- A report right after advancing leaves something wrong. -/
theorem Ready.troubled_advance_report (hs : s.Ready) (problem : Problem) :
    (s.advance.reportPrevious problem).Troubled := by
  rcases hs.advance_ready_or with ht | hr
  · exact ht.of_leads fun hk => hk.reportPrevious _
  · exact hr.troubled_report _ _

/-- A complete expression is left alone, unless an equals sign follows it. -/
theorem Ready.closeAt_or (hs : s.Ready) (level : Level) :
    (closeAt level s).Troubled ∨ closeAt level s = s := by
  unfold closeAt
  split
  · unfold refuseAssignment
    rcases hs.accept_or (k := .equal) (by decide) with ⟨heq, -⟩ | ⟨s', heq, ht | ⟨t, -, hw⟩⟩
    · rw [heq]; exact .inr rfl
    · rw [heq]; exact .inl (ht.of_leads fun hk => hk.reportPrevious _)
    · rw [heq]; exact .inl (hw.ready.troubled_report _ _)
  · exact .inr rfl

/-- A literal is either wrong or written with its value. -/
theorem Ready.emitLiteral_or (hs : s.Ready) {r : Except Problem Value} {l : Literal}
    (hl : l.read = r) : (s.emitLiteral r).Troubled ∨
      l.Legal ∧ Wrote s [] (Expression.literal l).work (s.emitLiteral r) := by
  subst hl
  cases hread : l.read with
  | ok v =>
    have hvalue : l.value = v := by simp [Literal.value, hread]
    refine (hs.emitConstant_or v).imp_right fun hw => ?_
    refine ⟨Literal.Readable.legal ⟨v, hread⟩, hw.congr rfl ?_⟩
    simp [Expression.work, Expression.constants, Expression.code, hvalue]
  | error problem => exact .inl (hs.troubled_report _ _)

/-- The name of a variable is spelled as the grammar says, or there is trouble. -/
theorem Ready.variableName_or (hs : s.Ready) (hkind : s.previous.kind = .identifier) :
    s.variableName.2.Troubled ∨ ∃ name ts s', s.variableName = (some name, s') ∧
      Name name (s.previous :: ts) ∧ Wrote s ts .none s' := by
  unfold variableName
  split
  · rename_i hargs
    rcases hs.expect_or (k := .dot) (by decide) .argsDot with
      ⟨b, s₁, heq, ht⟩ | ⟨s₁, d, heq, hd, hw₁⟩
    · left
      rw [heq]
      cases b with
      | false => exact ht
      | true =>
        dsimp only
        have := ht.of_leads fun hk => hk.expect .identifier .argumentName
        split <;> rename_i heq <;> rw [heq] at this <;> exact this
    · rw [heq]
      dsimp only
      rcases hw₁.ready.expect_or (k := .identifier) (by decide) .argumentName with
        ⟨b, s₂, heq, ht⟩ | ⟨s₂, t, heq, htk, hw₂⟩
      · left
        rw [heq]
        cases b <;> exact ht
      · right
        rw [heq]
        have hprev : s₂.previous = t := hw₂.previous_eq
        refine ⟨_, [d, t], s₂, rfl, ?_, hw₁.trans hw₂⟩
        rw [hprev]
        exact .argument hkind hargs hd htk
  · rename_i hfree
    exact .inr ⟨_, [], s, rfl, .plain hkind hfree, .refl hs⟩

/-- Patching a jump leaves the next token as it is. -/
theorem current_patchJump (s : Draft) (operand : ℕ) :
    (s.patchJump operand).current = s.current := by
  unfold patchJump reportPrevious report
  dsimp only
  split
  · rfl
  · split <;> rfl

/-- A draft has read an expression of a level, from `s` to `s'`. -/
def ReadsExpression (level : Level) (s s' : Draft) : Prop :=
  ∃ ts e, Phrase level e ts ∧ e.Legal ∧ Wrote s ts e.work s' ∧ Stops level s'.current.kind

/-- A draft has read an operand, from behind its first token on. It is an assignment only where one
may stand. -/
def ReadsOperand (assignable : Bool) (s s' : Draft) : Prop :=
  ∃ ts m e, Phrase m e (s.previous :: ts) ∧ e.Legal ∧ Wrote s ts e.work s' ∧
    Follows m s'.current.kind ∧ (m = .assignment → assignable = true) ∧
    (m = .assignment ∨ .unary ≤ m)

/-- A draft has read what follows a phrase. -/
def ReadsContinuations (level : Level) (e : Expression) (ts : List Token) (s s' : Draft) : Prop :=
  ∃ us e' w, Phrase level e' (ts ++ us) ∧ e'.Legal ∧ e'.work = e.work ++ w ∧ Wrote s us w s' ∧
    Stops level s'.current.kind

/-- A draft has read an operator and what belongs to it, from behind the token of the operator
on. -/
def ReadsContinuation (c : Continuation) (e : Expression) (ts : List Token) (s s' : Draft) : Prop :=
  ∃ us e' w, Phrase c.level e' (ts ++ s.previous :: us) ∧ e'.Legal ∧ e'.work = e.work ++ w ∧
    Wrote s us w s' ∧ Follows c.level s'.current.kind

/-- A literal operand. -/
theorem Ready.readsOperand_literal (hs : s.Ready) {r : Except Problem Value} {l : Literal}
    (b : Bool) (hl : l.read = r) (hp : Phrase .call (.literal l) [s.previous]) :
    (s.emitLiteral r).Troubled ∨ ReadsOperand b s (s.emitLiteral r) := by
  rcases hs.emitLiteral_or hl with ht | ⟨hread, hw⟩
  · exact .inl ht
  · exact .inr ⟨[], .call, .literal l, hp, hread, hw, follows_call _, by simp, .inr (by decide)⟩

/-- A variable behind its name: its value, or its assignment where one may stand. -/
theorem Ready.readsOperand_name (hs : s.Ready) {b : Bool} (hkind : s.previous.kind = .identifier)
    (ihP : ∀ level t, t.left ≤ s.left → level ≤ .unary → t.Ready →
      (expressionAt level t).1.Troubled ∨ ReadsExpression level t (expressionAt level t).1) :
    (operand .name b s).1.Troubled ∨ ReadsOperand b s (operand .name b s).1 := by
  rw [operand_name]
  rcases hs.variableName_or hkind with ht | ⟨name, ts, s₁, heq, hname, hw₁⟩
  · left
    cases hv : s.variableName with
    | mk o s₁ =>
      rw [hv] at ht
      cases o with
      | none => exact ht
      | some name =>
        refine ht.of_leads fun hk => ?_
        unfold afterName
        dsimp only
        split
        · exact (hk.internName name).advance.expression.emit _
        · exact (hk.internName name).emit _
  · have hle₁ : s₁.left ≤ s.left := by simp [left, hw₁.upcoming]
    rw [heq]
    dsimp only
    unfold afterName
    dsimp only
    rcases hw₁.ready.intern_or (.string name) with ht | ⟨hw₂, hindex, hmem⟩
    · left
      refine ht.of_leads fun hk => ?_
      split
      · exact Leads.emit (Leads.expression (Leads.advance hk)) _
      · exact hk.emit _
    · change Wrote s₁ [] _ (s₁.internName name).2 at hw₂
      have hle₂ : (s₁.internName name).2.left ≤ s.left := by simpa using hle₁
      split
      · rename_i hassign
        obtain ⟨q, rest, hup, hq⟩ := upcoming_of_sees hassign.2 (by decide)
        rcases hw₂.ready.advance_or hup with ht | hw₃
        · exact .inl (ht.of_leads fun hk => hk.expression.emit _)
        · have hle₃ := Nat.le_trans (left_advance_le (s₁.internName name).2) hle₂
          rcases ihP .assignment _ hle₃ (by decide) hw₃.ready with
            ht | ⟨us, e, hphrase, hlegal, hw₄, hstops⟩
          · exact .inl (ht.of_leads fun hk => hk.emit _)
          · right
            have hw₂₄ := hw₃.trans hw₄
            have hemit := hw₄.emitNamed (i := .setVariable name) (fun _ => rfl) rfl trivial
              (hw₂₄.mem_pool hmem) (hindex.trans (hw₂₄.slot hmem).symm)
            refine ⟨ts ++ q :: us, .assignment, .assign name e, ?_, hlegal, ?_, ?_, ?_, .inl rfl⟩
            · exact Phrase.assign hname hq hphrase
            · refine ((hw₁.trans hw₂).trans (hw₃.trans hemit)).congr (by simp) ?_
              simp [Expression.work, Expression.constants, Expression.code]
            · exact hstops.follows_assignment
            · exact fun _ => hassign.1
      · right
        have hemit := hw₂.emitNamed (i := .getVariable name) (fun _ => rfl) rfl trivial hmem hindex
        refine ⟨ts, .call, .var name, .var hname, trivial, ?_, follows_call _, by simp,
          .inr (by decide)⟩
        refine (hw₁.trans hemit).congr (by simp) ?_
        simp [Expression.work, Expression.constants, Expression.code]

/-- What was read first had come next. -/
theorem Wrote.sees_of_begins {s' : Draft} {ts : List Token} {w : Work} (h : Wrote s ts w s')
    {kind : Token.Kind} (hb : Begins kind ts) : s.sees kind = true := by
  cases ts with
  | nil => simp [Begins] at hb
  | cons t rest =>
    have ht : t.kind = kind := by simpa [Begins] using hb
    simp [sees, h.current, ht]

/-- An operator in front of one operand, behind its token. -/
theorem readsOperand_unary {i : Symbolic} {instruction : Instruction} {b : Bool}
    {f : Expression → Expression}
    (hphrase : ∀ ts w s', Wrote s ts w s' → ∀ e, Phrase .unary e ts →
      Phrase .unary (f e) (s.previous :: ts))
    (hlegal : ∀ e, e.Legal → (f e).Legal)
    (hwork : ∀ e, (f e).work = e.work ++ .emit [i]) (hfits : i.Fits)
    (hplain : i.constant? = none) (hi : ∀ pool, i.assemble pool = instruction)
    (ih : (expressionAt .unary s).1.Troubled ∨ ReadsExpression .unary s (expressionAt .unary s).1) :
    ((expressionAt .unary s).1.emit instruction).Troubled ∨
      ReadsOperand b s ((expressionAt .unary s).1.emit instruction) := by
  rcases ih with ht | ⟨ts, e, hp, hl, hw, hstops⟩
  · exact .inl (ht.of_leads fun hk => hk.emit _)
  · right
    refine ⟨ts, .unary, f e, hphrase _ _ _ hw e hp, hlegal e hl, ?_, hstops.follows_unary,
      by simp, .inr (by decide)⟩
    rw [hwork]
    exact hw.emitPlain hfits hplain hi

/-- A vector behind the minus sign that belongs to its first number. -/
theorem Ready.readsOperand_negatedVector (hs : s.Ready) {b : Bool}
    (hkind : s.previous.kind = .minus) (hsees : s.sees .vec2 = true)
    (ihR : ∀ level t, t.left < s.left → ∀ e ts m, Phrase m e ts → level ≤ m →
      Follows m t.current.kind → e.Legal → t.Ready →
      (continuations level t).1.Troubled ∨
        ReadsContinuations level e ts t (continuations level t).1) :
    (operand .minus b s).1.Troubled ∨ ReadsOperand b s (operand .minus b s).1 := by
  rw [operand_minus_of_sees b hsees]
  obtain ⟨t, rest, hup, htk⟩ := upcoming_of_sees hsees (by decide)
  rcases hs.advance_or hup with ht | hw₁
  · exact .inl (ht.of_leads fun hk => (hk.emitLiteral _).continuations _)
  · have hprevious : s.advance.previous = t := hw₁.previous_eq
    rw [hprevious]
    rcases hw₁.ready.emitLiteral_or (l := .negatedVector t.lexeme) rfl with ht | ⟨hread, hw₂⟩
    · exact .inl (ht.of_leads fun hk => hk.continuations _)
    · have hlt : (s.advance.emitLiteral (Literal.negatedVector t.lexeme).read).left < s.left := by
        rw [left_emitLiteral]
        exact left_advance_lt_of_sees hsees (by decide)
      rcases ihR .unary _ hlt _ [s.previous, t] .call (.negatedVector hkind htk) (by decide)
        (follows_call _) hread hw₂.ready with ht | ⟨us, e, w, hp, hl, hwork, hw₃, hstops⟩
      · exact .inl ht
      · right
        refine ⟨t :: us, .unary, e, hp, hl, ?_, hstops.follows_unary, by simp, .inr (by decide)⟩
        exact ((hw₁.then hw₂).trans hw₃).congr rfl (by rw [hwork]; simp [Expression.work])

/-- An operand behind its first token. -/
theorem Ready.readsOperand (hs : s.Ready) {o : Operand} {b : Bool}
    (ho : Operand.ofKind? s.previous.kind = some o)
    (ihP : ∀ level t, t.left ≤ s.left → level ≤ .unary → t.Ready →
      (expressionAt level t).1.Troubled ∨ ReadsExpression level t (expressionAt level t).1)
    (ihR : ∀ level t, t.left < s.left → ∀ e ts m, Phrase m e ts → level ≤ m →
      Follows m t.current.kind → e.Legal → t.Ready →
      (continuations level t).1.Troubled ∨
        ReadsContinuations level e ts t (continuations level t).1) :
    (operand o b s).1.Troubled ∨ ReadsOperand b s (operand o b s).1 := by
  cases hkind : s.previous.kind <;> rw [hkind] at ho <;> cases ho
  case leftParen =>
    rw [operand_group]
    rcases ihP .assignment s (Nat.le_refl _) (by decide) hs with ht | ⟨ts, e, hp, hl, hw, -⟩
    · exact .inl (ht.of_leads fun hk => hk.expect ..)
    · rcases hw.ready.expect_or (k := .rightParen) (by decide) .groupClose with
        ⟨_, s₂, heq, ht⟩ | ⟨s₂, r, heq, hr, hw₂⟩ <;> rw [heq]
      · exact .inl ht
      · right
        exact ⟨ts ++ [r], .call, e, .group hkind hp hr, hl,
          (hw.trans hw₂).congr rfl (by simp [Expression.work]), follows_call _, by simp,
          .inr (by decide)⟩
  case minus =>
    by_cases hsees : s.sees .vec2 = true
    · exact hs.readsOperand_negatedVector hkind hsees ihR
    · rw [operand_minus b hsees]
      refine readsOperand_unary (f := .negate) (i := .negate) ?_ (fun _ h => h)
        (fun e => by simp [Expression.work, Expression.constants, Expression.code]) trivial rfl
        (fun _ => rfl) (ihP .unary s (Nat.le_refl _) (by decide) hs)
      intro ts w s' hw e hp
      exact .negate (by decide) hkind (fun hb => hsees (hw.sees_of_begins hb)) hp
  case bang =>
    rw [operand_bang]
    refine readsOperand_unary (f := .not) (i := .not) ?_ (fun _ h => h)
      (fun e => by simp [Expression.work, Expression.constants, Expression.code]) trivial rfl
      (fun _ => rfl) (ihP .unary s (Nat.le_refl _) (by decide) hs)
    intro ts w s' hw e hp
    exact .not (by decide) hkind hp
  case number =>
    rw [operand_number]
    exact hs.readsOperand_literal b (l := .number s.previous.lexeme) rfl (.number hkind)
  case vec2 =>
    rw [operand_vector]
    exact hs.readsOperand_literal b (l := .vector s.previous.lexeme) rfl (.vector hkind)
  case string =>
    rw [operand_text]
    exact hs.readsOperand_literal b (l := .text s.previous.lexeme) rfl (.text hkind)
  case trueWord =>
    rw [operand_truth]
    exact hs.readsOperand_literal b (r := .ok (.bool true)) (l := .truth true) rfl (.yes hkind)
  case falseWord =>
    rw [operand_truth]
    exact hs.readsOperand_literal b (r := .ok (.bool false)) (l := .truth false) rfl (.no hkind)
  case identifier => exact hs.readsOperand_name hkind ihP

/-- The component of a vector, behind its point. -/
theorem Ready.readsContinuation_component (hs : s.Ready) {e : Expression} {ts : List Token}
    (hp : Phrase .call e ts) (hl : e.Legal) (hkind : s.previous.kind = .dot) :
    s.component.Troubled ∨ ReadsContinuation .component e ts s s.component := by
  unfold component
  rcases hs.expect_or (k := .identifier) (by decide) .componentName with
    ⟨b, s₁, heq, ht⟩ | ⟨s₁, t, heq, htk, hw₁⟩
  · left
    rw [heq]
    cases b with
    | false => exact ht
    | true =>
      refine ht.of_leads fun hk => ?_
      dsimp only
      split
      · exact (hk.internName _).emit _
      · exact hk.reportPrevious _
  · rw [heq]
    dsimp only
    have hprevious : s₁.previous = t := hw₁.previous_eq
    rw [hprevious]
    split
    · rename_i hname
      rcases hw₁.ready.intern_or (.string t.lexeme) with ht | ⟨hw₂, hindex, hmem⟩
      · exact .inl (ht.of_leads fun hk => hk.emit _)
      · right
        have hemit := hw₂.emitNamed (i := .getComponent t.lexeme) (fun _ => rfl) rfl trivial hmem
          hindex
        refine ⟨[t], .component e t.lexeme, ⟨[.string t.lexeme], [.getComponent t.lexeme], [], []⟩,
          .component hp hkind htk, ⟨hl, hname⟩, ?_, (hw₁.trans hemit).congr rfl (by simp),
          follows_call _⟩
        simp [Expression.work, Expression.constants, Expression.code]
    · exact .inl (hw₁.ready.troubled_report _ _)

/-- An operator behind its token, with what belongs to it. -/
theorem Ready.readsContinuation (hs : s.Ready) {c : Continuation} {e : Expression}
    {ts : List Token} (hc : Continuation.ofKind? s.previous.kind = some c)
    (hp : Phrase c.leftLevel e ts) (hl : e.Legal)
    (ihP : ∀ level t, t.left ≤ s.left → level ≤ .unary → t.Ready →
      (expressionAt level t).1.Troubled ∨ ReadsExpression level t (expressionAt level t).1) :
    (continuation c s).1.Troubled ∨ ReadsContinuation c e ts s (continuation c s).1 := by
  cases c with
  | and =>
    have hkind : s.previous.kind = .andAnd := by
      cases hk : s.previous.kind <;> rw [hk] at hc <;> cases hc
    rw [continuation_and]
    obtain ⟨hdone, hw₁⟩ := (Wrote.refl hs).beginBranch
    rcases ihP .and _ (by simp) (by decide) hw₁.ready with ht | ⟨us, e₂, hp₂, hl₂, hw₂, hstops⟩
    · exact .inl (ht.of_leads fun hk => hk.patchJump _)
    · obtain ⟨hfit, hfar⟩ := (hw₁.trans hw₂).patch .jumpIfFalse (a := []) (b := .pop :: e₂.code)
        rfl hdone
      by_cases hsize : codeSize (.pop :: e₂.code) ≤ 65535
      · right
        refine ⟨us, .and e e₂, _, .and (by decide) hp hkind hp₂, ⟨hl, hl₂⟩, ?_, hfit hsize, ?_⟩
        · simp [Expression.work, Expression.constants, Expression.code, Symbolic.size]
        · rw [current_patchJump]
          exact hstops.follows_and
      · exact .inl (hfar (Nat.lt_of_not_le hsize))
  | or =>
    have hkind : s.previous.kind = .orOr := by
      cases hk : s.previous.kind <;> rw [hk] at hc <;> cases hc
    rw [continuation_or]
    dsimp only
    obtain ⟨hright, hw₁⟩ := (Wrote.refl hs).emitJump .jumpIfFalse
    obtain ⟨hdone, hfit₁, -⟩ := hw₁.switchBranch (a := []) (b := []) rfl hright
    have hw₂ := hfit₁ (by decide)
    rcases ihP .or _ (by simp) (by decide) hw₂.ready with ht | ⟨us, e₂, hp₂, hl₂, hw₃, hstops⟩
    · exact .inl (ht.of_leads fun hk => hk.patchJump _)
    · have hoperand : ((s.emitJump .jumpIfFalse).2.switchBranch
          (s.emitJump .jumpIfFalse).1).1
          = s.written.length + codeSize [Symbolic.jumpIfFalse 3] + 1 := by
        rw [hdone, hw₁.length_written]
        simp [Symbolic.size]
      obtain ⟨hfit, hfar⟩ := (hw₂.trans hw₃).patch .jump (a := [.jumpIfFalse 3])
        (b := .pop :: e₂.code) rfl hoperand
      by_cases hsize : codeSize (.pop :: e₂.code) ≤ 65535
      · right
        refine ⟨us, .or e e₂, _, .or (by decide) hp hkind hp₂, ⟨hl, hl₂⟩, ?_, hfit hsize, ?_⟩
        · simp [Expression.work, Expression.constants, Expression.code, Symbolic.size]
        · rw [current_patchJump]
          exact hstops.follows_or
      · exact .inl (hfar (Nat.lt_of_not_le hsize))
  | binary op =>
    rw [continuation_binary]
    rcases ihP (rightLevel op) s (Nat.le_refl _) (rightLevel_le_unary op) hs with
      ht | ⟨us, e₂, hp₂, hl₂, hw, hstops⟩
    · exact .inl (ht.of_leads fun hk => hk.emit _)
    · right
      rw [rightLevel_eq] at hp₂
      refine ⟨us, .binary op e e₂, e₂.work ++ .emit [.binary op],
        .binary (Nat.le_refl _) hp (kind_of_ofKind?_binary hc) hp₂, ⟨hl, hl₂⟩, ?_,
        hw.emitPlain (i := .binary op) trivial rfl (fun _ => rfl), hstops.follows_operator⟩
      simp [Expression.work, Expression.constants, Expression.code]
  | component =>
    have hkind : s.previous.kind = .dot := by
      cases hk : s.previous.kind <;> rw [hk] at hc <;> cases hc
    rw [continuation_component]
    exact hs.readsContinuation_component hp hl hkind

/-- An expression of a level: its operand, with everything that binds to it tightly enough. -/
theorem Ready.readsExpression_step (hs : s.Ready) {level : Level} (hlevel : level ≤ .unary)
    (ihQ : ∀ o b, s.advance.left < s.left → s.advance.Ready →
      Operand.ofKind? s.advance.previous.kind = some o →
      (operand o b s.advance).1.Troubled ∨
        ReadsOperand b s.advance (operand o b s.advance).1)
    (ihR : ∀ l t, t.left < s.left → ∀ e ts m, Phrase m e ts → l ≤ m →
      Follows m t.current.kind → e.Legal → t.Ready →
      (continuations l t).1.Troubled ∨ ReadsContinuations l e ts t (continuations l t).1) :
    (expressionAt level s).1.Troubled ∨ ReadsExpression level s (expressionAt level s).1 := by
  cases ho : Operand.ofKind? s.current.kind with
  | none =>
    rw [expressionAt_of_none ho]
    exact .inl (hs.troubled_advance_report _)
  | some o =>
    rw [expressionAt_of_some ho]
    obtain ⟨t, rest, hup⟩ : ∃ t rest, s.upcoming = t :: rest := by
      cases hup : s.upcoming with
      | nil => simp [Draft.current, hup] at ho
      | cons t rest => exact ⟨t, rest, rfl⟩
    have hcurrent : s.current = t := by simp [Draft.current, hup]
    have hlt : s.advance.left < s.left :=
      left_advance_lt fun heof => by simp [heof] at ho
    have hprevious : s.advance.previous = t := by rw [previous_advance, hcurrent]
    have hkind : Operand.ofKind? s.advance.previous.kind = some o := by
      rw [hprevious, ← hcurrent, ho]
    rcases hs.advance_or hup with ht | hw₁
    · exact .inl (ht.of_leads fun hk => ((hk.operand hkind _).continuations _).closeAt _)
    rcases ihQ o (level = .assignment) hlt hw₁.ready hkind with
      ht | ⟨ts, m, e, hp, hl, hw₂, hf, hassign, hm⟩
    · exact .inl (ht.of_leads fun hk => (hk.continuations _).closeAt _)
    have hle : level ≤ m := by
      rcases hm with rfl | hm
      · rw [of_decide_eq_true (hassign rfl)]
        decide
      · exact Nat.le_trans hlevel hm
    have hlt₂ := Nat.lt_of_le_of_lt (operand o (level = .assignment) s.advance).2 hlt
    rcases ihR level _ hlt₂ e _ m hp hle hf hl hw₂.ready with
      ht | ⟨us, e', w, hp', hl', hwork, hw₃, hstops⟩
    · exact .inl (ht.of_leads fun hk => hk.closeAt _)
    rcases hw₃.ready.closeAt_or level with ht | hclose
    · exact .inl ht
    · right
      rw [hclose]
      rw [hprevious] at hp'
      refine ⟨t :: (ts ++ us), e', hp', hl', ?_, hstops⟩
      exact (hw₁.trans (hw₂.trans hw₃)).congr rfl (by rw [hwork, Work.none_append])

/-- What follows a phrase: each operator takes the phrase before it as its left operand. -/
theorem Ready.readsContinuations_step (hs : s.Ready) {level m : Level} {e : Expression}
    {ts : List Token} (hp : Phrase m e ts) (hlevel : level ≤ m)
    (hf : Follows m s.current.kind) (hl : e.Legal)
    (ihS : ∀ c, s.advance.left < s.left → ∀ e ts, s.advance.Ready →
      Continuation.ofKind? s.advance.previous.kind = some c → Phrase c.leftLevel e ts → e.Legal →
      (continuation c s.advance).1.Troubled ∨
        ReadsContinuation c e ts s.advance (continuation c s.advance).1)
    (ihR : ∀ l t, t.left < s.left → ∀ e ts m, Phrase m e ts → l ≤ m →
      Follows m t.current.kind → e.Legal → t.Ready →
      (continuations l t).1.Troubled ∨ ReadsContinuations l e ts t (continuations l t).1) :
    (continuations level s).1.Troubled ∨
      ReadsContinuations level e ts s (continuations level s).1 := by
  have hdone (hstops : Stops level s.current.kind) : ReadsContinuations level e ts s s :=
    ⟨[], e, .none, by simpa using hp.loosen hlevel, hl, by simp [Expression.work], .refl hs, hstops⟩
  cases hc : Continuation.ofKind? s.current.kind with
  | none =>
    rw [continuations_of_none hc]
    exact .inr (hdone fun c h => by rw [hc] at h; cases h)
  | some c =>
    by_cases hle : level ≤ c.level
    · rw [continuations_of_tight hc hle]
      obtain ⟨t, rest, hup⟩ : ∃ t rest, s.upcoming = t :: rest := by
        cases hup : s.upcoming with
        | nil => simp [Draft.current, hup] at hc
        | cons t rest => exact ⟨t, rest, rfl⟩
      have hcurrent : s.current = t := by simp [Draft.current, hup]
      have hlt : s.advance.left < s.left :=
        left_advance_lt fun heof => by simp [heof] at hc
      rcases hs.advance_or hup with ht | hw₁
      · exact .inl (ht.of_leads fun hk => (hk.continuation _).continuations _)
      have hprevious : s.advance.previous = t := hw₁.previous_eq
      have hkind : Continuation.ofKind? s.advance.previous.kind = some c := by
        rw [hprevious, ← hcurrent, hc]
      rcases ihS c hlt e ts hw₁.ready hkind (leftOperand_of_follows hp hf hc) hl with
        ht | ⟨us, e₁, w₁, hp₁, hl₁, hwork₁, hw₂, hf₁⟩
      · exact .inl (ht.of_leads fun hk => hk.continuations _)
      have hlt₂ := Nat.lt_of_le_of_lt (continuation c s.advance).2 hlt
      rcases ihR level _ hlt₂ e₁ _ c.level hp₁ hle hf₁ hl₁ hw₂.ready with
        ht | ⟨vs, e₂, w₂, hp₂, hl₂, hwork₂, hw₃, hstops⟩
      · exact .inl ht
      · right
        rw [hprevious] at hp₂
        refine ⟨t :: (us ++ vs), e₂, w₁ ++ w₂, by simpa using hp₂, hl₂, ?_, ?_, hstops⟩
        · rw [hwork₂, hwork₁, Work.append_assoc]
        · exact (hw₁.trans (hw₂.trans hw₃)).congr rfl (by simp [Work.append_def])
    · rw [continuations_of_loose hc hle]
      refine .inr (hdone fun c' h => ?_)
      rw [hc] at h
      cases h
      exact hle

/-- Compiling an expression of a level finds something wrong or reads an expression of that
level. -/
theorem Ready.readsExpression (hs : s.Ready) {level : Level} (hlevel : level ≤ .unary) :
    (expressionAt level s).1.Troubled ∨ ReadsExpression level s (expressionAt level s).1 := by
  have main := expression_induction
    (P := fun level s => level ≤ .unary → s.Ready →
      (expressionAt level s).1.Troubled ∨ ReadsExpression level s (expressionAt level s).1)
    (Q := fun o b s => s.Ready → Operand.ofKind? s.previous.kind = some o →
      (operand o b s).1.Troubled ∨ ReadsOperand b s (operand o b s).1)
    (R := fun level s => ∀ e ts m, Phrase m e ts → level ≤ m → Follows m s.current.kind →
      e.Legal → s.Ready →
      (continuations level s).1.Troubled ∨
        ReadsContinuations level e ts s (continuations level s).1)
    (S := fun c s => ∀ e ts, s.Ready → Continuation.ofKind? s.previous.kind = some c →
      Phrase c.leftLevel e ts → e.Legal →
      (continuation c s).1.Troubled ∨ ReadsContinuation c e ts s (continuation c s).1)
    (fun level s ihQ ihR hlevel hs => hs.readsExpression_step hlevel ihQ ihR)
    (fun o b s ihP ihR hs ho => hs.readsOperand ho ihP ihR)
    (fun level s ihS ihR e ts m hp hle hf hl hs =>
      hs.readsContinuations_step hp hle hf hl ihS ihR)
    (fun c s ihP e ts hs hc hp hl => hs.readsContinuation hc hp hl ihP)
  exact main.1 level s hlevel hs

/-- Compiling an expression finds something wrong or reads an expression. -/
theorem Ready.expression_or (hs : s.Ready) : s.expression.Troubled ∨
    ∃ ts e, Phrase .assignment e ts ∧ e.Legal ∧ Wrote s ts e.work s.expression := by
  have hlevel : Level.assignment ≤ .unary := by decide
  rcases hs.readsExpression hlevel with ht | ⟨ts, e, hp, hl, hw, -⟩
  · exact .inl ht
  · exact .inr ⟨ts, e, hp, hl, hw⟩

end Draft

end EntityScript.Compile
