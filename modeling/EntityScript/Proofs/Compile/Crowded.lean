import EntityScript.Proofs.Compile.Rendered
import EntityScript.Proofs.Compile.Resumed

/-!
# Full handlers

A handler has room for as many constants as one byte can name, and one constant more is a problem.
Here is a source with a handler that keeps within this limit only as long as its vectors have their
signs. Where an assignment before such a vector loses its value, the minus sign is read as a
subtraction from the name of the assignment. The vector without its sign is one constant too many,
so that a second problem is reported.
-/

namespace EntityScript

open Grammar Compile

namespace Grammar

/-- Statements that read variables. -/
def mentions : List String → Statement
  | [] => .skip
  | name :: names => .seq (.evaluate (.var name)) (mentions names)

/-- The tokens of statements that read variables. -/
def mentionTokens : List String → List Token
  | [] => []
  | name :: names => word name :: mark .semicolon :: mentionTokens names

variable {names : List String}

/-- A name in front of a semicolon is a statement that reads the variable. -/
theorem clause_mention {name : String} (h : name ≠ "args") :
    Clause .statement (.evaluate (.var name)) [word name, mark .semicolon] := by
  have hvar : Phrase .assignment (.var name) [word name] :=
    .var (.plain (t := word name) rfl h)
  exact .evaluate (z := mark .semicolon) hvar rfl

/-- Names in front of semicolons are a body that reads the variables. -/
theorem clause_mentions (h : ∀ name ∈ names, name ≠ "args") :
    Clause .body (mentions names) (mentionTokens names) := by
  induction names with
  | nil => exact .done
  | cons name names ih =>
    obtain ⟨hname, hnames⟩ := List.forall_mem_cons.1 h
    exact .next (clause_mention hname) (ih hnames)

/-- The constants of such statements are the names, in their order. -/
theorem constants_mentions (names : List String) :
    (mentions names).constants = names.map .string := by
  induction names with
  | nil => rfl
  | cons name names ih => simp [mentions, Statement.constants, Expression.constants, ih]

/-- Statements that read variables are legal. -/
theorem legal_mentions (names : List String) : (mentions names).Legal := by
  induction names with
  | nil => trivial
  | cons name names ih => exact ⟨trivial, ih⟩

/-- The code of statements that read variables fits. -/
theorem fits_mentions (names : List String) : ∀ i ∈ (mentions names).code, i.Fits := by
  induction names with
  | nil => simp [mentions, Statement.code]
  | cons name names ih =>
    simp only [mentions, Statement.code, Expression.code, List.forall_mem_append,
      List.forall_mem_singleton]
    exact ⟨⟨trivial, trivial⟩, ih⟩

/-- Statements that read variables annotate nothing. -/
theorem annotations_mentions (names : List String) : (mentions names).annotations = [] := by
  induction names with
  | nil => rfl
  | cons name names ih => simp [mentions, Statement.annotations, ih]

/-- Statements that read variables change no state. -/
theorem targets_mentions (names : List String) : (mentions names).targets = [] := by
  induction names with
  | nil => rfl
  | cons name names ih => simp [mentions, Statement.targets, ih]

/-- The tokens of such statements can be laid out if the names can. -/
theorem spaced_mentionTokens (h : ∀ name ∈ names, Spaced (word name)) :
    ∀ t ∈ mentionTokens names, Spaced t := by
  induction names with
  | nil => simp [mentionTokens]
  | cons name names ih =>
    obtain ⟨hname, hnames⟩ := List.forall_mem_cons.1 h
    exact List.forall_mem_cons.2 ⟨hname, List.forall_mem_cons.2
      ⟨spaced_mark rfl, ih hnames⟩⟩

end Grammar

namespace Compile.Draft

variable {s : Draft} {name : String} {names : List String} {rest : List Token}

/-- What is found when a name is interned is kept, whether the name is assigned to or read. -/
theorem leads_afterName (b : Bool) (name : String) (s : Draft) :
    (s.intern (.string name)).2.Leads (afterName b name s) := by
  unfold afterName internName
  dsimp only
  split
  · exact Leads.refl.advance.expression.emit _
  · exact Leads.refl.emit _

/-- A variable for whose name there is no room is a problem. -/
theorem Ready.mention_or (hs : s.Ready) (hc : s.Clear) (hname : name ≠ "args")
    (hup : s.upcoming = word name :: mark .semicolon :: rest) (hrest : nextKind rest ≠ .elseWord) :
    s.statement.1.Troubled ∨
      Wrote s [word name, mark .semicolon] (Statement.evaluate (.var name)).work s.statement.1 := by
  by_cases hroom : (pooled s.pool [.string name]).length ≤ Chunk.maxConstants
  · have hprepared : Prepared s [word name, mark .semicolon] rest
        (Statement.evaluate (.var name)).work := {
      ready := hs
      clear := hc
      upcoming := hup
      room := hroom
      fits := by
        simp [Statement.work, Statement.code, Expression.code, Symbolic.Fits]
      types := fun _ _ _ => Typed.unique rfl }
    exact .inr (Compiles.of_clause (clause_mention hname) trivial s rest hprepared hrest)
  · left
    have hprepared : Prepared s [word name] (mark .semicolon :: rest) .none := {
      ready := hs
      clear := hc
      upcoming := hup
      room := hs.room
      fits := by simp
      types := fun _ _ _ => Typed.unique rfl }
    obtain ⟨s₁, hw₁, hvariable, hoperand, -⟩ := hprepared.name (.plain (t := word name) rfl hname)
    have htroubled : (s₁.intern (.string name)).2.Troubled := by
      refine (hw₁.ready.intern_or _).resolve_right ?_
      rintro ⟨hw₂, -⟩
      have hpool : (s₁.intern (.string name)).2.pool = pooled s.pool [.string name] := by
        rw [hw₂.pool, hw₁.pool]
        rfl
      exact hroom (hpool ▸ hw₂.ready.room)
    have hlead : (s₁.intern (.string name)).2.Leads (operand .name true s.advance).1 := by
      rw [operand_name, hvariable]
      exact leads_afterName true name s₁
    have hexpression : s.expression
        = closeAt .assignment (continuations .assignment (operand .name true s.advance).1).1 :=
      expressionAt_of_some hoperand
    have hbegins : ¬ beginsOther s.current.kind = true :=
      not_beginsOther_of_isSome (by rw [hoperand]; rfl)
    rw [statement_expression hbegins, expressionStatement, hexpression]
    exact htroubled.of_leads fun _ =>
      (((hlead.continuations _).closeAt _).expect _ _).emit _

/-- A statement that writes its work, or is a problem, is followed by the rest of its block. -/
theorem blockBody_after {ts : List Token} {w : Work} (hbegins : ¬ endsBlock s.current.kind = true)
    (h : s.statement.1.Troubled ∨ Wrote s ts w s.statement.1) :
    s.blockBody.1.Troubled ∨
      Wrote s ts w s.statement.1 ∧ s.blockBody.1 = s.statement.1.blockBody.1 := by
  rw [blockBody_of_not_ends hbegins]
  refine h.imp (fun ht => ht.of_leads fun hk => hk.recover.blockBody) fun hw => ⟨hw, ?_⟩
  rw [recover, if_neg (by simp [hw.ready.panicking])]

/-- Variables for whose names there is no room are a problem. -/
theorem Ready.mentions_or (hnames : ∀ name ∈ names, name ≠ "args")
    (hrest : nextKind rest = .rightBrace) :
    ∀ {s : Draft}, s.Ready → s.Clear → s.upcoming = mentionTokens names ++ rest →
      s.blockBody.1.Troubled ∨
        (pooled s.pool (names.map .string)).length ≤ Chunk.maxConstants := by
  induction names with
  | nil => exact fun hs _ _ => .inr hs.room
  | cons name names ih =>
    intro s hs hc hup
    obtain ⟨hname, hnames⟩ := List.forall_mem_cons.1 hnames
    have hkind : s.current.kind = .identifier := by
      rw [current_kind, hup]
      rfl
    have hnext : nextKind (mentionTokens names ++ rest) ≠ .elseWord := by
      cases names with
      | nil => exact fun heq => absurd (hrest.symm.trans heq) (by decide)
      | cons name names => exact fun heq => by cases heq
    obtain ht | ⟨hw, hbody⟩ := blockBody_after (by rw [hkind]; decide)
      (hs.mention_or hc hname hup hnext)
    · exact .inl ht
    · have hpool : s.statement.1.pool = pooled s.pool [.string name] := hw.pool
      have hafter : s.statement.1.upcoming = mentionTokens names ++ rest := by
        have hsplit : [word name, mark .semicolon] ++ (mentionTokens names ++ rest) = _ :=
          hup.symm.trans hw.upcoming
        exact (List.append_cancel_left hsplit).symm
      have hor := ih hnames hw.ready (hc.of_wrote hw) hafter
      rw [hbody]
      rw [hpool, ← pooled_append] at hor
      exact hor

end Compile.Draft

namespace Compile.Outline

open Draft

variable {o : Outline} {ts : List Token}

/-- Compiling a handler gets to its block, and keeps what is found there. -/
theorem Prepared.exists_block {n l : Token} (h : Prepared o (n :: l :: ts) [] [] [])
    (state : String) (hn : n.kind = .identifier)
    (hl : l.kind = .leftBrace) : ∃ s : Draft, s.Ready ∧ s.Clear ∧ s.pool = [] ∧ s.upcoming = ts ∧
      s.blockBody.1.Leads (o.handlerTail state).draft := by
  obtain ⟨-, hprevious, h₁⟩ := h.advance
  have hblock : Draft.Prepared
      { o.advance.draft with chunk := .empty (state ++ "." ++ n.lexeme) } (l :: ts) [] .none := {
    ready := ⟨h₁.ready.diagnostics, h₁.ready.panicking, Nat.zero_le _⟩
    clear := h₁.clear
    upcoming := h₁.upcoming
    room := Nat.zero_le _
    fits := by simp
    types := fun _ _ _ => Typed.unique rfl }
  obtain ⟨hw, -, h₂⟩ := hblock.advance
  refine ⟨_, h₂.ready, h₂.clear, hw.pool, by rw [h₂.upcoming, List.append_nil], ?_⟩
  rw [handlerTail_eq (h.draft.sees hn) (h₁.draft.sees hl), hprevious]
  dsimp only
  have hchunk : ({ o.advance.draft with
      chunk := .empty (state ++ "." ++ n.lexeme) } : Draft).advance.blockBody.1.Leads
        (handlerChunk o.advance.draft (state ++ "." ++ n.lexeme)).2 :=
    (Leads.refl.emit .ret).write rfl rfl rfl
  split
  · have hkept : Leads { o with draft := _ } { o with draft := _ } := hchunk
    exact hkept.addHandler ..
  · exact hchunk

/-- Compiling a source with one handler gets to the block of the handler, and keeps what is found
there. -/
theorem exists_block {source state event : String}
    (hwords : Token.words source = handlerTokens state event ts) (hts : AllReadable ts) :
    ∃ s : Draft, s.Ready ∧ s.Clear ∧ s.pool = [] ∧
      s.upcoming = ts ++ [mark .rightBrace, mark .rightBrace] ∧
      s.blockBody.1.Leads (ofSource source).declarations.draft := by
  have hreadable : ∀ t ∈ Token.words source, t.kind ≠ .error := by
    rw [hwords]
    have hall : AllReadable (handlerTokens state event ts) := by
      simp [handlerTokens, mark, word, hts]
    exact hall
  obtain ⟨hready, hup⟩ := ofSource_of_clear hreadable
  have h : Prepared (ofSource source) (handlerTokens state event ts) [] [state] [] := {
    ready := hready
    clear := by
      intro t ht
      rw [hup] at ht
      exact ⟨hreadable t ht, (Token.mem_words ht).2⟩
    upcoming := by rw [hup, hwords, List.append_nil]
    names := List.nodup_singleton state
    fresh := by simp
    keys := List.nodup_nil
    legal := by simp
    room := by simp
    fits := by simp
    types := fun _ _ _ ht ht' => Typed.unique (w := .none) rfl ht ht' }
  generalize ofSource source = o at h
  obtain ⟨-, -, h₁⟩ := h.advance
  obtain ⟨-, hprevious, h₂⟩ := h₁.advance
  have h₂' := h₂.congr (a := [] ++ _) rfl (m := [o.advance.advance.draft.previous.lexeme] ++ [])
    (by rw [hprevious]; rfl) (k := [] ++ []) rfl
  obtain ⟨-, hg⟩ := h₂'.first.declareState
  have h₃ := h₂'.second hg
  obtain ⟨-, -, h₄⟩ := h₃.advance
  obtain ⟨-, -, h₅⟩ := h₄.advance
  obtain ⟨s, hs, hc, hpool, hupcoming, hleads⟩ := h₅.exists_block
    o.advance.advance.declareState.1 rfl rfl
  refine ⟨s, hs, hc, hpool, hupcoming, ?_⟩
  have hcurrent : o.current.kind = .state := by
    rw [gathering.current h]
    rfl
  have hname : o.advance.expect .identifier .stateName = (true, o.advance.advance) :=
    gathering.expect h₁ rfl _
  have hbrace : o.advance.advance.declareState.2.expect .leftBrace .stateBrace
      = (true, o.advance.advance.declareState.2.advance) := gathering.expect h₃ rfl _
  have hevent : o.advance.advance.declareState.2.advance.current.kind = .onEvent := by
    rw [gathering.current h₄]
    rfl
  rw [Outline.declarations, dif_neg (by rw [hcurrent]; decide),
    dif_neg (by rw [hcurrent]; decide), dif_pos hcurrent, stateTail_eq, hname]
  dsimp only
  unfold Outline.stateBrace
  rw [hbrace]
  dsimp only
  rw [Outline.stateBody, dif_neg (by rw [hevent]; decide), dif_pos hevent]
  have hkept : Leads { o with draft := _ } (Outline.handlerTail _ _) := hleads
  exact (hkept.stateBody _).closeState.declarations

end Compile.Outline

namespace Grammar

/-- A vector that is evaluated with its sign. -/
def opposite : Statement := .evaluate (.literal (.negatedVector "3,4"))

/-- The tokens of a vector with its sign. -/
def oppositeTokens : List Token := [mark .minus, ⟨.vec2, "3,4", 1⟩, mark .semicolon]

/-- A block that assigns to a variable, evaluates a vector twice and reads other variables. -/
def crowd (names : List String) : Statement :=
  .seq (.evaluate (.assign "v" (.var "v"))) (.seq opposite (.seq opposite (mentions names)))

/-- What is left of such a block without the value that is assigned. -/
def crowdLeft (names : List String) : Statement :=
  .seq (.evaluate (.var "v")) (.seq (.evaluate (.literal (.vector "3,4")))
    (.seq opposite (mentions names)))

/-- The tokens of such a block, with what is left of the value that is assigned. -/
def crowdTokens (value : List Token) (names : List String) : List Token :=
  word "v" :: mark .equal :: (value ++ mark .semicolon ::
    (oppositeTokens ++ (oppositeTokens ++ mentionTokens names)))

/-- A source with such a block. -/
def crowdFile (names : List String) : File := [.state ⟨"s", [⟨"e", crowd names⟩]⟩]

variable {names : List String}

/-- A vector with its sign is a statement. -/
theorem clause_opposite : Clause .statement opposite oppositeTokens := by
  have hvector : Phrase .assignment (.literal (.negatedVector "3,4"))
      [mark .minus, ⟨.vec2, "3,4", 1⟩] :=
    .negatedVector (t := ⟨.vec2, "3,4", 1⟩) rfl rfl
  exact .evaluate (z := mark .semicolon) hvector rfl

/-- A vector is no text, with its sign or without. -/
theorem Literal.value_vector_ne (lexeme text : String) :
    (vector lexeme).value ≠ .string text ∧ (negatedVector lexeme).value ≠ .string text := by
  simp only [value, read]
  cases Compile.readVector lexeme <;> constructor <;> intro h <;> cases h

/-- The letter that is assigned to is a name. -/
theorem name_v : Name "v" [word "v"] := .plain (t := word "v") rfl (by decide)

/-- The tokens of a crowded block with a name for the value that is assigned spell it. -/
theorem clause_crowd (h : ∀ name ∈ names, name ≠ "args") :
    Clause .body (crowd names) (crowdTokens [word "v"] names) := by
  have hassign := Clause.evaluate (z := mark .semicolon)
    (.assign name_v (q := mark .equal) rfl (.var name_v)) rfl
  exact .next hassign (.next clause_opposite (.next clause_opposite (clause_mentions h)))

/-- Without the value the tokens spell the block with its first assignment emptied. -/
theorem emptied_crowd (h : ∀ name ∈ names, name ≠ "args") :
    Emptied .body (crowd names) (crowdLeft names) (crowdTokens [] names) [mark .semicolon] :=
  .gap name_v rfl rfl (.of_clause (.next clause_opposite
    (.next clause_opposite (clause_mentions h))))

/-- A file with a crowded block keeps to the rules if there is room for the names and two vectors.
-/
theorem valid_crowdFile (hlength : names.length + 2 ≤ Chunk.maxConstants) :
    Valid (crowdFile names) := by
  have hconstants : (crowd names).constants
      ⊆ .string "v" :: (Literal.negatedVector "3,4").value :: names.map .string := by
    simp [crowd, opposite, Statement.constants, Expression.constants, constants_mentions]
  refine valid_of_handler ⟨trivial, trivial, trivial, legal_mentions names⟩ ?_ ?_ ?_ ?_
  · simp [crowd, opposite, Statement.targets, targets_mentions]
  · simp [crowd, opposite, Statement.annotations, annotations_mentions]
  · refine Nat.le_trans ((List.nodup_dedup _).length_le_of_subset
      (List.Subset.trans (List.dedup_subset _) hconstants)) ?_
    rw [List.length_cons, List.length_cons, List.length_map]
    exact hlength
  · simp only [crowd, opposite, Statement.code, Expression.code, List.forall_mem_append,
      List.forall_mem_singleton]
    exact ⟨⟨⟨trivial, trivial⟩, trivial⟩, ⟨trivial, trivial⟩, ⟨trivial, trivial⟩,
      fits_mentions names⟩

/-- The tokens of a crowded block can be laid out if the value and the names can. -/
theorem spaced_crowdTokens {value : List Token} (hvalue : ∀ t ∈ value, Spaced t)
    (h : ∀ name ∈ names, Spaced (word name)) : ∀ t ∈ crowdTokens value names, Spaced t := by
  have hv : Spaced (word "v") := spaced_word (by decide +kernel)
  have hopposite : ∀ t ∈ oppositeTokens, Spaced t := by
    have hvector : Written ⟨.vec2, "3,4", 1⟩ := by decide +kernel
    simp only [oppositeTokens, List.forall_mem_cons]
    exact ⟨spaced_mark rfl, ⟨hvector.stands nofun, nofun, rfl⟩, spaced_mark rfl, by simp⟩
  simp only [crowdTokens, List.forall_mem_cons, List.forall_mem_append]
  exact ⟨hv, spaced_mark rfl, hvalue, spaced_mark rfl, hopposite, hopposite,
    spaced_mentionTokens h⟩

end Grammar

/-- The text of a source with a crowded handler. -/
def crowdSource (value : List Token) (names : List String) : String :=
  Token.laidOut ' ' (handlerTokens "s" "e" (crowdTokens value names))

variable {names : List String}

/-- The words of the laid out source are the tokens of its handler. -/
theorem words_crowdSource {value : List Token} (hvalue : ∀ t ∈ value, Spaced t)
    (h : ∀ name ∈ names, Spaced (word name)) :
    Token.words (crowdSource value names) = handlerTokens "s" "e" (crowdTokens value names) :=
  words_spaced (spaced_handlerTokens (by decide +kernel) (by decide +kernel)
    (spaced_crowdTokens hvalue h))

/-- A name that is assigned to, and a vector with its sign and without, are three constants more
than other names. -/
theorem nodup_crowd (hnodup : names.Nodup) (hv : "v" ∉ names) :
    (Value.string "v" :: (Literal.vector "3,4").value :: (Literal.negatedVector "3,4").value ::
      names.map .string).Nodup := by
  have hsign : (Literal.vector "3,4").value ≠ (Literal.negatedVector "3,4").value := by
    decide +kernel
  have hne := fun text => Literal.value_vector_ne "3,4" text
  refine List.nodup_cons.2 ⟨?_, List.nodup_cons.2 ⟨?_, List.nodup_cons.2 ⟨?_, ?_⟩⟩⟩
  · simp [(hne "v").1.symm, (hne "v").2.symm, hv]
  · simp [hsign, fun text => (hne text).1.symm]
  · simp [fun text => (hne text).2.symm]
  · exact hnodup.map fun a b h => Value.string.inj h

/-- Whatever is in a pool, it has as many constants more with the difference of the name and the
vector, the vector with its sign and the other names. -/
theorem length_pooled_crowd (hnodup : names.Nodup) (hv : "v" ∉ names) (pool : List Value) :
    names.length + 3 ≤ (pooled (pooled (pooled pool
      (Expression.binary .subtract (.var "v") (.literal (.vector "3,4"))).constants)
      [(Literal.negatedVector "3,4").value]) (names.map .string)).length := by
  have hsubset : Value.string "v" :: (Literal.vector "3,4").value ::
      (Literal.negatedVector "3,4").value :: names.map .string ⊆ pooled (pooled (pooled pool
        (Expression.binary .subtract (.var "v") (.literal (.vector "3,4"))).constants)
        [(Literal.negatedVector "3,4").value]) (names.map .string) := by
    intro x hx
    rw [mem_pooled, mem_pooled, mem_pooled]
    simp only [Expression.constants, List.mem_cons, List.mem_append, List.not_mem_nil] at hx ⊢
    tauto
  have hle := (nodup_crowd hnodup hv).length_le_of_subset hsubset
  simp only [List.length_cons, List.length_map] at hle
  exact hle

namespace Compile.Draft

/-- Behind the first of the two vectors the block goes on with the second one, and there is a
problem if the names have no room beside it. -/
theorem Prepared.troubled_mentions {s : Draft}
    (h : Prepared s oppositeTokens (mentionTokens names ++ [mark .rightBrace, mark .rightBrace])
      opposite.work)
    (hargs : ∀ name ∈ names, name ≠ "args")
    (hfull : Chunk.maxConstants < (pooled (pooled s.pool [(Literal.negatedVector "3,4").value])
      (names.map .string)).length) : s.blockBody.1.Troubled := by
  have hnext : nextKind (mentionTokens names ++ [mark .rightBrace, mark .rightBrace])
      ≠ .elseWord := by
    cases names <;> exact fun heq => by cases heq
  have hkind : s.current.kind = .minus := by
    rw [h.current]
    rfl
  have hw := Compiles.of_clause clause_opposite trivial s _ h hnext
  obtain ht | ⟨-, hafter⟩ := blockBody_after (by rw [hkind]; decide) (.inr hw)
  · exact ht
  · have hpool : s.statement.1.pool = pooled s.pool [(Literal.negatedVector "3,4").value] := hw.pool
    rw [hafter]
    refine (hw.ready.mentions_or hargs rfl (h.clear.of_wrote hw)
      (h.rest_upcoming hw)).resolve_right ?_
    rw [hpool]
    exact Nat.not_le_of_lt hfull

/-- The constants that the beginning of a crowded block may come to: the name, and the vector with
its sign and without it. -/
def crowdConstants : List Value :=
  [.string "v", (Literal.vector "3,4").value, (Literal.negatedVector "3,4").value]

/-- In a crowded handler the missing value is reported, and the vector behind it is subtracted from
the name. Then the block goes on with the constants of this difference in its pool. -/
theorem Ready.crowd_begins {s : Draft} (hs : s.Ready) (hc : s.Clear) (hpool : s.pool = [])
    (hup : s.upcoming = crowdTokens [] names ++ [mark .rightBrace, mark .rightBrace]) :
    ∃ (c : Draft) (pool : List Value), s.blockBody.1 = c.blockBody.1 ∧ c.diagnostics.size = 1 ∧
      c.pool = pooled pool
        (Expression.binary .subtract (.var "v") (.literal (.vector "3,4"))).constants ∧
      Affords crowdConstants c oppositeTokens
        (mentionTokens names ++ [mark .rightBrace, mark .rightBrace]) opposite.work := by
  let rest := oppositeTokens ++ (mentionTokens names ++ [mark .rightBrace, mark .rightBrace])
  have hcalm : s.Calm crowdConstants := {
    panicking := hs.panicking
    clear := hc
    nodup := hpool ▸ List.nodup_nil
    pool := by simp [hpool]
    room := Nat.le_trans (List.dedup_sublist crowdConstants).length_le (by decide) }
  have h : Affords crowdConstants s
      ([word "v", mark .equal, mark .semicolon] ++ oppositeTokens) rest
      ((.intern (.string "v") ++ .emit [.setVariable "v"])
        ++ (.emit [.pop] ++ (Statement.evaluate (.literal (.vector "3,4"))).work)) := {
    calm := hcalm
    upcoming := by simp [hup, crowdTokens, rest]
    constants := by simp [crowdConstants, Work.append_def, Statement.work, Statement.constants,
      Expression.constants]
    fits := by simp [Work.append_def, Statement.work, Statement.code, Expression.code,
      Symbolic.Fits]
    types := fun _ _ _ => Typed.unique rfl }
  obtain ⟨u, hrecover, hstalled, hp₁⟩ := h.first.gap name_v rfl rfl
  -- The minus sign behind the missing value makes a difference of what is a vector with a sign.
  have hlighter : Lighter [.string "v"] 3 (.literal (.vector "3,4"))
      (.binary .subtract (.var "v") (.literal (.vector "3,4"))) :=
    (Lighter.refl _).subtract "v"
  have hphrase : Phrase .assignment (.binary .subtract (.var "v") (.literal (.vector "3,4")))
      ([word "v"] ++ mark .minus :: [⟨.vec2, "3,4", 1⟩]) :=
    .binary (by decide) (.var name_v) rfl (.vector (t := ⟨.vec2, "3,4", 1⟩) rfl)
  obtain ⟨hp₂, hpool₂⟩ := hstalled.subtract name_v (m := mark .minus) (z := mark .semicolon) rfl
    rfl hphrase hlighter trivial (h.second hp₁)
  have hkind : s.current.kind = .identifier := by
    rw [current_kind, hup]
    rfl
  refine ⟨u.endStatement, u.pool, ?_, ?_, hpool₂, ?_⟩
  · rw [blockBody_of_not_ends (by rw [hkind]; decide), hrecover]
  · have hdiagnostics := hp₂.diagnostics
    rw [hp₁.diagnostics, hs.diagnostics] at hdiagnostics
    simpa using congrArg List.length hdiagnostics
  · have hsplit := (h.second hp₁).upcoming
    rw [hp₂.upcoming] at hsplit
    exact {
      calm := hp₂.calm
      upcoming := List.append_cancel_left hsplit
      constants := by simp [crowdConstants, opposite, Statement.work, Statement.constants,
        Expression.constants]
      fits := by simp [opposite, Statement.work, Statement.code, Expression.code, Symbolic.Fits]
      types := fun _ _ _ => Typed.unique rfl }

/-- In a crowded handler the vector without its sign has no room, so that there is another problem
beside the missing value. -/
theorem Ready.crowd {s : Draft} (hs : s.Ready) (hc : s.Clear) (hpool : s.pool = [])
    (hup : s.upcoming = crowdTokens [] names ++ [mark .rightBrace, mark .rightBrace])
    (hargs : ∀ name ∈ names, name ≠ "args") (hnodup : names.Nodup) (hv : "v" ∉ names)
    (hlength : Chunk.maxConstants < names.length + 3) : 2 ≤ s.blockBody.1.diagnostics.size := by
  obtain ⟨c, pool, hbody, hfound, hdifference, h⟩ := hs.crowd_begins hc hpool hup
  have htroubled : c.unmarked.blockBody.1.Troubled := by
    refine h.prepared.troubled_mentions hargs (Nat.lt_of_lt_of_le hlength ?_)
    have hunmarked : c.unmarked.pool = c.pool := rfl
    rw [hunmarked, hdifference]
    exact length_pooled_crowd hnodup hv pool
  rw [hbody, (statementMatching_behind c.diagnostics).blockBody c.behind_unmarked]
  have hsize : 0 < c.unmarked.blockBody.1.diagnostics.size :=
    Array.size_pos_iff.2 htroubled
  simp only [behind, Array.size_append]
  omega

end Compile.Draft

/-- A crowded source compiles. -/
theorem fileSpelling_crowd (hspaced : ∀ name ∈ names, Spaced (word name))
    (hargs : ∀ name ∈ names, name ≠ "args") :
    FileSpelling (crowdFile names) (Token.words (crowdSource [word "v"] names)) := by
  have hv : ∀ t ∈ [word "v"], Spaced t :=
    List.forall_mem_singleton.2 (spaced_word (by decide +kernel))
  rw [words_crowdSource hv hspaced]
  exact fileSpelling_handlerTokens _ _ (clause_crowd hargs)

/-- A crowded source from which the value is missing. -/
theorem fileEmptied_crowd (hspaced : ∀ name ∈ names, Spaced (word name))
    (hargs : ∀ name ∈ names, name ≠ "args") :
    FileEmptied (fun _ => True) (crowdFile names) (Token.words (crowdSource [] names))
      [mark .semicolon] := by
  rw [words_crowdSource (by simp) hspaced]
  exact fileEmptied_handlerTokens _ _ (emptied_crowd hargs) trivial

/-- A crowded source from which the value is missing has more than one problem. -/
theorem compile_crowd_ne (file : String) (hspaced : ∀ name ∈ names, Spaced (word name))
    (hargs : ∀ name ∈ names, name ≠ "args") (hnodup : names.Nodup) (hv : "v" ∉ names)
    (hlength : Chunk.maxConstants < names.length + 3) (d : Diagnostic) :
    compile file (crowdSource [] names) ≠ .error ⟨file, [d]⟩ := by
  have hwords : Token.words (crowdSource [] names) = _ := words_crowdSource (by simp) hspaced
  obtain ⟨s, hs, hc, hpool, hup, hleads⟩ :=
    Outline.exists_block hwords (emptied_crowd hargs).readable
  have htwo := hs.crowd hc hpool hup hargs hnodup hv hlength
  unfold compile
  generalize (Outline.ofSource (crowdSource [] names)).declarations = o at hleads
  have hkept : Outline.Leads { o with draft := _ } o := hleads
  have hkeeps : o.requireStates.draft.Keeps s.blockBody.1.diagnostics.toList :=
    hkept.requireStates.keeps (Draft.keeps_self _)
  have hproblems : 2 ≤ o.problems.length := by
    rw [Outline.problems, List.length_append]
    exact Nat.le_trans htwo (Nat.le_trans hkeeps.length_le (Nat.le_add_right ..))
  dsimp only
  match o.problems, hproblems with
  | _ :: _ :: _, _ => exact nofun

end EntityScript
