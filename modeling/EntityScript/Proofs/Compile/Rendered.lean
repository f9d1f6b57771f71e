import EntityScript.Proofs.Bytecode.Compiled
import EntityScript.Proofs.Grammar.Rendering

/-!
# Every rendering of an expression compiles to the code of its tree

However an expression is spelled, its spelling decides the tree, and the code depends on nothing
else. So the rendering with the fewest parentheses and the one with all of them compile to the same
bytes with the same constants: the operands in their order, each operator behind them, and jumps
over the right operand of a logical operator.
-/

namespace EntityScript

open Grammar Compile

/-- The source with one handler that evaluates the expression of some tokens. -/
def expressionSource (state event : String) (ts : List Token) : String :=
  Token.laidOut ' ' (handlerTokens state event (ts ++ [mark .semicolon]))

namespace Grammar

/-- The source that declares one handler which evaluates an expression. -/
def expressionFile (state event : String) (e : Expression) : File :=
  [.state ⟨state, [⟨event, .seq (.evaluate e) .skip⟩]⟩]

/-- What a source with one handler has to keep to. -/
theorem valid_of_handler {state event : String} {body : Statement} (hlegal : body.Legal)
    (htargets : ∀ t ∈ body.targets, t = state)
    (htypes : ∀ name type type', (name, type) ∈ body.annotations →
      (name, type') ∈ body.annotations → type = type')
    (hconstants : body.constants.dedup.length ≤ Chunk.maxConstants)
    (hfits : ∀ i ∈ body.code, i.Fits) : Valid [.state ⟨state, [⟨event, body⟩]⟩] := by
  obtain ⟨harguments, hjumps⟩ := (forall_fits_iff _).1 hfits
  exact {
    inhabited := List.cons_ne_nil _ _
    states := List.nodup_singleton state
    handlers := List.nodup_singleton (state, event)
    targets := by simpa [File.targets, File.handlers, File.states, Declaration.states,
      State.entries] using htargets
    legal := List.forall_mem_singleton.2 hlegal
    types := by simpa [File.annotations, File.handlers, File.states, Declaration.states,
      State.entries] using htypes
    constants := List.forall_mem_singleton.2 hconstants
    arguments := List.forall_mem_singleton.2 harguments
    jumps := List.forall_mem_singleton.2 hjumps }

/-- A file that evaluates one expression keeps to the rules if the expression has room. -/
theorem valid_expressionFile {state event : String} {e : Expression} (hlegal : e.Legal)
    (hconstants : e.constants.dedup.length ≤ Chunk.maxConstants) (hfits : ∀ i ∈ e.code, i.Fits) :
    Valid (expressionFile state event e) := by
  refine valid_of_handler ⟨hlegal, trivial⟩ (by simp [Statement.targets])
    (by simp [Statement.annotations]) (by simpa [Statement.constants] using hconstants) ?_
  intro i hi
  simp only [Statement.code, List.append_nil, List.mem_append, List.mem_singleton] at hi
  obtain hi | rfl := hi
  · exact hfits i hi
  · trivial

end Grammar

/-- A source whose tokens are those of one handler with an expression represents this handler. -/
theorem compile_of_words (file : String) {source state event : String} {e : Expression}
    {ts : List Token}
    (hwords : Token.words source = handlerTokens state event (ts ++ [mark .semicolon]))
    (hvalid : Valid (expressionFile state event e)) (hphrase : Phrase .assignment e ts) :
    ∃ script, compile file source = .ok script ∧
      Represents (expressionFile state event e) script := by
  have hclause : Clause .body (.seq (.evaluate e) .skip) (ts ++ [mark .semicolon]) := by
    simpa using Clause.next (.evaluate hphrase (z := mark .semicolon) rfl) .done
  have hspelling : FileSpelling (expressionFile state event e) (Token.words source) := by
    rw [hwords]
    exact fileSpelling_handlerTokens state event hclause
  exact compile_of_valid file hspelling hvalid

/-- A spelling of an expression compiles to the code of the expression. -/
theorem compile_of_phrase (file : String) {state event : String} {e : Expression} {ts : List Token}
    (hstate : Written (word state)) (hevent : Written (word event)) (hlegal : e.Legal)
    (hconstants : e.constants.dedup.length ≤ Chunk.maxConstants) (hfits : ∀ i ∈ e.code, i.Fits)
    (hphrase : Phrase .assignment e ts) (hspaced : ∀ t ∈ ts, Spaced t) :
    ∃ script chunk, compile file (expressionSource state event ts) = .ok script ∧
      script.handlerList = [(state, event, chunk)] ∧
      chunk.constants.toList = pooled [] e.constants ∧
      chunk.code.toList = bytes (pooled [] e.constants) (e.code ++ [.pop, .ret]) := by
  have hbody : ∀ t ∈ ts ++ [mark .semicolon], Spaced t := by
    intro t ht
    obtain ht | ht := List.mem_append.1 ht
    · exact hspaced t ht
    · obtain rfl := List.mem_singleton.1 ht
      exact spaced_mark rfl
  have hwords := words_spaced (spaced_handlerTokens hstate hevent hbody)
  have hvalid : Valid (expressionFile state event e) :=
    valid_expressionFile hlegal hconstants hfits
  obtain ⟨script, hscript, hrepresents⟩ := compile_of_words file hwords hvalid hphrase
  obtain ⟨chunk, hlist, hassembled⟩ := hrepresents.handlerList_of_single hvalid
    (x := (state, ⟨event, .seq (.evaluate e) .skip⟩)) rfl
  have hpool : (Statement.seq (.evaluate e) .skip).constants = e.constants := List.append_nil _
  have hcode : (Statement.seq (.evaluate e) .skip).code = e.code ++ [.pop] := List.append_nil _
  refine ⟨script, chunk, hscript, hlist, ?_, ?_⟩
  · rw [hassembled.constants, hpool]
  · rw [hassembled.code, hpool, hcode, List.append_assoc]
    rfl

/-- Precedence parsing builds the conventional tree. An expression whose constants and jumps have
room in a handler compiles to the code of its tree, operands before operators and jumps over what a
logical operator leaves out, with the constants in the order of their first use. It does so in the
rendering with the fewest parentheses of all spellings, and just so with parentheses around every
subexpression. -/
theorem compile_renderings (file : String) {state event : String} {e : Expression}
    (hstate : Written (word state)) (hevent : Written (word event)) (he : e.Writable)
    (hconstants : e.constants.dedup.length ≤ Chunk.maxConstants) (hfits : ∀ i ∈ e.code, i.Fits) :
    (∀ ts ∈ [e.terse .assignment false, e.full], ∃ script chunk,
      compile file (expressionSource state event ts) = .ok script ∧
      script.handlerList = [(state, event, chunk)] ∧
      chunk.constants.toList = pooled [] e.constants ∧
      chunk.code.toList = bytes (pooled [] e.constants) (e.code ++ [.pop, .ret])) ∧
    ∀ ts, Phrase .assignment e ts →
      occurrences .leftParen (e.terse .assignment false) ≤ occurrences .leftParen ts := by
  refine ⟨fun ts hts => ?_, fun ts hts => hts.parentheses_terse_le false nofun⟩
  simp only [List.mem_cons, List.not_mem_nil, or_false] at hts
  obtain rfl | rfl := hts
  · exact compile_of_phrase file hstate hevent he.legal hconstants hfits
      (Expression.phrase_terse he .assignment false).1 (he.spaced_terse .assignment false)
  · exact compile_of_phrase file hstate hevent he.legal hconstants hfits
      (Expression.phrase_full he .assignment) he.spaced_full

/-- The renderings of `-(3,4).x * (speed + args.boost)`. -/
theorem compile_renderings_product :
    let e : Expression := .binary .multiply
      (.negate (.component (.literal (.vector "3,4")) "x"))
      (.binary .add (.var "speed") (.var "args.boost"))
    (Written (word "on") ∧ Written (word "press") ∧ e.Writable ∧
      e.constants.dedup.length ≤ Chunk.maxConstants ∧ ∀ i ∈ e.code, i.Fits) ∧
    ∃ script chunk, compile "lamp" (expressionSource "on" "press" (e.terse .assignment false))
        = .ok script ∧ script.handlerList = [("on", "press", chunk)] ∧
      chunk.code.toList = bytes (pooled [] e.constants) (e.code ++ [.pop, .ret]) := by
  intro e
  have hstate : Written (word "on") := by decide +kernel
  have hevent : Written (word "press") := by decide +kernel
  have he : e.Writable := by
    have hvector : ∀ t ∈ (Literal.vector "3,4").tokens, Written t := by decide +kernel
    have hspeed : WritableName "speed" := by decide +kernel
    have hboost : WritableName "args.boost" := by decide +kernel
    exact ⟨⟨⟨hvector, trivial⟩, .inl rfl⟩, hspeed, hboost⟩
  have hconstants : e.constants.dedup.length ≤ Chunk.maxConstants := by decide
  have hfits : ∀ i ∈ e.code, i.Fits := by decide
  refine ⟨⟨hstate, hevent, he, hconstants, hfits⟩, ?_⟩
  obtain ⟨script, chunk, hscript, hlist, -, hcode⟩ :=
    (compile_renderings "lamp" hstate hevent he hconstants hfits).1 _ List.mem_cons_self
  exact ⟨script, chunk, hscript, hlist, hcode⟩

end EntityScript
