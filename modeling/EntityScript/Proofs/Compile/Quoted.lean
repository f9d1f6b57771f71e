import EntityScript.Proofs.Compile.Rendered
import EntityScript.Proofs.Grammar.Quoted

/-!
# Texts go through the compiler as they are

A text that is quoted stands in a source as one string token, and as an operand it compiles to the
text itself, whatever characters it has. The other way round, a string token of any source stands
for the one text that its escapes say from left to right. If one of them is not known, the source
does not compile, wherever the token stands.
-/

namespace EntityScript

open Grammar Compile

namespace Compile.Draft

/-- A quoted text is an operand that compiles to a constant. -/
theorem expressionAt_quote {d : Draft} {s : String} (hkind : d.current.kind = .string)
    (htext : d.current.lexeme = Token.quote s) (level : Level) :
    (expressionAt level d).1
      = closeAt level (continuations level (d.advance.emitConstant (.string s))).1 := by
  have hoperand : Operand.ofKind? d.current.kind = some .text := by rw [hkind]; rfl
  rw [expressionAt_of_some hoperand, operand_text, previous_advance, htext, readText_quote]
  rfl

end Compile.Draft

/-- The token of a quoted text, on the first line. -/
def Grammar.quotation (s : String) : Token := ⟨.string, Token.quote s, 1⟩

/-- The token of a quoted text can be laid out with spaces. -/
theorem Grammar.spaced_quotation (s : String) : Spaced (quotation s) where
  stands := by
    refine ⟨'"', s.toList.flatMap Token.escape ++ ['"'], Token.toList_between _, rfl, fun r => ?_⟩
    have hmeasure := (Token.enclosed_flatMap_escape s.toList).measure_quote (' ' :: r)
    rw [Token.toList_between] at hmeasure
    rw [List.append_assoc]
    exact hmeasure
  kind := nofun
  line := rfl

/-- A handler that consists of a quoted text pushes the text and drops it. -/
theorem compile_quotation (file s : String) {state event : String}
    (hstate : Written (word state)) (hevent : Written (word event)) : ∃ script chunk,
    compile file (expressionSource state event [quotation s]) = .ok script ∧
      script.handlerList = [(state, event, chunk)] ∧ chunk.constants.toList = [.string s] ∧
      chunk.code.toList = [Instruction.constant 0, .pop, .ret].flatMap Instruction.encode := by
  let e : Expression := .literal (.text (Token.quote s))
  have hread : (Literal.text (Token.quote s)).read = .ok (.string s) := by
    rw [Literal.read, readText_quote]
    rfl
  have hlegal : e.Legal := Literal.Readable.legal ⟨_, hread⟩
  have hvalue : (Literal.text (Token.quote s)).value = .string s := by rw [Literal.value, hread]
  have hconstants : e.constants = [.string s] := congrArg (fun v => [v]) hvalue
  have hcode : e.code = [.constant (.string s)] := congrArg (fun v => [Symbolic.constant v]) hvalue
  have hphrase : Phrase .assignment e [quotation s] := .text (t := quotation s) rfl
  obtain ⟨script, chunk, hscript, hlist, hpool, hbytes⟩ := compile_of_phrase file hstate hevent
    hlegal (by rw [hconstants]; exact Nat.le_add_left 1 255)
    (by rw [hcode]; exact List.forall_mem_singleton.2 trivial)
    hphrase (List.forall_mem_singleton.2 (spaced_quotation s))
  rw [hconstants] at hpool hbytes
  rw [hcode] at hbytes
  have hslot : slot [.string s] (.string s) = 0 := by simp [slot]
  refine ⟨script, chunk, hscript, hlist, hpool, ?_⟩
  rw [hbytes]
  have hone : pooled [] [Value.string s] = [.string s] := rfl
  rw [hone]
  simp [Symbolic.assemble, hslot]

/-- A string token of a source stands for one text if its escapes are known, and the source does
not compile if one is not. -/
theorem string_decoded {source : String} {t : Token} (h : t ∈ Token.words source)
    (hkind : t.kind = .string) : ∃ inner, Token.Enclosed inner ∧ t.lexeme = Token.between inner ∧
      ((∀ c ∈ escapes inner, c ∈ ['n', 't', 'r', '\\', '"']) → ∃ s, readText t.lexeme = .ok s ∧
        Decodes inner s.toList ∧ ∀ s', Decodes inner s'.toList → s' = s) ∧
      ((∃ c ∈ escapes inner, c ∉ ['n', 't', 'r', '\\', '"']) →
        ∀ file, ∃ e, compile file source = .error e) := by
  obtain ⟨inner, henclosed, htext⟩ := Token.lexeme_of_string h hkind
  have hinner : unquoted t.lexeme = inner := by rw [htext, unquoted_between]
  refine ⟨inner, henclosed, htext, fun hknown => ?_, ?_⟩
  · have hescaped := (escaped_iff_of_enclosed henclosed).2 hknown
    rw [← hinner] at hescaped
    obtain ⟨s, hs⟩ := (readText_ok_iff t.lexeme).2 hescaped
    have hdecodes := (readText_eq_ok_iff t.lexeme s).1 hs
    rw [hinner] at hdecodes
    exact ⟨s, hs, hdecodes, fun s' hs' => String.toList_inj.1 (hs'.unique hdecodes)⟩
  · rintro ⟨c, hc, hunknown⟩ file
    cases hcompile : compile file source with
    | error e => exact ⟨e, rfl⟩
    | ok script =>
      obtain ⟨f, hspelling, hvalid, -⟩ := compile_represents hcompile
      have hescaped := hspelling.escaped hvalid.legal t h hkind
      rw [hinner] at hescaped
      exact absurd ((escaped_iff_of_enclosed henclosed).1 hescaped c hc) hunknown

/-- Texts go through quoting, scanning and compiling as they are. A quoted text is scanned as one
token wherever it stands and whatever follows it, and as an operand it compiles to the text itself.
Conversely, a string token of any source stands for exactly the text that its escapes say from left
to right if all of them are known, and otherwise the source does not compile. -/
theorem strings_round_trip :
    (∀ s : String,
      (∀ (c : Token.Cursor) (rest : List Char), c.rest = (Token.quote s).toList ++ rest →
        ∃ c', c.next = (⟨.string, Token.quote s, c.line⟩, c') ∧ c'.rest = rest ∧
          c'.line = c.line) ∧
      (∀ (d : Draft) (level : Level), d.current.kind = .string →
        d.current.lexeme = Token.quote s → (Draft.expressionAt level d).1
          = Draft.closeAt level
            (Draft.continuations level (d.advance.emitConstant (.string s))).1) ∧
      ∀ file state event, Written (word state) → Written (word event) → ∃ script chunk,
        compile file (expressionSource state event [quotation s]) = .ok script ∧
          script.handlerList = [(state, event, chunk)] ∧ chunk.constants.toList = [.string s] ∧
          chunk.code.toList = [Instruction.constant 0, .pop, .ret].flatMap Instruction.encode) ∧
    ∀ (source : String) (t : Token), t ∈ Token.words source → t.kind = .string →
      ∃ inner, Token.Enclosed inner ∧ t.lexeme = Token.between inner ∧
        ((∀ c ∈ escapes inner, c ∈ ['n', 't', 'r', '\\', '"']) → ∃ s, readText t.lexeme = .ok s ∧
          Decodes inner s.toList ∧ ∀ s', Decodes inner s'.toList → s' = s) ∧
        ((∃ c ∈ escapes inner, c ∉ ['n', 't', 'r', '\\', '"']) →
          ∀ file, ∃ e, compile file source = .error e) := by
  refine ⟨fun s => ⟨fun c rest hrest => ?_, fun d level hkind htext => ?_,
    fun file state event hstate hevent => ?_⟩, fun source t h hkind => string_decoded h hkind⟩
  · exact (Token.enclosed_flatMap_escape s.toList).next hrest
  · exact Draft.expressionAt_quote hkind htext level
  · exact compile_quotation file s hstate hevent

/-- A greeting with quotes and a line end, and a source in which `\q` is no escape. -/
theorem strings_round_trip_greeting :
    (∃ script chunk, compile "lamp" (expressionSource "on" "press" [quotation "say \"hi\"\n"])
        = .ok script ∧ script.handlerList = [("on", "press", chunk)] ∧
      chunk.constants.toList = [.string "say \"hi\"\n"]) ∧
    ∃ e, compile "lamp" "State on \x7b OnEvent press \x7b x = \"a\\q\"; \x7d \x7d" = .error e := by
  constructor
  · obtain ⟨script, chunk, hscript, hlist, hpool, -⟩ :=
      (strings_round_trip.1 "say \"hi\"\n").2.2 "lamp" "on" "press" (by decide +kernel)
        (by decide +kernel)
    exact ⟨script, chunk, hscript, hlist, hpool⟩
  · have hmem : (⟨.string, "\"a\\q\"", 1⟩ : Token) ∈
        Token.words "State on \x7b OnEvent press \x7b x = \"a\\q\"; \x7d \x7d" := by
      decide +kernel
    obtain ⟨inner, -, htext, -, hfails⟩ := strings_round_trip.2 _ _ hmem rfl
    have hinner : inner = ['a', '\\', 'q'] := by
      rw [← unquoted_between inner, ← htext]
      decide
    exact hfails ⟨'q', by rw [hinner]; decide, by decide⟩ "lamp"

end EntityScript
