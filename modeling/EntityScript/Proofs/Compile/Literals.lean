import EntityScript.Proofs.Compile.Ordered
import EntityScript.Proofs.Grammar.Quoted
import EntityScript.Proofs.Number.Grammar

/-!
# Literals that are scanned are read

The compiler reads the texts of literals once more, and answers for each way in which one could be
wrong. Only unknown escapes ever are. The scanner makes number tokens of numerals only, vector
tokens of two numerals around a comma, and string tokens of texts in which no backslash is left
alone before the second quote.

So the other problems with literals are never found, in whatever way a source is broken elsewhere.
A problem with a literal is only found at a token of its kind that cannot be read
(`Draft.Attributed`), and there is none among the tokens of a source.
-/

namespace EntityScript

namespace Compile

/-- A text without an unpaired backslash can only have unknown escapes. -/
theorem unescapeOnto_ne_dangling {cs : List Char} (h : Token.Paired cs) (out : String) :
    unescapeOnto out cs ≠ .error .danglingBackslash := by
  fun_induction unescapeOnto out cs with
  | case1 =>
    intro heq
    cases heq
  | case2 =>
    cases h with
    | plain free _ => exact absurd rfl free
  | case3 _ _ _ _ _ ih =>
    cases h with
    | plain free _ => exact absurd rfl free
    | pair rest => exact ih rest
  | case4 =>
    intro heq
    cases heq
  | case5 _ _ _ hfree _ ih =>
    cases h with
    | plain _ rest => exact ih rest
    | pair rest => exact absurd rfl (by rename_i hpair; exact hpair _ _ rfl)

namespace Draft

variable {T : Token → Prop} {s : Draft}

/-- All tokens of a draft are of some sort, and so are the tokens at which its problems were
found. -/
structure Attributed (T : Token → Prop) (s : Draft) : Prop where
  previous : T s.previous
  upcoming : ∀ t ∈ s.upcoming, T t
  found : ∀ d ∈ s.diagnostics.toList, ∃ t, T t ∧ d.problem.FoundAt t

/-- Writing leaves tokens and problems alone. -/
theorem Attributed.congr {t : Draft} (h : s.Attributed T) (hprevious : t.previous = s.previous)
    (hup : t.upcoming = s.upcoming) (hdiagnostics : t.diagnostics = s.diagnostics) :
    t.Attributed T :=
  ⟨hprevious ▸ h.previous, hup ▸ h.upcoming, hdiagnostics ▸ h.found⟩

/-- One more problem, found at some token. -/
theorem Attributed.push (h : s.Attributed T) {d : Diagnostic} {t : Token} (ht : T t)
    (hd : d.problem.FoundAt t) (panicking : Bool) :
    Attributed T { s with diagnostics := s.diagnostics.push d, panicking } where
  previous := h.previous
  upcoming := h.upcoming
  found := by
    rw [Array.toList_push]
    exact List.forall_mem_append.2 ⟨h.found, List.forall_mem_singleton.2 ⟨t, ht, hd⟩⟩

/-- A problem found at a token of the sort is reported. -/
theorem Attributed.report (h : s.Attributed T) (line : ℕ) {problem : Problem} {t : Token}
    (ht : T t) (hproblem : problem.FoundAt t) : (s.report line problem).Attributed T := by
  rcases s.report_cases line problem with ⟨-, heq⟩ | ⟨-, heq⟩ <;> rw [heq]
  · exact h
  · exact h.push ht hproblem true

/-- What is wrong with a missing token may be found at any token. -/
theorem foundAt_missingAt (wanted : Wanted) (t u : Token) :
    (Problem.missingAt wanted t).FoundAt u :=
  trivial

/-- Passing an unreadable token keeps the sort of those to come. -/
theorem Attributed.skip {t : Token} {rest : List Token}
    (h : Attributed T { s with upcoming := t :: rest }) :
    Attributed T { s.report t.line (.ofUnreadable t) with upcoming := rest } := by
  have ht : T t := h.upcoming t List.mem_cons_self
  have hrest : Attributed T { s with upcoming := rest } :=
    ⟨h.previous, fun u hu => h.upcoming u (List.mem_cons_of_mem t hu), h.found⟩
  rcases s.report_cases t.line (.ofUnreadable t) with ⟨-, heq⟩ | ⟨-, heq⟩ <;> rw [heq]
  · exact hrest
  · exact hrest.push ht (foundAt_ofUnreadable t t) true

/-- The next token is of the sort, if the end of the source is. -/
theorem Attributed.current (h : s.Attributed T) (hend : ∀ t : Token, t.kind = .eof → T t) :
    T s.current := by
  unfold Draft.current
  split
  · rename_i t rest heq
    exact h.upcoming t (by rw [heq]; exact List.mem_cons_self)
  · exact hend _ rfl

/-- Advancing keeps the sort of all tokens, if the end of the source is of it. -/
theorem Attributed.advance (h : s.Attributed T) (hend : ∀ t : Token, t.kind = .eof → T t) :
    s.advance.Attributed T :=
  settle_of_skip (fun _ _ _ h => h.skip)
    ⟨h.current hend, fun t ht => h.upcoming t (List.mem_of_mem_tail ht), h.found⟩

/-- Of what sort tokens are is a property that compiling keeps. -/
theorem attributed_keeping (hend : ∀ t : Token, t.kind = .eof → T t) :
    Keeping (Attributed T) (Attributed T) where
  loosen h := h
  advance h := h.advance hend
  reportMissing h wanted := h.report _ h.previous (foundAt_missingAt wanted _ _)
  reportPrevious h hproblem := h.report _ h.previous hproblem
  calm h := h.congr rfl rfl rfl
  emit h _ := h.congr rfl rfl rfl
  pool h _ := h.congr rfl rfl rfl
  patch h _ _ := h.congr rfl rfl rfl
  declare h _ := h.congr rfl rfl rfl
  noteTarget h := h.congr rfl rfl rfl

end Draft

namespace Outline

/-- Of what sort tokens are is kept by whole declarations. -/
theorem attributed_keeping {T : Token → Prop} (hend : ∀ t : Token, t.kind = .eof → T t) :
    Keeping (Draft.Attributed T) (Draft.Attributed T) :=
  .of_write (Draft.attributed_keeping hend) (fun h _ => h.congr rfl rfl rfl)
    fun {s} h line state event =>
      h.push (d := ⟨line, .duplicateHandler state event⟩) h.previous trivial s.panicking

end Outline

end Compile

open Compile

/-- Every problem of a source is a change to a state that is not declared, or was found at a token
of the source or at its end. -/
theorem exists_foundAt {file source : String} {e : CompileError}
    (h : compile file source = .error e) {d : Diagnostic} (hd : d ∈ e.diagnostics) :
    d.problem.isUnknownState = true ∨
      ∃ t, (t ∈ Token.words source ∨ t.kind = .eof) ∧ d.problem.FoundAt t := by
  let T (t : Token) : Prop := t ∈ Token.words source ∨ t.kind = .eof
  have hend : ∀ t : Token, t.kind = .eof → T t := fun _ => .inr
  have hk := Outline.attributed_keeping hend
  have hstart : (Outline.ofSource source).draft.Attributed T := by
    rw [Outline.draft_ofSource]
    exact Draft.settle_of_skip (fun _ _ _ h => h.skip)
      ⟨hend _ rfl, fun _ => .inl, by simp⟩
  have hfound := (hk.requireStates (hk.declarations hstart)).found
  have hdiagnostics : e.diagnostics = (Outline.ofSource source).declarations.problems := by
    unfold compile at h
    dsimp only at h
    split at h <;> cases h
    rfl
  rw [hdiagnostics] at hd
  obtain hd | hd := List.mem_append.1 hd
  · exact .inr (hfound d hd)
  · rw [Outline.unknownTargets_eq] at hd
    obtain ⟨t, -, rfl⟩ := List.mem_map.1 hd
    exact .inl rfl

/-- What number and vector tokens of a source look like, and that they are read. -/
theorem Token.exists_numberText {source : String} {t : Token} (h : t ∈ words source) :
    (t.kind = .number → Number.NumberText t.lexeme ∧ ∃ v, readNumber t.lexeme = .ok v) ∧
      (t.kind = .vec2 → ∃ x y, t.lexeme = x ++ "," ++ y ∧ ',' ∉ x.toList ∧ ',' ∉ y.toList ∧
        Number.NumberText x ∧ Number.NumberText y ∧ ∃ v, readVector t.lexeme = .ok v) := by
  have hreadable := (mem_words h).2
  obtain ⟨c, rest, -, hmeasure, htext⟩ := exists_measure h
  by_cases hd : c.isDigit = true
  · have hother : ∀ {kind kind' : Kind}, t.kind = kind → t.kind = kind' → kind = kind' :=
      fun h h' => h.symm.trans h'
    rw [measure_of_isDigit hd] at hmeasure htext
    obtain ⟨hkind, hx⟩ | ⟨hkind, x, y, hx, hy, hsplit⟩ := measureNumber_take hd rest
    · rw [hkind] at hmeasure
      rw [← htext] at hx
      have hnumber := hx.numberText.1
      rw [String.ofList_toList] at hnumber
      exact ⟨fun hnumeral => ⟨hnumber, hreadable.1 hnumeral⟩, fun hvector =>
        absurd (hother hmeasure hvector) nofun⟩
    · rw [hkind] at hmeasure
      refine ⟨fun hnumeral => absurd (hother hmeasure hnumeral) nofun, fun hvector => ?_⟩
      have hcomma : ∀ {cs : List Char}, Numeral cs → ',' ∉ cs := fun hcs hmem =>
        hcs.comma_not_mem _ hmem rfl
      have hsecond : ∃ second, t.lexeme.toList = x ++ ',' :: second ∧ ',' ∉ second ∧
          Number.NumberText (String.ofList second) := by
        rw [htext]
        obtain hsplit | hsplit := hsplit
        · exact ⟨y, hsplit, hcomma hy, hy.numberText.1⟩
        · exact ⟨'-' :: y, hsplit, by simpa using hcomma hy, hy.numberText.2⟩
      obtain ⟨second, hlexeme, hfree, hnumber⟩ := hsecond
      refine ⟨String.ofList x, String.ofList second, ?_, ?_, ?_, hx.numberText.1, hnumber,
        hreadable.2 hvector⟩
      · exact String.toList_inj.1 (by simp [hlexeme])
      · rw [String.toList_ofList]
        exact hcomma hx
      · rw [String.toList_ofList]
        exact hfree
  · obtain ⟨hnumber, hvector⟩ := measure_of_not_isDigit hd rest
    exact ⟨fun h => absurd (hmeasure ▸ h) hnumber, fun h => absurd (hmeasure ▸ h) hvector⟩

/-- What string tokens of a source look like. The bytes between the quotes are a text of their own,
and what can be wrong with it is only that an escape is unknown. -/
theorem Token.exists_paired {source : String} {t : Token} (h : t ∈ words source)
    (hkind : t.kind = .string) : ∃ inner, t.lexeme = "\"" ++ String.ofList inner ++ "\"" ∧
      Paired inner ∧ 2 ≤ t.lexeme.utf8ByteSize ∧
      (∃ b e : t.lexeme.Pos, b.offset.byteIdx = 1 ∧
        e.offset.byteIdx = t.lexeme.utf8ByteSize - 1 ∧ b ≤ e ∧
        t.lexeme.extract b e = String.ofList inner) ∧
      readText t.lexeme ≠ .error .danglingBackslash := by
  obtain ⟨inner, henclosed, htext⟩ := lexeme_of_string h hkind
  refine ⟨inner, ?_, henclosed.paired, ?_, ?_, ?_⟩
  · rw [htext, between_eq_append]
  · have hquote : ("\"" : String).utf8ByteSize = 1 := rfl
    rw [htext, between_eq_append, String.utf8ByteSize_append, String.utf8ByteSize_append, hquote]
    exact Nat.add_le_add_right (Nat.le_add_right 1 _) 1
  · rw [htext]
    exact exists_extract_between inner
  · have hread : readText t.lexeme = unescapeOnto "" inner := by
      rw [htext]
      exact congrArg (unescapeOnto "") (Grammar.unquoted_between inner)
    rw [hread]
    exact unescapeOnto_ne_dangling henclosed.paired ""

/-- Whatever literals a scanner finds in a source can be read again. The text of a number token is
that of a number, and so are both sides of the only comma of a vector token. A string token has a
quote at each end with a text between them, on whose end no backslash is left alone. So a source may
have unknown escapes, but whatever is wrong with it elsewhere, no number, no vector and no backslash
of it is a problem. -/
theorem literals_read (source : String) :
    (∀ t ∈ Token.tokenize source,
      (t.kind = .number → Number.NumberText t.lexeme ∧ ∃ v, readNumber t.lexeme = .ok v) ∧
      (t.kind = .vec2 → ∃ x y, t.lexeme = x ++ "," ++ y ∧ ',' ∉ x.toList ∧ ',' ∉ y.toList ∧
        Number.NumberText x ∧ Number.NumberText y ∧ ∃ v, readVector t.lexeme = .ok v) ∧
      (t.kind = .string → ∃ inner, t.lexeme = "\"" ++ String.ofList inner ++ "\"" ∧
        Token.Paired inner ∧ 2 ≤ t.lexeme.utf8ByteSize ∧
        (∃ b e : t.lexeme.Pos, b.offset.byteIdx = 1 ∧
          e.offset.byteIdx = t.lexeme.utf8ByteSize - 1 ∧ b ≤ e ∧
          t.lexeme.extract b e = String.ofList inner) ∧
        readText t.lexeme ≠ .error .danglingBackslash)) ∧
    ∀ file e, compile file source = .error e → ∀ d ∈ e.diagnostics,
      d.problem ≠ .badNumber ∧ d.problem ≠ .badVector ∧ d.problem ≠ .danglingBackslash := by
  have hwords : ∀ t ∈ Token.tokenize source, t.kind ≠ .eof → t ∈ Token.words source :=
    fun t ht hkind => Token.mem_words_of_ne ht hkind
  refine ⟨fun t ht => ⟨fun hkind => ?_, fun hkind => ?_, fun hkind => ?_⟩,
    fun file e h d hd => ?_⟩
  · exact (Token.exists_numberText (hwords t ht (by rw [hkind]; decide))).1 hkind
  · exact (Token.exists_numberText (hwords t ht (by rw [hkind]; decide))).2 hkind
  · exact Token.exists_paired (hwords t ht (by rw [hkind]; decide)) hkind
  · have hfound := exists_foundAt h hd
    have hword : ∀ {t : Token} {kind : Token.Kind}, (t ∈ Token.words source ∨ t.kind = .eof) →
        t.kind = kind → kind ≠ .eof → t ∈ Token.words source := fun ht hkind hne =>
      ht.resolve_right fun heof => hne (hkind.symm.trans heof)
    refine ⟨?_, ?_, ?_⟩ <;> intro hproblem <;> rw [hproblem] at hfound <;>
      obtain hunknown | ⟨t, ht, hkind, hread⟩ := hfound
    · cases hunknown
    · obtain ⟨v, hv⟩ := (Token.mem_words (hword ht hkind (by decide))).2.1 hkind
      rw [hv] at hread
      cases hread
    · cases hunknown
    · obtain ⟨v, hv⟩ := (Token.mem_words (hword ht hkind (by decide))).2.2 hkind
      rw [hv] at hread
      cases hread
    · cases hunknown
    · obtain ⟨inner, -, -, -, -, hpaired⟩ :=
        Token.exists_paired (hword ht hkind (by decide)) hkind
      exact hpaired hread

/-- A source with a vector, a number and a string that ends with an escaped backslash. -/
theorem literals_read_position :
    let source := "State on \x7b OnEvent press \x7b p = 1.5,-2; q = 7; s = \"a\\\\\"; \x7d \x7d"
    (⟨.vec2, "1.5,-2", 1⟩ ∈ Token.tokenize source ∧ ⟨.number, "7", 1⟩ ∈ Token.tokenize source ∧
      ⟨.string, "\"a\\\\\"", 1⟩ ∈ Token.tokenize source) ∧
    (∃ x y, "1.5,-2" = x ++ "," ++ y ∧ Number.NumberText x ∧ Number.NumberText y) ∧
    Number.NumberText "7" ∧
    ∃ inner, "\"a\\\\\"" = "\"" ++ String.ofList inner ++ "\"" ∧ Token.Paired inner := by
  intro source
  have hvector : ⟨.vec2, "1.5,-2", 1⟩ ∈ Token.tokenize source := by decide +kernel
  have hnumber : ⟨.number, "7", 1⟩ ∈ Token.tokenize source := by decide +kernel
  have hstring : ⟨.string, "\"a\\\\\"", 1⟩ ∈ Token.tokenize source := by decide +kernel
  obtain ⟨hread, -⟩ := literals_read source
  obtain ⟨x, y, htext, -, -, hx, hy, -⟩ := (hread _ hvector).2.1 rfl
  obtain ⟨inner, hinner, hpaired, -⟩ := (hread _ hstring).2.2 rfl
  exact ⟨⟨hvector, hnumber, hstring⟩, ⟨x, y, htext, hx, hy⟩, ((hread _ hnumber).1 rfl).1, inner,
    hinner, hpaired⟩

end EntityScript
