import EntityScript.Proofs.Token.Separated

/-!
# Tokens with nothing between them

A token ends in front of every character that it does not go on with, so that no blank is needed
there. In a `Row` each token stands before the character that comes next, be that a space or the
first character of another token, and the tokens of the row are those of its text.
-/

namespace EntityScript.Token

/-- A text on one line that consists of tokens, with spaces between them or nothing. -/
inductive Row : List Char → List Token → Prop where
  | nil : Row [] []
  | space {cs : List Char} {ts : List Token} (rest : Row cs ts) : Row (' ' :: cs) ts
  | token {sep : Char} {t : Token} {cs : List Char} {ts : List Token} (stands : Stands sep t)
      (free : sep ≠ '/') (kind : t.kind ≠ .eof) (line : t.line = 1) (rest : Row (sep :: cs) ts) :
      Row (t.lexeme.toList ++ sep :: cs) (t :: ts)

/-- Tokens that are laid out with spaces go in front of a row. -/
theorem Row.laidOut_append {ts us : List Token} {cs : List Char}
    (hts : ∀ t ∈ ts, Stands ' ' t ∧ t.kind ≠ .eof ∧ t.line = 1) (h : Row cs us) :
    Row ((laidOut ' ' ts).toList ++ cs) (ts ++ us) := by
  induction ts with
  | nil => exact h
  | cons t ts ih =>
    obtain ⟨⟨hstands, hkind, hline⟩, hts⟩ := List.forall_mem_cons.1 hts
    rw [toList_laidOut_cons, List.append_assoc]
    exact .token hstands (by decide) hkind hline (ih hts).space

/-- The tokens of a row are collected one after the other, also behind spaces. -/
theorem Row.collect {cs : List Char} {ts : List Token} (h : Row cs ts) {c : Cursor}
    {gap : List Char} (hgap : ∀ d ∈ gap, d = ' ') (hrest : c.rest = gap ++ cs)
    (hline : c.line = 1) (tokens : Array Token) : ∃ last,
      ((Stream.mk c false).collect tokens).toList = tokens.toList ++ ts ++ [last] := by
  induction h generalizing c gap tokens with
  | nil =>
    have hend : c.next.1.kind = .eof := by
      refine Cursor.next_of_blank fun d hd => ?_
      rw [hrest, List.append_nil] at hd
      rw [hgap d hd]
      rfl
    exact ⟨c.next.1, by rw [Stream.collect_of_end hend, List.append_nil, Array.toList_push]⟩
  | @space cs ts rest ih =>
    have hgap' : ∀ d ∈ gap ++ [' '], d = ' ' := fun d hd =>
      (List.mem_append.1 hd).elim (hgap d) List.mem_singleton.1
    exact ih hgap' (by rw [hrest, List.append_assoc]; rfl) hline tokens
  | @token sep t cs ts stands free kind line rest ih =>
    have hblank : ∀ d ∈ gap, isBlank d = true := fun d hd => by rw [hgap d hd]; rfl
    have hlines : gap.count '\n' = 0 := by
      refine List.count_eq_zero_of_not_mem fun hmem => ?_
      exact absurd (hgap '\n' hmem) (by decide)
    obtain ⟨c', hnext, hrest', hline'⟩ := Cursor.next_of_stands free stands hblank hrest
    rw [hlines, hline] at hnext hline'
    have ht : (⟨t.kind, t.lexeme, 1⟩ : Token) = t := by rw [← line]
    rw [Nat.add_zero, ht] at hnext
    obtain ⟨last, hcollect⟩ := ih (List.forall_mem_nil _) hrest' hline' (tokens.push t)
    refine ⟨last, ?_⟩
    rw [Stream.collect_of_next (by rw [hnext]; exact kind), hnext, hcollect, Array.toList_push,
      List.append_assoc tokens.toList, List.singleton_append]

/-- The tokens of a text that is a row are those of the row. -/
theorem Row.words {source : String} {ts : List Token} (h : Row source.toList ts) :
    words source = ts := by
  obtain ⟨last, hcollect⟩ :=
    h.collect (c := Cursor.start source) (List.forall_mem_nil _) rfl rfl #[]
  rw [Token.words, tokenize, Stream.ofSource, hcollect, List.dropLast_concat]
  rfl

end EntityScript.Token
