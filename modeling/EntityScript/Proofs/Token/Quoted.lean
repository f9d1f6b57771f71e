import EntityScript.Proofs.Token.Separated

/-!
# Texts between quotes

A string token is two quotes around a text that is `Enclosed`: neither a quote nor a line end is in
it on its own, and every backslash stands in front of a character that it takes with it. That is
all there is to string tokens. Every such text is scanned as one token, whatever follows its second
quote.

`quote` writes any text in this way, with an escape for each character that would otherwise end the
string, break its line, or begin an escape, and for tabs and returns.
-/

namespace EntityScript.Token

/-- No quote, no line end and no backslash stands on its own, and what stands behind a backslash is
on the same line. -/
inductive Enclosed : List Char → Prop where
  | nil : Enclosed []
  | plain {c : Char} {cs : List Char} (free : c ∉ ['"', '\n', '\\']) (rest : Enclosed cs) :
      Enclosed (c :: cs)
  | pair {c : Char} {cs : List Char} (sameLine : c ≠ '\n') (rest : Enclosed cs) :
      Enclosed ('\\' :: c :: cs)

/-- Texts that may stand between quotes may do so together. -/
theorem Enclosed.append {cs ds : List Char} (h : Enclosed cs) (h' : Enclosed ds) :
    Enclosed (cs ++ ds) := by
  induction h with
  | nil => exact h'
  | plain free _ ih => exact .plain free ih
  | pair sameLine _ ih => exact .pair sameLine ih

/-- Every backslash takes the character behind it with it, so none is left at the end. -/
inductive Paired : List Char → Prop where
  | nil : Paired []
  | plain {c : Char} {cs : List Char} (free : c ≠ '\\') (rest : Paired cs) : Paired (c :: cs)
  | pair {c : Char} {cs : List Char} (rest : Paired cs) : Paired ('\\' :: c :: cs)

/-- Where no quote stands on its own every backslash takes a character with it. -/
theorem Enclosed.paired {cs : List Char} (h : Enclosed cs) : Paired cs := by
  induction h with
  | nil => exact .nil
  | plain free _ ih => exact .plain (fun heq => free (by simp [heq])) ih
  | pair _ _ ih => exact .pair ih

/-- A plain character belongs to a string and ends nothing. -/
theorem stringLength_of_plain {c : Char} (h : c ∉ ['"', '\n', '\\']) (count : ℕ)
    (rest : List Char) : stringLength count (c :: rest) = stringLength (count + 1) rest := by
  obtain ⟨hquote, hline, hescape⟩ : c ≠ '"' ∧ c ≠ '\n' ∧ c ≠ '\\' := by simpa using h
  rw [stringLength]
  · exact hquote
  · exact hline
  · exact fun _ _ heq _ => hescape heq

/-- Behind what may stand between quotes comes the quote that closes the string. -/
theorem Enclosed.stringLength_append {inner : List Char} (h : Enclosed inner) (count : ℕ)
    (rest : List Char) :
    stringLength count (inner ++ '"' :: rest) = (true, count + (inner.length + 1)) := by
  induction h generalizing count with
  | nil => rw [List.nil_append, stringLength, List.length_nil]
  | plain free _ ih =>
    rw [List.cons_append, stringLength_of_plain free, ih, List.length_cons, Nat.add_assoc,
      Nat.add_comm 1]
  | pair sameLine _ ih =>
    rw [List.cons_append, List.cons_append, stringLength, if_neg sameLine, ih]
    simp only [List.length_cons]
    congr 1
    omega

/-- A string that is closed has what may stand between quotes in front of the quote. -/
theorem exists_enclosed {count n : ℕ} {cs : List Char} (h : stringLength count cs = (true, n)) :
    ∃ inner rest, Enclosed inner ∧ cs = inner ++ '"' :: rest ∧ n = count + (inner.length + 1) := by
  fun_induction stringLength count cs with
  | case1 count => cases h
  | case2 count rest =>
    cases h
    exact ⟨[], rest, .nil, rfl, rfl⟩
  | case3 count rest => cases h
  | case4 count rest => cases h
  | case5 count c rest hc ih =>
    obtain ⟨inner, rest, henclosed, rfl, rfl⟩ := ih h
    refine ⟨'\\' :: c :: inner, rest, .pair hc henclosed, rfl, ?_⟩
    simp only [List.length_cons]
    omega
  | case6 count c rest hquote hline hescape ih =>
    obtain ⟨inner, rest, henclosed, rfl, rfl⟩ := ih h
    have hfree : c ∉ ['"', '\n', '\\'] := by
      have hbackslash : c ≠ '\\' := by
        rintro rfl
        cases inner with
        | nil => exact hescape _ _ rfl rfl
        | cons d inner => exact hescape _ _ rfl rfl
      have hquote : c ≠ '"' := fun heq => hquote heq
      have hline : c ≠ '\n' := fun heq => hline heq
      simp [hquote, hline, hbackslash]
    refine ⟨c :: inner, rest, .plain hfree henclosed, rfl, ?_⟩
    simp only [List.length_cons]
    omega

/-- A text with quotes around it. -/
def between (inner : List Char) : String := String.ofList ('"' :: (inner ++ ['"']))

/-- A quoted text is its inside between two quotes. -/
theorem toList_between (inner : List Char) : (between inner).toList = '"' :: (inner ++ ['"']) :=
  String.toList_ofList

/-- A quoted text is put together of its inside and two quotes. -/
theorem between_eq_append (inner : List Char) :
    between inner = "\"" ++ String.ofList inner ++ "\"" :=
  String.toList_inj.1 (by simp [toList_between])

/-- The bytes between the quotes begin behind the first byte and end before the last, and both
places lie between characters. -/
theorem exists_extract_between (inner : List Char) : ∃ b e : (between inner).Pos,
    b.offset.byteIdx = 1 ∧ e.offset.byteIdx = (between inner).utf8ByteSize - 1 ∧ b ≤ e ∧
      (between inner).extract b e = String.ofList inner := by
  have hquote : ("\"" : String).utf8ByteSize = 1 := rfl
  have hsize : (between inner).utf8ByteSize = 1 + (String.ofList inner).utf8ByteSize + 1 := by
    rw [between_eq_append, String.utf8ByteSize_append, String.utf8ByteSize_append, hquote]
  refine ⟨⟨⟨1⟩, ?_⟩, ⟨⟨1 + (String.ofList inner).utf8ByteSize⟩, ?_⟩, rfl, by rw [hsize]; rfl,
    ?_, ?_⟩
  · refine String.Pos.Raw.isValid_iff_exists_append.2 ⟨"\"", String.ofList inner ++ "\"", ?_, rfl⟩
    rw [between_eq_append, String.append_assoc]
  · refine String.Pos.Raw.isValid_iff_exists_append.2
      ⟨"\"" ++ String.ofList inner, "\"", between_eq_append inner, ?_⟩
    refine String.Pos.Raw.ext ?_
    rw [String.byteIdx_rawEndPos, String.utf8ByteSize_append, hquote]
  · exact Nat.le_add_right 1 _
  · refine String.toByteArray_inj.1 ?_
    have hbytes : (between inner).toByteArray
        = ("\"" : String).toByteArray ++ ((String.ofList inner).toByteArray
          ++ ("\"" : String).toByteArray) := by
      rw [between_eq_append, String.toByteArray_append, String.toByteArray_append,
        ByteArray.append_assoc]
    rw [String.toByteArray_extract, hbytes]
    exact (ByteArray.extract_append_size_add' (i := 0) rfl).trans
      (ByteArray.extract_append_eq_left rfl)

/-- A quoted text is scanned up to its closing quote. -/
theorem Enclosed.measure_quote {inner : List Char} (h : Enclosed inner) (rest : List Char) :
    measure '"' (inner ++ '"' :: rest) = (.string, (between inner).toList.length) := by
  rw [Token.measure_quote, h.stringLength_append, toList_between]
  simp only [if_true, List.length_cons, List.length_append, List.length_nil]
  congr 1
  omega

/-- At any place of a source, what is written between quotes is scanned as one token, and scanning
goes on behind it, on the same line. -/
theorem Enclosed.next {inner : List Char} (h : Enclosed inner) {c : Cursor} {rest : List Char}
    (hrest : c.rest = (between inner).toList ++ rest) :
    ∃ c', c.next = (⟨.string, between inner, c.line⟩, c') ∧ c'.rest = rest ∧ c'.line = c.line := by
  have hcons : c.rest = '"' :: (inner ++ '"' :: rest) := by
    rw [hrest, toList_between, List.cons_append, List.append_assoc]
    rfl
  have hlayout : layoutLength false 0 c.rest = 0 := by
    rw [hcons]
    rfl
  have hskip : c.skipLayout.rest = c.rest ∧ c.skipLayout.line = c.line := by
    simp [Cursor.skipLayout, hlayout, Cursor.advance]
  have hmeasure := h.measure_quote rest
  have hunbroken : '\n' ∉ (between inner).toList := by
    have hone := unbroken_quote (inner ++ '"' :: rest)
    rw [hmeasure, ← hcons, hrest] at hone
    simpa using hone
  obtain ⟨hbehind, hline⟩ := Cursor.advance_append (hskip.1.trans hrest)
  refine ⟨c.skipLayout.advance (between inner).toList.length, ?_, hbehind, ?_⟩
  · rw [Cursor.next, Cursor.take_of_cons (hskip.1.trans hcons), hmeasure, hskip.1, hskip.2, hrest,
      List.take_left, String.ofList_toList]
  · rw [hline, hskip.2, List.count_eq_zero_of_not_mem hunbroken, Nat.add_zero]

/-- Only a quote begins a string. -/
theorem eq_of_measure_string {c : Char} {rest : List Char} (h : (measure c rest).1 = .string) :
    c = '"' := by
  refine Decidable.byContradiction fun hne => absurd h ?_
  unfold measure
  split <;> try decide
  · exact absurd rfl hne
  · split
    · unfold measureNumber
      split <;> simp
    · split
      · exact measureWord_ne (by decide) _
      · decide

/-- The text of a string token is closed by a quote, and no quote before it closes it. -/
theorem lexeme_of_string {source : String} {t : Token} (h : t ∈ words source)
    (hkind : t.kind = .string) : ∃ inner, Enclosed inner ∧ t.lexeme = between inner := by
  obtain ⟨c, rest, -, hmeasure, htext⟩ := exists_measure h
  rw [hmeasure] at hkind
  obtain rfl := eq_of_measure_string hkind
  have hclosed : stringLength 1 rest = (true, (stringLength 1 rest).2) := by
    rw [measure_quote] at hkind
    refine Prod.ext ?_ rfl
    cases hopen : (stringLength 1 rest).1 with
    | true => rfl
    | false =>
      rw [hopen] at hkind
      cases hkind
  obtain ⟨inner, rest, henclosed, rfl, -⟩ := exists_enclosed hclosed
  refine ⟨inner, henclosed, String.toList_inj.1 ?_⟩
  have hcons : '"' :: (inner ++ '"' :: rest) = (between inner).toList ++ rest := by
    rw [toList_between, List.cons_append, List.append_assoc]
    rfl
  rw [htext, henclosed.measure_quote, hcons, List.take_left]

/-- How a character is written between quotes. -/
def escape : Char → List Char
  | '\n' => ['\\', 'n']
  | '\t' => ['\\', 't']
  | '\r' => ['\\', 'r']
  | '\\' => ['\\', '\\']
  | '"' => ['\\', '"']
  | c => [c]

/-- How a text is written as a string. -/
def quote (s : String) : String := between (s.toList.flatMap escape)

/-- An escape, or a character that needs none. -/
theorem escape_cases (c : Char) :
    (c, escape c) ∈ [('\n', ['\\', 'n']), ('\t', ['\\', 't']), ('\r', ['\\', 'r']),
      ('\\', ['\\', '\\']), ('"', ['\\', '"'])] ∨
      escape c = [c] ∧ c ∉ ['"', '\n', '\\'] := by
  unfold escape
  split <;> simp_all

/-- A character as it is written between quotes may stand there. -/
theorem enclosed_escape (c : Char) : Enclosed (escape c) := by
  obtain hescaped | ⟨hplain, hfree⟩ := escape_cases c
  · simp only [List.mem_cons, Prod.mk.injEq, List.not_mem_nil, or_false] at hescaped
    obtain ⟨-, h⟩ | ⟨-, h⟩ | ⟨-, h⟩ | ⟨-, h⟩ | ⟨-, h⟩ := hescaped <;>
      exact h ▸ .pair (by decide) .nil
  · exact hplain ▸ .plain hfree .nil

/-- A text as it is written between quotes may stand there. -/
theorem enclosed_flatMap_escape (cs : List Char) : Enclosed (cs.flatMap escape) := by
  induction cs with
  | nil => exact .nil
  | cons c cs ih => exact (enclosed_escape c).append ih

end EntityScript.Token
