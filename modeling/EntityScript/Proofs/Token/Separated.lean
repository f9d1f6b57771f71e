import EntityScript.Proofs.Token.Tiling

/-!
# Tokens with separators between them

How much belongs to a token is decided by the characters behind it, so two tokens that are written
next to each other may come back as others. A blank between them prevents it: no number, word or
operator goes on behind a blank. Only a string without its closing quote would take a space with
it, and it ends at the end of the line.

A token `Stands` before a separator if it is read back from its own text whatever follows the
separator. Every token of a source stands before a line end, and before any blank if it is not a
mistake. A text that is laid out of such tokens has just these tokens: `words_laidOut`.
-/

namespace EntityScript.Token

/-- What a token is, apart from its place. -/
def spelling (t : Token) : Kind × String := (t.kind, t.lexeme)

/-- Tokens that are spelled alike are of one kind. -/
theorem kind_eq_of_spelling {t u : Token} (h : u.spelling = t.spelling) : u.kind = t.kind :=
  congrArg Prod.fst h

/-- Tokens that are spelled alike have one text. -/
theorem lexeme_eq_of_spelling {t u : Token} (h : u.spelling = t.spelling) :
    u.lexeme = t.lexeme :=
  congrArg Prod.snd h

/-- There are four blanks. -/
theorem blank_cases {sep : Char} (hsep : isBlank sep = true) :
    sep = ' ' ∨ sep = '\t' ∨ sep = '\r' ∨ sep = '\n' := by
  simpa using mem_blanks_of_isBlank hsep

/-- No word or number goes on with the character, and no comment begins with it. -/
structure Parts (sep : Char) : Prop where
  digit : sep.isDigit = false
  word : continuesWord sep = false
  point : sep ≠ '.'
  comma : sep ≠ ','
  slash : sep ≠ '/'

/-- A blank is no part of a word, a number or an operator. -/
theorem parts_of_isBlank {sep : Char} (hsep : isBlank sep = true) : Parts sep := by
  obtain rfl | rfl | rfl | rfl := blank_cases hsep <;>
    exact ⟨by decide, by decide, by decide, by decide, by decide⟩

/-- The length of a string is found again behind its text, unless the string goes on to the end of
its line and the separator is on that line. -/
theorem stringLength_take {sep : Char} (count : ℕ) (cs r : List Char) {k : ℕ}
    (hk : (stringLength count cs).2 = count + k)
    (hsep : (stringLength count cs).1 = false → sep = '\n') :
    stringLength count (cs.take k ++ sep :: r) = stringLength count cs := by
  fun_induction stringLength count cs generalizing k with
  | case1 count =>
    rw [hsep rfl, List.take_nil]
    rfl
  | case2 count rest =>
    obtain rfl : k = 1 := by omega
    rfl
  | case3 count rest =>
    obtain rfl : k = 0 := by omega
    rw [hsep rfl]
    rfl
  | case4 count rest =>
    obtain rfl : k = 1 := by omega
    rw [hsep rfl]
    simp [stringLength]
  | case5 count c rest hc ih =>
    obtain ⟨n, hn, -⟩ := exists_stringLength (count + 2) rest
    obtain rfl : k = n + 2 := by omega
    rw [List.take_succ_cons, List.take_succ_cons, List.cons_append, List.cons_append,
      stringLength, if_neg hc]
    exact ih hn hsep
  | case6 count c rest hquote hline hescape ih =>
    obtain ⟨n, hn, -⟩ := exists_stringLength (count + 1) rest
    obtain rfl : k = n + 1 := by omega
    rw [List.take_succ_cons, List.cons_append]
    by_cases hc : c = '\\'
    · -- A backslash at the end of the source comes before the end of a line now.
      subst hc
      obtain rfl : rest = [] := by
        cases rest with
        | nil => rfl
        | cons d rest => exact absurd rfl (hescape d rest rfl)
      rw [hsep rfl, List.take_nil]
      simp [stringLength]
    · rw [stringLength]
      · exact ih hn hsep
      · exact hquote
      · exact hline
      · exact fun _ _ heq _ => hc heq

/-- A string is not longer than the characters there are. -/
theorem stringLength_le (count : ℕ) (cs : List Char) :
    (stringLength count cs).2 ≤ count + cs.length := by
  fun_induction stringLength count cs <;> simp only [List.length_cons, List.length_nil] <;> omega

/-- A word ends where a separator follows. -/
theorem measureWord_append {sep : Char} {w : List Char} (hsep : Parts sep)
    (hw : ∀ c ∈ w, continuesWord c = true) (r : List Char) :
    measureWord (w ++ sep :: r)
      = ((Kind.keyword? (String.ofList w)).getD .identifier, w.length) := by
  have htake : (w ++ sep :: r).takeWhile continuesWord = w := by
    refine takeWhile_of_all hw fun c hc => ?_
    obtain rfl := Option.some.inj hc
    exact hsep.word
  unfold measureWord
  rw [htake]

/-- Digits end where none follows. -/
theorem digitsLength_append {w r : List Char} (hw : ∀ c ∈ w, c.isDigit = true)
    (hr : ∀ c, r.head? = some c → c.isDigit = false) : digitsLength (w ++ r) = w.length := by
  unfold digitsLength
  rw [takeWhile_of_all hw hr]

/-- A numeral is measured off in front of everything that does not go on with it. -/
theorem Numeral.decimalLength_append {w : List Char} (h : Numeral w) {c : Char} (r : List Char)
    (hdigit : c.isDigit = false) (hpoint : c ≠ '.') :
    decimalLength (w ++ c :: r) = w.length := by
  have hhead : ∀ d, (c :: r).head? = some d → d.isDigit = false := fun d hd => by
    obtain rfl := Option.some.inj hd
    exact hdigit
  unfold decimalLength
  cases h with
  | whole digits nonempty =>
    rw [digitsLength_append digits hhead, List.drop_left]
    unfold fractionLength
    split
    · rename_i heq
      exact absurd (List.cons.inj heq).1 hpoint
    · rfl
  | @decimal w f digits nonempty fraction places =>
    obtain ⟨d, f, rfl⟩ := List.exists_cons_of_ne_nil places
    have hfirst : ∀ d', ('.' :: (d :: f ++ c :: r)).head? = some d' → d'.isDigit = false := by
      rintro d' hd'
      obtain rfl := Option.some.inj hd'
      rfl
    have hsecond := digitsLength_append fraction hhead
    rw [List.append_assoc, List.cons_append, digitsLength_append digits hfirst, List.drop_left]
    rw [List.cons_append, fractionLength, if_pos (fraction d List.mem_cons_self),
      ← List.cons_append, hsecond, List.length_append]
    simp only [List.length_cons]
    omega

/-- A numeral ends where a separator follows. -/
theorem Numeral.measureNumber_append {w : List Char} (h : Numeral w) {sep : Char}
    (hsep : Parts sep) (r : List Char) :
    measureNumber (w ++ sep :: r) = (.number, w.length) := by
  unfold measureNumber
  rw [h.decimalLength_append r hsep.digit hsep.point, List.drop_left]
  have hsecond : secondLength (sep :: r) = 0 := by
    unfold secondLength
    split <;> first | (rename_i heq; exact absurd (List.cons.inj heq).1 hsep.comma) | rfl
  rw [hsecond]

/-- A vector ends where a separator follows. -/
theorem Numeral.measureVector_append {x y second : List Char} (hx : Numeral x) (hy : Numeral y)
    (hsecond : second = ',' :: y ∨ second = ',' :: '-' :: y) {sep : Char}
    (hsep : Parts sep) (r : List Char) :
    measureNumber (x ++ second ++ sep :: r) = (.vec2, (x ++ second).length) := by
  have hlength : secondLength (second ++ sep :: r) = second.length := by
    obtain ⟨d, y, rfl, hd⟩ := hy.exists_cons
    have hdecimal := hy.decimalLength_append r hsep.digit hsep.point
    obtain rfl | rfl := hsecond
    · have hne : d ≠ '-' := by
        rintro rfl
        cases hd
      rw [List.cons_append, List.cons_append, secondLength, if_pos hd, ← List.cons_append,
        hdecimal, List.length_cons, Nat.add_comm]
      · rfl
      · rintro d' r' rfl
        exact absurd rfl hne
    · rw [List.cons_append, List.cons_append, List.cons_append, secondLength, if_pos hd,
        ← List.cons_append, hdecimal, List.length_cons, Nat.add_comm]
      rfl
  have hfirst : decimalLength (x ++ (second ++ sep :: r)) = x.length := by
    obtain rfl | rfl := hsecond <;> exact hx.decimalLength_append _ (by decide) (by decide)
  have hpos : ∃ n, second.length = n + 1 := by
    obtain rfl | rfl := hsecond <;> exact ⟨_, rfl⟩
  obtain ⟨n, hn⟩ := hpos
  unfold measureNumber
  rw [List.append_assoc, hfirst, List.drop_left, hlength, hn, List.length_append, hn]

/-- What begins a word is no digit. -/
theorem not_isDigit_of_startsWord {c : Char} (h : startsWord c = true) : ¬ c.isDigit = true := by
  intro hd
  have hhigh : c.val ≤ 57 :=
    of_decide_eq_true ((Bool.and_eq_true _ _).mp (show (_ && _) = true from hd)).2
  obtain halpha | hline := (Bool.or_eq_true _ _).mp (show (_ || _) = true from h)
  · obtain hupper | hlower := (Bool.or_eq_true _ _).mp (show (_ || _) = true from halpha)
    · have hlow : 65 ≤ c.val := (of_decide_eq_true hupper).1
      exact absurd (UInt32.le_trans hlow hhigh) (by decide)
    · have hlow : 97 ≤ c.val :=
        of_decide_eq_true ((Bool.and_eq_true _ _).mp (show (_ && _) = true from hlower)).1
      exact absurd (UInt32.le_trans hlow hhigh) (by decide)
  · rw [eq_of_beq hline] at hhigh
    exact absurd hhigh (by decide)

/-- What begins a word is scanned as a word. -/
theorem measure_of_startsWord {c : Char} (h : startsWord c = true) (rest : List Char) :
    measure c rest = measureWord (c :: rest) := by
  have hdigit := not_isDigit_of_startsWord h
  unfold measure
  split <;> first | exact absurd h (by decide) | rw [if_neg hdigit, if_pos h]

/-- Of what follows, an operator takes only its second character. -/
theorem measure_operator {c : Char} (hd : ¬ c.isDigit = true) (hw : ¬ startsWord c = true)
    (hq : c ≠ '"') (rest : List Char) :
    (∃ kind, measure c rest = (kind, 1) ∧
      ∀ sep r, isBlank sep = true → measure c (sep :: r) = (kind, 1)) ∨
    ∃ d r kind, rest = d :: r ∧ ∀ r', measure c (d :: r') = (kind, 2) := by
  generalize hm : measure c rest = m
  unfold measure at hm
  split at hm
  case h_24 =>
    rw [if_neg hd, if_neg hw] at hm
    refine .inl ⟨_, hm.symm, fun sep r hsep => ?_⟩
    unfold measure
    split <;> first
      | exact absurd rfl ‹_›
      | rw [if_neg hd, if_neg hw]
      | (rw [(List.cons.inj ‹sep :: r = _›).1] at hsep; cases hsep)
  case h_23 => exact absurd rfl hq
  all_goals subst hm
  case h_14 | h_16 | h_18 | h_20 =>
    refine .inl ⟨_, rfl, fun sep r hsep => ?_⟩
    obtain rfl | rfl | rfl | rfl := blank_cases hsep <;> rfl
  all_goals first
    | exact .inr ⟨_, _, _, rfl, fun _ => rfl⟩
    | exact .inl ⟨_, rfl, fun _ _ _ => rfl⟩

/-- A quote begins a string, closed or not. -/
theorem measure_quote (rest : List Char) :
    measure '"' rest
      = (if (stringLength 1 rest).1 then .string else .error, (stringLength 1 rest).2) := by
  rw [measure]
  rcases stringLength 1 rest with ⟨closed, n⟩
  cases closed <;> rfl

/-- The text of a number or a vector is measured off again. -/
theorem measureNumber_lexeme {sep : Char} (hsep : Parts sep) {c : Char}
    (hd : c.isDigit = true) (rest r : List Char) {w : List Char}
    (hw : (c :: rest).take (measureNumber (c :: rest)).2 = w) :
    measureNumber (w ++ sep :: r) = ((measureNumber (c :: rest)).1, w.length) := by
  obtain ⟨hkind, hx⟩ | ⟨hkind, x, y, hx, hy, htext⟩ := measureNumber_take hd rest
  · rw [hw] at hx
    rw [hkind, hx.measureNumber_append hsep]
  · rw [hw] at htext
    rw [hkind]
    obtain rfl | rfl := htext
    · exact hx.measureVector_append hy (.inl rfl) hsep r
    · exact hx.measureVector_append hy (.inr rfl) hsep r

/-- The text of a word is measured off again. -/
theorem measureWord_lexeme {sep : Char} (hsep : Parts sep) (cs r : List Char)
    {w : List Char} (hw : cs.take (measureWord cs).2 = w) :
    measureWord (w ++ sep :: r) = ((measureWord cs).1, w.length) := by
  have hword : cs.take (measureWord cs).2 = cs.takeWhile continuesWord :=
    (List.prefix_iff_eq_take.1 (List.takeWhile_prefix continuesWord)).symm
  rw [← hw, hword]
  exact measureWord_append hsep (fun c hc => mem_takeWhile hc) r

/-- The text of a token is measured off again if a separator follows it. Only a mistake may need the
end of its line. -/
theorem measure_lexeme {sep : Char} (hsep : isBlank sep = true) (c : Char) (rest r : List Char)
    {w : List Char} (hw : (c :: rest).take (measure c rest).2 = c :: w)
    (hmistake : (measure c rest).1 = .error → sep = '\n') :
    measure c (w ++ sep :: r) = ((measure c rest).1, w.length + 1) := by
  have hparts := parts_of_isBlank hsep
  by_cases hd : c.isDigit = true
  · rw [measure_of_isDigit hd] at hw ⊢
    rw [measure_of_isDigit hd, ← List.cons_append, measureNumber_lexeme hparts hd rest r hw]
    rfl
  by_cases hstart : startsWord c = true
  · rw [measure_of_startsWord hstart] at hw ⊢
    rw [measure_of_startsWord hstart, ← List.cons_append, measureWord_lexeme hparts _ r hw]
    rfl
  by_cases hq : c = '"'
  · subst hq
    obtain ⟨n, hn, -⟩ := exists_stringLength 1 rest
    have hle := stringLength_le 1 rest
    rw [measure_quote] at hw hmistake ⊢
    dsimp only at hw hmistake ⊢
    rw [hn, Nat.add_comm, List.take_succ_cons] at hw
    obtain rfl := (List.cons.inj hw).2
    have hlength : (rest.take n).length = n := List.length_take_of_le (by omega)
    rw [measure_quote, stringLength_take 1 rest r hn fun hopen => hmistake (by rw [hopen]; rfl),
      hn, hlength, Nat.add_comm]
  · obtain ⟨kind, hkind, hblank⟩ | ⟨d, r', kind, rfl, hkind⟩ := measure_operator hd hstart hq rest
    · rw [hkind] at hw ⊢
      obtain rfl := (List.cons.inj hw).2
      exact hblank sep r hsep
    · rw [hkind] at hw ⊢
      obtain rfl := (List.cons.inj hw).2
      exact hkind _

/-- A token is read back from its text if a separator follows it, whatever comes then. -/
def Stands (sep : Char) (t : Token) : Prop :=
  ∃ c w, t.lexeme.toList = c :: w ∧ isBlank c = false ∧
    ∀ r, measure c (w ++ sep :: r) = (t.kind, w.length + 1)

/-- Some tokens laid out in a text, with a separator behind each of them. -/
def laidOut (sep : Char) (ts : List Token) : String :=
  String.join (ts.map fun t => t.lexeme.push sep)

/-- The tokens of a text that is laid out, with the lines they stand on: `step` is how many lines a
separator ends. -/
def placed (step : ℕ) : ℕ → List Token → List Token
  | _, [] => []
  | n, t :: ts => ⟨t.kind, t.lexeme, n⟩ :: placed step (n + step) ts

/-- Placing tokens on lines leaves their spelling alone. -/
theorem map_spelling_placed (step n : ℕ) (ts : List Token) :
    (placed step n ts).map spelling = ts.map spelling := by
  induction ts generalizing n with
  | nil => rfl
  | cons t ts ih => rw [placed, List.map_cons, List.map_cons, ih]; rfl

/-- Tokens on the first line stay there if separators end no line. -/
theorem placed_zero {ts : List Token} (h : ∀ t ∈ ts, t.line = 1) : placed 0 1 ts = ts := by
  induction ts with
  | nil => rfl
  | cons t ts ih =>
    obtain ⟨ht, hts⟩ := List.forall_mem_cons.1 h
    rw [placed, ih hts, ← ht]

/-- The first token is laid out with its separator in front of the rest. -/
theorem toList_laidOut_cons (sep : Char) (t : Token) (ts : List Token) :
    (laidOut sep (t :: ts)).toList = t.lexeme.toList ++ sep :: (laidOut sep ts).toList := by
  rw [laidOut, List.map_cons, String.join_cons, String.toList_append, String.toList_push,
    List.append_assoc]
  rfl

namespace Stands

variable {sep : Char} {t : Token} (h : Stands sep t) (hsep : sep ≠ '/')

include h hsep

/-- No layout begins at the token. -/
theorem layoutLength (r : List Char) :
    layoutLength false 0 (t.lexeme.toList ++ sep :: r) = 0 := by
  obtain ⟨c, w, htext, hc, hmeasure⟩ := h
  rw [htext, List.cons_append, Token.layoutLength, if_neg Bool.false_ne_true, hc,
    if_neg Bool.false_ne_true]
  refine if_neg fun hcomment => ?_
  simp only [Bool.and_eq_true, beq_iff_eq] at hcomment
  obtain ⟨rfl, hhead⟩ := hcomment
  -- A slash is a token of its own, so what follows it is the separator.
  obtain rfl : w = [] := List.length_eq_zero_iff.1 (by
    have hslash : measure '/' (w ++ sep :: r) = (.slash, 1) := rfl
    rw [hmeasure] at hslash
    exact Nat.succ.inj (congrArg Prod.snd hslash))
  exact hsep (Option.some.inj hhead)

omit hsep in
/-- There is no line end in a token. -/
theorem unbroken : '\n' ∉ t.lexeme.toList := by
  obtain ⟨c, w, htext, hc, hmeasure⟩ := h
  have hne : c ≠ '\n' := by
    rintro rfl
    cases hc
  have hunbroken := unbroken_measure hne (w ++ sep :: [])
  rw [hmeasure, List.take_succ_cons, List.take_left] at hunbroken
  rwa [htext]

end Stands

/-- Behind another token a separator is the layout in front of the next one. -/
theorem layoutLength_cons_of_isBlank {sep : Char} (hsep : isBlank sep = true) (cs : List Char) :
    layoutLength false 0 (sep :: cs) = layoutLength false 0 cs + 1 := by
  rw [layoutLength, if_neg Bool.false_ne_true, if_pos hsep, layoutLength_add, Nat.add_comm]

namespace Cursor

/-- Passing some text leaves what follows, on the line that its line ends lead to. -/
theorem advance_append {c : Cursor} {w r : List Char} (h : c.rest = w ++ r) :
    (c.advance w.length).rest = r ∧ (c.advance w.length).line = c.line + w.count '\n' := by
  simp only [advance, h, List.drop_left, List.take_left, and_self]

/-- A token in front of its separator is scanned as itself. -/
theorem take_of_stands {sep : Char} {t : Token} (h : Stands sep t) {c : Cursor} {r : List Char}
    (hrest : c.rest = t.lexeme.toList ++ sep :: r) :
    c.take = (⟨t.kind, t.lexeme, c.line⟩, c.advance t.lexeme.toList.length) := by
  obtain ⟨ch, w, htext, -, hmeasure⟩ := h
  have hcons : c.rest = ch :: (w ++ sep :: r) := by rw [hrest, htext, List.cons_append]
  rw [take_of_cons hcons, hmeasure, htext, hcons, List.take_succ_cons, List.take_left, ← htext,
    String.ofList_toList, htext, List.length_cons]

/-- A call takes a token off that stands before a separator, also behind blanks. -/
theorem next_of_stands {sep : Char} (hsep : sep ≠ '/') {t : Token} (h : Stands sep t)
    {c : Cursor} {gap r : List Char} (hgap : ∀ d ∈ gap, isBlank d = true)
    (hrest : c.rest = gap ++ (t.lexeme.toList ++ sep :: r)) :
    ∃ c', c.next = (⟨t.kind, t.lexeme, c.line + gap.count '\n'⟩, c') ∧ c'.rest = sep :: r ∧
      c'.line = c.line + gap.count '\n' := by
  have hlayout : layoutLength false 0 c.rest = gap.length := by
    rw [hrest]
    clear hrest
    induction gap with
    | nil => exact h.layoutLength hsep r
    | cons d gap ih =>
      obtain ⟨hd, hgap⟩ := List.forall_mem_cons.1 hgap
      rw [List.cons_append, layoutLength_cons_of_isBlank hd, ih hgap, List.length_cons]
  obtain ⟨hskip, hline⟩ := advance_append hrest
  rw [← hlayout] at hskip hline
  obtain ⟨hbehind, hline'⟩ := advance_append hskip
  refine ⟨_, ?_, hbehind, ?_⟩
  · rw [next, skipLayout, take_of_stands h hskip, hline]
  · rw [hline', hline, List.count_eq_zero_of_not_mem h.unbroken, Nat.add_zero]

/-- Where only blanks are left, a call answers the end. -/
theorem next_of_blank {c : Cursor} (hgap : ∀ d ∈ c.rest, isBlank d = true) :
    c.next.1.kind = .eof := by
  have hlayout : layoutLength false 0 c.rest = c.rest.length := by
    generalize c.rest = gap at hgap
    induction gap with
    | nil => rfl
    | cons d gap ih =>
      obtain ⟨hd, hgap⟩ := List.forall_mem_cons.1 hgap
      rw [layoutLength_cons_of_isBlank hd, ih hgap, List.length_cons]
  have hnil : c.skipLayout.rest = [] := by
    rw [skipLayout, hlayout, advance]
    exact List.drop_length
  rw [next, take_of_nil hnil]

end Cursor

namespace Stream

/-- A stream answers the next token and goes on behind it, unless that is the end. -/
theorem collect_of_next {c : Cursor} (h : c.next.1.kind ≠ .eof) (tokens : Array Token) :
    (Stream.mk c false).collect tokens
      = (Stream.mk c.next.2 false).collect (tokens.push c.next.1) := by
  have hkind : (c.next.1.kind == .eof) = false := beq_eq_false_iff_ne.2 h
  have hnext : (Stream.mk c false).next? = some (c.next.1, ⟨c.next.2, false⟩) := by
    rw [next?, if_neg Bool.false_ne_true]
    dsimp only
    rw [hkind]
  rw [collect]
  split
  · rename_i hnone
    rw [hnext] at hnone
    cases hnone
  · rename_i hsome
    rw [hnext] at hsome
    cases hsome
    rfl

/-- A stream that is at its end answers that and no more. -/
theorem collect_of_end {c : Cursor} (h : c.next.1.kind = .eof) (tokens : Array Token) :
    (Stream.mk c false).collect tokens = tokens.push c.next.1 := by
  have hkind : (c.next.1.kind == .eof) = true := beq_iff_eq.2 h
  have hnext : (Stream.mk c false).next? = some (c.next.1, ⟨c.next.2, true⟩) := by
    rw [next?, if_neg Bool.false_ne_true]
    dsimp only
    rw [hkind]
  rw [collect]
  split
  · rename_i hnone
    rw [hnext] at hnone
    cases hnone
  · rename_i hsome
    rw [hnext] at hsome
    cases hsome
    exact collect_of_finished rfl _

/-- The tokens that a text was laid out of are collected one after the other. -/
theorem collect_of_stands {sep : Char} (hsep : isBlank sep = true) {ts : List Token}
    (hts : ∀ t ∈ ts, Stands sep t ∧ t.kind ≠ .eof) {c : Cursor} {gap : List Char}
    (hgap : ∀ d ∈ gap, isBlank d = true) (hrest : c.rest = gap ++ (laidOut sep ts).toList)
    (tokens : Array Token) :
    ∃ last : Token, last.kind = .eof ∧ ((Stream.mk c false).collect tokens).toList
      = tokens.toList ++ placed ([sep].count '\n') (c.line + gap.count '\n') ts ++ [last] := by
  induction ts generalizing c gap tokens with
  | nil =>
    have hend : c.next.1.kind = .eof := by
      refine Cursor.next_of_blank fun d hd => hgap d ?_
      rwa [hrest, laidOut, List.map_nil, String.join_nil, String.toList_empty, List.append_nil]
        at hd
    refine ⟨c.next.1, hend, ?_⟩
    rw [collect_of_end hend, placed, List.append_nil, Array.toList_push]
  | cons t ts ih =>
    obtain ⟨⟨hstands, hkind⟩, hts⟩ := List.forall_mem_cons.1 hts
    rw [toList_laidOut_cons] at hrest
    obtain ⟨c', hnext, hrest', hline'⟩ :=
      Cursor.next_of_stands (parts_of_isBlank hsep).slash hstands hgap hrest
    obtain ⟨last, hlast, hcollect⟩ := ih hts (List.forall_mem_singleton.2 hsep)
      (hrest' : c'.rest = [sep] ++ (laidOut sep ts).toList) (tokens.push c.next.1)
    refine ⟨last, hlast, ?_⟩
    rw [collect_of_next (by rw [hnext]; exact hkind), hnext]
    rw [hnext, Array.toList_push, hline'] at hcollect
    rw [hcollect, placed, List.append_assoc tokens.toList, List.singleton_append]

end Stream

/-- A text that is laid out of tokens that stand before its separator has just these tokens. -/
theorem words_laidOut {sep : Char} (hsep : isBlank sep = true) {ts : List Token}
    (hts : ∀ t ∈ ts, Stands sep t ∧ t.kind ≠ .eof) :
    words (laidOut sep ts) = placed ([sep].count '\n') 1 ts := by
  have hrest : (Cursor.start (laidOut sep ts)).rest = [] ++ (laidOut sep ts).toList := rfl
  obtain ⟨last, -, hcollect⟩ := Stream.collect_of_stands hsep hts (List.forall_mem_nil _) hrest #[]
  rw [words, tokenize, Stream.ofSource, hcollect, List.dropLast_concat]
  rfl

/-- All tokens are the words and the one for the end. -/
theorem exists_tokenize_eq (source : String) :
    ∃ last, last.spelling = (.eof, "") ∧ tokenize source = words source ++ [last] := by
  obtain ⟨tiles, c', closing, c'', hlaid, hcloses⟩ := (Cursor.start source).exists_laid
  refine ⟨⟨.eof, "", c''.line⟩, rfl, ?_⟩
  rw [words, tokenize, Stream.ofSource, Stream.collect_of_laid hlaid hcloses, List.dropLast_concat]

/-- Every token of a source was measured off at some place, where no blank stands. -/
theorem exists_measure {source : String} {t : Token} (h : t ∈ words source) :
    ∃ c rest, isBlank c = false ∧ t.kind = (measure c rest).1 ∧
      t.lexeme.toList = (c :: rest).take (measure c rest).2 := by
  obtain ⟨tiles, c', closing, c'', hlaid, hcloses⟩ := (Cursor.start source).exists_laid
  have hmem : t ∈ tiles.map Tile.token := by
    rwa [words, tokenize, Stream.ofSource, Stream.collect_of_laid hlaid hcloses,
      List.dropLast_concat] at h
  obtain ⟨tile, htile, rfl⟩ := List.mem_map.1 hmem
  obtain ⟨n, hn⟩ := List.getElem?_of_mem htile
  have hlays := hlaid.lays hn
  have hnext : ((Cursor.start source).after n).next.1 = tile.token := congrArg Prod.fst hlays.next
  generalize (Cursor.start source).after n = c at hnext
  obtain ⟨-, hstops⟩ := (skips_layoutLength c.rest).1
  cases hrest : c.skipLayout.rest with
  | nil =>
    refine absurd ?_ hlays.kind
    rw [← hnext, Cursor.next, Cursor.take_of_nil hrest]
  | cons ch rest =>
    rw [Cursor.next, Cursor.take_of_cons hrest, hrest] at hnext
    refine ⟨ch, rest, hstops ch ?_, ?_, ?_⟩
    · change c.skipLayout.rest.head? = some ch
      rw [hrest]
      rfl
    · rw [← hnext]
    · rw [← hnext, String.toList_ofList]

/-- A token of a source stands before the end of a line, and before any blank if it is not a
mistake. -/
theorem stands_of_mem_words {source : String} {t : Token} (h : t ∈ words source) {sep : Char}
    (hsep : isBlank sep = true) (hmistake : t.kind = .error → sep = '\n') : Stands sep t := by
  obtain ⟨c, rest, hc, hkind, htext⟩ := exists_measure h
  obtain ⟨n, hn⟩ : ∃ n, (measure c rest).2 = n + 1 :=
    Nat.exists_eq_add_one.2 (measure_pos c rest)
  rw [hn, List.take_succ_cons] at htext
  refine ⟨c, _, htext, hc, fun r => ?_⟩
  rw [hkind]
  exact measure_lexeme hsep c rest r (by rw [hn, List.take_succ_cons]) (hkind ▸ hmistake)

/-- Only a semicolon is read as one. -/
theorem eq_of_measure_semicolon {c : Char} {rest : List Char}
    (h : (measure c rest).1 = .semicolon) : c = ';' := by
  refine Decidable.byContradiction fun hne => absurd h ?_
  unfold measure
  split <;> try decide
  · exact absurd rfl hne
  · split <;> simp
  · split
    · unfold measureNumber
      split <;> simp
    · split
      · exact measureWord_ne (by decide) _
      · decide

/-- The text of a semicolon of a source. -/
theorem lexeme_of_semicolon {source : String} {t : Token} (h : t ∈ words source)
    (hkind : t.kind = .semicolon) : t.lexeme = ";" := by
  obtain ⟨c, rest, -, hmeasure, htext⟩ := exists_measure h
  obtain rfl := eq_of_measure_semicolon (hmeasure.symm.trans hkind)
  exact String.toList_inj.1 htext
end EntityScript.Token
