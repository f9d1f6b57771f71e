import EntityScript.Proofs.Token.Scanned

/-!
# Tokens tile their source

Cut at its tokens, a source falls into tiles: a token and the layout in front of it. The tiles
follow each other without a gap or an overlap, and behind the last one there is only layout.

One call on a cursor takes one tile off the source, or the layout at its end: `Cursor.next_cases`.
What many calls take off is found from it by `Cursor.exists_laid`, and the rest follows by going
along the tiles.
-/

namespace EntityScript.Token

/-- Spaces, tabs, line ends and comments. A comment goes on to the end of its line, or of the source
if the layout is at the end of that. -/
inductive Layout (atEnd : Bool) : List Char → Prop
  | nil : Layout atEnd []
  | blank {c : Char} {w : List Char} (blank : c ∈ [' ', '\t', '\r', '\n'])
    (rest : Layout atEnd w) : Layout atEnd (c :: w)
  | comment {text w : List Char} (line : '\n' ∉ text) (rest : Layout atEnd w) :
    Layout atEnd ('/' :: '/' :: (text ++ '\n' :: w))
  | last {text : List Char} (line : '\n' ∉ text) (ends : atEnd = true) :
    Layout atEnd ('/' :: '/' :: text)

/-- The blanks are the four characters in the list. -/
theorem mem_blanks_of_isBlank {c : Char} (h : isBlank c = true) : c ∈ [' ', '\t', '\r', '\n'] := by
  simpa [isBlank, or_assoc] using h

/-- Characters of layout are counted from any number on. -/
theorem layoutLength_add (b : Bool) (count : ℕ) (cs : List Char) :
    layoutLength b count cs = count + layoutLength b 0 cs := by
  induction cs generalizing b count with
  | nil => rfl
  | cons c cs ih =>
    unfold layoutLength
    split
    · rw [ih, ih _ (0 + 1)]
      omega
    · split
      · rw [ih, ih _ (0 + 1)]
        omega
      · split
        · rw [ih, ih _ (0 + 1)]
          omega
        · rfl

/-- Inside of a comment every character is layout. -/
theorem layoutLength_comment (c : Char) (cs : List Char) :
    layoutLength true 0 (c :: cs) = layoutLength (c != '\n') 0 cs + 1 := by
  rw [layoutLength, if_pos rfl, layoutLength_add]
  omega

/-- So many characters at the front are layout, and no blank follows them. -/
structure Skips (cs : List Char) (n : ℕ) : Prop where
  layout : Layout (cs.drop n).isEmpty (cs.take n)
  stops : ∀ c, (cs.drop n).head? = some c → isBlank c = false

/-- So many characters at the front are what is left of a comment and layout behind it, and no blank
follows them. -/
structure SkipsComment (cs : List Char) (n : ℕ) : Prop where
  comment : (∃ text w, cs.take n = text ++ '\n' :: w ∧ '\n' ∉ text ∧
    Layout (cs.drop n).isEmpty w) ∨ '\n' ∉ cs.take n ∧ (cs.drop n).isEmpty = true
  stops : ∀ c, (cs.drop n).head? = some c → isBlank c = false

/-- A character that ends no line belongs to the comment. -/
theorem SkipsComment.cons {c : Char} {cs : List Char} {n : ℕ} (hc : c ≠ '\n')
    (h : SkipsComment cs n) : SkipsComment (c :: cs) (n + 1) := by
  refine ⟨?_, h.stops⟩
  obtain ⟨text, w, heq, hline, hlayout⟩ | ⟨hline, hend⟩ := h.comment
  · refine .inl ⟨c :: text, w, ?_, ?_, hlayout⟩
    · rw [List.take_succ_cons, heq, List.cons_append]
    · exact List.not_mem_cons_of_ne_of_not_mem (Ne.symm hc) hline
  · exact .inr ⟨List.not_mem_cons_of_ne_of_not_mem (Ne.symm hc) hline, hend⟩

/-- Two slashes begin a comment. -/
theorem SkipsComment.skips {cs : List Char} {n : ℕ} (h : SkipsComment ('/' :: cs) n) :
    Skips ('/' :: '/' :: cs) (n + 1) := by
  refine ⟨?_, h.stops⟩
  rw [List.take_succ_cons]
  obtain ⟨text, w, heq, hline, hlayout⟩ | ⟨hline, hend⟩ := h.comment
  · -- The second slash is the first character of the text that was skipped.
    cases n with
    | zero => cases text <;> cases heq
    | succ n =>
      cases text with
      | nil => cases heq
      | cons c text =>
        obtain ⟨rfl, -⟩ := List.cons.inj heq
        rw [heq]
        exact .comment (List.not_mem_of_not_mem_cons hline) hlayout
  · cases n with
    | zero => cases hend
    | succ n =>
      rw [List.take_succ_cons] at hline ⊢
      exact .last (List.not_mem_of_not_mem_cons hline) hend

/-- As many characters are layout as are counted, within a comment or not. -/
theorem skips_layoutLength (cs : List Char) :
    Skips cs (layoutLength false 0 cs) ∧ SkipsComment cs (layoutLength true 0 cs) := by
  induction cs with
  | nil =>
    exact ⟨⟨.nil, fun c h => by cases h⟩, ⟨.inr ⟨List.not_mem_nil, rfl⟩, fun c h => by cases h⟩⟩
  | cons c cs ih =>
    obtain ⟨hskips, hcomment⟩ := ih
    constructor
    · rw [layoutLength, if_neg Bool.false_ne_true]
      split
      · rename_i hblank
        rw [layoutLength_add, Nat.add_comm]
        exact ⟨.blank (mem_blanks_of_isBlank hblank) hskips.layout, hskips.stops⟩
      · rename_i hblank
        split
        · rename_i hslashes
          simp only [Bool.and_eq_true, beq_iff_eq] at hslashes
          obtain ⟨rfl, hhead⟩ := hslashes
          obtain ⟨rest, rfl⟩ := List.head?_eq_some_iff.1 hhead
          rw [layoutLength_add, Nat.add_comm]
          exact hcomment.skips
        · refine ⟨.nil, fun d hd => ?_⟩
          obtain rfl : c = d := Option.some.inj hd
          exact Bool.eq_false_iff.2 hblank
    · rw [layoutLength_comment]
      by_cases hc : c = '\n'
      · rw [hc]
        exact ⟨.inl ⟨[], cs.take _, rfl, List.not_mem_nil, hskips.layout⟩, hskips.stops⟩
      · have hne : (c != '\n') = true := bne_iff_ne.2 hc
        rw [hne]
        exact hcomment.cons hc

/-- What is measured off as a string does not reach the end of its line. -/
theorem exists_stringLength (count : ℕ) (cs : List Char) :
    ∃ n, (stringLength count cs).2 = count + n ∧ '\n' ∉ cs.take n := by
  fun_induction stringLength count cs with
  | case1 count => exact ⟨0, rfl, List.not_mem_nil⟩
  | case2 count rest => exact ⟨1, rfl, by simp⟩
  | case3 count rest => exact ⟨0, rfl, List.not_mem_nil⟩
  | case4 count rest => exact ⟨1, rfl, by simp⟩
  | case5 count c rest hc ih =>
    obtain ⟨n, hlength, hline⟩ := ih
    refine ⟨n + 2, by omega, ?_⟩
    simp [Ne.symm hc, hline]
  | case6 count c rest _ hc _ ih =>
    obtain ⟨n, hlength, hline⟩ := ih
    refine ⟨n + 1, by omega, ?_⟩
    rw [List.take_succ_cons]
    exact List.not_mem_cons_of_ne_of_not_mem (fun heq => hc heq.symm) hline

/-- There is no line end in a numeral. -/
theorem Numeral.unbroken {cs : List Char} (h : Numeral cs) : '\n' ∉ cs := by
  intro hmem
  cases h with
  | whole digits _ => exact absurd (digits _ hmem) (by decide)
  | decimal digits _ fraction _ =>
    obtain hmem | hmem := List.mem_append.1 hmem
    · exact absurd (digits _ hmem) (by decide)
    · obtain heq | hmem := List.mem_cons.1 hmem
      · exact absurd heq (by decide)
      · exact absurd (fraction _ hmem) (by decide)

/-- There is no line end in a number or a vector. -/
theorem unbroken_measureNumber {c : Char} (h : c.isDigit = true) (rest : List Char) :
    '\n' ∉ (c :: rest).take (measureNumber (c :: rest)).2 := by
  obtain ⟨-, hnumeral⟩ | ⟨-, x, y, hx, hy, heq | heq⟩ := measureNumber_take h rest
  · exact hnumeral.unbroken
  · rw [heq]
    simp [hx.unbroken, hy.unbroken]
  · rw [heq]
    simp [hx.unbroken, hy.unbroken]

/-- There is no line end in a word. -/
theorem unbroken_measureWord (cs : List Char) : '\n' ∉ cs.take (measureWord cs).2 := by
  have hword : cs.take (cs.takeWhile continuesWord).length = cs.takeWhile continuesWord :=
    List.prefix_iff_eq_take.1 (List.takeWhile_prefix continuesWord) |>.symm
  unfold measureWord
  dsimp only
  rw [hword]
  intro hmem
  exact absurd (mem_takeWhile hmem) (by decide)

/-- There is no line end in a string, closed or not. -/
theorem unbroken_quote (rest : List Char) :
    '\n' ∉ ('"' :: rest).take (measure '"' rest).2 := by
  have hmeasure : (measure '"' rest).2 = (stringLength 1 rest).2 := by
    simp only [measure]
    split <;> rename_i heq <;> rw [heq]
  obtain ⟨n, hlength, hline⟩ := exists_stringLength 1 rest
  rw [hmeasure, hlength, Nat.add_comm, List.take_succ_cons]
  exact List.not_mem_cons_of_ne_of_not_mem (by decide) hline

/-- A token does not reach the end of its line. -/
theorem unbroken_measure {c : Char} (h : c ≠ '\n') (rest : List Char) :
    '\n' ∉ (c :: rest).take (measure c rest).2 := by
  have hfirst : '\n' ∉ (c :: rest).take 1 := by simpa using Ne.symm h
  by_cases hquote : c = '"'
  · rw [hquote]
    exact unbroken_quote rest
  unfold measure
  split <;> try (first | exact hfirst | exact absurd rfl hquote | simp)
  split
  · exact unbroken_measureNumber ‹_› _
  · split
    · exact unbroken_measureWord _
    · exact hfirst

/-- No character begins the end of a source. -/
theorem measure_ne_eof (c : Char) (rest : List Char) : (measure c rest).1 ≠ .eof := by
  unfold measure
  split <;> try decide
  · split <;> simp
  · split
    · unfold measureNumber
      split <;> simp
    · split
      · exact measureWord_ne (by decide) _
      · decide

/-- A token and the layout in front of it. -/
structure Tile where
  /-- The layout. -/
  gap : String
  token : Token

/-- The piece of the source that a tile covers. -/
def Tile.text (t : Tile) : String := t.gap ++ t.token.lexeme

/-- The piece of the source that some tiles cover together. -/
def covered (tiles : List Tile) : String := String.join (tiles.map Tile.text)

namespace Cursor

/-- A place some text further on. -/
structure Behind (c : Cursor) (text : String) (c' : Cursor) : Prop where
  rest : c.rest = text.toList ++ c'.rest
  offset : c'.offset = c.offset + text.utf8ByteSize
  line : c'.line = c.line + text.toList.count '\n'

/-- The sizes of characters add up to the size of their text. -/
theorem foldl_utf8Size (cs : List Char) : ∀ offset : ℕ,
    cs.foldl (fun sum ch => sum + ch.utf8Size) offset
      = offset + (String.ofList cs).utf8ByteSize := by
  induction cs with
  | nil => exact fun offset => rfl
  | cons c cs ih =>
    intro offset
    rw [List.foldl_cons, ih, String.ofList_cons, String.utf8ByteSize_append,
      String.utf8ByteSize_singleton, Nat.add_assoc]

/-- Passing characters leads behind the text of them. -/
theorem behind_advance (c : Cursor) (n : ℕ) :
    c.Behind (String.ofList (c.rest.take n)) (c.advance n) where
  rest := by
    rw [String.toList_ofList]
    exact (List.take_append_drop n c.rest).symm
  offset := foldl_utf8Size _ _
  line := by
    rw [String.toList_ofList]
    rfl

/-- Behind one text and then another is behind both. -/
theorem Behind.trans {c c' c'' : Cursor} {text text' : String} (h : c.Behind text c')
    (h' : c'.Behind text' c'') : c.Behind (text ++ text') c'' where
  rest := by rw [String.toList_append, List.append_assoc, ← h'.rest, h.rest]
  offset := by rw [String.utf8ByteSize_append, h'.offset, h.offset, Nat.add_assoc]
  line := by rw [String.toList_append, List.count_append, h'.line, h.line, Nat.add_assoc]

/-- One call takes a tile off the source and answers its token. -/
structure Lays (c : Cursor) (t : Tile) (c' : Cursor) : Prop where
  next : c.next = (t.token, c')
  behind : c.Behind t.text c'
  gap : Layout false t.gap.toList
  kind : t.token.kind ≠ .eof
  nonempty : t.token.lexeme ≠ ""
  unbroken : '\n' ∉ t.token.lexeme.toList
  line : t.token.line = c.line + t.gap.toList.count '\n'

/-- There are no more tokens: a call takes the last layout off the source. -/
structure Closes (c : Cursor) (closing : String) (c' : Cursor) : Prop where
  next : c.next = (⟨.eof, "", c'.line⟩, c')
  behind : c.Behind closing c'
  layout : Layout true closing.toList
  rest : c'.rest = []

/-- At the end of the source its token is answered, and nothing is passed. -/
theorem take_of_nil {c : Cursor} (h : c.rest = []) : c.take = (⟨.eof, "", c.line⟩, c) := by
  rw [take, h]

/-- Elsewhere the token is as long as the characters in front measure. -/
theorem take_of_cons {c : Cursor} {ch : Char} {rest : List Char} (h : c.rest = ch :: rest) :
    c.take = (⟨(measure ch rest).1, String.ofList (c.rest.take (measure ch rest).2), c.line⟩,
      c.advance (measure ch rest).2) := by
  rw [take, h]

/-- One call takes a tile off the source, or what is left of it. -/
theorem next_cases (c : Cursor) :
    (∃ t c', c.Lays t c') ∨ ∃ closing c', c.Closes closing c' := by
  obtain ⟨hlayout, hstops⟩ := (skips_layoutLength c.rest).1
  let gap := String.ofList (c.rest.take (layoutLength false 0 c.rest))
  have hskip : c.Behind gap c.skipLayout := c.behind_advance _
  have hgap : gap.toList = c.rest.take (layoutLength false 0 c.rest) := String.toList_ofList
  have hrest : c.rest.drop (layoutLength false 0 c.rest) = c.skipLayout.rest := rfl
  rw [hrest] at hlayout hstops
  rw [← hgap] at hlayout
  cases hleft : c.skipLayout.rest with
  | nil =>
    rw [hleft] at hlayout
    exact .inr ⟨gap, c.skipLayout, take_of_nil hleft, hskip, hlayout, hleft⟩
  | cons ch rest =>
    rw [hleft] at hlayout hstops
    have hch : ch ≠ '\n' := by
      rintro rfl
      exact absurd (hstops '\n' rfl) (by decide)
    have hpos := measure_pos ch rest
    have hlexeme : (String.ofList (c.skipLayout.rest.take (measure ch rest).2)).toList
        = (ch :: rest).take (measure ch rest).2 := by
      rw [String.toList_ofList, hleft]
    refine .inl ⟨⟨gap, _⟩, _, take_of_cons hleft, hskip.trans (c.skipLayout.behind_advance _),
      hlayout, measure_ne_eof ch rest, ?_, ?_, hskip.line⟩
    · intro hempty
      have hnil := congrArg String.toList hempty
      dsimp only at hnil
      rw [hlexeme, String.toList_empty, List.take_eq_nil_iff] at hnil
      obtain hzero | hnil := hnil
      · omega
      · cases hnil
    · dsimp only
      rw [hlexeme]
      exact unbroken_measure hch rest

/-- A tile has at least one character. -/
theorem Lays.utf8ByteSize_pos {c c' : Cursor} {t : Tile} (h : c.Lays t c') :
    0 < t.text.utf8ByteSize := by
  have hsize : t.token.lexeme.utf8ByteSize ≠ 0 := fun hzero =>
    h.nonempty (String.utf8ByteSize_eq_zero_iff.1 hzero)
  rw [Tile.text, String.utf8ByteSize_append]
  omega

/-- A call takes characters off the source. -/
theorem Lays.length_lt {c c' : Cursor} {t : Tile} (h : c.Lays t c') :
    c'.rest.length < c.rest.length := by
  have hnonempty : t.text.toList ≠ [] := by
    rw [Tile.text, String.toList_append]
    exact List.append_ne_nil_of_right_ne_nil _ fun hnil =>
      h.nonempty (String.toList_eq_nil_iff.1 hnil)
  have hpos := List.length_pos_iff.2 hnonempty
  rw [h.behind.rest, List.length_append]
  omega

/-- Calls take these tiles off the source. -/
inductive Laid : Cursor → List Tile → Cursor → Prop
  | nil (c : Cursor) : Laid c [] c
  | cons {c c' c'' : Cursor} {t : Tile} {tiles : List Tile} (first : c.Lays t c')
    (rest : Laid c' tiles c'') : Laid c (t :: tiles) c''

/-- Calls take tiles off the source until only layout is left. -/
theorem exists_laid (c : Cursor) :
    ∃ tiles c' closing c'', Laid c tiles c' ∧ c'.Closes closing c'' := by
  induction hn : c.rest.length using Nat.strongRecOn generalizing c with
  | ind n ih =>
    subst hn
    obtain ⟨t, c₁, hlays⟩ | ⟨closing, c₁, hcloses⟩ := c.next_cases
    · obtain ⟨tiles, c', closing, c'', hlaid, hcloses⟩ := ih _ hlays.length_lt c₁ rfl
      exact ⟨t :: tiles, c', closing, c'', .cons hlays hlaid, hcloses⟩
    · exact ⟨[], c, closing, c₁, .nil c, hcloses⟩

/-- Every place is behind no text. -/
theorem Behind.refl (c : Cursor) : c.Behind "" c := ⟨rfl, rfl, rfl⟩

/-- Some calls lead behind the text that their tiles cover. -/
theorem Laid.behind {c c' : Cursor} {tiles : List Tile} (h : Laid c tiles c') :
    c.Behind (covered tiles) c' := by
  induction h with
  | nil c => exact Behind.refl c
  | cons first rest ih =>
    rw [covered, List.map_cons, String.join_cons]
    exact first.behind.trans ih

/-- The place that some calls come to. -/
def after (c : Cursor) : ℕ → Cursor
  | 0 => c
  | n + 1 => c.next.2.after n

/-- What a call answers that some calls precede. -/
def answer (c : Cursor) (n : ℕ) : Token := (c.after n).next.1

/-- Calls come to the same place in two parts. -/
theorem after_add (c : Cursor) (m n : ℕ) : c.after (m + n) = (c.after m).after n := by
  induction m generalizing c with
  | zero => rw [Nat.zero_add]; rfl
  | succ m ih =>
    rw [Nat.succ_add]
    exact ih c.next.2

/-- As many calls as there are tiles take just these tiles off. -/
theorem Laid.after {c c' : Cursor} {tiles : List Tile} (h : Laid c tiles c') :
    c.after tiles.length = c' := by
  induction h with
  | nil c => rfl
  | cons first rest ih =>
    rw [List.length_cons, Cursor.after, first.next]
    exact ih

/-- The first calls of some take the first tiles. -/
theorem Laid.take {c c' : Cursor} {tiles : List Tile} (h : Laid c tiles c') (n : ℕ)
    (hn : n ≤ tiles.length) : Laid c (tiles.take n) (c.after n) := by
  induction h generalizing n with
  | nil c =>
    obtain rfl := Nat.le_zero.1 hn
    exact .nil c
  | cons first rest ih =>
    cases n with
    | zero => exact .nil _
    | succ n =>
      rw [List.take_succ_cons, Cursor.after, first.next]
      exact .cons first (ih n (Nat.le_of_succ_le_succ hn))

/-- The call at a tile takes it off. -/
theorem Laid.lays {c c' : Cursor} {tiles : List Tile} (h : Laid c tiles c') {n : ℕ} {t : Tile}
    (ht : tiles[n]? = some t) : (c.after n).Lays t (c.after (n + 1)) := by
  induction h generalizing n with
  | nil c => cases ht
  | cons first rest ih =>
    cases n with
    | zero =>
      obtain rfl := Option.some.inj ht
      rw [Cursor.after, Cursor.after, first.next]
      exact first
    | succ n =>
      rw [Cursor.after, Cursor.after, first.next]
      exact ih ht

/-- Where nothing is left, calls answer the end and stay there. -/
theorem next_of_nil {c : Cursor} (h : c.rest = []) : c.next = (⟨.eof, "", c.line⟩, c) := by
  have hskip : c.skipLayout = c := by
    simp only [skipLayout, advance, h, layoutLength, List.take_nil, List.drop_nil, List.foldl_nil,
      List.count_nil, Nat.add_zero]
    rw [← h]
  rw [next, hskip]
  exact take_of_nil h

/-- At the end of a source calls stay where they are. -/
theorem after_of_nil {c : Cursor} (h : c.rest = []) (n : ℕ) : c.after n = c := by
  induction n with
  | zero => rfl
  | succ n ih => rw [after, next_of_nil h, ih]

end Cursor

namespace Stream

/-- What a stream answers after so many answers, unless it has come to its end. -/
def answer? (s : Stream) : ℕ → Option Token
  | 0 => s.next?.map Prod.fst
  | n + 1 => s.next?.bind fun (_, s') => s'.answer? n

/-- A stream answers the token of a tile and goes on behind it. -/
theorem next?_of_lays {c c' : Cursor} {t : Tile} (h : c.Lays t c') :
    (Stream.mk c false).next? = some (t.token, ⟨c', false⟩) := by
  have hkind : (t.token.kind == .eof) = false := beq_eq_false_iff_ne.2 h.kind
  rw [next?, if_neg Bool.false_ne_true]
  dsimp only
  rw [h.next, hkind]

/-- A stream answers the end of its source and has finished. -/
theorem next?_of_closes {c c' : Cursor} {closing : String} (h : c.Closes closing c') :
    (Stream.mk c false).next? = some (⟨.eof, "", c'.line⟩, ⟨c', true⟩) := by
  rw [next?, if_neg Bool.false_ne_true]
  dsimp only
  rw [h.next]
  rfl

/-- A stream collects the tokens of the tiles and then the one for the end. -/
theorem collect_of_laid {c c' c'' : Cursor} {tiles : List Tile} {closing : String}
    (h : Cursor.Laid c tiles c') (hcloses : c'.Closes closing c'') (tokens : Array Token) :
    ((Stream.mk c false).collect tokens).toList
      = tokens.toList ++ tiles.map Tile.token ++ [⟨.eof, "", c''.line⟩] := by
  induction h generalizing tokens with
  | nil c =>
    rw [collect]
    split
    · rename_i hnone
      rw [next?_of_closes hcloses] at hnone
      cases hnone
    · rename_i token s' hnext
      rw [next?_of_closes hcloses] at hnext
      cases hnext
      rw [collect_of_finished rfl, Array.toList_push, List.map_nil, List.append_nil]
  | cons first rest ih =>
    rw [collect]
    split
    · rename_i hnone
      rw [next?_of_lays first] at hnone
      cases hnone
    · rename_i token s' hnext
      rw [next?_of_lays first] at hnext
      cases hnext
      rw [ih hcloses, Array.toList_push, List.map_cons, List.append_assoc tokens.toList,
        List.singleton_append]

/-- One by one a stream answers the same tokens. -/
theorem answer?_of_laid {c c' c'' : Cursor} {tiles : List Tile} {closing : String}
    (h : Cursor.Laid c tiles c') (hcloses : c'.Closes closing c'') (n : ℕ) :
    (Stream.mk c false).answer? n = (tiles.map Tile.token ++ [⟨.eof, "", c''.line⟩])[n]? := by
  induction h generalizing n with
  | nil c =>
    cases n with
    | zero =>
      rw [answer?, next?_of_closes hcloses]
      rfl
    | succ n =>
      rw [answer?, next?_of_closes hcloses]
      cases n <;> rfl
  | cons first rest ih =>
    cases n with
    | zero =>
      rw [answer?, next?_of_lays first]
      rfl
    | succ n =>
      rw [answer?, next?_of_lays first]
      exact ih hcloses n

end Stream

/-- A source cut into tiles and the layout behind the last of them. -/
structure Tiling (source : String) (tiles : List Tile) (closing : String) : Prop where
  covers : source = covered tiles ++ closing
  gaps : ∀ t ∈ tiles, Layout false t.gap.toList
  closing : Layout true closing.toList
  kind : ∀ t ∈ tiles, t.token.kind ≠ .eof
  nonempty : ∀ t ∈ tiles, t.token.lexeme ≠ ""
  /-- A token stands on one line. -/
  unbroken : ∀ t ∈ tiles, '\n' ∉ t.token.lexeme.toList
  /-- The line ends in front of a token are counted. -/
  line : ∀ n t, tiles[n]? = some t →
    t.token.line = 1 + (covered (tiles.take n) ++ t.gap).toList.count '\n'

/-- The token for the end of a source. -/
def ending (source : String) : Token := ⟨.eof, "", 1 + source.toList.count '\n'⟩

/-- Calls on the beginning of a source answer the tokens of some tiles and from then on its end. -/
structure Answers (source : String) (tiles : List Tile) : Prop where
  answer : ∀ n, (Cursor.start source).answer n
    = (tiles.map Tile.token)[n]?.getD (ending source)
  /-- Each call moves behind its tile. -/
  offset : ∀ n ≤ tiles.length,
    ((Cursor.start source).after n).offset = (covered (tiles.take n)).utf8ByteSize
  /-- The call that first answers the end moves there, and further calls stay. -/
  finished : ∀ n, tiles.length < n →
    ((Cursor.start source).after n).offset = source.utf8ByteSize

namespace Cursor

/-- The tiles that all calls take off a source, and its last layout, cut it up. -/
theorem Laid.tiling {source : String} {tiles : List Tile} {c' c'' : Cursor} {closing : String}
    (h : Laid (start source) tiles c') (hcloses : c'.Closes closing c'') :
    Tiling source tiles closing := by
  have hlays : ∀ t ∈ tiles, ∃ c₁ c₂ : Cursor, c₁.Lays t c₂ := fun t ht => by
    obtain ⟨n, hn⟩ := List.getElem?_of_mem ht
    exact ⟨_, _, h.lays hn⟩
  have hbehind := h.behind.trans hcloses.behind
  refine ⟨?_, ?_, hcloses.layout, ?_, ?_, ?_, ?_⟩
  · refine String.toList_inj.1 ?_
    have hrest := hbehind.rest
    rw [hcloses.rest, List.append_nil] at hrest
    exact hrest
  · intro t ht
    obtain ⟨c₁, c₂, hlays⟩ := hlays t ht
    exact hlays.gap
  · intro t ht
    obtain ⟨c₁, c₂, hlays⟩ := hlays t ht
    exact hlays.kind
  · intro t ht
    obtain ⟨c₁, c₂, hlays⟩ := hlays t ht
    exact hlays.nonempty
  · intro t ht
    obtain ⟨c₁, c₂, hlays⟩ := hlays t ht
    exact hlays.unbroken
  · intro n t ht
    have hn : n ≤ tiles.length := Nat.le_of_lt (List.getElem?_eq_some_iff.1 ht).1
    have hline : ((start source).after n).line = 1 + (covered (tiles.take n)).toList.count '\n' :=
      (h.take n hn).behind.line
    rw [(h.lays ht).line, hline, String.toList_append, List.count_append, Nat.add_assoc]

/-- The tokens that calls answer are those of the tiles, and then the end. -/
theorem Laid.answers {source : String} {tiles : List Tile} {c' c'' : Cursor} {closing : String}
    (h : Laid (start source) tiles c') (hcloses : c'.Closes closing c'') :
    Answers source tiles := by
  have hcovers := (h.tiling hcloses).covers
  have hbehind := h.behind.trans hcloses.behind
  rw [← hcovers] at hbehind
  have hend : ∀ n, (start source).after (tiles.length + (n + 1)) = c'' := fun n => by
    rw [after_add, h.after, Cursor.after, hcloses.next]
    exact after_of_nil hcloses.rest n
  refine ⟨fun n => ?_, fun n hn => ?_, fun n hn => ?_⟩
  · cases ht : tiles[n]? with
    | some t =>
      rw [List.getElem?_map, ht]
      exact congrArg Prod.fst (h.lays ht).next
    | none =>
      rw [List.getElem?_map, ht]
      have hending : (⟨.eof, "", c''.line⟩ : Token) = ending source := by
        rw [hbehind.line]
        rfl
      obtain ⟨k, rfl⟩ := Nat.exists_eq_add_of_le (List.getElem?_eq_none_iff.1 ht)
      cases k with
      | zero =>
        rw [answer, Nat.add_zero, h.after, hcloses.next]
        exact hending
      | succ k =>
        rw [answer, hend, next_of_nil hcloses.rest]
        exact hending
  · rw [(h.take n hn).behind.offset]
    exact Nat.zero_add _
  · obtain ⟨k, rfl⟩ := Nat.exists_eq_add_of_lt hn
    rw [Nat.add_assoc, hend, hbehind.offset]
    exact Nat.zero_add _

/-- Every place that calls come to lies between two characters of the source. -/
theorem Laid.isValid_offset {source : String} {tiles : List Tile} {c' c'' : Cursor}
    {closing : String} (h : Laid (start source) tiles c') (hcloses : c'.Closes closing c'')
    (n : ℕ) : (⟨((start source).after n).offset⟩ : String.Pos.Raw).IsValid source := by
  have hanswers := h.answers hcloses
  by_cases hn : n ≤ tiles.length
  · have hsplit : covered tiles = covered (tiles.take n) ++ covered (tiles.drop n) := by
      conv => lhs; rw [← List.take_append_drop n tiles]
      simp only [covered, List.map_append, String.join_append]
    rw [hanswers.offset n hn]
    refine String.Pos.Raw.isValid_iff_exists_append.2
      ⟨covered (tiles.take n), covered (tiles.drop n) ++ closing, ?_, ?_⟩
    · rw [(h.tiling hcloses).covers, hsplit, String.append_assoc]
    · rfl
  · rw [hanswers.finished n (Nat.lt_of_not_le hn)]
    exact String.Pos.Raw.isValid_rawEndPos

/-- No more tiles come off a source than it has bytes. -/
theorem Laid.length_le {c c' : Cursor} {tiles : List Tile} (h : Laid c tiles c') :
    c.offset + tiles.length ≤ c'.offset := by
  induction h with
  | nil c => exact Nat.le_refl _
  | cons first rest ih =>
    have hpos := first.utf8ByteSize_pos
    have hoffset := first.behind.offset
    rw [List.length_cons]
    omega

end Cursor

/-- As many calls as there are tokens come to the end of the source. -/
theorem after_length_tokenize (source : String) :
    (Cursor.start source).after (tokenize source).length
      = ⟨[], source.utf8ByteSize, 1 + source.toList.count '\n'⟩ := by
  obtain ⟨tiles, c', closing, c'', hlaid, hcloses⟩ := (Cursor.start source).exists_laid
  have hbehind := hlaid.behind.trans hcloses.behind
  rw [← (hlaid.tiling hcloses).covers] at hbehind
  have hlength : (tokenize source).length = tiles.length + 1 := by
    rw [tokenize, Stream.ofSource, Stream.collect_of_laid hlaid hcloses]
    simp
  have hafter : (Cursor.start source).after (tokenize source).length = c'' := by
    rw [hlength, Cursor.after_add, hlaid.after, Cursor.after, hcloses.next]
    rfl
  have hoffset : c''.offset = source.utf8ByteSize := hbehind.offset.trans (Nat.zero_add _)
  have hline : c''.line = 1 + source.toList.count '\n' := hbehind.line
  rw [hafter, ← hcloses.rest, ← hoffset, ← hline]

/-- The tokens of a source tile it. Calls answer the token of one tile after the other, and from
then on the end of the source. The place moves on, from one character to another, with every token
that is not the end, so no more tokens come than the source has bytes. The list of all tokens, and
the stream of them, are those of the tiles and one more for the end. -/
theorem tokens_tile (source : String) : ∃ tiles closing,
    Tiling source tiles closing ∧ Answers source tiles ∧
    (∀ n, (⟨((Cursor.start source).after n).offset⟩ : String.Pos.Raw).IsValid source) ∧
    (∀ n, ((Cursor.start source).answer n).kind ≠ .eof →
      ((Cursor.start source).after n).offset < ((Cursor.start source).after (n + 1)).offset) ∧
    tiles.length ≤ source.utf8ByteSize ∧
    tokenize source = tiles.map Tile.token ++ [ending source] ∧
    ∀ n, (Stream.ofSource source).answer? n = (tokenize source)[n]? := by
  obtain ⟨tiles, c', closing, c'', hlaid, hcloses⟩ := (Cursor.start source).exists_laid
  have hanswers := hlaid.answers hcloses
  have hline : c''.line = 1 + source.toList.count '\n' := by
    rw [(hlaid.tiling hcloses).covers]
    exact (hlaid.behind.trans hcloses.behind).line
  have htokens : tokenize source = tiles.map Tile.token ++ [ending source] := by
    rw [tokenize, Stream.ofSource, Stream.collect_of_laid hlaid hcloses, hline]
    rfl
  refine ⟨tiles, closing, hlaid.tiling hcloses, hanswers, hlaid.isValid_offset hcloses,
    fun n hn => ?_, ?_, htokens, fun n => ?_⟩
  · cases ht : tiles[n]? with
    | some t =>
      have hlays := hlaid.lays ht
      rw [hlays.behind.offset]
      exact Nat.lt_add_of_pos_right hlays.utf8ByteSize_pos
    | none =>
      refine absurd ?_ hn
      rw [hanswers.answer, List.getElem?_map, ht]
      rfl
  · have hle := hlaid.length_le
    have hoffset := hanswers.offset tiles.length (Nat.le_refl _)
    rw [hlaid.after, List.take_length] at hoffset
    have hsize := congrArg String.utf8ByteSize (hlaid.tiling hcloses).covers
    rw [String.utf8ByteSize_append] at hsize
    omega
  · rw [htokens, Stream.ofSource, Stream.answer?_of_laid hlaid hcloses, hline]
    rfl

end EntityScript.Token
