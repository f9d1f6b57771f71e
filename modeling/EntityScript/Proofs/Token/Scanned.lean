import EntityScript.Compile.Literal
import EntityScript.Token.Scan
import Mathlib.Data.Nat.Notation

/-!
# What tokenizing a source answers

The tokens of a source end with the one for its end, which comes nowhere else. Each of the others
was measured off the source, so the text of a number token is a numeral and that of a vector
token is two of them around a comma. Such texts always stand for a value: of all literals
only strings can be wrong.
-/

namespace EntityScript.Token

open Compile

/-- Digits, or digits on both sides of a point. -/
inductive Numeral : List Char → Prop where
  | whole {w : List Char} (digits : ∀ c ∈ w, c.isDigit = true) (nonempty : w ≠ []) : Numeral w
  | decimal {w f : List Char} (digits : ∀ c ∈ w, c.isDigit = true) (nonempty : w ≠ [])
      (fraction : ∀ c ∈ f, c.isDigit = true) (places : f ≠ []) : Numeral (w ++ '.' :: f)

/-- The characters of a kind in front are taken up to one that is not. -/
theorem takeWhile_of_all {p : Char → Bool} {w r : List Char} (hw : ∀ c ∈ w, p c = true)
    (hrest : ∀ c, r.head? = some c → p c = false) : (w ++ r).takeWhile p = w := by
  rw [List.takeWhile_append_of_pos hw]
  cases r with
  | nil => simp
  | cons c r => simp [hrest c rfl]

/-- The characters of a kind in front are dropped up to one that is not. -/
theorem dropWhile_of_all {p : Char → Bool} {w r : List Char} (hw : ∀ c ∈ w, p c = true)
    (hrest : ∀ c, r.head? = some c → p c = false) : (w ++ r).dropWhile p = r := by
  rw [List.dropWhile_append_of_pos hw]
  cases r with
  | nil => simp
  | cons c r => simp [hrest c rfl]

/-- Digits alone are read as a whole number. -/
theorem read?_whole {w : List Char} (digits : ∀ c ∈ w, c.isDigit = true) (nonempty : w ≠ []) :
    Decimal.read? w = some ⟨Decimal.whole w, 0⟩ := by
  have htake := takeWhile_of_all (r := []) digits (by simp)
  have hdrop := dropWhile_of_all (r := []) digits (by simp)
  rw [List.append_nil] at htake hdrop
  simp [Decimal.read?, htake, hdrop, nonempty, Decimal.readExponent]

/-- Digits around a point are read with as many places as stand behind it. -/
theorem read?_point {w f : List Char} (digits : ∀ c ∈ w, c.isDigit = true) (nonempty : w ≠ [])
    (fraction : ∀ c ∈ f, c.isDigit = true) :
    Decimal.read? (w ++ '.' :: f) = some ⟨Decimal.whole (w ++ f), -f.length⟩ := by
  have hpoint : ∀ c, ('.' :: f).head? = some c → c.isDigit = false := by
    rintro c hc
    cases hc
    rfl
  have htake := takeWhile_of_all digits hpoint
  have hdrop := dropWhile_of_all digits hpoint
  have htake' := takeWhile_of_all (r := []) fraction (by simp)
  have hdrop' := dropWhile_of_all (r := []) fraction (by simp)
  rw [List.append_nil] at htake' hdrop'
  simp [Decimal.read?, htake, hdrop, htake', hdrop', nonempty, Decimal.readExponent]

/-- A numeral is read as a decimal. -/
theorem Numeral.read? {cs : List Char} (h : Numeral cs) : (Decimal.read? cs).isSome = true := by
  cases h with
  | whole digits nonempty => rw [read?_whole digits nonempty, Option.isSome_some]
  | decimal digits nonempty fraction _ =>
    rw [read?_point digits nonempty fraction, Option.isSome_some]

/-- A numeral is read as a number. -/
theorem Numeral.readPattern {cs : List Char} (h : Numeral cs) :
    (Number.readPattern cs).isSome = true := by
  unfold Number.readPattern
  dsimp only
  split
  · rfl
  · split
    · rfl
    · simpa using h.read?

/-- A numeral begins with a digit. -/
theorem Numeral.exists_cons {cs : List Char} (h : Numeral cs) :
    ∃ c rest, cs = c :: rest ∧ c.isDigit = true := by
  cases h with
  | @whole w digits nonempty =>
    obtain ⟨c, rest, rfl⟩ := List.exists_cons_of_ne_nil nonempty
    exact ⟨c, rest, rfl, digits c List.mem_cons_self⟩
  | @decimal w f digits nonempty _ _ =>
    obtain ⟨c, rest, rfl⟩ := List.exists_cons_of_ne_nil nonempty
    exact ⟨c, rest ++ '.' :: f, rfl, digits c List.mem_cons_self⟩

/-- There is no comma in a numeral. -/
theorem Numeral.comma_not_mem {cs : List Char} (h : Numeral cs) : ∀ c ∈ cs, c ≠ ',' := by
  rintro _ hc rfl
  cases h with
  | whole digits _ => exact absurd (digits _ hc) (by decide)
  | decimal digits _ fraction _ =>
    rcases List.mem_append.1 hc with hc | hc
    · exact absurd (digits _ hc) (by decide)
    · rcases List.mem_cons.1 hc with hc | hc
      · exact absurd hc (by decide)
      · exact absurd (fraction _ hc) (by decide)

/-- A numeral stands for a number, also behind a minus sign. -/
theorem Numeral.number {cs : List Char} (h : Numeral cs) :
    (Number.read? (String.ofList cs)).isSome = true ∧
      (Number.read? (String.ofList ('-' :: cs))).isSome = true := by
  constructor
  · obtain ⟨c, rest, rfl, hc⟩ := h.exists_cons
    unfold Number.read?
    rw [String.toList_ofList]
    split
    · rename_i heq
      cases heq
      exact absurd hc (by decide)
    · rename_i heq
      cases heq
      exact absurd hc (by decide)
    · simpa using h.readPattern
  · unfold Number.read?
    rw [String.toList_ofList]
    simpa using h.readPattern

/-- As many digits stand in front as are counted. -/
theorem take_digitsLength (cs : List Char) :
    cs.take (digitsLength cs) = cs.takeWhile Char.isDigit := by
  unfold digitsLength
  conv => lhs; arg 2; rw [← List.takeWhile_append_dropWhile (p := Char.isDigit) (l := cs)]
  exact List.take_left

/-- What is taken as long as something holds has it. -/
theorem mem_takeWhile {p : Char → Bool} {cs : List Char} {c : Char} (h : c ∈ cs.takeWhile p) :
    p c = true :=
  List.all_eq_true.1 List.all_takeWhile c h

/-- A digit in front begins some digits and nothing else. -/
theorem digitsLength_digits {c : Char} (h : c.isDigit = true) (rest : List Char) :
    (∀ d ∈ (c :: rest).take (digitsLength (c :: rest)), d.isDigit = true) ∧
      (c :: rest).take (digitsLength (c :: rest)) ≠ [] := by
  rw [take_digitsLength]
  exact ⟨fun d hd => mem_takeWhile hd, by simp [h]⟩

/-- What is measured off as a number is a numeral. -/
theorem numeral_take {c : Char} (h : c.isDigit = true) (rest : List Char) :
    Numeral ((c :: rest).take (decimalLength (c :: rest))) := by
  obtain ⟨hdigits, hsome⟩ := digitsLength_digits h rest
  unfold decimalLength
  rw [List.take_add]
  unfold fractionLength
  split
  · rename_i d fraction heq
    split
    · rename_i hd
      obtain ⟨hfraction, hany⟩ := digitsLength_digits hd fraction
      rw [heq, Nat.add_comm 1, List.take_succ_cons]
      exact .decimal hdigits hsome hfraction hany
    · simpa using Numeral.whole hdigits hsome
  · simpa using Numeral.whole hdigits hsome

/-- What is measured off behind the first number of a vector. -/
theorem second_take {cs : List Char} {n : ℕ} (h : secondLength cs = n + 1) :
    ∃ y, Numeral y ∧ (cs.take (n + 1) = ',' :: y ∨ cs.take (n + 1) = ',' :: '-' :: y) := by
  unfold secondLength at h
  split at h
  · rename_i d rest
    split at h
    · rename_i hd
      refine ⟨_, numeral_take hd rest, .inr ?_⟩
      rw [← h, Nat.add_comm 2]
      rfl
    · cases h
  · rename_i d rest _
    split at h
    · rename_i hd
      refine ⟨_, numeral_take hd rest, .inl ?_⟩
      rw [← h, Nat.add_comm 1]
      rfl
    · cases h
  · cases h

/-- A number token has the text of a numeral, and a vector token that of two of them around a comma,
the second perhaps behind a minus sign. -/
theorem measureNumber_take {c : Char} (h : c.isDigit = true) (rest : List Char) :
    (measureNumber (c :: rest)).1 = .number ∧
        Numeral ((c :: rest).take (measureNumber (c :: rest)).2) ∨
      (measureNumber (c :: rest)).1 = .vec2 ∧ ∃ x y, Numeral x ∧ Numeral y ∧
        ((c :: rest).take (measureNumber (c :: rest)).2 = x ++ ',' :: y ∨
          (c :: rest).take (measureNumber (c :: rest)).2 = x ++ ',' :: '-' :: y) := by
  unfold measureNumber
  split
  · exact .inl ⟨rfl, numeral_take h rest⟩
  · rename_i n hn
    obtain ⟨y, hy, hsecond⟩ := second_take hn
    refine .inr ⟨rfl, _, y, numeral_take h rest, hy, ?_⟩
    dsimp only
    rw [List.take_add]
    exact hsecond.imp (fun h => by rw [h]) (fun h => by rw [h])

/-- A numeral reads as a number. -/
theorem Numeral.readNumber {cs : List Char} (h : Numeral cs) :
    ∃ v, readNumber (String.ofList cs) = .ok v := by
  obtain ⟨n, hn⟩ := Option.isSome_iff_exists.1 h.number.1
  exact ⟨.number n, by simp [Compile.readNumber, hn]⟩

/-- A vector is read on both sides of its first comma. -/
theorem readVector_eq {x y : List Char} {n m : Number} (hcomma : ∀ c ∈ x, c ≠ ',')
    (hx : Number.read? (String.ofList x) = some n) (hy : Number.read? (String.ofList y) = some m) :
    readVector (String.ofList (x ++ ',' :: y)) = .ok (n, m) := by
  have hfirst : ∀ c ∈ x, decide (c ≠ ',') = true := fun c hc => decide_eq_true (hcomma c hc)
  have hhead : ∀ c, (',' :: y).head? = some c → decide (c ≠ ',') = false := by
    rintro _ hc
    cases hc
    rfl
  unfold readVector
  dsimp only
  rw [String.toList_ofList, takeWhile_of_all hfirst hhead, dropWhile_of_all hfirst hhead]
  simp only [hx, hy]

/-- Two numerals with a comma between them read as a vector, the second one negative or not. -/
theorem Numeral.readVector {x y cs : List Char} (hx : Numeral x) (hy : Numeral y)
    (h : cs = x ++ ',' :: y ∨ cs = x ++ ',' :: '-' :: y) :
    ∃ v, readVector (String.ofList cs) = .ok v := by
  obtain ⟨n, hn⟩ := Option.isSome_iff_exists.1 hx.number.1
  rcases h with rfl | rfl
  · obtain ⟨m, hm⟩ := Option.isSome_iff_exists.1 hy.number.1
    exact ⟨(n, m), readVector_eq hx.comma_not_mem hn hm⟩
  · obtain ⟨m, hm⟩ := Option.isSome_iff_exists.1 hy.number.2
    exact ⟨(n, m), readVector_eq hx.comma_not_mem hn hm⟩

/-- The text of a number or vector token stands for a value. -/
def Readable (t : Token) : Prop :=
  (t.kind = .number → ∃ v, readNumber t.lexeme = .ok v) ∧
    (t.kind = .vec2 → ∃ v, readVector t.lexeme = .ok v)

/-- The kinds of words: names, and the words that are reserved. -/
def wordKinds : List Kind :=
  [.identifier, .stateMachine, .state, .onEvent, .fireEvent, .changeState, .ifWord, .elseWord,
    .varWord, .trueWord, .falseWord]

/-- A word has no other kind. -/
theorem measureWord_ne {kind : Kind} (hkind : kind ∉ wordKinds) (cs : List Char) :
    (measureWord cs).1 ≠ kind := by
  rintro rfl
  refine hkind ?_
  unfold measureWord
  dsimp only
  cases h : Kind.keyword? (String.ofList (cs.takeWhile continuesWord)) with
  | none => decide
  | some kind =>
    unfold Kind.keyword? at h
    split at h <;> cases h <;> decide

/-- A digit begins a number or a vector. -/
theorem measure_of_isDigit {c : Char} (h : c.isDigit = true) (rest : List Char) :
    measure c rest = measureNumber (c :: rest) := by
  unfold measure
  split <;> first | exact absurd h (by decide) | rw [if_pos h]

/-- Only digits begin numbers and vectors. -/
theorem measure_of_not_isDigit {c : Char} (h : ¬ c.isDigit = true) (rest : List Char) :
    (measure c rest).1 ≠ .number ∧ (measure c rest).1 ≠ .vec2 := by
  unfold measure
  split <;> try decide
  · split <;> exact ⟨by simp, by simp⟩
  · rw [if_neg h]
    split
    · exact ⟨measureWord_ne (by decide) _, measureWord_ne (by decide) _⟩
    · decide

namespace Cursor

/-- Every token that is taken off a source is readable. -/
theorem readable_take (c : Cursor) : c.take.1.Readable := by
  unfold take
  split
  · exact ⟨nofun, nofun⟩
  · rename_i ch rest hrest
    rw [hrest]
    unfold Token.Readable
    dsimp only
    by_cases hd : ch.isDigit = true
    · rw [measure_of_isDigit hd]
      rcases measureNumber_take hd rest with ⟨hkind, hnumeral⟩ | ⟨hkind, x, y, hx, hy, htext⟩
      · exact ⟨fun _ => hnumeral.readNumber, fun h => by rw [hkind] at h; cases h⟩
      · exact ⟨fun h => (by rw [hkind] at h; cases h), fun _ => hx.readVector hy htext⟩
    · obtain ⟨hnumber, hvector⟩ := measure_of_not_isDigit hd rest
      exact ⟨fun h => absurd h hnumber, fun h => absurd h hvector⟩

end Cursor

namespace Stream

/-- A stream that has finished answers no more tokens. -/
theorem collect_of_finished {s : Stream} (h : s.finished = true) (tokens : Array Token) :
    s.collect tokens = tokens := by
  have hnext : s.next? = none := by simp [next?, h]
  rw [collect]
  split
  · rfl
  · rename_i heq
    rw [hnext] at heq
    cases heq

/-- The tokens that a stream still has to answer. -/
theorem collect_eq {s : Stream} (h : s.finished = false) (tokens : Array Token) :
    ∃ front last, (s.collect tokens).toList = tokens.toList ++ front ++ [last] ∧ last.kind = .eof ∧
      ∀ t ∈ front, t.kind ≠ .eof ∧ t.Readable := by
  fun_induction collect s tokens with
  | case1 s tokens hnext => simp [next?, h] at hnext
  | case2 s tokens token s' hnext _ ih =>
    simp only [next?, h, Bool.false_eq_true, if_false, Option.some.injEq, Prod.mk.injEq] at hnext
    obtain ⟨rfl, rfl⟩ := hnext
    by_cases heof : s.cursor.next.1.kind = .eof
    · refine ⟨[], s.cursor.next.1, ?_, heof, by simp⟩
      rw [collect_of_finished (by simpa using heof)]
      simp
    · obtain ⟨front, last, heq, hlast, hfront⟩ := ih (by simpa using heof)
      refine ⟨s.cursor.next.1 :: front, last, by simp [heq], hlast, ?_⟩
      intro t ht
      rcases List.mem_cons.1 ht with rfl | ht
      · exact ⟨heof, s.cursor.skipLayout.readable_take⟩
      · exact hfront t ht

end Stream

/-- The tokens of a source end with the one for its end, and only with that one. -/
theorem tokenize_eq (source : String) : ∃ front last, tokenize source = front ++ [last] ∧
    last.kind = .eof ∧ ∀ t ∈ front, t.kind ≠ .eof ∧ t.Readable := by
  obtain ⟨front, last, heq, h⟩ := Stream.collect_eq (s := .ofSource source) rfl #[]
  exact ⟨front, last, by simpa [tokenize] using heq, h⟩

/-- The tokens of a source without the one for its end. -/
def words (source : String) : List Token := (tokenize source).dropLast

/-- No word of a source is its end, and its numbers and vectors can be read. -/
theorem mem_words {source : String} {t : Token} (h : t ∈ words source) :
    t.kind ≠ .eof ∧ t.Readable := by
  obtain ⟨front, last, heq, -, hfront⟩ := tokenize_eq source
  rw [words, heq, List.dropLast_concat] at h
  exact hfront t h

/-- Only the token for the end is left out. -/
theorem mem_words_of_ne {source : String} {t : Token} (h : t ∈ tokenize source)
    (hkind : t.kind ≠ .eof) : t ∈ words source := by
  obtain ⟨front, last, heq, hlast, -⟩ := tokenize_eq source
  rw [heq] at h
  rw [words, heq, List.dropLast_concat]
  obtain h | h := List.mem_append.1 h
  · exact h
  · obtain rfl := List.mem_singleton.1 h
    exact absurd hlast hkind

end EntityScript.Token
