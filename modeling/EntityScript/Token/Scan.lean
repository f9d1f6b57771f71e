import EntityScript.Token

/-!
# Reading tokens from a source

Every token is a run of characters of the source, and what stands between two tokens is layout:
spaces, tabs, line ends and comments that begin with `//`. A cursor keeps what is left of the
source. Each step only decides how many characters belong together (`layoutLength` and
`measure`) and leaves moving on to `Cursor.advance`, so nothing is skipped or read twice.

A step never fails. A character that begins no token, and a string that the line or the source
ends too early, become tokens of the kind `error`, and reading goes on behind them.
-/

namespace EntityScript.Token

/-- Whether a character only separates tokens. -/
def isBlank (c : Char) : Bool :=
  c == ' ' || c == '\t' || c == '\r' || c == '\n'

/-- Whether a character may begin a word. -/
def startsWord (c : Char) : Bool := c.isAlpha || c == '_'

/-- Whether a character may stand inside a word. -/
def continuesWord (c : Char) : Bool := c.isAlphanum || c == '_'

/-- Counts the leading layout characters, on top of `count`. Inside a comment everything up to the
end of the line is layout. -/
def layoutLength (inComment : Bool) (count : Nat) : List Char → Nat
  | [] => count
  | c :: rest =>
    if inComment then layoutLength (c != '\n') (count + 1) rest
    else if isBlank c then layoutLength false (count + 1) rest
    else if c == '/' && rest.head? == some '/' then layoutLength true (count + 1) rest
    else count

/-- Counts, on top of `count`, the characters of a string up to its closing quote, and tells
whether there is one. A backslash takes the next character of the line with it. -/
def stringLength (count : Nat) : List Char → Bool × Nat
  | [] => (false, count)
  | '"' :: _ => (true, count + 1)
  | '\n' :: _ => (false, count)
  | '\\' :: c :: rest => if c = '\n' then (false, count + 1) else stringLength (count + 2) rest
  | _ :: rest => stringLength (count + 1) rest

/-- How many digits a text begins with. -/
def digitsLength (cs : List Char) : Nat := (cs.takeWhile Char.isDigit).length

/-- How many characters at the front are a point with digits behind it. -/
def fractionLength : List Char → Nat
  | '.' :: d :: rest => if d.isDigit then 1 + digitsLength (d :: rest) else 0
  | _ => 0

/-- How many characters at the front are digits, with a fraction or without. -/
def decimalLength (cs : List Char) : Nat :=
  digitsLength cs + fractionLength (cs.drop (digitsLength cs))

/-- How many characters at the front are a comma with the second number of a vector directly
behind it, or 0. -/
def secondLength : List Char → Nat
  | ',' :: '-' :: d :: rest => if d.isDigit then 2 + decimalLength (d :: rest) else 0
  | ',' :: d :: rest => if d.isDigit then 1 + decimalLength (d :: rest) else 0
  | _ => 0

/-- The kind and length of the number or vector at the front. -/
def measureNumber (cs : List Char) : Kind × Nat :=
  match secondLength (cs.drop (decimalLength cs)) with
  | 0 => (.number, decimalLength cs)
  | n + 1 => (.vec2, decimalLength cs + (n + 1))

/-- The kind and length of the word at the front. -/
def measureWord (cs : List Char) : Kind × Nat :=
  let word := cs.takeWhile continuesWord
  ((Kind.keyword? (String.ofList word)).getD .identifier, word.length)

/-- The kind and length of the token at the front of a text that begins with `c`. -/
def measure (c : Char) (rest : List Char) : Kind × Nat :=
  match c, rest with
  | '{', _ => (.leftBrace, 1)
  | '}', _ => (.rightBrace, 1)
  | '(', _ => (.leftParen, 1)
  | ')', _ => (.rightParen, 1)
  | ';', _ => (.semicolon, 1)
  | ',', _ => (.comma, 1)
  | '.', _ => (.dot, 1)
  | ':', _ => (.colon, 1)
  | '+', _ => (.plus, 1)
  | '-', _ => (.minus, 1)
  | '*', _ => (.star, 1)
  | '/', _ => (.slash, 1)
  | '=', '=' :: _ => (.equalEqual, 2)
  | '=', _ => (.equal, 1)
  | '!', '=' :: _ => (.bangEqual, 2)
  | '!', _ => (.bang, 1)
  | '>', '=' :: _ => (.greaterEqual, 2)
  | '>', _ => (.greater, 1)
  | '<', '=' :: _ => (.lessEqual, 2)
  | '<', _ => (.less, 1)
  | '&', '&' :: _ => (.andAnd, 2)
  | '|', '|' :: _ => (.orOr, 2)
  | '"', rest =>
    match stringLength 1 rest with
    | (true, n) => (.string, n)
    | (false, n) => (.error, n)
  | c, rest =>
    if c.isDigit then measureNumber (c :: rest)
    else if startsWord c then measureWord (c :: rest)
    else (.error, 1)

/-- A place in a source: what is left to read, and where that begins. -/
structure Cursor where
  /-- The characters not read yet. -/
  rest : List Char
  /-- How many bytes were read. -/
  offset : Nat
  /-- The line of the next character, counted from 1. -/
  line : Nat
  deriving Repr, DecidableEq

namespace Cursor

/-- The beginning of a source. -/
def start (source : String) : Cursor := ⟨source.toList, 0, 1⟩

/-- Moves behind the next `n` characters. -/
def advance (c : Cursor) (n : Nat) : Cursor where
  rest := c.rest.drop n
  offset := (c.rest.take n).foldl (fun sum ch => sum + ch.utf8Size) c.offset
  line := c.line + (c.rest.take n).count '\n'

/-- Moves to the next token or the end of the source. -/
def skipLayout (c : Cursor) : Cursor := c.advance (layoutLength false 0 c.rest)

/-- The token at a place that no layout precedes, and the place behind it. -/
def take (c : Cursor) : Token × Cursor :=
  match c.rest with
  | [] => (⟨.eof, "", c.line⟩, c)
  | ch :: rest =>
    let (kind, n) := measure ch rest
    (⟨kind, String.ofList (c.rest.take n), c.line⟩, c.advance n)

/-- The next token and the place behind it. At the end of the source every further call answers
the same token. -/
def next (c : Cursor) : Token × Cursor := c.skipLayout.take

end Cursor

/-- Scanning a string counts on from where it begins. -/
theorem stringLength_ge (count : Nat) (cs : List Char) : count ≤ (stringLength count cs).2 := by
  fun_induction stringLength count cs <;> grind

/-- A number has at least its first digit. -/
theorem measureNumber_pos {c : Char} (h : c.isDigit = true) (rest : List Char) :
    0 < (measureNumber (c :: rest)).2 := by
  have : 0 < decimalLength (c :: rest) := by
    have : 0 < digitsLength (c :: rest) := by simp [digitsLength, h]
    exact Nat.lt_of_lt_of_le this (Nat.le_add_right _ _)
  unfold measureNumber
  split
  · exact this
  · exact Nat.lt_of_lt_of_le this (Nat.le_add_right _ _)

/-- A word has at least its first character. -/
theorem measureWord_pos {c : Char} (h : startsWord c = true) (rest : List Char) :
    0 < (measureWord (c :: rest)).2 := by
  have : continuesWord c = true := by
    simp only [startsWord, continuesWord, Char.isAlphanum, Bool.or_eq_true] at h ⊢
    rcases h with h | h
    · exact .inl (.inl h)
    · exact .inr h
  simp [measureWord, this]

/-- A token has at least one character. -/
theorem measure_pos (c : Char) (rest : List Char) : 0 < (measure c rest).2 := by
  unfold measure
  split <;> try simp
  · have := stringLength_ge 1 rest
    split <;> grind
  · split
    · exact measureNumber_pos ‹_› _
    · split
      · exact measureWord_pos ‹_› _
      · simp

namespace Cursor

/-- Advancing takes so many characters off what remains. -/
theorem length_rest_advance (c : Cursor) (n : Nat) :
    (c.advance n).rest.length = c.rest.length - n := by
  simp [advance]

/-- What is left after a token is shorter, except at the end of the source. -/
theorem length_rest_next_lt {c : Cursor} (h : c.next.1.kind ≠ .eof) :
    c.next.2.rest.length < c.rest.length := by
  unfold next take at h ⊢
  have hskip : c.skipLayout.rest.length ≤ c.rest.length := by
    simp [skipLayout, length_rest_advance]
  cases hrest : c.skipLayout.rest with
  | nil => simp [hrest] at h
  | cons ch rest =>
    have hpos := measure_pos ch rest
    rw [hrest] at hskip
    simp only [length_rest_advance, hrest, List.length_cons] at hskip ⊢
    omega

end Cursor

/-- The tokens of a source one at a time, ending with one token for its end. -/
structure Stream where
  /-- The place of the next token. -/
  cursor : Cursor
  /-- Whether the end of the source was answered already. -/
  finished : Bool

namespace Stream

/-- All tokens of a source. -/
def ofSource (source : String) : Stream := ⟨.start source, false⟩

/-- The next token, until the end of the source was answered once. -/
def next? (s : Stream) : Option (Token × Stream) :=
  if s.finished then none
  else
    let (token, cursor) := s.cursor.next
    some (token, ⟨cursor, token.kind == .eof⟩)

/-- How far a stream is from its end. -/
def left (s : Stream) : Nat := if s.finished then 0 else s.cursor.rest.length + 1

/-- Every token that a stream answers brings it closer to its end. -/
theorem left_next?_lt {s s' : Stream} {token : Token} (h : s.next? = some (token, s')) :
    s'.left < s.left := by
  unfold next? at h
  split at h
  · simp at h
  · rename_i hfin
    simp only [Option.some.injEq, Prod.mk.injEq] at h
    obtain ⟨-, rfl⟩ := h
    by_cases heof : s.cursor.next.1.kind = .eof
    · simp [left, heof, hfin]
    · have := Cursor.length_rest_next_lt heof
      simp [left, heof, hfin]
      omega

/-- Adds the remaining tokens to those collected. -/
def collect (s : Stream) (tokens : Array Token) : Array Token :=
  match h : s.next? with
  | none => tokens
  | some (token, s') =>
    have := left_next?_lt h
    s'.collect (tokens.push token)
termination_by s.left

end Stream

/-- The tokens of a source, the last of them the one for its end. -/
def tokenize (source : String) : List Token := ((Stream.ofSource source).collect #[]).toList

end EntityScript.Token
