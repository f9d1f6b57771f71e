import EntityScript.Token
import EntityScript.Text.Column
import EntityScript.Text.Quoted

/-!
# Listing tokens for people

One line per token: its source line, the group its kind belongs to, and its text. A listing may
be coloured for a terminal, and it may show the text as it stands or in a quoted form together
with the exact kind.
-/

namespace EntityScript.Token

namespace Kind

/-- The name of a kind in a detailed listing. -/
def name : Kind → String
  | leftBrace => "LeftBrace"
  | rightBrace => "RightBrace"
  | leftParen => "LeftParen"
  | rightParen => "RightParen"
  | semicolon => "Semicolon"
  | comma => "Comma"
  | dot => "Dot"
  | colon => "Colon"
  | plus => "Plus"
  | minus => "Minus"
  | star => "Star"
  | slash => "Slash"
  | equal => "Equal"
  | equalEqual => "EqualEqual"
  | bang => "Bang"
  | bangEqual => "BangEqual"
  | greater => "Greater"
  | greaterEqual => "GreaterEqual"
  | less => "Less"
  | lessEqual => "LessEqual"
  | andAnd => "AndAnd"
  | orOr => "OrOr"
  | stateMachine => "StateMachine"
  | state => "State"
  | onEvent => "OnEvent"
  | fireEvent => "FireEvent"
  | changeState => "ChangeState"
  | ifWord => "If"
  | elseWord => "Else"
  | varWord => "Var"
  | trueWord => "True"
  | falseWord => "False"
  | number => "Number"
  | vec2 => "Vec2"
  | string => "String"
  | identifier => "Identifier"
  | error => "Error"
  | eof => "Eof"

/-- The groups of kinds that a listing tells apart. -/
inductive Group where
  | finish | mistake | literal | text | name | punctuation | operator | comparison | keyword
  deriving DecidableEq, Repr

/-- The group a kind belongs to. -/
def group : Kind → Group
  | eof => .finish
  | error => .mistake
  | number | vec2 | trueWord | falseWord => .literal
  | string => .text
  | identifier => .name
  | leftBrace | rightBrace | leftParen | rightParen | semicolon | comma | dot | colon =>
    .punctuation
  | plus | minus | star | slash | bang | andAnd | orOr | equal => .operator
  | equalEqual | bangEqual | greater | greaterEqual | less | lessEqual => .comparison
  | stateMachine | state | onEvent | fireEvent | changeState | ifWord | elseWord | varWord =>
    .keyword

/-- The label of a group. -/
def Group.label : Group → String
  | finish => "EOF"
  | mistake => "ERROR"
  | literal => "LITERAL"
  | text => "STRING"
  | name => "IDENT"
  | punctuation => "PUNCT"
  | operator => "OP"
  | comparison => "CMP"
  | keyword => "KEYWORD"

/-- The terminal sequence that ends a colour. -/
def plainColour : String := "\x1b[0m"

/-- The terminal sequence that begins the colour of a group. -/
def Group.colour : Group → String
  | finish => "\x1b[2m"
  | mistake => "\x1b[31m"
  | literal => "\x1b[36m"
  | text => "\x1b[32m"
  | name => "\x1b[33m"
  | operator | comparison => "\x1b[35m"
  | punctuation | keyword => plainColour

end Kind

/-- How tokens are listed. -/
structure Style where
  /-- Whether each group has its colour. -/
  coloured : Bool := true
  /-- Whether a line shows the exact kind and the quoted text instead of the text alone. -/
  detailed : Bool := true
  deriving DecidableEq, Repr

/-- What a line shows behind the group of a token. -/
def Style.detail (style : Style) (t : Token) : String :=
  if style.detailed then " " ++ t.kind.name ++ " " ++ Text.quoted t.lexeme
  else if t.kind = .eof then ""
  else " " ++ t.lexeme

/-- The line of a token in a listing. -/
def Style.line (style : Style) (t : Token) : String :=
  let group := t.kind.group
  "[" ++ Text.zeroPadded 3 t.line ++ "] "
    ++ (if style.coloured then group.colour else "")
    ++ Text.padRight 8 group.label
    ++ style.detail t
    ++ (if style.coloured then Kind.plainColour else "")

end EntityScript.Token
