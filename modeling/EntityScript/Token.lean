/-!
# Tokens of a script

The words of the script language and how diagnostics name them. A token keeps the text it was
read from, so a message can quote it, and the line it stands on.
-/

namespace EntityScript

/-- What a token is for. -/
inductive Token.Kind where
  | leftBrace | rightBrace | leftParen | rightParen | semicolon | comma | dot | colon
  | plus | minus | star | slash | equal | equalEqual | bang | bangEqual
  | greater | greaterEqual | less | lessEqual | andAnd | orOr
  | stateMachine | state | onEvent | fireEvent | changeState | ifWord | elseWord | varWord
  | trueWord | falseWord
  | number | vec2 | string | identifier
  /-- A character or an unfinished string that begins no token. -/
  | error
  /-- The end of the source. -/
  | eof
  deriving DecidableEq, Repr, Inhabited

/-- A word of the source with its place. -/
structure Token where
  /-- What the token is for. -/
  kind : Token.Kind
  /-- The characters it was read from. -/
  lexeme : String
  /-- The line it stands on, counted from 1. -/
  line : Nat
  deriving DecidableEq, Repr, Inhabited

namespace Token

namespace Kind

/-- The keyword that a word spells, if it spells one. -/
def keyword? : String → Option Kind
  | "StateMachine" => some stateMachine
  | "State" => some state
  | "OnEvent" => some onEvent
  | "FireEvent" => some fireEvent
  | "ChangeState" => some changeState
  | "if" => some ifWord
  | "else" => some elseWord
  | "var" => some varWord
  | "true" => some trueWord
  | "false" => some falseWord
  | _ => none

/-- Whether a token can only begin a statement or a declaration. Reading resumes at such a token
after a mistake. -/
def startsStatement : Kind → Bool
  | varWord | ifWord | fireEvent | changeState | onEvent | state | stateMachine => true
  | _ => false

/-- How a message names the kind: by its spelling where it has only one. -/
def describe : Kind → String
  | leftBrace => "\x7b"
  | rightBrace => "\x7d"
  | leftParen => "("
  | rightParen => ")"
  | semicolon => ";"
  | comma => ","
  | dot => "."
  | colon => ":"
  | plus => "+"
  | minus => "-"
  | star => "*"
  | slash => "/"
  | equal => "="
  | equalEqual => "=="
  | bang => "!"
  | bangEqual => "!="
  | greater => ">"
  | greaterEqual => ">="
  | less => "<"
  | lessEqual => "<="
  | andAnd => "&&"
  | orOr => "||"
  | stateMachine => "StateMachine"
  | state => "State"
  | onEvent => "OnEvent"
  | fireEvent => "FireEvent"
  | changeState => "ChangeState"
  | ifWord => "if"
  | elseWord => "else"
  | varWord => "var"
  | trueWord => "true"
  | falseWord => "false"
  | number => "number"
  | vec2 => "vec2"
  | string => "string"
  | identifier => "identifier"
  | error => "error"
  | eof => "end of file"

end Kind

/-- How a message names a token: by its text in quotes. -/
def describe (t : Token) : String :=
  match t.kind with
  | .eof => "end of file"
  | _ => s!"'{t.lexeme}'"

end Token

end EntityScript
