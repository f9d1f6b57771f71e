import EntityScript.Token
import EntityScript.Value

/-!
# What can be wrong with a source

Every problem that compiling finds, with its wording. A problem is a cause; the line it is
reported at and the listing of all problems of a file come on top of it. A source with any
problem compiles to nothing.
-/

namespace EntityScript.Compile

/-- What the grammar calls for at a place where something else stands. -/
inductive Wanted where
  | declaration | anyState
  | machineBrace | stateInMachine | machineEnd
  | stateName | stateBrace | handlerOrEnd | stateEnd
  | eventName | eventBrace | blockEnd
  | variableName | typeName | variableEnd
  | conditionBrace | elseBrace
  | firedEventName | argumentValue | targetOrArgument | fireClose | fireEnd
  | targetStateName | changeClose | changeEnd
  | expression | expressionEnd | groupClose
  | componentName | argsDot | argumentName
  deriving DecidableEq, Repr

/-- How a message says what is called for. -/
def Wanted.message : Wanted → String
  | declaration => "expected 'State' or 'StateMachine'"
  | anyState => "script declares no states"
  | machineBrace => "expected '\x7b' after 'StateMachine'"
  | stateInMachine => "expected 'State' in StateMachine body"
  | machineEnd => "expected '\x7d' to close StateMachine"
  | stateName => "expected state name after 'State'"
  | stateBrace => "expected '\x7b' after state name"
  | handlerOrEnd => "expected 'OnEvent' or '\x7d' in state body"
  | stateEnd => "expected '\x7d' after state body"
  | eventName => "expected event name after 'OnEvent'"
  | eventBrace => "expected '\x7b' after event name"
  | blockEnd => "expected '\x7d' after block"
  | variableName => "expected variable name after 'var'"
  | typeName => "expected type name after ':'"
  | variableEnd => "expected ';' after variable declaration"
  | conditionBrace => "expected '\x7b' after if condition"
  | elseBrace => "expected '\x7b' after 'else'"
  | firedEventName => "expected event name after 'FireEvent'"
  | argumentValue => "expected '=' after argument name"
  | targetOrArgument => "expected target entity or 'name = value' argument"
  | fireClose => "expected ')' after FireEvent arguments"
  | fireEnd => "expected ';' after FireEvent"
  | targetStateName => "expected state name after 'ChangeState'"
  | changeClose => "expected ')' after state name"
  | changeEnd => "expected ';' after ChangeState"
  | expression => "expected expression"
  | expressionEnd => "expected ';' after expression"
  | groupClose => "expected ')' after expression"
  | componentName => "expected component name after '.'"
  | argsDot => "expected '.' after 'args'"
  | argumentName => "expected argument name after 'args.'"

/-- What is wrong. -/
inductive Problem where
  | unexpectedCharacter (lexeme : String)
  | unterminatedString
  /-- Something is missing where `found` stands, or at the end of the file. -/
  | missing (wanted : Wanted) (found : Option String)
  | duplicateState (state : String)
  | duplicateHandler (state event : String)
  | unknownState (state : String)
  | reservedName
  | otherType (name : String) (declared : ValueType)
  | unknownType (name : String)
  | badTarget
  | unknownComponent
  | badNumber
  | badVector
  | unknownEscape (c : Char)
  | danglingBackslash
  | tooManyArguments
  | tooManyConstants
  | tooFarToJump
  deriving DecidableEq, Repr

namespace Problem

/-- That something is missing where a token stands. -/
def missingAt (wanted : Wanted) (t : Token) : Problem :=
  .missing wanted (if t.kind = .eof then none else some t.lexeme)

/-- What is wrong with a token that could not be read. -/
def ofUnreadable (t : Token) : Problem :=
  if t.lexeme.toList.head? = some '"' then .unterminatedString
  else .unexpectedCharacter t.lexeme

/-- Whether the characters themselves are wrong, and not how they are put together. -/
def isLexical : Problem → Bool
  | unexpectedCharacter _ | unterminatedString => true
  | _ => false

/-- The wording of a problem. -/
def message : Problem → String
  | unexpectedCharacter lexeme => s!"unexpected character '{lexeme}'"
  | unterminatedString => "unterminated string literal"
  | missing wanted none => wanted.message ++ " at end of file"
  | missing wanted (some found) => wanted.message ++ s!", found '{found}'"
  | duplicateState state => s!"duplicate state '{state}'"
  | duplicateHandler state event => s!"duplicate handler for '{event}' in state '{state}'"
  | unknownState state => s!"ChangeState targets unknown state '{state}'"
  | reservedName => "'args' is reserved for event arguments"
  | otherType name declared => s!"variable '{name}' is already declared as {declared.name}"
  | unknownType name => s!"unknown type '{name}'"
  | badTarget => "invalid assignment target"
  | unknownComponent => "unknown component, expected 'x' or 'y'"
  | badNumber => "invalid number literal"
  | badVector => "invalid vec2 literal"
  | unknownEscape c => s!"unknown escape sequence '\\{c}'"
  | danglingBackslash => "dangling '\\' in string literal"
  | tooManyArguments => "too many arguments to FireEvent"
  | tooManyConstants => "too many constants in one handler"
  | tooFarToJump => "too much code to jump over"

end Problem

/-- A problem and the line it is reported at. -/
structure Diagnostic where
  line : Nat
  problem : Problem
  deriving DecidableEq, Repr

/-- A diagnostic on its own. -/
def Diagnostic.text (d : Diagnostic) : String :=
  "line " ++ toString d.line ++ ": " ++ d.problem.message

/-- A diagnostic in the listing of a file. -/
def Diagnostic.listed (file : String) (d : Diagnostic) : String :=
  "\n  " ++ file ++ ":" ++ toString d.line ++ ": "
    ++ (if d.problem.isLexical then "lex error" else "syntax error") ++ ": " ++ d.problem.message

end EntityScript.Compile

namespace EntityScript

/-- Why a file does not compile. -/
structure CompileError where
  /-- The file the problems are in. -/
  file : String
  /-- The problems, in the order they were found. -/
  diagnostics : List Compile.Diagnostic
  deriving DecidableEq, Repr

/-- How many problems a file has, and a line for each. -/
def CompileError.message (e : CompileError) : String :=
  "compile error: " ++ toString e.diagnostics.length ++ " problem(s) in '" ++ e.file ++ "'"
    ++ String.join (e.diagnostics.map (Compile.Diagnostic.listed e.file))

end EntityScript
