import EntityScript.Compile.Diagnostic

/-!
# Reading literals

The values that literal tokens stand for. The tokens that scanning makes always have one, texts
with unknown escapes apart; what cannot come from scanning is a problem all the same.
-/

namespace EntityScript.Compile

/-- The character that an escape stands for. -/
def escaped? : Char → Option Char
  | 'n' => some '\n'
  | 't' => some '\t'
  | 'r' => some '\r'
  | '\\' => some '\\'
  | '"' => some '"'
  | _ => none

/-- Resolves the escapes of a text, behind what is read already. -/
def unescapeOnto (out : String) : List Char → Except Problem String
  | [] => .ok out
  | '\\' :: [] => .error .danglingBackslash
  | '\\' :: c :: rest =>
    match escaped? c with
    | some e => unescapeOnto (out.push e) rest
    | none => .error (.unknownEscape c)
  | c :: rest => unescapeOnto (out.push c) rest

/-- The text that a string token stands for: what is between its quotes, with escapes resolved. -/
def readText (lexeme : String) : Except Problem String :=
  unescapeOnto "" (lexeme.toList.tail.dropLast)

/-- The value that a number token stands for. -/
def readNumber (lexeme : String) : Except Problem Value :=
  match Number.read? lexeme with
  | some n => .ok (.number n)
  | none => .error .badNumber

/-- The two numbers that a vector token stands for, on both sides of its comma. -/
def readVector (lexeme : String) : Except Problem (Number × Number) :=
  let cs := lexeme.toList
  match cs.dropWhile (· ≠ ',') with
  | [] => .error .badVector
  | _ :: second =>
    match Number.read? (String.ofList (cs.takeWhile (· ≠ ','))),
      Number.read? (String.ofList second) with
    | some x, some y => .ok (x, y)
    | _, _ => .error .badVector

end EntityScript.Compile
