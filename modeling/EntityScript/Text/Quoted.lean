import EntityScript.Text.Invisible

/-!
# Quoted text for diagnosis

A text in double quotes that shows every character it holds: tabs, line ends, quotes and
backslashes by their usual escapes, characters that do not show by their code points. The form
is for people to read; nothing in this library reads it back.
-/

namespace EntityScript.Text

/-- How a character is written between quotes. -/
def escape (c : Char) : List Char :=
  match c with
  | '\x00' => ['\\', '0']
  | '\t' => ['\\', 't']
  | '\n' => ['\\', 'n']
  | '\r' => ['\\', 'r']
  | '"' => ['\\', '"']
  | '\\' => ['\\', '\\']
  | c =>
    if isInvisible c then ['\\', 'u', '\x7b'] ++ Nat.toDigits 16 c.toNat ++ ['\x7d'] else [c]

/-- A text between quotes, every character of it visible. -/
def quoted (s : String) : String :=
  String.ofList ('"' :: s.toList.flatMap escape ++ ['"'])

end EntityScript.Text
