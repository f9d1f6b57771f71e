/-!
# Fixed-width columns

Padding and number forms of the aligned listings: tokens, instructions and fault reports. A
text that is wider than its column is written whole, so a column never loses characters.
-/

namespace EntityScript.Text

/-- Fills a text up to `width` characters with spaces on the right. -/
def padRight (width : Nat) (s : String) : String :=
  s ++ String.ofList (List.replicate (width - s.length) ' ')

/-- Fills a text up to `width` characters with a filler on the left. -/
def padLeft (filler : Char) (width : Nat) (s : String) : String :=
  String.ofList (List.replicate (width - s.length) filler) ++ s

/-- The decimal digits of a number, with leading zeros up to `width` digits. -/
def zeroPadded (width n : Nat) : String := padLeft '0' width (toString n)

/-- A digit of an upper-case hexadecimal number. -/
def upperHexDigit (n : Nat) : Char := (Nat.digitChar n).toUpper

/-- The two upper-case hexadecimal digits of a byte. -/
def hexByte (b : UInt8) : String :=
  String.ofList [upperHexDigit (b.toNat / 16), upperHexDigit (b.toNat % 16)]

end EntityScript.Text
