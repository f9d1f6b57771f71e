/-!
# Reading bytes

A reader takes what it needs from the front of a sequence of bytes and leaves the rest to the next
reader, or tells why the bytes cannot be read.
-/

namespace EntityScript.Baked

/-- Why bytes cannot be read. -/
inductive DecodeError where
  /-- The bytes end before the value does. -/
  | unexpectedEnd
  /-- A number is too long or too large. -/
  | badVarint
  /-- A truth value is neither 0 nor 1. -/
  | badBool
  /-- A text is not UTF-8. -/
  | badUtf8
  /-- A choice has no alternative of this number. -/
  | badVariant
  deriving DecidableEq, Repr

/-- The wording of a decoding error. -/
def DecodeError.message : DecodeError → String
  | unexpectedEnd => "Hit the end of buffer, expected more data"
  | badVarint => "Found a varint that didn't terminate. Is the usize too big for this platform?"
  | badBool => "Found a bool that wasn't 0 or 1"
  | badUtf8 => "Tried to parse invalid utf-8"
  | badVariant => "Serde Deserialization Error"

/-- Takes a value from the front of a sequence of bytes. -/
abbrev Reader := StateT (List UInt8) (Except DecodeError)

namespace Reader

/-- Takes one byte. -/
def byte : Reader UInt8
  | [] => .error .unexpectedEnd
  | b :: rest => .ok (b, rest)

/-- Takes as many bytes as asked for. -/
def bytes (count : Nat) : Reader (List UInt8) := fun input =>
  let taken := input.take count
  if taken.length = count then .ok (taken, input.drop count) else .error .unexpectedEnd

/-- Takes as many items as asked for, and adds them to those taken before. -/
def itemsOnto {α : Type} (item : Reader α) : Nat → Array α → Reader (Array α)
  | 0, items => pure items
  | count + 1, items => do
    let a ← item
    itemsOnto item count (items.push a)

end Reader

end EntityScript.Baked
