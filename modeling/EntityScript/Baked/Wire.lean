import EntityScript.Baked.Reader
import EntityScript.Table
import EntityScript.Value

/-!
# The byte form of simple values

Numbers that count something are written seven bits to a byte, the lowest first; every byte but
the last has its highest bit set. Texts, sequences and tables begin with their length. Readers
accept a number written with more bytes than it needs, up to a limit, and table entries in any
order; of two entries with one key the later counts.
-/

namespace EntityScript.Baked

/-- The bytes of a counting number. -/
def putVarint (n : Nat) : List UInt8 :=
  if n < 128 then [UInt8.ofNat n] else UInt8.ofNat (n % 128 + 128) :: putVarint (n / 128)
termination_by n

/-- How long a counting number may be, and how large its last byte when it is that long. -/
structure VarintLimit where
  /-- The number of bytes. -/
  length : Nat
  /-- The largest last byte. -/
  last : Nat

/-- The limit of lengths and lines, which have 64 bits. -/
def lengthLimit : VarintLimit := ⟨10, 1⟩

/-- The limit of the number of an alternative, which has 32 bits. -/
def variantLimit : VarintLimit := ⟨5, 15⟩

/-- Takes a counting number of at most so many bytes. -/
def takeVarintWithin (last : Nat) : Nat → Reader Nat
  | 0 => fun _ => .error .badVarint
  | length + 1 => do
    let b ← Reader.byte
    if b.toNat < 128 then
      if length = 0 ∧ last < b.toNat then throw .badVarint else pure b.toNat
    else
      let n ← takeVarintWithin last length
      pure (b.toNat - 128 + 128 * n)

/-- Takes a counting number within a limit. -/
def takeVarint (limit : VarintLimit) : Reader Nat := takeVarintWithin limit.last limit.length

/-- Takes a length or a line. -/
def takeLength : Reader Nat := takeVarint lengthLimit

/-- Takes the number of an alternative. -/
def takeVariant : Reader Nat := takeVarint variantLimit

/-- The bytes of a text: how many there are, and its UTF-8 form. -/
def putString (s : String) : List UInt8 :=
  putVarint s.utf8ByteSize ++ s.toUTF8.data.toList

/-- Takes a text. -/
def takeString : Reader String := do
  let count ← takeLength
  let bytes ← Reader.bytes count
  match String.fromUTF8? ⟨bytes.toArray⟩ with
  | some s => pure s
  | none => throw .badUtf8

/-- The bytes of a sequence. -/
def putArray {α : Type} (put : α → List UInt8) (items : Array α) : List UInt8 :=
  putVarint items.size ++ items.toList.flatMap put

/-- Takes a sequence. -/
def takeArray {α : Type} (item : Reader α) : Reader (Array α) := do
  let count ← takeLength
  Reader.itemsOnto item count #[]

/-- The bytes of a table, its entries in ascending key order. -/
def putTable {α : Type} (put : α → List UInt8) (t : Table String α) : List UInt8 :=
  putVarint t.size ++ t.entries.flatMap fun (k, v) => putString k ++ put v

/-- Takes a table. -/
def takeTable {α : Type} (item : Reader α) : Reader (Table String α) := do
  let entry : Reader (String × α) := do
    let k ← takeString
    let v ← item
    pure (k, v)
  let entries ← takeArray entry
  pure (.ofList entries.toList)

/-- The lowest `count` bytes of a number, the lowest first. -/
def littleEndian : (count : Nat) → Nat → List UInt8
  | 0, _ => []
  | count + 1, n => UInt8.ofNat n :: littleEndian count (n / 256)

/-- The number that bytes stand for, the lowest first. -/
def ofLittleEndian : List UInt8 → Nat
  | [] => 0
  | b :: rest => b.toNat + 256 * ofLittleEndian rest

/-- The eight bytes of a number. -/
def putNumber (n : Number) : List UInt8 := littleEndian 8 n.bits.toNat

/-- Takes a number. -/
def takeNumber : Reader Number := do
  let bytes ← Reader.bytes 8
  pure ⟨UInt64.ofNat (ofLittleEndian bytes)⟩

/-- The byte of a truth value. -/
def putBool (b : Bool) : List UInt8 := [if b then 1 else 0]

/-- Takes a truth value. -/
def takeBool : Reader Bool := do
  let b ← Reader.byte
  if b = 0 then pure false
  else if b = 1 then pure true
  else throw .badBool

/-- The bytes of a value: the number of its type and what it holds. -/
def putValue : Value → List UInt8
  | .number n => putVarint 0 ++ putNumber n
  | .vec2 x y => putVarint 1 ++ (putNumber x ++ putNumber y)
  | .bool b => putVarint 2 ++ putBool b
  | .string s => putVarint 3 ++ putString s

/-- Takes a value. -/
def takeValue : Reader Value := do
  match ← takeVariant with
  | 0 => return .number (← takeNumber)
  | 1 =>
    let x ← takeNumber
    let y ← takeNumber
    return .vec2 x y
  | 2 => return .bool (← takeBool)
  | 3 => return .string (← takeString)
  | _ => throw .badVariant

/-- The byte of a type. -/
def putType : ValueType → List UInt8
  | .number => putVarint 0
  | .vec2 => putVarint 1
  | .bool => putVarint 2
  | .string => putVarint 3

/-- Takes a type. -/
def takeType : Reader ValueType := do
  match ← takeVariant with
  | 0 => return .number
  | 1 => return .vec2
  | 2 => return .bool
  | 3 => return .string
  | _ => throw .badVariant

end EntityScript.Baked
