import EntityScript.Baked.Script
import EntityScript.Proofs.Baked.Taken

/-!
# Baked scripts are faithful

Reading what was baked gives the script back, to the bit of every number, and nothing that is cut
off can be read. Lengths and lines have 64 bits, and this is all that is asked of a script: every
script whose lengths a machine can count is one of `Script.Countable`.
-/

namespace EntityScript

/-- The number of bytes of a text has 64 bits. -/
def countableText (s : String) : Prop := s.utf8ByteSize < 2 ^ 64

instance (s : String) : Decidable (countableText s) := inferInstanceAs (Decidable (_ < _))

/-- The length of a text constant has 64 bits. -/
def Value.Countable : Value → Prop
  | string s => countableText s
  | number _ | vec2 _ _ | bool _ => True

instance (v : Value) : Decidable v.Countable :=
  match v with
  | .string s => inferInstanceAs (Decidable (countableText s))
  | .number _ | .vec2 _ _ | .bool _ => .isTrue trivial

/-- The lengths and lines of a chunk have 64 bits. -/
structure Chunk.Countable (c : Chunk) : Prop where
  name : countableText c.name
  code : c.code.size < 2 ^ 64
  constants : c.constants.size < 2 ^ 64
  values : ∀ v ∈ c.constants.toList, v.Countable
  lines : c.lines.size < 2 ^ 64
  line : ∀ line ∈ c.lines.toList, line < 2 ^ 64

instance (c : Chunk) : Decidable c.Countable :=
  decidable_of_iff (countableText c.name ∧ c.code.size < 2 ^ 64 ∧ c.constants.size < 2 ^ 64 ∧
      (∀ v ∈ c.constants.toList, v.Countable) ∧ c.lines.size < 2 ^ 64 ∧
      ∀ line ∈ c.lines.toList, line < 2 ^ 64)
    ⟨fun ⟨h₁, h₂, h₃, h₄, h₅, h₆⟩ => ⟨h₁, h₂, h₃, h₄, h₅, h₆⟩,
      fun h => ⟨h.name, h.code, h.constants, h.values, h.lines, h.line⟩⟩

/-- The lengths of a table and its keys have 64 bits, and its values have a property. -/
def Table.Countable {α : Type} (p : α → Prop) (t : Table String α) : Prop :=
  t.size < 2 ^ 64 ∧ ∀ e ∈ t.entries, countableText e.1 ∧ p e.2

instance {α : Type} (p : α → Prop) [DecidablePred p] (t : Table String α) :
    Decidable (t.Countable p) := inferInstanceAs (Decidable (_ ∧ _))

/-- The lengths and lines of a script have 64 bits. -/
structure Script.Countable (s : Script) : Prop where
  name : countableText s.name
  path : countableText s.path
  length : s.states.length < 2 ^ 64
  states : ∀ state ∈ s.states, countableText state
  handlers : s.handlers.Countable (Table.Countable Chunk.Countable)
  declared : s.declared.Countable fun _ => True

/-- Whether a script is countable is decided table by table. -/
instance (s : Script) : Decidable s.Countable :=
  decidable_of_iff (countableText s.name ∧ countableText s.path ∧ s.states.length < 2 ^ 64 ∧
      (∀ state ∈ s.states, countableText state) ∧
      s.handlers.Countable (Table.Countable Chunk.Countable) ∧ s.declared.Countable fun _ => True)
    ⟨fun ⟨h₁, h₂, h₃, h₄, h₅, h₆⟩ => ⟨h₁, h₂, h₃, h₄, h₅, h₆⟩,
      fun h => ⟨h.name, h.path, h.length, h.states, h.handlers, h.declared⟩⟩

namespace Baked

/-- A number takes exactly the bytes that it is given. -/
theorem length_littleEndian (count n : ℕ) : (littleEndian count n).length = count := by
  induction count generalizing n with
  | zero => rfl
  | succ count ih => rw [littleEndian, List.length_cons, ih]

/-- A number that fits is read back from its bytes, lowest byte first. -/
theorem ofLittleEndian_littleEndian (count : ℕ) :
    ∀ n < 256 ^ count, ofLittleEndian (littleEndian count n) = n := by
  induction count with
  | zero =>
    intro n hn
    rw [Nat.pow_zero] at hn
    rw [littleEndian, ofLittleEndian]
    omega
  | succ count ih =>
    intro n hn
    have hrest : n / 256 < 256 ^ count := by
      rw [Nat.div_lt_iff_lt_mul (by omega)]
      rwa [Nat.pow_succ] at hn
    rw [littleEndian, ofLittleEndian, ih _ hrest, UInt8.toNat_ofNat']
    omega

namespace Takes

/-- A number is taken to the bit. -/
theorem number (n : Number) : Takes takeNumber (putNumber n) n := by
  have hbytes := bytes (putNumber n)
  have hlength : (putNumber n).length = 8 := length_littleEndian 8 _
  rw [hlength] at hbytes
  refine hbytes.map ?_
  have hbits : ofLittleEndian (putNumber n) = n.bits.toNat :=
    ofLittleEndian_littleEndian 8 _ (UInt64.toNat_lt n.bits)
  rw [hbits, UInt64.ofNat_toNat]

/-- The byte of a truth value is read back as that truth value. -/
theorem bool (b : Bool) : Takes takeBool (putBool b) b := by
  refine (byte _).map ?_
  cases b <;> rfl

/-- The bytes of a countable value are read back as that value. -/
theorem value {v : Value} (h : v.Countable) : Takes takeValue (putValue v) v := by
  cases v with
  | number n => exact (variant (by decide : 0 < 2 ^ 32)).bind ((number n).map rfl)
  | vec2 x y =>
    exact (variant (by decide : 1 < 2 ^ 32)).bind ((number x).bind ((number y).map rfl))
  | bool b => exact (variant (by decide : 2 < 2 ^ 32)).bind ((bool b).map rfl)
  | string s => exact (variant (by decide : 3 < 2 ^ 32)).bind ((string h).map rfl)

/-- The bytes of a type are read back as that type. -/
theorem type (t : ValueType) : Takes takeType (putType t) t := by
  cases t with
  | number => exact (variant (by decide : 0 < 2 ^ 32)).map rfl
  | vec2 => exact (variant (by decide : 1 < 2 ^ 32)).map rfl
  | bool => exact (variant (by decide : 2 < 2 ^ 32)).map rfl
  | string => exact (variant (by decide : 3 < 2 ^ 32)).map rfl

/-- The bytes of a countable chunk are read back as that chunk. -/
theorem chunk {c : Chunk} (h : c.Countable) : Takes takeChunk (putChunk c) c := by
  have hcode : Takes (takeArray Reader.byte) (putArray (fun b => [b]) c.code) c.code :=
    array h.code fun b _ => byte b
  have hconstants : Takes (takeArray takeValue) (putArray putValue c.constants) c.constants :=
    array h.constants fun v hv => value (h.values v hv)
  have hlines : Takes (takeArray takeLength) (putArray putVarint c.lines) c.lines :=
    array h.lines fun line hline => length (h.line line hline)
  exact (string h.name).bind (hcode.bind (hconstants.bind (hlines.map rfl)))

/-- The bytes of a countable script are read back as that script. -/
theorem script {s : Script} (h : s.Countable) : Takes takeScript (putScript s) s := by
  have hstates : Takes (takeArray takeString) (putArray putString s.states.toArray)
      s.states.toArray := array h.length fun state hstate => string (h.states state hstate)
  have hevents : ∀ events : Table String Chunk, events.Countable Chunk.Countable →
      Takes (takeTable takeChunk) (putTable putChunk events) events :=
    fun events hevents => table hevents.1 fun e he => ⟨(hevents.2 e he).1, chunk (hevents.2 e he).2⟩
  have hhandlers : Takes (takeTable (takeTable takeChunk))
      (putTable (putTable putChunk) s.handlers) s.handlers :=
    table h.handlers.1 fun e he =>
      ⟨(h.handlers.2 e he).1, hevents e.2 (h.handlers.2 e he).2⟩
  have hdeclared : Takes (takeTable takeType) (putTable putType s.declared) s.declared :=
    table h.declared.1 fun e he => ⟨(h.declared.2 e he).1, type e.2⟩
  exact (string h.name).bind ((string h.path).bind (hstates.bind
    (hhandlers.bind (hdeclared.map rfl))))

end Takes

end Baked

/-- What was baked reads as the script whatever follows it, and no strict part of it can be read. -/
theorem unbake_bake (s : Script) (h : s.Countable) :
    (∀ rest, Script.unbake (s.bake ++ rest) = .ok s) ∧
      ∀ part, part <+: s.bake → part ≠ s.bake → Script.unbake part = .error .unexpectedEnd := by
  have htakes : Baked.Takes Baked.takeScript s.bake s := .script h
  constructor
  · intro rest
    rw [Script.unbake, htakes.whole rest]
    rfl
  · intro part hpart hne
    rw [Script.unbake, htakes.cut part hpart hne]
    rfl

/-- A script with a constant that is not a number, and with bits that tell which. -/
def bakedScript : Script where
  name := "lamp"
  path := "lamp.zephyr"
  states := ["off", "on"]
  handlers := .ofList [("off", .ofList [("press", {
    name := "off.press"
    code := #[0x41, 0x01, 0x60]
    constants := #[.number ⟨0x7FF8000000000001⟩, .string "on"]
    lines := #[1, 1, 18446744073709551615] })])]
  declared := .ofList [("count", .number)]

/-- A baked script is read back with a byte behind it, and its first twenty bytes end too early. -/
theorem unbake_bake_bakedScript : Script.unbake (bakedScript.bake ++ [0xFF]) = .ok bakedScript ∧
    Script.unbake (bakedScript.bake.take 20) = .error .unexpectedEnd := by
  have hcountable : bakedScript.Countable := by decide +kernel
  have hboth := unbake_bake bakedScript hcountable
  exact ⟨hboth.1 [0xFF], hboth.2 _ (List.take_prefix 20 _) (by decide +kernel)⟩

end EntityScript
