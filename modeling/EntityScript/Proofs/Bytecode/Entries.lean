import EntityScript.Bytecode.Listing
import EntityScript.Proofs.Text.Unbroken
import Mathlib.Data.List.Infix
import Mathlib.Data.List.TakeWhile
import Mathlib.Data.Nat.Notation

/-!
# The lines of a listing

A listing writes one entry behind another. Here the entries are data: the offset of each, what is
written behind its place, and the offset where the listing goes on. They lie end to end from the
first byte of the code to its last, whatever the bytes are, and they are at the offsets at which
opcodes are read. What an entry says of its instruction can be read off its text: the name of the
opcode, whether operands are cut off, and where a jump leads.
-/

namespace EntityScript

namespace Fetched

/-- The opcode of what was read. -/
def opcode : Fetched → Opcode
  | instruction i => i.opcode
  | truncated op => op
  | unknown _ => .unknown

/-- Operands make an instruction of every opcode that names one. -/
theorem assemble_cases (byte : UInt8) (operand : ℕ → UInt8) (op : Opcode) :
    (∃ i, assemble byte operand op = instruction i ∧ i.opcode = op) ∨
      assemble byte operand op = unknown byte ∧ op = .unknown := by
  cases op with
  | unknown => exact .inr ⟨rfl, rfl⟩
  | _ => exact .inl ⟨_, rfl, rfl⟩

end Fetched

namespace Chunk

variable {c : Chunk} {offset : ℕ}

/-- The opcode at an offset. -/
def opcodeAt (c : Chunk) (offset : ℕ) : Opcode := Opcode.ofByte (c.code.getD offset 0)

/-- The byte at an offset is decoded as the opcode at that offset. -/
theorem ofByte_getElem (h : offset < c.size) : Opcode.ofByte c.code[offset] = c.opcodeAt offset :=
  congrArg Opcode.ofByte (Array.getElem_eq_getD 0)

/-- All that can stand at an offset: an instruction inside the code, one that runs over its end, or
a byte that names none. -/
theorem fetch_cases (h : offset < c.size) :
    (∃ i, c.fetch offset h = .instruction i ∧ i.opcode = c.opcodeAt offset ∧
      c.opcodeAt offset ≠ .unknown ∧ offset + (c.opcodeAt offset).width < c.size) ∨
    (c.fetch offset h = .truncated (c.opcodeAt offset) ∧ c.opcodeAt offset ≠ .unknown ∧
      c.size ≤ offset + (c.opcodeAt offset).width) ∨
    c.fetch offset h = .unknown c.code[offset] ∧ c.opcodeAt offset = .unknown := by
  unfold fetch Fetched.read
  rw [ofByte_getElem h]
  dsimp only
  split
  · rename_i hin
    obtain ⟨i, hi, hopcode⟩ | ⟨hunknown, hopcode⟩ := Fetched.assemble_cases c.code[offset]
      (fun k => c.code.getD (offset + 1 + k) 0) (c.opcodeAt offset)
    · refine .inl ⟨i, hi, hopcode, fun heq => ?_, hin⟩
      rw [heq] at hopcode
      cases i <;> cases hopcode
    · exact .inr (.inr ⟨hunknown, hopcode⟩)
  · rename_i hout
    refine .inr (.inl ⟨rfl, fun heq => hout ?_, Nat.le_of_not_lt hout⟩)
    rw [heq]
    exact h

/-- What is fetched at an offset has the opcode at that offset. -/
theorem opcode_fetch (h : offset < c.size) : (c.fetch offset h).opcode = c.opcodeAt offset := by
  obtain ⟨i, hfetch, hopcode, -⟩ | ⟨hfetch, -⟩ | ⟨hfetch, hopcode⟩ := fetch_cases h
  · rw [hfetch]
    exact hopcode
  · rw [hfetch]
    rfl
  · rw [hfetch, hopcode]
    rfl

/-- A listing goes on behind the operands, or at the end of the code if they run over it. -/
theorem next_lineFor (h : offset < c.size) :
    (c.lineFor offset h).2 = min (offset + 1 + (c.opcodeAt offset).width) c.size := by
  unfold lineFor
  dsimp only
  obtain ⟨i, hfetch, hopcode, -, hin⟩ | ⟨hfetch, -, hout⟩ | ⟨hfetch, hopcode⟩ := fetch_cases h
  · rw [hfetch, Fetched.next, Instruction.size, hopcode]
    omega
  · rw [hfetch, Fetched.next]
    omega
  · have hwidth : Opcode.unknown.width = 0 := rfl
    rw [hfetch, Fetched.next, hopcode, hwidth]
    omega

/-- An entry of a listing. -/
structure Entry where
  /-- The offset of the instruction. -/
  offset : ℕ
  /-- What is written behind its place. -/
  text : String
  /-- The offset where the listing goes on. -/
  next : ℕ
  deriving DecidableEq

/-- The entries of a listing from an offset on. -/
def entriesFrom (c : Chunk) (offset : ℕ) : List Entry :=
  if h : offset < c.size then
    have := c.lt_lineFor offset h
    ⟨offset, c.fetchedText offset (c.fetch offset h), (c.lineFor offset h).2⟩
      :: c.entriesFrom (c.lineFor offset h).2
  else []
termination_by c.size - offset

/-- The entries of the listing of a chunk. -/
def entries (c : Chunk) : List Entry := c.entriesFrom 0

/-- The line of an entry. -/
def entryLine (c : Chunk) (e : Entry) : String := c.placeText e.offset ++ e.text

/-- The listing is the lines of its entries one behind the other, each with a line break. -/
theorem listingFrom_eq (c : Chunk) (offset : ℕ) (out : String) : c.listingFrom offset out
    = out ++ String.join ((c.entriesFrom offset).map fun e => c.entryLine e ++ "\n") := by
  fun_induction c.entriesFrom offset generalizing out with
  | case1 offset h _ ih =>
    rw [listingFrom, dif_pos h, ih, List.map_cons, String.join_cons]
    simp only [String.append_assoc]
    rfl
  | case2 offset h =>
    rw [listingFrom, dif_neg h, List.map_nil, String.join_nil, String.append_empty]

/-- A listing writes its entries, each with a line end. -/
theorem listing_eq (c : Chunk) :
    c.listing = String.join (c.entries.map fun e => c.entryLine e ++ "\n") := by
  rw [listing, listingFrom_eq, String.empty_append]
  rfl

/-- An entry is what is fetched at its own offset, and the next one starts where its line says. -/
theorem mem_entriesFrom {e : Entry} (h : e ∈ c.entriesFrom offset) : ∃ hin : e.offset < c.size,
    e.text = c.fetchedText e.offset (c.fetch e.offset hin) ∧
      e.next = (c.lineFor e.offset hin).2 := by
  fun_induction c.entriesFrom offset with
  | case1 offset hin _ ih =>
    obtain rfl | h := List.mem_cons.1 h
    · exact ⟨hin, rfl, rfl⟩
    · exact ih h
  | case2 => cases h

/-- Entries lie end to end from an offset to another, and none is empty. -/
def EndToEnd (last : ℕ) : ℕ → List Entry → Prop
  | offset, [] => offset = last
  | offset, e :: es => e.offset = offset ∧ e.offset < e.next ∧ EndToEnd last e.next es

/-- The entries of a listing lie end to end from where it starts to the end of the code. -/
theorem endToEnd_entriesFrom (h : offset ≤ c.size) :
    EndToEnd c.size offset (c.entriesFrom offset) := by
  fun_induction c.entriesFrom offset with
  | case1 offset hin hlt ih =>
    refine ⟨rfl, hlt, ih ?_⟩
    rw [next_lineFor hin]
    exact Nat.min_le_right _ _
  | case2 offset hout => exact Nat.le_antisymm h (Nat.le_of_not_lt hout)

namespace EndToEnd

variable {last : ℕ} {es : List Entry}

/-- No entry starts before the place where the listing starts. -/
theorem le_of_mem (h : EndToEnd last offset es) {e : Entry} (he : e ∈ es) : offset ≤ e.offset := by
  induction es generalizing offset with
  | nil => cases he
  | cons e' es ih =>
    obtain ⟨rfl, hlt, hrest⟩ := h
    obtain rfl | he := List.mem_cons.1 he
    · exact Nat.le_refl _
    · exact Nat.le_trans (Nat.le_of_lt hlt) (ih hrest he)

/-- Entries that lie end to end have ascending offsets. -/
theorem ascending (h : EndToEnd last offset es) : es.Pairwise fun e e' => e.offset < e'.offset := by
  induction es generalizing offset with
  | nil => exact .nil
  | cons e es ih =>
    obtain ⟨rfl, hlt, hrest⟩ := h
    exact .cons (fun e' he' => Nat.lt_of_lt_of_le hlt (hrest.le_of_mem he')) (ih hrest)

/-- Every byte belongs to exactly one entry. -/
theorem existsUnique (h : EndToEnd last offset es) {k : ℕ} (hle : offset ≤ k) (hlt : k < last) :
    ∃! e, e ∈ es ∧ e.offset ≤ k ∧ k < e.next := by
  induction es generalizing offset with
  | nil =>
    cases h
    exact absurd hlt (Nat.not_lt_of_le hle)
  | cons e es ih =>
    obtain ⟨rfl, -, hrest⟩ := h
    by_cases hk : k < e.next
    · refine ⟨e, ⟨List.mem_cons_self, hle, hk⟩, ?_⟩
      rintro e' ⟨he', hle', -⟩
      obtain rfl | he' := List.mem_cons.1 he'
      · rfl
      · exact absurd hk (Nat.not_lt_of_le (Nat.le_trans (hrest.le_of_mem he') hle'))
    · obtain ⟨e', ⟨he', hbelongs⟩, hunique⟩ := ih hrest (Nat.le_of_not_lt hk)
      refine ⟨e', ⟨List.mem_cons_of_mem _ he', hbelongs⟩, ?_⟩
      rintro e'' ⟨he'', hbelongs'⟩
      obtain rfl | he'' := List.mem_cons.1 he''
      · exact absurd hbelongs'.2 hk
      · exact hunique e'' ⟨he'', hbelongs'⟩

end EndToEnd

/-- The offsets at which opcodes are read, from one on. -/
def decodedFrom (c : Chunk) (offset : ℕ) : List ℕ :=
  if offset < c.size then
    offset :: c.decodedFrom (offset + 1 + (c.opcodeAt offset).width)
  else []
termination_by c.size - offset

/-- The offsets at which opcodes are read. -/
def decoded (c : Chunk) : List ℕ := c.decodedFrom 0

/-- The opcodes are those at the offsets where the entries start. -/
theorem opcodesFrom_eq (c : Chunk) (offset : ℕ) (ops : Array Opcode) :
    (c.opcodesFrom offset ops).toList = ops.toList ++ (c.decodedFrom offset).map c.opcodeAt := by
  fun_induction c.decodedFrom offset generalizing ops with
  | case1 offset h ih =>
    rw [opcodesFrom, dif_pos h]
    dsimp only
    rw [ofByte_getElem h, ih, Array.toList_push, List.map_cons, List.append_assoc]
    rfl
  | case2 offset h => rw [opcodesFrom, dif_neg h, List.map_nil, List.append_nil]

/-- The opcodes of a chunk are those at its decoded offsets. -/
theorem opcodes_eq (c : Chunk) : c.opcodes = c.decoded.map c.opcodeAt := by
  rw [opcodes, opcodesFrom_eq]
  rfl

/-- Opcodes are read where a listing has its entries. -/
theorem offset_entriesFrom (c : Chunk) (offset : ℕ) :
    (c.entriesFrom offset).map Entry.offset = c.decodedFrom offset := by
  fun_induction c.entriesFrom offset with
  | case1 offset h _ ih =>
    rw [decodedFrom, if_pos h, List.map_cons, ih, next_lineFor h]
    by_cases hle : offset + 1 + (c.opcodeAt offset).width ≤ c.size
    · rw [Nat.min_eq_left hle]
    · have hend : c.decodedFrom c.size = [] := by
        rw [decodedFrom, if_neg (Nat.lt_irrefl _)]
      have hbehind : c.decodedFrom (offset + 1 + (c.opcodeAt offset).width) = [] := by
        rw [decodedFrom, if_neg (by omega)]
      rw [Nat.min_eq_right (by omega), hend, hbehind]
  | case2 offset h => rw [decodedFrom, if_neg h, List.map_nil]

namespace Entry

/-- The name that an entry begins with. -/
def mnemonic (e : Entry) : String := String.ofList (e.text.toList.takeWhile (· != ' '))

/-- The entry says that its operands are cut off. -/
def SaysTruncated (e : Entry) : Prop := " <truncated>".toList <:+ e.text.toList

/-- The entry says that its byte names no instruction. -/
def SaysUnknown (e : Entry) : Prop := e.mnemonic = Opcode.unknown.mnemonic

/-- The entry says that it leads to an offset. -/
def SaysTarget (e : Entry) (target : ℕ) : Prop :=
  ("(→ " ++ Text.zeroPadded 4 target ++ ")").toList <:+ e.text.toList

instance (e : Entry) : Decidable e.SaysTruncated := inferInstanceAs (Decidable (_ <:+ _))

instance (e : Entry) : Decidable e.SaysUnknown := inferInstanceAs (Decidable (_ = _))

instance (e : Entry) (target : ℕ) : Decidable (e.SaysTarget target) :=
  inferInstanceAs (Decidable (_ <:+ _))

end Entry

/-- No mnemonic has a space in it. -/
theorem mnemonic_spaceless (op : Opcode) : ∀ ch ∈ op.mnemonic.toList, (ch != ' ') = true := by
  refine List.all_eq_true.1 ?_
  cases op with
  | binary op => cases op <;> decide
  | _ => decide

/-- Only the unknown opcode has the mnemonic of the unknown opcode. -/
theorem mnemonic_eq_unknown_iff {op : Opcode} :
    op.mnemonic = Opcode.unknown.mnemonic ↔ op = .unknown := by
  cases op with
  | binary op => cases op <;> decide
  | _ => decide

/-- What is listed begins with the name of its opcode, and a space if more follows. -/
theorem takeWhile_fetchedText (c : Chunk) (offset : ℕ) (x : Fetched) :
    (c.fetchedText offset x).toList.takeWhile (· != ' ') = x.opcode.mnemonic.toList := by
  have hcolumn (op : Opcode) (rest : List Char) :
      (op.column.toList ++ ' ' :: rest).takeWhile (· != ' ') = op.mnemonic.toList := by
    rw [Opcode.column, Text.padRight, String.toList_append, String.toList_ofList,
      List.append_assoc, List.takeWhile_append_of_pos (mnemonic_spaceless op)]
    cases 14 - op.mnemonic.length <;> simp [List.replicate_succ]
  have hname (op : Opcode) : op.mnemonic.toList.takeWhile (· != ' ') = op.mnemonic.toList :=
    List.takeWhile_eq_self_iff.2 (mnemonic_spaceless op)
  cases x with
  | truncated op =>
    simp only [fetchedText, String.toList_append]
    exact hcolumn op _
  | unknown byte =>
    simp only [fetchedText, String.toList_append, List.append_assoc]
    exact hcolumn .unknown _
  | instruction i =>
    cases i with
    | binary | negate | not | pop | ret => exact hname _
    | _ =>
      simp only [fetchedText, instructionText, String.toList_append, List.append_assoc]
      exact hcolumn _ _

/-- A text that ends in a character still ends in it behind another text. -/
theorem getLast?_append {a b : String} {ch : Char} (h : b.toList.getLast? = some ch) :
    (a ++ b).toList.getLast? = some ch := by
  rw [String.toList_append, List.getLast?_append, h]
  rfl

/-- Operands do not look cut off if they end in another character. -/
theorem not_suffix_of_getLast? {text : String} {ch : Char} (h : text.toList.getLast? = some ch)
    (hne : ch ≠ '>') : ¬ " <truncated>".toList <:+ text.toList := by
  rintro ⟨before, happend⟩
  have hlast : " <truncated>".toList.getLast? = some '>' := by decide
  rw [← happend, List.getLast?_append, hlast] at h
  exact hne (Option.some.inj h).symm

/-- No mnemonic ends like a truncated instruction. -/
theorem not_suffix_mnemonic (op : Opcode) :
    ¬ " <truncated>".toList <:+ op.mnemonic.toList := by
  cases op with
  | binary op => cases op <;> decide
  | _ => decide

/-- A constant does not look like a missing operand, not even if it is missing itself. -/
theorem not_suffix_operandText (c : Chunk) (before : String) (index : UInt8) :
    ¬ " <truncated>".toList <:+ (before ++ c.operandText index).toList := by
  unfold operandText constantText
  split
  · have hquote : "'".toList.getLast? = some '\'' := by decide
    exact not_suffix_of_getLast?
      (getLast?_append (getLast?_append (getLast?_append hquote))) (by decide)
  · intro h
    rw [← String.append_assoc, String.toList_append] at h
    have hend : " <truncated>".toList <:+ "<bad constant>".toList :=
      List.suffix_of_suffix_length_le h (List.suffix_append _ _) (by decide)
    revert hend
    decide

/-- A printed number ends in a digit. -/
theorem exists_getLast?_toString (n : ℕ) :
    ∃ ch, (toString n).toList.getLast? = some ch ∧ ch.isDigit = true := by
  have htext : (toString n).toList = Nat.toDigits 10 n := String.toList_ofList
  have hne : Nat.toDigits 10 n ≠ [] := Nat.toDigits_ne_nil
  rw [htext, List.getLast?_eq_getLast_of_ne_nil hne]
  exact ⟨_, rfl, Nat.isDigit_of_mem_toDigits (by decide) (by decide) (List.getLast_mem hne)⟩

/-- A hexadecimal digit is neither a closing bracket nor a line break. -/
theorem upperHexDigit_ne {n : ℕ} (h : n < 16) :
    Text.upperHexDigit n ≠ '>' ∧ Text.upperHexDigit n ≠ '\n' := by
  revert n
  decide

/-- Only an instruction that runs over the end of the code is listed as one. -/
theorem not_suffix_fetchedText (c : Chunk) (offset : ℕ) {x : Fetched}
    (h : ∀ op, x ≠ .truncated op) :
    ¬ " <truncated>".toList <:+ (c.fetchedText offset x).toList := by
  cases x with
  | truncated op => exact absurd rfl (h op)
  | unknown byte =>
    have hdigit : (Text.hexByte byte).toList.getLast?
        = some (Text.upperHexDigit (byte.toNat % 16)) := by
      rw [Text.hexByte, String.toList_ofList]
      rfl
    exact not_suffix_of_getLast? (getLast?_append hdigit)
      (upperHexDigit_ne (Nat.mod_lt _ (by decide))).1
  | instruction i =>
    cases i with
    | binary | negate | not | pop | ret => exact not_suffix_mnemonic _
    | constant index | getVariable index | setVariable index | getComponent index
    | changeState index => exact c.not_suffix_operandText _ index
    | jump distance | jumpIfFalse distance =>
      have hclosed : ")".toList.getLast? = some ')' := by decide
      exact not_suffix_of_getLast? (getLast?_append (getLast?_append hclosed)) (by decide)
    | fireEvent name flags argc =>
      simp only [fetchedText, instructionText]
      split
      · have htargeted : " targeted".toList.getLast? = some 'd' := by decide
        exact not_suffix_of_getLast? (getLast?_append htargeted) (by decide)
      · obtain ⟨ch, hlast, hdigit⟩ := exists_getLast?_toString argc.toNat
        rw [String.append_empty]
        refine not_suffix_of_getLast? (getLast?_append hlast) ?_
        rintro rfl
        exact absurd hdigit (by decide)

namespace Entry

variable {e : Entry}

/-- An entry says that operands are cut off exactly where they run over the end of the code. -/
theorem saysTruncated_iff (h : e ∈ c.entries) :
    e.SaysTruncated ↔ c.size ≤ e.offset + (c.opcodeAt e.offset).width := by
  obtain ⟨hin, htext, -⟩ := mem_entriesFrom h
  rw [SaysTruncated, htext]
  obtain ⟨i, hfetch, -, -, hinside⟩ | ⟨hfetch, -, hout⟩ | ⟨hfetch, hopcode⟩ := fetch_cases hin
  · refine iff_of_false ?_ (Nat.not_le_of_lt hinside)
    rw [hfetch]
    exact c.not_suffix_fetchedText _ fun _ h => by cases h
  · refine iff_of_true ?_ hout
    rw [hfetch, fetchedText, String.toList_append]
    exact List.suffix_append _ _
  · refine iff_of_false ?_ (Nat.not_le_of_lt (by rw [hopcode]; exact hin))
    rw [hfetch]
    exact c.not_suffix_fetchedText _ fun _ h => by cases h

/-- The mnemonic of an entry is that of the opcode at its offset. -/
theorem mnemonic_eq (h : e ∈ c.entries) : e.mnemonic = (c.opcodeAt e.offset).mnemonic := by
  obtain ⟨hin, htext, -⟩ := mem_entriesFrom h
  rw [mnemonic, htext, takeWhile_fetchedText, opcode_fetch hin, String.ofList_toList]

/-- An entry says that its byte names no instruction exactly where it names none. -/
theorem saysUnknown_iff (h : e ∈ c.entries) :
    e.SaysUnknown ↔ c.opcodeAt e.offset = .unknown := by
  rw [SaysUnknown, mnemonic_eq h, mnemonic_eq_unknown_iff]

/-- An entry of a jump says where the jump leads. -/
theorem saysTarget {distance : UInt16} {i : Instruction} (h : e ∈ c.entries)
    (hi : i = .jump distance ∨ i = .jumpIfFalse distance) (hin : e.offset < c.size)
    (hfetch : c.fetch e.offset hin = .instruction i) :
    e.SaysTarget (e.offset + i.size + distance.toNat) := by
  obtain ⟨_, htext, -⟩ := mem_entriesFrom h
  rw [SaysTarget, htext, hfetch]
  obtain rfl | rfl := hi
  all_goals
    simp only [fetchedText, instructionText, jumpText, String.toList_append, List.append_assoc]
    exact List.suffix_append_of_suffix (List.suffix_append_of_suffix
      (List.suffix_append_of_suffix ⟨[' '], rfl⟩))

end Entry

/-- The names in a listing are those of the opcodes. -/
theorem mnemonics_eq (c : Chunk) :
    c.entries.map Entry.mnemonic = c.opcodes.map Opcode.mnemonic := by
  have hoffsets : c.decoded = c.entries.map Entry.offset := (c.offset_entriesFrom 0).symm
  rw [opcodes_eq, hoffsets, List.map_map, List.map_map]
  exact List.map_congr_left fun e he => Entry.mnemonic_eq he

/-- No text constant of a chunk has a line end. -/
def UnbrokenTexts (c : Chunk) : Prop := ∀ s, Value.string s ∈ c.constants.toList → Unbroken s

/-- The text of an operand is one line when the texts among the constants are. -/
theorem unbroken_operandText (hc : c.UnbrokenTexts) (index : UInt8) :
    Unbroken (c.operandText index) := by
  unfold operandText constantText
  refine ((Unbroken.padLeft (by decide) 4 (.nat _)).append (by decide)).append ?_
  split
  · rename_i v hconstant
    have hmem : v ∈ c.constants.toList := Array.mem_toList_iff.2 (Array.mem_of_getElem? hconstant)
    have hquote : Unbroken "'" := by decide
    exact (hquote.append (.value fun s hs => hc s (hs ▸ hmem))).append hquote
  · decide

/-- A mnemonic is one line. -/
theorem unbroken_mnemonic (op : Opcode) : Unbroken op.mnemonic := by
  cases op with
  | binary op => cases op <;> decide
  | _ => decide

/-- The text of a fetched instruction is one line when the texts among the constants are. -/
theorem unbroken_fetchedText (hc : c.UnbrokenTexts) (offset : ℕ) (x : Fetched) :
    Unbroken (c.fetchedText offset x) := by
  have hcolumn (op : Opcode) : Unbroken op.column := .padRight 14 (unbroken_mnemonic op)
  have hspaced (op : Opcode) : Unbroken (op.column ++ " ") := (hcolumn op).append (by decide)
  cases x with
  | truncated op => exact (hcolumn op).append (by decide)
  | unknown byte => exact ((hcolumn .unknown).append (by decide)).append (.hexByte byte)
  | instruction i =>
    cases i with
    | binary | negate | not | pop | ret => exact unbroken_mnemonic _
    | constant index | getVariable index | setVariable index | getComponent index
    | changeState index => exact (hspaced _).append (unbroken_operandText hc index)
    | jump distance | jumpIfFalse distance =>
      have hsigned : Unbroken ("+" ++ toString distance.toNat) :=
        Unbroken.append (by decide) (.nat _)
      exact (hspaced _).append ((((Unbroken.padLeft (by decide) 4 hsigned).append
        (by decide)).append (.zeroPadded 4 _)).append (by decide))
    | fireEvent name flags argc =>
      refine ((((hspaced _).append (unbroken_operandText hc name)).append
        (by decide)).append (.nat _)).append ?_
      split <;> decide

/-- The line of an entry is one line when the texts among the constants are. -/
theorem unbroken_entryLine (hc : c.UnbrokenTexts) {e : Entry} (he : e ∈ c.entries) :
    Unbroken (c.entryLine e) := by
  obtain ⟨hin, htext, -⟩ := mem_entriesFrom he
  have hplace : Unbroken (c.placeText e.offset) := by
    unfold placeText
    dsimp only
    split
    · exact (Unbroken.zeroPadded 4 _).append (by decide)
    · exact (((Unbroken.zeroPadded 4 _).append (by decide)).append
        (.padLeft (by decide) 4 (.nat _))).append (by decide)
  rw [entryLine, htext]
  exact hplace.append (unbroken_fetchedText hc _ _)

/-- Texts without line ends, with one behind each, have as many lines as there are texts. -/
theorem count_join {α : Type} {line : α → String} {l : List α} (h : ∀ e ∈ l, Unbroken (line e)) :
    (String.join (l.map fun e => line e ++ "\n")).toList.count '\n' = l.length := by
  induction l with
  | nil => rfl
  | cons e l ih =>
    have hend : "\n".toList.count '\n' = 1 := by decide
    obtain ⟨he, hl⟩ := List.forall_mem_cons.1 h
    rw [List.map_cons, String.join_cons, String.toList_append, String.toList_append,
      List.count_append, List.count_append, ih hl, List.count_eq_zero.2 he, hend, List.length_cons]
    omega

end Chunk

end EntityScript
