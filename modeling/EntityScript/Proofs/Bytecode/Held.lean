import EntityScript.Proofs.Grammar.Assembly

/-!
# Code held by a chunk

`Holds chunk offset code` says that the instructions of `code` stand in a chunk from an offset on,
with the places that the pool of the chunk gives to their constants. A part of code that is held
is held where it begins, so that what is said of code can be said of its parts one after another.
-/

namespace EntityScript.Grammar

/-- Code stands in a chunk from an offset on, and the pool of the chunk has what it names. -/
structure Holds (chunk : Chunk) (offset : ℕ) (code : List Symbolic) : Prop where
  bytes : ∃ before after, chunk.code.toList
    = before ++ bytes chunk.constants.toList code ++ after ∧ before.length = offset
  room : chunk.constants.toList.length ≤ Chunk.maxConstants
  pooled : Pooled chunk.constants.toList code
  fits : ∀ i ∈ code, i.Fits

namespace Holds

variable {chunk : Chunk} {offset : ℕ} {xs ys : List Symbolic} {i : Symbolic}

/-- Held code holds its first part at the same offset. -/
theorem left (h : Holds chunk offset (xs ++ ys)) : Holds chunk offset xs := by
  obtain ⟨before, after, hcode, hlength⟩ := h.bytes
  refine ⟨⟨before, Grammar.bytes chunk.constants.toList ys ++ after, ?_, hlength⟩, h.room,
    fun i hi => h.pooled i (List.mem_append_left _ hi),
    fun i hi => h.fits i (List.mem_append_left _ hi)⟩
  rw [hcode, bytes_append]
  simp only [List.append_assoc]

/-- Held code holds its second part behind the first. -/
theorem right (h : Holds chunk offset (xs ++ ys)) : Holds chunk (offset + codeSize xs) ys := by
  obtain ⟨before, after, hcode, hlength⟩ := h.bytes
  refine ⟨⟨before ++ Grammar.bytes chunk.constants.toList xs, after, ?_, ?_⟩, h.room,
    fun i hi => h.pooled i (List.mem_append_right _ hi),
    fun i hi => h.fits i (List.mem_append_right _ hi)⟩
  · rw [hcode, bytes_append]
    simp only [List.append_assoc]
  · rw [List.length_append, length_bytes, hlength]

/-- Held code holds what follows its first instruction. -/
theorem tail (h : Holds chunk offset (i :: xs)) : Holds chunk (offset + i.size) xs := by
  have hsplit : Holds chunk offset ([i] ++ xs) := h
  have hright := hsplit.right
  rwa [codeSize_cons, codeSize_nil, Nat.add_zero] at hright

/-- The first instruction is what is read. -/
theorem fetch (h : Holds chunk offset (i :: xs)) : ∃ hlt : offset < chunk.size,
    chunk.fetch offset hlt = .instruction (i.assemble chunk.constants.toList) := by
  obtain ⟨before, after, hcode, rfl⟩ := h.bytes
  rw [bytes_cons, ← List.append_assoc, List.append_assoc] at hcode
  generalize i.assemble chunk.constants.toList = j at hcode ⊢
  have harray : chunk.code
      = (before ++ j.encode ++ (Grammar.bytes chunk.constants.toList xs ++ after)).toArray := by
    rw [← hcode, Array.toArray_toList]
  have hbyte : chunk.code[before.length]? = some j.opcode.toByte := by
    rw [harray, List.getElem?_toArray, List.append_assoc,
      List.getElem?_append_right (Nat.le_refl _), Nat.sub_self]
    rfl
  obtain ⟨hlt, heq⟩ := Array.getElem?_eq_some_iff.1 hbyte
  refine ⟨hlt, ?_⟩
  change Fetched.read chunk.code before.length chunk.code[before.length] = _
  rw [heq, harray]
  exact Fetched.read_encode j before _

/-- The index of a constant that code names leads to the constant. -/
theorem constant? (h : Holds chunk offset xs) (hi : i ∈ xs) {v : Value}
    (hv : i.constant? = some v) :
    chunk.constant? (slot chunk.constants.toList v) = some v := by
  have hmem := h.pooled i hi v hv
  have hlt := List.idxOf_lt_length_of_mem hmem
  have hroom := h.room
  unfold Chunk.maxConstants at hroom
  have hindex : (slot chunk.constants.toList v).toNat = chunk.constants.toList.idxOf v := by
    rw [slot, UInt8.toNat_ofNat', Nat.mod_eq_of_lt (by omega)]
  rw [Chunk.constant?, hindex, ← Array.getElem?_toList, List.getElem?_eq_getElem hlt,
    List.getElem_idxOf hlt]

end Holds

end EntityScript.Grammar
