import EntityScript.Proofs.Compile.Written
import EntityScript.Proofs.Token.Lines

/-!
# The lines that are written beside the code

Every byte of a chunk has the line of the token that was read last when the byte was written. As
tokens are read forward (`Draft.Forward`), such lines never go back: `Chunk.Lined low high` says so
of a chunk, and that there is one line for each byte. Bytes that are overwritten later keep their
lines.

The chunk of a handler is lined from its opening brace to the token that was read last, which is the
closing brace unless that is missing.
-/

namespace EntityScript

namespace Chunk

variable {low high line : ℕ} {c : Chunk}

/-- Every byte has a line, and the lines never go back, from one line on and up to another. -/
structure Lined (low high : ℕ) (c : Chunk) : Prop where
  aligned : c.lines.size = c.code.size
  rising : Rising low high c.lines.toList

/-- The empty chunk has no lines that could be out of order. -/
theorem Lined.empty (name : String) : Lined low high (Chunk.empty name) := ⟨rfl, .nil⟩

/-- The bound above the lines may be raised. -/
theorem Lined.widen {high' : ℕ} (h : Lined low high c) (hhigh : high ≤ high') :
    Lined low high' c :=
  ⟨h.aligned, h.rising.widen (Nat.le_refl low) hhigh⟩

/-- The last line so far is that of the instruction that is added. -/
theorem Lined.emit (h : Lined low high c) (hlow : low ≤ high) (i : Instruction) :
    Lined low high (c.emit i high) where
  aligned := by
    rw [emit_eq]
    simp [h.aligned, i.length_encode]
  rising := by
    rw [emit_eq, Array.toList_append]
    exact h.rising.append (.replicate i.size (Nat.le_refl high) (Nat.le_refl high)) hlow
      (Nat.le_refl high)

/-- The line of an instruction is the last one once it is written. -/
theorem back?_lines_emit (c : Chunk) (i : Instruction) (line : ℕ) :
    (c.emit i line).lines.back? = some line := by
  have hpos := i.size_pos
  rw [emit_eq, ← Array.getLast?_toList, Array.toList_append,
    List.getLast?_append_of_ne_nil _ (by simp; omega), List.getLast?_replicate]
  exact if_neg (by omega)

/-- There are bytes once an instruction is written. -/
theorem size_emit_pos (c : Chunk) (i : Instruction) (line : ℕ) : 0 < (c.emit i line).size := by
  have hpos := i.size_pos
  rw [emit_eq]
  simp only [size, Array.size_append, List.size_toArray, i.length_encode]
  omega

/-- Interning a value leaves the lines as they are. -/
theorem Lined.intern (h : Lined low high c) (v : Value) : Lined low high (c.intern v).2 := by
  unfold Chunk.intern
  split
  · exact h
  · split
    · exact ⟨h.aligned, h.rising⟩
    · exact h

/-- Setting the operand of a jump leaves the lines as they are. -/
theorem Lined.setWord (h : Lined low high c) (operand : ℕ) (w : UInt16) :
    Lined low high (c.setWord operand w) where
  aligned := by simpa [Chunk.setWord] using h.aligned
  rising := h.rising

/-- The line at any offset is one of those that are written. -/
theorem Lined.lineAt (h : Lined low high c) {offset : ℕ} (hoffset : offset < c.size) :
    low ≤ c.lineAt offset ∧ c.lineAt offset ≤ high := by
  have hin : offset < c.lines.size := h.aligned.symm ▸ hoffset
  have hmem : c.lineAt offset ∈ c.lines.toList := by
    rw [Chunk.lineAt, Array.getD_eq_getD_getElem?, Array.getElem?_eq_getElem hin,
      Option.getD_some]
    exact Array.getElem_mem_toList hin
  exact ⟨h.rising.low_le _ hmem, h.rising.le_high _ hmem⟩

end Chunk

namespace Compile

namespace Draft

variable {last low : ℕ} {s : Draft}

/-- The lines of the tokens never go back, from the token read last to the end of the source, which
stands on the line `last`. -/
structure Forward (last : ℕ) (s : Draft) : Prop where
  begun : 1 ≤ s.previous.line
  ends : s.previous.line ≤ last
  endLine : s.endLine = last
  rising : Rising s.previous.line last (s.upcoming.map Token.line)

/-- The line of the next token is not before that of the token read last. -/
theorem Forward.previous_le_current (h : s.Forward last) : s.previous.line ≤ s.current.line := by
  unfold current
  split
  · rename_i t rest heq
    exact h.rising.low_le _ (by simp [heq])
  · exact h.endLine.symm ▸ h.ends

/-- The line of the next token is not behind that of the end. -/
theorem Forward.current_le (h : s.Forward last) : s.current.line ≤ last := by
  unfold current
  split
  · rename_i t rest heq
    exact h.rising.le_high _ (by simp [heq])
  · exact Nat.le_of_eq h.endLine

/-- Reading moves to the line of the next token. -/
theorem Forward.read (h : s.Forward last) :
    Forward last { s with previous := s.current, upcoming := s.upcoming.tail } where
  begun := Nat.le_trans h.begun h.previous_le_current
  ends := h.current_le
  endLine := h.endLine
  rising := by
    have hrising := h.rising
    dsimp only
    unfold current
    split
    · rename_i t rest heq
      rw [heq, List.map_cons] at hrising
      rw [heq]
      exact hrising.tail
    · rename_i heq
      rw [heq]
      exact .nil

/-- Only the places of the tokens matter. -/
theorem Forward.congr {t : Draft} (h : s.Forward last) (hprevious : t.previous = s.previous)
    (hup : t.upcoming = s.upcoming) (hend : t.endLine = s.endLine) : t.Forward last where
  begun := hprevious ▸ h.begun
  ends := hprevious ▸ h.ends
  endLine := hend.trans h.endLine
  rising := by
    rw [hprevious, hup]
    exact h.rising

/-- Reporting leaves the lines of the tokens as they are. -/
theorem Forward.report (h : s.Forward last) (line : ℕ) (problem : Problem) :
    (s.report line problem).Forward last := by
  obtain ⟨diagnostics, panicking, heq⟩ := s.exists_report line problem
  rw [heq]
  exact h.congr rfl rfl rfl

/-- Skipping a token moves to one that does not stand in front of it. -/
theorem Forward.skip {t : Token} {rest : List Token}
    (h : Forward last { s with upcoming := t :: rest }) :
    Forward last { s with upcoming := rest } ∧
      t.line ≤ (current { s with upcoming := rest }).line := by
  refine ⟨⟨h.begun, h.ends, h.endLine, h.rising.sublist (List.sublist_cons_self ..)⟩, ?_⟩
  have hrest : Rising t.line last (rest.map Token.line) := h.rising.tail
  unfold current
  split
  · rename_i u us heq
    obtain rfl : rest = u :: us := heq
    exact hrest.low_le _ (List.mem_cons_self ..)
  · exact h.endLine.symm ▸ h.rising.le_high _ (List.mem_cons_self ..)

/-- A token that cannot be read is reported and skipped. -/
theorem Forward.report_skip {t : Token} {rest : List Token}
    (h : Forward last { s with upcoming := t :: rest }) (line : ℕ) (problem : Problem) :
    Forward last { s.report line problem with upcoming := rest } := by
  obtain ⟨diagnostics, panicking, heq⟩ := s.exists_report line problem
  rw [heq]
  exact h.skip.1.congr rfl rfl rfl

/-- Advancing goes forward in the lines. -/
theorem Forward.advance (h : s.Forward last) : s.advance.Forward last :=
  settle_of_skip (fun _ _ _ h => h.report_skip _ _) h.read

/-- Tokens that were read are in front of those to come. -/
theorem Forward.of_wrote {s' : Draft} {ts : List Token} {w : Work} (h : s.Forward last)
    (hw : Wrote s ts w s') : s'.Forward last := by
  rcases List.eq_nil_or_concat ts with rfl | ⟨front, t, rfl⟩
  · exact h.congr hw.previous hw.upcoming.symm hw.endLine
  · have hprevious : s'.previous = t := by
      rw [hw.previous, List.concat_eq_append, List.getLast?_concat, Option.getD_some]
    have hrising := h.rising
    rw [hw.upcoming, List.concat_eq_append, List.append_assoc, List.singleton_append] at hrising
    have hmem : t.line ∈ (front ++ t :: s'.upcoming).map Token.line :=
      List.mem_map_of_mem (List.mem_append_right front List.mem_cons_self)
    have hrest : Rising s.previous.line last ((t :: s'.upcoming).map Token.line) :=
      hrising.sublist ((List.sublist_append_right front _).map _)
    refine ⟨?_, ?_, hw.endLine.trans h.endLine, ?_⟩ <;> rw [hprevious]
    · exact Nat.le_trans h.begun (hrising.low_le _ hmem)
    · exact hrising.le_high _ hmem
    · exact hrest.tail

/-- That lines go forward is a property that compiling keeps. -/
theorem forward_keeping (last : ℕ) : Keeping (Forward last) (Forward last) where
  loosen h := h
  advance h := h.advance
  reportMissing h _ := h.report ..
  reportPrevious h _ := h.report ..
  calm h := h.congr rfl rfl rfl
  emit h _ := h.congr rfl rfl rfl
  pool h _ := h.congr rfl rfl rfl
  patch h _ _ := h.congr rfl rfl rfl
  declare h _ := h.congr rfl rfl rfl
  noteTarget h := h.congr rfl rfl rfl

/-- The chunk under construction has the lines of tokens read from the line `low` on. -/
structure Lined (last low : ℕ) (s : Draft) : Prop where
  forward : s.Forward last
  low_le : low ≤ s.previous.line
  lined : s.chunk.Lined low s.previous.line

/-- Reporting leaves the lines of the chunk as they are. -/
theorem Lined.report (h : s.Lined last low) (line : ℕ) (problem : Problem) :
    (s.report line problem).Lined last low := by
  refine ⟨h.forward.report line problem, ?_, ?_⟩ <;>
    obtain ⟨diagnostics, panicking, heq⟩ := s.exists_report line problem <;> rw [heq]
  · exact h.low_le
  · exact h.lined

/-- Advancing leaves the chunk with lines of tokens that were read. -/
theorem Lined.advance (h : s.Lined last low) : s.advance.Lined last low := by
  have hread : Lined last low { s with previous := s.current, upcoming := s.upcoming.tail } :=
    ⟨h.forward.read, Nat.le_trans h.low_le h.forward.previous_le_current,
      h.lined.widen h.forward.previous_le_current⟩
  refine settle_of_skip (fun s t rest h => ?_) hread
  refine ⟨h.forward.report_skip _ _, ?_, ?_⟩ <;>
    obtain ⟨diagnostics, panicking, heq⟩ := s.exists_report t.line (.ofUnreadable t) <;> rw [heq]
  · exact h.low_le
  · exact h.lined

/-- That a chunk has the lines of tokens is a property that compiling keeps. -/
theorem lined_keeping (last low : ℕ) : Keeping (Lined last low) (Lined last low) where
  loosen h := h
  advance h := h.advance
  reportMissing h _ := h.report ..
  reportPrevious h _ := h.report ..
  calm h := ⟨h.forward.congr rfl rfl rfl, h.low_le, h.lined⟩
  emit h i := ⟨h.forward.congr rfl rfl rfl, h.low_le, h.lined.emit h.low_le i⟩
  pool h v := ⟨h.forward.congr rfl rfl rfl, h.low_le, h.lined.intern v⟩
  patch h operand w := ⟨h.forward.congr rfl rfl rfl, h.low_le, h.lined.setWord operand w⟩
  declare h _ := ⟨h.forward.congr rfl rfl rfl, h.low_le, h.lined⟩
  noteTarget h := ⟨h.forward.congr rfl rfl rfl, h.low_le, h.lined⟩

end Draft

namespace Outline

/-- That lines go forward is kept by whole declarations. -/
theorem forward_keeping (last : ℕ) : Keeping (Draft.Forward last) (Draft.Forward last) :=
  .of_write (Draft.forward_keeping last) (fun h _ => h.congr rfl rfl rfl)
    fun h _ _ _ => h.congr rfl rfl rfl

/-- A source begins on its first line, with all its tokens to come. -/
theorem draft_ofSource (source : String) : (ofSource source).draft =
    Draft.settle ⟨⟨.eof, "", 1⟩, [], (Token.ending source).line, #[], false, .empty "", .empty, #[]⟩
      (Token.words source) := by
  unfold ofSource Draft.ofTokens
  dsimp only
  rw [(Token.tokenize_rising source).1, List.dropLast_concat, List.getLast?_concat,
    Option.getD_some]

/-- The tokens of a source are read forward. -/
theorem forward_ofSource (source : String) :
    (ofSource source).draft.Forward (Token.ending source).line := by
  have hending : 1 ≤ (Token.ending source).line := Nat.le_add_right ..
  rw [draft_ofSource]
  exact Draft.settle_of_skip (fun _ _ _ h => h.report_skip _ _)
    ⟨Nat.le_refl 1, hending, rfl, (Token.tokenize_rising source).2⟩

/-- The chunk of a handler is lined from the token at which its block begins to the one that was
read last, on whose line its last instruction stands. -/
theorem handlerChunk_lined {last : ℕ} {s : Draft} (h : s.Forward last) (name : String) :
    (handlerChunk s name).1.Lined s.current.line (handlerChunk s name).2.previous.line ∧
      (handlerChunk s name).1.lines.back? = some (handlerChunk s name).2.previous.line ∧
      0 < (handlerChunk s name).1.size := by
  let begun : Draft := { s with chunk := .empty name }
  have hforward : begun.Forward last := h.congr rfl rfl rfl
  have hlined : begun.advance.Lined last s.current.line := by
    refine ⟨hforward.advance, ?_, ?_⟩ <;>
      obtain ⟨upcoming, diagnostics, panicking, heq⟩ := begun.exists_advance <;> rw [heq]
    · exact Nat.le_refl _
    · exact .empty name
  have hbody := (Draft.lined_keeping last s.current.line).blockBody hlined
  exact ⟨hbody.lined.emit hbody.low_le .ret, Chunk.back?_lines_emit .., Chunk.size_emit_pos ..⟩

end Outline

end Compile

end EntityScript
