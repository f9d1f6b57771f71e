import EntityScript.Proofs.Compile.Written

/-!
# Constants and jumps of a draft

A constant is interned before the instruction that names it is written, at times long before. Its
place stays what it was, so `Wrote.emit` may take the place from the pool at the end.

A jump is written with a distance that stands for none and is corrected when the place that it
leads to is reached. Until then it counts as a jump of the largest distance that fits, and
`Wrote.patch` puts the number of bytes behind it in the place of that distance, or is troubled
because there are too many of them.
-/

namespace EntityScript.Compile.Draft

open Grammar

variable {s s' : Draft} {ts : List Token} {w : Work}

/-- What the pool held before work it holds afterwards. -/
theorem Wrote.mem_pool (h : Wrote s ts w s') {v : Value} (hv : v ∈ s.pool) : v ∈ s'.pool := by
  rw [h.pool]
  exact mem_pooled.2 (.inl hv)

/-- What is in the pool keeps its place. -/
theorem Wrote.slot (h : Wrote s ts w s') {v : Value} (hv : v ∈ s.pool) :
    slot s'.pool v = slot s.pool v := by
  obtain ⟨more, hmore⟩ := exists_pooled_eq_append s.pool w.constants
  rw [h.pool, hmore, Grammar.slot, List.idxOf_append_of_mem hv, Grammar.slot]

/-- An instruction whose constant is in the pool is written at the end of the work. -/
theorem Wrote.emit (h : Wrote s ts w s') {i : Symbolic} (hfits : i.Fits)
    (hpooled : ∀ v, i.constant? = some v → v ∈ s'.pool) :
    Wrote s ts (w ++ .emit [i]) (s'.emit (i.assemble s'.pool)) :=
  h.then (h.ready.emit hfits hpooled)

/-- Instructions without constants and numbers can be written anywhere. -/
theorem Wrote.emitPlain (h : Wrote s ts w s') {i : Symbolic} (hfits : i.Fits)
    (hplain : i.constant? = none) {instruction : Instruction}
    (hi : ∀ pool, i.assemble pool = instruction) :
    Wrote s ts (w ++ .emit [i]) (s'.emit instruction) := by
  rw [← hi s'.pool]
  exact h.emit hfits (by simp [hplain])

/-- An instruction that names a constant may be written with the place that the constant has. -/
theorem Wrote.emitNamed (h : Wrote s ts w s') {i : Symbolic} {v : Value}
    {f : UInt8 → Instruction} (hi : ∀ pool, i.assemble pool = f (Grammar.slot pool v))
    (hconstant : i.constant? = some v) (hfits : i.Fits) (hmem : v ∈ s'.pool) {index : UInt8}
    (hindex : index = Grammar.slot s'.pool v) :
    Wrote s ts (w ++ .emit [i]) (s'.emit (f index)) := by
  rw [hindex, ← hi]
  refine h.emit hfits ?_
  rintro u hu
  rw [hconstant] at hu
  cases hu
  exact hmem

/-- A constant for which there is room is interned and pushed. -/
theorem Ready.emitConstant_of_le (hs : s.Ready) {v : Value}
    (h : (pooled s.pool [v]).length ≤ Chunk.maxConstants) :
    Wrote s [] (.push v) (s.emitConstant v) := by
  obtain ⟨hw, hindex, hmem⟩ := hs.intern_of_le h
  exact hw.emitNamed (i := .constant v) (fun _ => rfl) rfl trivial hmem hindex

/-- A constant is interned and pushed, or something is wrong. -/
theorem Ready.emitConstant_or (hs : s.Ready) (v : Value) :
    (s.emitConstant v).Troubled ∨ Wrote s [] (.push v) (s.emitConstant v) := by
  rcases hs.intern_or v with ht | ⟨hw, hindex, hmem⟩
  · exact .inl (ht.of_leads fun hk => hk.emit _)
  · exact .inr (hw.emitNamed (i := .constant v) (fun _ => rfl) rfl trivial hmem hindex)

/-- As many bytes are written as the chunk has. -/
theorem length_written (s : Draft) : s.written.length = s.chunk.size := rfl

/-- Work adds the size of its code to the bytes that are written. -/
theorem Wrote.length_written (h : Wrote s ts w s') :
    s'.written.length = s.written.length + codeSize w.code := by
  rw [h.written, List.length_append, length_bytes]

/-- Overwriting the operand of a jump. -/
theorem toList_code_setWord {c : Chunk} {front back : List UInt8} {op high low : UInt8}
    (h : c.code.toList = front ++ [op, high, low] ++ back) (d : UInt16) :
    (c.setWord (front.length + 1) d).code.toList
      = front ++ (op :: wordBytes d) ++ back := by
  simp only [Chunk.setWord, Array.toList_setIfInBounds, h, List.append_assoc]
  rw [List.set_append_right _ _ (by omega), List.set_append_right _ _ (by omega),
    Nat.add_sub_cancel_left, Nat.add_assoc, Nat.add_sub_cancel_left]
  simp [wordBytes]

/-- A jump of either kind. -/
inductive IsJump : (ℕ → Symbolic) → (UInt16 → Instruction) → Prop where
  | jump : IsJump .jump .jump
  | jumpIfFalse : IsJump .jumpIfFalse .jumpIfFalse

/-- A jump is written as its opcode and the two bytes of its distance. -/
theorem IsJump.encode {j : ℕ → Symbolic} {i : UInt16 → Instruction} (h : IsJump j i)
    (pool : List Value) : ∃ op : UInt8, ∀ d, ((j d).assemble pool).encode
      = op :: wordBytes (UInt16.ofNat d) := by
  cases h <;> exact ⟨_, fun d => rfl⟩

/-- A jump names no constant. -/
theorem IsJump.constant? {j : ℕ → Symbolic} {i : UInt16 → Instruction} (h : IsJump j i) (d : ℕ) :
    (j d).constant? = none := by
  cases h <;> rfl

/-- A jump fits if its distance has room in a word. -/
theorem IsJump.fits_iff {j : ℕ → Symbolic} {i : UInt16 → Instruction} (h : IsJump j i) (d : ℕ) :
    (j d).Fits ↔ d ≤ 65535 := by
  cases h <;> rfl

/-- A jump takes three bytes, over whatever distance it goes. -/
theorem IsJump.size {j : ℕ → Symbolic} {i : UInt16 → Instruction} (h : IsJump j i) (d : ℕ) :
    (j d).size = 3 := by
  cases h <;> rfl

/-- A jump that is written before its distance is known. -/
theorem Wrote.emitJump {j : ℕ → Symbolic} {i : UInt16 → Instruction} (hj : IsJump j i)
    (h : Wrote s ts w s') :
    (s'.emitJump i).1 = s'.written.length + 1 ∧
      Wrote s ts (w ++ .emit [j 65535]) (s'.emitJump i).2 := by
  have hemit : Wrote s ts (w ++ .emit [j 65535]) (s'.emit (i 65535)) := by
    refine h.emitPlain ((hj.fits_iff _).2 (Nat.le_refl _)) (hj.constant? _) ?_
    cases hj <;> exact fun _ => rfl
  refine ⟨?_, hemit⟩
  have hlength := hemit.length_written
  rw [Work.append_def, codeSize_append, ← Nat.add_assoc, ← h.length_written] at hlength
  change (s'.emit (i 65535)).chunk.size - 2 = _
  rw [← Draft.length_written, hlength]
  simp [Work.emit, hj.size]

/-- A jump is corrected to lead behind everything written after it, if that is not too much. -/
theorem Wrote.patch {j : ℕ → Symbolic} {i : UInt16 → Instruction} (hj : IsJump j i)
    (h : Wrote s ts w s') {a b : List Symbolic} (hcode : w.code = a ++ [j 65535] ++ b)
    {operand : ℕ} (hoperand : operand = s.written.length + codeSize a + 1) :
    (codeSize b ≤ 65535 →
      Wrote s ts { w with code := a ++ [j (codeSize b)] ++ b } (s'.patchJump operand)) ∧
    (65535 < codeSize b → (s'.patchJump operand).Troubled) := by
  have hsize : s'.chunk.size = s.written.length + (codeSize a + 3 + codeSize b) := by
    rw [← Draft.length_written, h.length_written, hcode]
    simp [hj.size, Nat.add_assoc]
  have hdistance : s'.chunk.size - operand - 2 = codeSize b := by omega
  constructor
  · intro hb
    have hpatch : s'.patchJump operand =
        { s' with chunk := s'.chunk.setWord operand (UInt16.ofNat (codeSize b)) } := by
      simp [patchJump, hdistance, Nat.lt_succ_of_le hb]
    rw [hpatch]
    obtain ⟨op, hop⟩ := hj.encode s'.pool
    have hbefore : s'.chunk.code.toList = (s.written ++ bytes s'.pool a)
        ++ (op :: wordBytes (UInt16.ofNat 65535)) ++ bytes s'.pool b := by
      have hwritten := h.written
      rw [hcode, bytes_append, bytes_append, bytes_cons, hop] at hwritten
      simpa [Draft.written] using hwritten
    have hset := toList_code_setWord hbefore (UInt16.ofNat (codeSize b))
    rw [List.length_append, length_bytes, ← hoperand] at hset
    -- All instructions but the jump are the same as before.
    have hold : ∀ x ∈ a ++ [j (codeSize b)] ++ b, x = j (codeSize b) ∨ x ∈ w.code := by
      intro x hx
      rw [hcode]
      simp only [List.mem_append, List.mem_singleton] at hx ⊢
      tauto
    exact {
      upcoming := h.upcoming
      previous := h.previous
      endLine := h.endLine
      ready := ⟨h.ready.diagnostics, h.ready.panicking, h.ready.room⟩
      name := h.name
      pool := h.pool
      pooled := by
        intro x hx v hv
        rcases hold x hx with rfl | hx
        · rw [hj.constant?] at hv
          cases hv
        · exact h.pooled x hx v hv
      written := by
        change (s'.chunk.setWord operand (UInt16.ofNat (codeSize b))).code.toList
          = s.written ++ bytes s'.pool (a ++ [j (codeSize b)] ++ b)
        rw [hset, bytes_append, bytes_append, bytes_cons, hop]
        simp
      fits := by
        intro x hx
        rcases hold x hx with rfl | hx
        · exact (hj.fits_iff _).2 hb
        · exact h.fits x hx
      declared := h.declared
      targets := h.targets }
  · intro hb
    have hpatch : s'.patchJump operand = s'.reportPrevious .tooFarToJump := by
      simp only [patchJump, hdistance]
      rw [if_neg (by omega)]
    rw [hpatch]
    exact h.ready.troubled_report _ _

/-- The beginning of a branch on the topmost value. -/
theorem Wrote.beginBranch (h : Wrote s ts w s') :
    s'.beginBranch.1 = s'.written.length + 1 ∧
      Wrote s ts (w ++ .emit [.jumpIfFalse 65535, .pop]) s'.beginBranch.2 := by
  obtain ⟨hoperand, hw⟩ := h.emitJump .jumpIfFalse
  refine ⟨hoperand, ?_⟩
  have := hw.emitPlain (i := .pop) trivial rfl (fun _ => rfl)
  rwa [Work.append_assoc] at this

/-- The step from one branch to the other. -/
theorem Wrote.switchBranch (h : Wrote s ts w s') {a b : List Symbolic}
    (hcode : w.code = a ++ [.jumpIfFalse 65535] ++ b) {operand : ℕ}
    (hoperand : operand = s.written.length + codeSize a + 1) :
    (s'.switchBranch operand).1 = s'.written.length + 1 ∧
    (codeSize b + 3 ≤ 65535 →
      Wrote s ts { w with
        code := a ++ [.jumpIfFalse (codeSize b + 3)] ++ b ++ [.jump 65535, .pop] }
        (s'.switchBranch operand).2) ∧
    (65535 < codeSize b + 3 → (s'.switchBranch operand).2.Troubled) := by
  obtain ⟨hdone, hw⟩ := h.emitJump .jump
  have hcode' : (w ++ Work.emit [.jump 65535]).code
      = a ++ [.jumpIfFalse 65535] ++ (b ++ [.jump 65535]) := by
    simp [Work.append_def, Work.emit, hcode]
  have hsize : codeSize (b ++ [Symbolic.jump 65535]) = codeSize b + 3 := by
    simp [Symbolic.size]
  obtain ⟨hfit, hfar⟩ := hw.patch .jumpIfFalse hcode' hoperand
  rw [hsize] at hfit hfar
  refine ⟨hdone, fun hb => ?_, fun hb => ?_⟩
  · change Wrote s ts _ (((s'.emitJump .jump).2.patchJump operand).emit .pop)
    have := (hfit hb).emitPlain (i := .pop) trivial rfl (fun _ => rfl)
    simpa [Work.append_def, Work.emit] using this
  · exact (hfar hb).of_leads fun hk => hk.emit _

end EntityScript.Compile.Draft
