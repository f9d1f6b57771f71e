import EntityScript.Proofs.Compile.Calm
import EntityScript.Proofs.Grammar.Emptied

/-!
# Going on behind a missing value

Where an assignment has no value, the semicolon is read in its place and reported. The draft panics,
but the statement is not given up: an operator may still follow, and a minus sign at the beginning
of the next statement does (`Stalled.absorb`). In any case the panic ends behind a semicolon, before
a statement, without a further problem. So the rest of the block is compiled as it would have been
(`resumes`), within the room that the block has for its constants.

A panicking draft compiles like a ready one that has the same pool and as much code, only that it
keeps its problems to itself (`matching_silent`). For the statement behind a missing value the ready
draft is one in which a name stands before the minus sign.
-/

namespace EntityScript

/-- Interning depends on the pool alone, and leaves the code as it is. -/
theorem Chunk.intern_congr {c d : Chunk} (hconstants : d.constants = c.constants)
    (hsize : d.size = c.size) (v : Value) : (d.intern v).1 = (c.intern v).1 ∧
      (d.intern v).2.constants = (c.intern v).2.constants ∧
      (d.intern v).2.size = (c.intern v).2.size := by
  unfold intern
  rw [hconstants]
  cases c.constants.findIdx? (· == v) with
  | some index => exact ⟨rfl, hconstants, hsize⟩
  | none =>
    dsimp only
    split
    · exact ⟨rfl, rfl, hsize⟩
    · exact ⟨rfl, hconstants, hsize⟩

namespace Compile.Draft

open Grammar

/-- The second draft panics and does what the first one does, apart from what it writes. It has kept
what it found and noted before. -/
structure Silent (before s t : Draft) : Prop where
  upcoming : t.upcoming = s.upcoming
  previous : t.previous = s.previous
  endLine : t.endLine = s.endLine
  constants : t.chunk.constants = s.chunk.constants
  size : t.chunk.size = s.chunk.size
  panicking : t.panicking = true
  diagnostics : t.diagnostics = before.diagnostics
  declared : t.declared = before.declared
  targets : t.targets = before.targets

namespace Silent

variable {before s t : Draft}

/-- A silent draft has the next token of the other one. -/
theorem current (h : Silent before s t) : t.current = s.current := by
  unfold Draft.current
  rw [h.upcoming, h.endLine]

/-- A panicking draft reports nothing. -/
theorem report (h : Silent before s t) (line line' : ℕ) (problem : Problem) :
    Silent before (s.report line problem) (t.report line' problem) := by
  have ht : t.report line' problem = t := if_pos h.panicking
  rw [ht]
  unfold Draft.report
  split
  · exact h
  · exact ⟨h.upcoming, h.previous, h.endLine, h.constants, h.size, h.panicking, h.diagnostics,
      h.declared, h.targets⟩

/-- Passing unreadable tokens keeps a draft silent. -/
theorem settle (h : Silent before s t) (tokens : List Token) :
    Silent before (s.settle tokens) (t.settle tokens) := by
  induction tokens generalizing s t with
  | nil => exact ⟨rfl, h.previous, h.endLine, h.constants, h.size, h.panicking, h.diagnostics,
      h.declared, h.targets⟩
  | cons u rest ih =>
    rw [Draft.settle, Draft.settle]
    split
    · exact ih (h.report ..)
    · exact ⟨rfl, h.previous, h.endLine, h.constants, h.size, h.panicking, h.diagnostics,
        h.declared, h.targets⟩

/-- Advancing keeps a draft silent. -/
theorem advance (h : Silent before s t) : Silent before s.advance t.advance := by
  have hread : Silent before { s with previous := s.current } { t with previous := t.current } :=
    ⟨h.upcoming, h.current, h.endLine, h.constants, h.size, h.panicking, h.diagnostics, h.declared,
      h.targets⟩
  have hsettle := hread.settle s.upcoming.tail
  have htail : t.upcoming.tail = s.upcoming.tail := by rw [h.upcoming]
  unfold Draft.advance
  rw [htail]
  exact hsettle

/-- Chunks with equal constants and sizes may be written to both drafts. -/
theorem write (h : Silent before s t) {c d : Chunk} (hconstants : d.constants = c.constants)
    (hsize : d.size = c.size) : Silent before { s with chunk := c } { t with chunk := d } :=
  ⟨h.upcoming, h.previous, h.endLine, hconstants, hsize, h.panicking, h.diagnostics, h.declared,
    h.targets⟩

/-- Interning a value keeps a silent draft in step. -/
theorem intern (h : Silent before s t) (v : Value) :
    InStep (Silent before) (s.intern v) (t.intern v) := by
  obtain ⟨hindex, hconstants, hsize⟩ := Chunk.intern_congr h.constants h.size v
  unfold Draft.intern
  rcases hs : s.chunk.intern v with ⟨_ | index, c⟩ <;>
    rcases ht : t.chunk.intern v with ⟨_ | index', d⟩ <;> rw [hs, ht] at hindex hconstants hsize
  · exact ⟨rfl, (h.write hconstants hsize).report ..⟩
  · cases hindex
  · cases hindex
  · cases hindex
    exact ⟨rfl, h.write hconstants hsize⟩

/-- Patching a jump keeps a draft silent. -/
theorem patchJump (h : Silent before s t) (operand : ℕ) :
    Silent before (s.patchJump operand) (t.patchJump operand) := by
  unfold Draft.patchJump
  dsimp only
  rw [h.size]
  split
  · refine h.write h.constants ?_
    have hsize := h.size
    simpa [Chunk.setWord, Chunk.size] using hsize
  · exact h.report ..

end Silent

/-- A panicking draft compiles like another one. -/
theorem matching_silent (before : Draft) : Matching (Silent before) where
  current h := by rw [h.current]
  previous h := by rw [h.previous]
  size h := h.size
  advance h := h.advance
  reportPrevious h problem := h.report _ _ problem
  reportMissing {s t} h wanted := by
    unfold reportMissing
    rw [h.current]
    exact h.report ..
  emit {s t} h i := h.write
    (by
      rw [Chunk.emit_eq, Chunk.emit_eq]
      exact h.constants)
    (by
      have hs := size_emit s i
      have ht := size_emit t i
      rw [h.size] at ht
      exact ht.trans hs.symm)
  intern h v := h.intern v
  patchJump h operand := h.patchJump operand

/-- What is reported where an assignment ends before its value. -/
def missingValue (z : Token) : Diagnostic := ⟨z.line, .missingAt .expression z⟩

/-- A draft that no longer panics. -/
def calmed (s : Draft) : Draft := { s with panicking := false }

/-- What remains of an expression statement behind its first operand, and of the panic. -/
def endStatement (s : Draft) : Draft :=
  (((closeAt .assignment (continuations .assignment s).1).expect .semicolon .expressionEnd).2.emit
    .pop).recover

/-- Behind a semicolon a statement may begin at once. -/
theorem recover_of_semicolon {s : Draft} (hpanicking : s.panicking = true)
    (h : s.previous.kind = .semicolon) : s.recover = s.calmed := by
  have hkind : s.calmed.previous.kind = .semicolon := h
  have hskip : s.calmed.skipStatement = s.calmed := by
    rw [skipStatement]
    split <;> rfl
  rw [recover, if_pos hpanicking]
  exact hskip

/-- A draft panics behind a semicolon, with the name of the assignment in its pool and an
instruction for it in the code. -/
structure Stalled (s : Draft) (name : String) : Prop where
  panicking : s.panicking = true
  previous : s.previous.kind = .semicolon
  pool : Value.string name ∈ s.pool
  size : 2 ≤ s.chunk.size

variable {K : List Value} {s : Draft} {ts us rest : List Token} {v w : Work}

/-- Work is afforded if other work is that needs the same constants and notes the same. -/
theorem Affords.exchange {a : List Token} (h : Affords K s ts rest w) (hts : ts = a)
    (hconstants : v.constants = w.constants) (hfits : ∀ i ∈ v.code, i.Fits)
    (hannotations : v.annotations = w.annotations) : Affords K s a rest v where
  calm := h.calm
  upcoming := hts ▸ h.upcoming
  constants := hconstants ▸ h.constants
  fits := hfits
  types name type type' ht ht' :=
    h.types name type type' (ht.imp_right (hannotations ▸ ·)) (ht'.imp_right (hannotations ▸ ·))

/-- One more problem is found. -/
theorem Passed.found {s₁ : Draft} {ds : List Diagnostic} (h : Passed K s ts w ds s₁)
    (d : Diagnostic) :
    Passed K s ts w (ds ++ [d]) { s₁ with diagnostics := s₁.diagnostics.push d } where
  upcoming := h.upcoming
  calm := ⟨h.calm.panicking, h.calm.clear, h.calm.nodup, h.calm.pool, h.calm.room⟩
  size := h.size
  declared := h.declared
  targets := h.targets
  diagnostics := by simp [h.diagnostics]

/-- An assignment without a value is read and written up to its semicolon as from a ready draft.
There the missing value is reported, and the instruction for the name follows. -/
theorem Affords.gap_operand {name : String} {ns : List Token} {q z : Token} (hname : Name name ns)
    (hq : q.kind = .equal) (hz : z.kind = .semicolon)
    (h : Affords K s (ns ++ [q, z]) rest
      (.intern (.string name) ++ .emit [.setVariable name])) :
    ∃ (s₁ : Draft) (index : UInt8), Wrote s.unmarked (ns ++ [q, z]) (.intern (.string name)) s₁ ∧
      .string name ∈ s₁.pool ∧ s₁.previous = z ∧ Operand.ofKind? s.current.kind = some .name ∧
      (operand .name true s.advance).1 = (Draft.emit { s₁ with
        diagnostics := s₁.diagnostics.push (missingValue z), panicking := true }
        (.setVariable index)).behind s.diagnostics := by
  have hprepared := h.prepared.congr rfl (Work.none_append _).symm
  obtain ⟨s₁, hw₁, hvariable, hoperand, -⟩ := hprepared.first.name hname
  obtain ⟨hw₂, -, hmem, h₂⟩ := (hprepared.second hw₁ rfl rfl).intern
  obtain ⟨hw₃, -, h₃⟩ := h₂.advance
  obtain ⟨hw₄, hprevious, -⟩ := h₃.advance
  have hassign : (operand .name true s.unmarked.advance).1
      = (s₁.intern (.string name)).2.advance.expression.emit
        (.setVariable (s₁.intern (.string name)).1) := by
    rw [operand_name, hvariable]
    exact if_pos ⟨rfl, h₂.sees hq⟩
  have hw := hw₁.trans (hw₂.trans (hw₃.trans hw₄))
  have hmem₄ := (hw₃.trans hw₄).mem_pool hmem
  generalize (s₁.intern (.string name)).2.advance = s₃ at *
  have hnone : Operand.ofKind? s₃.current.kind = none := by
    rw [h₃.current, hz]
    rfl
  have hvalue : s₃.expression = { s₃.advance with
      diagnostics := s₃.advance.diagnostics.push (missingValue z), panicking := true } := by
    change (expressionAt .assignment s₃).1 = _
    rw [expressionAt_of_none hnone]
    subst hprevious
    exact if_neg (by simp [hw.ready.panicking])
  have hbehind := (statementMatching_behind s.diagnostics).expression_family.2.1 .name true _ _
    ((statementMatching_behind s.diagnostics).advance s.behind_unmarked)
  rw [hassign, hvalue] at hbehind
  exact ⟨s₃.advance, _, hw.congr (by simp) rfl, hmem₄, hprevious, hoperand, hbehind⟩

/-- An assignment without a value is reported, and its statement goes on. -/
theorem Affords.gap {name : String} {ns : List Token} {q z : Token} (hname : Name name ns)
    (hq : q.kind = .equal) (hz : z.kind = .semicolon)
    (h : Affords K s (ns ++ [q, z]) rest
      (.intern (.string name) ++ .emit [.setVariable name])) :
    ∃ u : Draft, s.statement.1.recover = u.endStatement ∧ u.Stalled name ∧
      Passed K s (ns ++ [q, z]) (.intern (.string name) ++ .emit [.setVariable name])
        [missingValue z] u.calmed := by
  obtain ⟨s₁, index, hw, hmem, hprevious, hoperand, hbehind⟩ := h.gap_operand hname hq hz
  refine ⟨(operand .name true s.advance).1, ?_, ?_, ?_⟩
  · have hbegins : ¬ beginsOther s.current.kind = true :=
      not_beginsOther_of_isSome (by rw [hoperand]; rfl)
    have hexpression : s.expression
        = closeAt .assignment (continuations .assignment (operand .name true s.advance).1).1 :=
      expressionAt_of_some hoperand
    rw [statement_expression hbegins, expressionStatement, hexpression]
    rfl
  · rw [hbehind]
    exact {
      panicking := rfl
      previous := hprevious ▸ hz
      pool := by
        change _ ∈ (Draft.emit _ _).pool
        rw [pool_emit]
        exact hmem
      size := by
        change 2 ≤ (Draft.emit _ _).chunk.size
        rw [size_emit]
        exact Nat.le_add_left ..}
  · have hfirst := Affords.first (b := []) (h.congr (List.append_nil _).symm rfl)
    have hpassed := ((hfirst.passed hw).found (missingValue z)).emit
      (i := .setVariable index) (c := [.setVariable name]) rfl
    have hcalmed : (operand .name true s.advance).1.calmed = ({ s₁.behind s.diagnostics with
        diagnostics := (s₁.behind s.diagnostics).diagnostics.push (missingValue z) }).emit
          (.setVariable index) := by
      rw [hbehind]
      simp [calmed, behind, Draft.emit, hw.ready.panicking]
    rw [hcalmed]
    exact hpassed

/-- A ready draft with a name before the tokens to come, and without the instruction for it. -/
def rewound (s : Draft) (ns : List Token) : Draft :=
  { s with
    upcoming := ns ++ s.upcoming
    diagnostics := #[]
    panicking := false
    chunk := { s.chunk with code := s.chunk.code.extract 0 (s.chunk.size - 2) } }

/-- A rewound draft is shorter by the instruction for the name. -/
theorem size_rewound (s : Draft) (ns : List Token) :
    (s.rewound ns).chunk.size = s.chunk.size - 2 := by
  simp [rewound, Chunk.size]

/-- A name before the tokens to come is clear of mistakes. -/
theorem readable_of_name {name : String} {ns : List Token} (h : Name name ns) :
    ∀ t ∈ ns, t.kind ≠ .error ∧ t.Readable := by
  have hplain : ∀ t : Token, t.kind = .identifier ∨ t.kind = .dot →
      t.kind ≠ .error ∧ t.Readable := by
    rintro t (hk | hk) <;> refine ⟨by rw [hk]; decide, ?_, ?_⟩ <;> rw [hk] <;> exact nofun
  cases h with
  | plain kind _ => simpa using hplain _ (.inl kind)
  | argument akind _ dkind kind =>
    simpa using ⟨hplain _ (.inl akind), hplain _ (.inr dkind), hplain _ (.inl kind)⟩

variable {name : String} {ns : List Token} {e : Expression} {m z : Token}

/-- Behind the name, the rewound draft has the pool of the stalled one and as much code. -/
theorem Stalled.exists_named (hs : s.Stalled name) (hname : Name name ns)
    (h : Prepared (s.rewound ns) (ns ++ ts) rest w) (hnext : nextKind (ts ++ rest) ≠ .equal) :
    ∃ v : Draft, (s.rewound ns).expression
        = closeAt .assignment (continuations .assignment v).1 ∧
      v.upcoming = ts ++ rest ∧ v.endLine = s.endLine ∧ v.pool = s.pool ∧
      v.chunk.size = s.chunk.size := by
  have h' := h.congr rfl (Work.none_append _).symm
  obtain ⟨s₁, hw₁, hvariable, hoperand, h₁⟩ := h'.first.name hname
  have hmem : Value.string name ∈ s₁.pool := by
    rw [hw₁.pool]
    exact hs.pool
  have hpool : pooled s₁.pool [.string name] = s₁.pool := if_pos hmem
  obtain ⟨hw₂, hindex, hmem₂⟩ := h₁.ready.intern_of_le (v := .string name) (by
    rw [hpool]
    exact h₁.ready.room)
  have hw₃ := hw₂.emitNamed (i := .getVariable name) (fun _ => rfl) rfl trivial hmem₂ hindex
  have hw := hw₁.trans hw₃
  have hupcoming : (s₁.intern (.string name)).2.upcoming = ts ++ rest := by
    have hup := (hw₁.trans hw₂).upcoming
    rw [h.upcoming, List.append_nil, List.append_assoc] at hup
    exact (List.append_cancel_left hup).symm
  refine ⟨(s₁.intern (.string name)).2.emit (.getVariable (s₁.intern (.string name)).1), ?_,
    hupcoming, hw.endLine, ?_, ?_⟩
  · have hsees : ¬ (s₁.intern (.string name)).2.sees .equal = true :=
      sees_of_ne (by rwa [hupcoming])
    have hget : (operand .name true (s.rewound ns).advance).1 = (s₁.intern (.string name)).2.emit
        (.getVariable (s₁.intern (.string name)).1) := by
      rw [operand_name, hvariable]
      exact if_neg fun hand => hsees hand.2
    rw [← hget]
    exact expressionAt_of_some hoperand
  · rw [pool_emit, hw₂.pool]
    exact hpool.trans hw₁.pool
  · have hlength := hw.length_written
    rw [length_written, length_written, size_rewound] at hlength
    have := hs.size
    simp [Symbolic.size, Work.append_def] at hlength
    omega

/-- What is left of the statement is compiled in step with the rewound draft. -/
theorem Stalled.silent (hs : s.Stalled name) (hname : Name name ns) (hm : m.kind = .minus)
    (hclear : s.Clear) (hupcoming : s.upcoming = m :: (us ++ rest))
    (h : Prepared (s.rewound ns) (ns ++ m :: us) rest w) :
    Silent s (s.rewound ns).expression
      (closeAt .assignment (continuations .assignment s).1) := by
  have hne : nextKind (m :: us ++ rest) ≠ .equal := by
    change m.kind ≠ .equal
    rw [hm]
    decide
  obtain ⟨v, hexpression, hup, hend, hpool, hsize⟩ := hs.exists_named hname h hne
  have hhead : ∀ t, (us ++ rest).head? = some t → t.kind ≠ .error := hclear.head? hupcoming
  have hread : Silent s v.advance s.advance := by
    rw [advance_eq hup hhead, advance_eq hupcoming hhead]
    exact ⟨rfl, rfl, hend.symm, (Array.toList_inj.1 hpool).symm, hsize.symm, hs.panicking, rfl, rfl,
      rfl⟩
  have hkind : ∀ u : Draft, u.upcoming = m :: (us ++ rest) →
      Continuation.ofKind? u.current.kind = some (.binary .subtract) := by
    intro u hu
    rw [current_kind, hu]
    change Continuation.ofKind? m.kind = _
    rw [hm]
    rfl
  rw [hexpression, continuations_of_tight (hkind v hup) (by decide),
    continuations_of_tight (hkind s hupcoming) (by decide)]
  have hmatching := matching_silent s
  exact hmatching.closeAt (hmatching.continuations (hmatching.continuation hread _) _) _

/-- The rewound draft is ready for what continues the name. -/
theorem Stalled.prepared {e' : Expression} (hs : s.Stalled name) (hname : Name name ns)
    (hlighter : Lighter [.string name] 3 e e') (h : Affords K s.calmed (ts ++ us) rest w)
    (hw : e.constants ⊆ K) (hfits : ∀ i ∈ e.code, i.Fits) :
    Prepared (s.rewound ns) (ns ++ ts) (us ++ rest) e'.work ∧ e'.constants ⊆ K := by
  have hconstants : e'.constants ⊆ K := by
    rw [hlighter.constants]
    exact List.cons_subset.2 ⟨h.calm.pool hs.pool, hw⟩
  have hupcoming : s.upcoming = ts ++ us ++ rest := h.upcoming
  exact ⟨{
    ready := ⟨rfl, rfl, h.calm.length_le (List.nil_subset K)⟩
    clear := by
      intro t ht
      obtain ht | ht := List.mem_append.1 ht
      · exact readable_of_name hname t ht
      · exact h.calm.clear t ht
    upcoming := by simp [rewound, hupcoming]
    room := h.calm.length_le hconstants
    fits := hlighter.fits hfits
    types := fun _ _ _ => Typed.unique rfl }, hconstants⟩

/-- A statement that ends in a panic ends before the next one all the same. -/
theorem recover_of_panicking (hpanicking : s.panicking = true) (hup : s.upcoming = z :: rest)
    (hz : z.kind = .semicolon) (hrest : ∀ t, rest.head? = some t → t.kind ≠ .error) :
    ((s.expect .semicolon .expressionEnd).2.emit .pop).recover
      = (Draft.emit { s with previous := z, upcoming := rest } .pop).calmed := by
  have hsees : s.sees .semicolon = true := by
    rw [sees, current_kind, hup]
    exact beq_iff_eq.2 hz
  have hread : (s.expect .semicolon .expressionEnd).2
      = { s with previous := z, upcoming := rest } := by
    rw [expect, if_pos hsees]
    exact advance_eq hup hrest
  rw [hread]
  exact recover_of_semicolon hpanicking hz

/-- A statement that begins with a minus sign is read to its end as what is subtracted from the
name, without a further problem. -/
theorem Stalled.subtract {e' : Expression} (hs : s.Stalled name) (hname : Name name ns)
    (hm : m.kind = .minus) (hz : z.kind = .semicolon)
    (hphrase : Phrase .assignment e' (ns ++ m :: us))
    (hlighter : Lighter [.string name] 3 e e') (hl : e.Legal)
    (h : Affords K s.calmed (m :: us ++ [z]) rest (.emit [.pop] ++ (Statement.evaluate e).work)) :
    Passed K s.calmed (m :: us ++ [z]) (.emit [.pop] ++ (Statement.evaluate e).work) []
      s.endStatement ∧ s.endStatement.pool = pooled s.pool e'.constants := by
  obtain ⟨hprepared, hconstants⟩ := hs.prepared hname hlighter h h.constants
    fun i hi => h.fits i (by simp [Statement.work, Statement.code, hi])
  have hnext : nextKind ([z] ++ rest) = .semicolon := hz
  -- A ready draft reads a difference from the name on, and the panicking one goes along with it.
  have hw := hprepared.expression hphrase (hlighter.legal hl) (by rw [hnext]; rfl)
    (by rw [hnext]; decide)
  have hclear : ∀ t ∈ rest, t.kind ≠ .error ∧ t.Readable :=
    fun t ht => h.calm.clear t (h.upcoming ▸ List.mem_append_right _ ht)
  have hsilent := hs.silent hname hm h.calm.clear (h.upcoming.trans (by simp)) hprepared
  have hpool := hw.pool
  have hlength := hw.length_written
  have hrest : (s.rewound ns).expression.upcoming = z :: rest := hprepared.rest_upcoming hw
  rw [length_written, length_written, size_rewound, ← hsilent.size] at hlength
  generalize (s.rewound ns).expression = v at hsilent hpool hrest
  rw [endStatement, recover_of_panicking hsilent.panicking (hsilent.upcoming.trans hrest) hz
    fun t ht => (hclear t (List.mem_of_mem_head? ht)).1]
  generalize closeAt .assignment (continuations .assignment s).1 = t at hsilent hlength
  have hend : ((Draft.emit { t with previous := z, upcoming := rest } .pop).calmed).pool
      = pooled s.pool e'.constants := by
    refine (pool_emit _ _).trans (Eq.trans ?_ hpool)
    rw [Draft.pool, hsilent.constants]
    rfl
  refine ⟨?_, hend⟩
  exact {
    upcoming := h.upcoming
    calm := {
      panicking := rfl
      clear := hclear
      nodup := hend ▸ nodup_pooled h.calm.nodup _
      pool := by
        intro v hv
        rw [hend] at hv
        exact (mem_pooled.1 hv).elim (fun hv => h.calm.pool hv) fun hv => hconstants hv
      room := h.calm.room }
    size := by
      have hsize : ((Draft.emit { t with previous := z, upcoming := rest } .pop).calmed).chunk.size
          = t.chunk.size + 1 := size_emit _ _
      have hwork : codeSize (Work.emit [.pop] ++ (Statement.evaluate e).work).code
          = 1 + (codeSize e.code + 1) := by
        simp [Work.append_def, Statement.work, Statement.code, Symbolic.size]
      have hle := hlighter.size
      have htwo := hs.size
      have hcalmed : s.calmed.chunk.size = s.chunk.size := rfl
      have hcode : codeSize e'.work.code = codeSize e'.code := rfl
      omega
    declared := by
      have hdeclared : t.declared = s.declared := hsilent.declared
      simp [calmed, Draft.emit, hdeclared, Work.append_def, Statement.work, Statement.annotations]
    targets := by
      have htargets : t.targets = s.targets := hsilent.targets
      simp [calmed, Draft.emit, htargets, Work.append_def, Statement.work, Statement.targets]
    diagnostics := by
      have hdiagnostics : t.diagnostics = s.diagnostics := hsilent.diagnostics
      simp [calmed, Draft.emit, hdiagnostics] }

/-- Any statement that begins with a minus sign is read to its end. -/
theorem Stalled.absorb (hs : s.Stalled name) (hname : Name name ns) (hm : m.kind = .minus)
    (hz : z.kind = .semicolon) (hp : Phrase .assignment e (m :: us)) (hl : e.Legal)
    (h : Affords K s.calmed (m :: us ++ [z]) rest
      (.emit [.pop] ++ (Statement.evaluate e.unsigned).work)) :
    Passed K s.calmed (m :: us ++ [z]) (.emit [.pop] ++ (Statement.evaluate e.unsigned).work) []
      s.endStatement := by
  obtain ⟨e', hphrase, hlighter⟩ := hp.continued hname hm (by decide)
  exact (hs.subtract hname hm hz hphrase hlighter hl.unsigned h).1

/-- A statement that no operator continues ends at once. -/
theorem endStatement_of_stops (hpanicking : s.panicking = true) (hz : s.previous.kind = .semicolon)
    (hnone : Continuation.ofKind? s.current.kind = none) (hne : s.current.kind ≠ .equal)
    (hsemicolon : s.current.kind ≠ .semicolon) : s.endStatement = s.calmed.emit .pop := by
  have hmissing : (s.expect .semicolon .expressionEnd).2 = s := by
    have hsees : ¬ s.sees .semicolon = true := by simpa [sees] using hsemicolon
    rw [expect, if_neg hsees]
    exact if_pos hpanicking
  rw [endStatement, continuations_of_none hnone, closeAt_of_ne _ hne, hmissing]
  exact recover_of_semicolon (s := s.emit .pop) hpanicking hz

/-- An emptied statement that is read as a whole has a first token that begins a statement. -/
theorem exists_begin_of_emptied {stmt left : Statement} {zs : List Token}
    (h : Emptied .statement stmt left ts zs) : ∃ t us, ts = t :: us ∧ beginsStatement t.kind := by
  cases h with
  | whole clause => exact exists_begin_of_clause clause
  | conditional inner =>
    cases inner with
    | branch word _ _ _ _ _ => exact ⟨_, _, rfl, .inl (by rw [word]; rfl)⟩
  | block opening _ _ => exact ⟨_, _, rfl, .inl (by rw [opening]; rfl)⟩

/-- A name begins with an identifier. -/
theorem exists_begin_of_name (h : Name name ns) : ∃ t us, ns = t :: us ∧ t.kind = .identifier := by
  cases h with
  | plain kind _ => exact ⟨_, _, rfl, kind⟩
  | argument akind _ _ _ => exact ⟨_, _, rfl, akind⟩

/-- What may stand behind a statement of a block. -/
def followsStatement (kind : Token.Kind) : Prop := kind = .rightBrace ∨ beginsStatement kind

/-- What follows a statement begins no other branch. -/
theorem followsStatement.ne_else {kind : Token.Kind} (h : followsStatement kind) :
    kind ≠ .elseWord := by
  obtain rfl | h := h
  · decide
  · exact h.ne_else

/-- What follows a statement, but a minus sign, continues no phrase and ends no statement. -/
theorem followsStatement.stops {kind : Token.Kind} (h : followsStatement kind)
    (hminus : kind ≠ .minus) :
    Continuation.ofKind? kind = none ∧ kind ≠ .equal ∧ kind ≠ .semicolon := by
  obtain rfl | h | h := h
  · decide
  all_goals cases kind <;> revert h hminus <;> decide

/-- In front of a closing brace, what is left of a body begins with what may follow a statement. -/
theorem followsStatement_of_body {stmt left : Statement} {zs : List Token} {r : Token}
    (h : Emptied .body stmt left ts zs) (hr : r.kind = .rightBrace) :
    followsStatement (nextKind (ts ++ r :: rest)) := by
  cases h with
  | done => exact .inl hr
  | next head _ =>
    obtain ⟨t, us, rfl, ht⟩ := exists_begin_of_emptied head
    exact .inr ht
  | gap target _ _ _ =>
    obtain ⟨t, us, rfl, ht⟩ := exists_begin_of_name target
    refine .inr (.inr ?_)
    change (Operand.ofKind? t.kind).isSome = true
    rw [ht]
    rfl

/-- A block is read to its end, with one report for each missing value. -/
def ResumesCalm (K : List Value) (left : Statement) (ts zs : List Token) : Prop :=
  ∀ s r rest, r.kind = .rightBrace → Affords K s (ts ++ [r]) rest left.work →
    Passed K s (ts ++ [r]) left.work (zs.map missingValue) s.blockBody.1

/-- A block is read to its end behind a missing value, with one report for each further one. -/
def ResumesStalled (K : List Value) (left : Statement) (ts zs : List Token) : Prop :=
  ∀ s name ns r rest, Stalled s name → Name name ns → r.kind = .rightBrace →
    Affords K s.calmed (ts ++ [r]) rest (.emit [.pop] ++ (left.behindGap ts).work) →
    Passed K s.calmed (ts ++ [r]) (.emit [.pop] ++ (left.behindGap ts).work) (zs.map missingValue)
      s.endStatement.blockBody.1

/-- What it means that emptied statements are compiled to their end, by the site that they have. The
work that is done is that of what is left of them. -/
def Resumes (K : List Value) : Site → Statement → List Token → List Token → Prop
  | .statement, left, ts, zs => ∀ s rest, Affords K s ts rest left.work →
    nextKind rest ≠ .elseWord → Passed K s ts left.work (zs.map missingValue) s.statement.1
  | .body, left, ts, zs => ResumesCalm K left ts zs ∧ ResumesStalled K left ts zs
  | .conditional, left, ts, zs => ∀ s rest w us, ts = w :: us → Affords K s us rest left.work →
    nextKind rest ≠ .elseWord → Passed K s us left.work (zs.map missingValue) s.ifTail.1
  | .alternative, left, ts, zs => ∀ s rest, Affords K s ts rest left.work →
    nextKind rest ≠ .elseWord → Passed K s ts left.work (zs.map missingValue) s.elseTail.1

variable {first first' more more' stmt left : Statement} {xs ys zs : List Token}

/-- Where no minus sign follows, the statement with the missing value ends at once. -/
theorem ResumesCalm.stalled (h : Emptied .body stmt left ts zs) (hcalm : ResumesCalm K left ts zs)
    (hminus : ¬ Begins .minus ts) : ResumesStalled K left ts zs := by
  intro s name ns r rest hs _ hr ha
  have hleft : left.behindGap ts = left := by
    unfold Statement.behindGap
    split
    · exact if_neg fun hm => hminus (congrArg some hm)
    · rfl
  rw [hleft] at ha ⊢
  have hkind : s.current.kind = nextKind (ts ++ r :: rest) := by
    have hup : s.upcoming = ts ++ [r] ++ rest := ha.upcoming
    rw [current_kind, hup, List.append_assoc]
    rfl
  have hnext : nextKind (ts ++ r :: rest) ≠ .minus := by
    cases ts with
    | nil => exact fun hk => absurd (hr.symm.trans hk) (by decide)
    | cons t ts => exact fun hk => hminus (congrArg some hk)
  obtain ⟨hnone, hne, hsemicolon⟩ := (followsStatement_of_body h hr).stops hnext
  rw [← hkind] at hnone hne hsemicolon
  rw [endStatement_of_stops hs.panicking hs.previous hnone hne hsemicolon]
  have hpop : Passed K s.calmed [] (.emit [.pop]) [] (s.calmed.emit .pop) :=
    (Passed.refl ha.calm).emit (c := [.pop]) rfl
  exact hpop.trans (hcalm _ r rest hr (Affords.second (a := []) ha hpop))

/-- A block goes on with the statement in front. If that begins with a minus sign, it belongs to
what the missing value is subtracted from. -/
theorem Resumes.next (head : Emptied .statement first first' ts xs)
    (tail : Emptied .body more more' us ys) (ih₁ : Resumes K .statement first' ts xs)
    (ih₂ : Resumes K .body more' us ys) (hl : first.Legal) :
    Resumes K .body (.seq first' more') (ts ++ us) (xs ++ ys) := by
  have hcalm : ResumesCalm K (.seq first' more') (ts ++ us) (xs ++ ys) := by
    intro s r rest hr h
    obtain ⟨t, vs, hts, hbegin⟩ := exists_begin_of_emptied head
    have hcurrent : s.current.kind = t.kind := by
      rw [current_kind, h.upcoming, hts]
      rfl
    rw [blockBody_of_not_ends (by rw [hcurrent]; exact hbegin.not_ends)]
    have h' := h.congr (a := ts ++ (us ++ [r])) (by simp) (v := first'.work ++ more'.work) rfl
    have hnext : nextKind ((us ++ [r]) ++ rest) ≠ .elseWord := by
      rw [List.append_assoc]
      exact (followsStatement_of_body tail hr).ne_else
    have hp₁ := ih₁ s _ h'.first hnext
    rw [hp₁.calm.recover]
    exact (hp₁.trans (ih₂.1 _ r rest hr (h'.second hp₁))).congr (by simp) (by simp)
      (Nat.le_refl _) rfl rfl
  refine ⟨hcalm, ?_⟩
  by_cases hminus : Begins .minus ts
  · obtain ⟨e, m, vs, z, rfl, rfl, rfl, rfl, hm, hz, hp⟩ := head.exists_phrase_of_minus hminus
    intro s name ns r rest hs hname hr h
    have hleft : (Statement.seq (.evaluate e) more').behindGap (m :: vs ++ [z] ++ us)
        = .seq (.evaluate e.unsigned) more' := if_pos hm
    rw [hleft] at h ⊢
    have h' := h.congr (a := (m :: vs ++ [z]) ++ (us ++ [r])) (by simp)
      (v := (.emit [.pop] ++ (Statement.evaluate e.unsigned).work) ++ more'.work) rfl
    have hp₁ := hs.absorb hname hm hz hp hl h'.first
    exact (hp₁.trans (ih₂.1 _ r rest hr (h'.second hp₁))).congr (by simp) (by simp)
      (Nat.le_refl _) rfl rfl
  · refine hcalm.stalled (.next head tail) fun hm => hminus ?_
    obtain ⟨t, vs, rfl, -⟩ := exists_begin_of_emptied head
    exact hm

/-- A block goes on behind an assignment without a value, which is reported. -/
theorem Resumes.gap {q : Token} (target : Name name ts) (hq : q.kind = .equal)
    (hz : z.kind = .semicolon) (tail : Emptied .body more more' us zs)
    (ih : Resumes K .body more' us zs) :
    Resumes K .body (.seq (.evaluate (.var name)) (more'.behindGap us)) (ts ++ q :: z :: us)
      (z :: zs) := by
  obtain ⟨t, vs, hts, hidentifier⟩ := exists_begin_of_name target
  have hcalm : ResumesCalm K (.seq (.evaluate (.var name)) (more'.behindGap us))
      (ts ++ q :: z :: us) (z :: zs) := by
    intro s r rest hr h
    have hcurrent : s.current.kind = .identifier := by
      rw [current_kind, h.upcoming, hts]
      exact hidentifier
    rw [blockBody_of_not_ends (by rw [hcurrent]; decide)]
    have hfits : ∀ i ∈ (more'.behindGap us).code, i.Fits := fun i hi =>
      h.fits i (List.mem_append_right _ hi)
    have h' := h.exchange (a := (ts ++ [q, z]) ++ (us ++ [r])) (by simp)
      (v := (.intern (.string name) ++ .emit [.setVariable name])
        ++ (.emit [.pop] ++ (more'.behindGap us).work)) rfl
      (by
        simp only [Work.append_def, Work.intern, Work.emit, List.nil_append, List.forall_mem_append,
          List.forall_mem_singleton]
        exact ⟨trivial, trivial, hfits⟩) rfl
    obtain ⟨u, hrecover, hstalled, hp⟩ := h'.first.gap target hq hz
    have htail := ih.2 u name ts r rest hstalled target hr (h'.second hp)
    rw [hrecover]
    exact (hp.trans htail).congr (by simp) rfl (Nat.le_refl _) rfl rfl
  have hemptied := Emptied.gap (e := .var name) target hq hz tail
  refine ⟨hcalm, hcalm.stalled hemptied ?_⟩
  rw [hts]
  exact fun hm => absurd (hidentifier.symm.trans (Option.some.inj hm)) (by decide)

/-- The operand of the jump that begins a branch stands behind its opcode. -/
theorem fst_beginBranch (s : Draft) : s.beginBranch.1 = s.chunk.size + 1 := by
  change (s.emit (.jumpIfFalse 0xFFFF)).chunk.size - 2 = _
  rw [size_emit]
  rfl

/-- The operand of the jump to the end of the other branch stands behind its opcode. -/
theorem fst_switchBranch (s : Draft) (otherwise : ℕ) :
    (s.switchBranch otherwise).1 = s.chunk.size + 1 := by
  change (s.emit (.jump 0xFFFF)).chunk.size - 2 = _
  rw [size_emit]
  rfl

/-- A conditional statement is compiled to its end if its branches are. -/
theorem Resumes.branch {condition : Expression} {whenTrue whenFalse : Statement} {w l r : Token}
    {vs : List Token} (test : Phrase .assignment condition ts) (opening : l.kind = .leftBrace)
    (closing : r.kind = .rightBrace) (ih₁ : Resumes K .body whenTrue us xs)
    (ih₂ : Resumes K .alternative whenFalse vs ys) (hlegal : condition.Legal) :
    Resumes K .conditional (.branch condition whenTrue whenFalse)
      (w :: (ts ++ l :: (us ++ r :: vs))) (xs ++ ys) := by
  rintro s rest _ _ ⟨⟩ h hnext
  have hwork : (Statement.branch condition whenTrue whenFalse).work = condition.work ++
      (.emit [.jumpIfFalse (1 + codeSize whenTrue.code + 3), .pop] ++ (whenTrue.work ++
        (.emit [.jump (1 + codeSize whenFalse.code), .pop] ++ whenFalse.work))) := by
    simp [Statement.work, Expression.work, Statement.constants, Statement.code,
      Statement.branchCode, Statement.annotations, Statement.targets]
  have hfits₁ : 1 + codeSize whenTrue.code + 3 ≤ 65535 :=
    h.fits (.jumpIfFalse _) (by rw [hwork]; simp [Work.append_def])
  have hfits₂ : 1 + codeSize whenFalse.code ≤ 65535 :=
    h.fits (.jump _) (by rw [hwork]; simp [Work.append_def])
  have h₀ := h.congr (a := ts ++ (l :: ((us ++ [r]) ++ vs))) (by simp) hwork
  have hbrace : nextKind (l :: ((us ++ [r]) ++ vs) ++ rest) = .leftBrace := opening
  have hp₁ := h₀.first.expression test hlegal (by rw [hbrace]; rfl) (by rw [hbrace]; decide)
  have h₁ := h₀.second hp₁
  have hp₂ := (Passed.refl hp₁.calm).beginBranch (1 + codeSize whenTrue.code + 3)
  have h₂ := Affords.second (a := []) h₁ hp₂
  obtain ⟨hp₃, -, h₃⟩ := h₂.advance
  have hp₄ := ih₁.1 _ r _ closing h₃.first
  have h₄ := h₃.second hp₄
  have hblock := hp₂.trans (hp₃.trans hp₄)
  have hsize₁ : s.expression.beginBranch.2.advance.blockBody.1.chunk.size
      ≤ s.expression.chunk.size + (3 + (1 + codeSize whenTrue.code)) := by
    simpa [Work.append_def, Symbolic.size, Statement.work] using hblock.size
  generalize hs₄ : s.expression.beginBranch.2.advance.blockBody.1 = s₄ at hp₄ h₄ hblock hsize₁
  have hp₅ := (Passed.refl hp₄.calm).switchBranch s.expression.beginBranch.1
    (1 + codeSize whenFalse.code) (by
      rw [fst_beginBranch]
      omega)
  have hp₆ := ih₂ _ rest (Affords.second (a := []) h₄ hp₅) hnext
  have hother := hp₅.trans hp₆
  have hsize₂ : ((s₄.switchBranch s.expression.beginBranch.1).2.elseTail.1).chunk.size
      ≤ s₄.chunk.size + (3 + (1 + codeSize whenFalse.code)) := by
    simpa [Work.append_def, Symbolic.size, Statement.work] using hother.size
  have hp₇ := (hp₁.trans (hblock.trans hother)).patchJump
    (s₄.switchBranch s.expression.beginBranch.1).1 (by
      rw [fst_switchBranch]
      omega)
  have htail : s.ifTail.1 = (s₄.switchBranch s.expression.beginBranch.1).2.elseTail.1.patchJump
      (s₄.switchBranch s.expression.beginBranch.1).1 := by
    rw [ifTail_eq, ← hs₄]
    exact if_pos (h₂.sees opening)
  rw [htail]
  refine hp₇.congr (by simp) (by simp) (Nat.le_of_eq ?_) ?_ ?_ <;>
    simp [hwork, Work.append_def]

/-- An emptied block, and every part of it, is compiled to its end with one report for each missing
value, within the room that there is for the constants that are left. -/
theorem resumes {site : Site} (h : Emptied site stmt left ts zs) (hl : stmt.Legal) :
    Resumes K site left ts zs := by
  -- A body is come to in calm or stalled behind a missing value, and both are shown at once.
  induction h with
  | done =>
    have hcalm : ResumesCalm K .skip [] [] := by
      intro s r rest hr h
      have hkind : s.current.kind = .rightBrace := by rw [h.current, hr]
      rw [blockBody_of_ends (by rw [hkind]; rfl), h.expect hr]
      exact h.advance.1
    exact ⟨hcalm, hcalm.stalled .done (by simp [Begins])⟩
  | next head tail ih₁ ih₂ => exact .next head tail (ih₁ hl.1) (ih₂ hl.2) hl.1
  | gap target sign semicolon tail ih => exact .gap target sign semicolon tail (ih hl.2)
  | whole clause =>
    intro s rest h hnext
    exact h.statement clause hl hnext
  | branch _ test opening _ closing _ ih₁ ih₂ =>
    exact .branch test opening closing (ih₁ hl.2.1) (ih₂ hl.2.2) hl.1
  | conditional inner ih =>
    intro s rest h hnext
    have hinner := ih hl
    cases inner with
    | branch word _ _ _ _ _ =>
      obtain ⟨hp, -, h₁⟩ := h.advance
      rw [statement_if (by rw [h.current, word])]
      exact (hp.trans (hinner s.advance rest _ _ rfl h₁ hnext)).congr rfl rfl
        (Nat.le_refl _) rfl rfl
  | nothing =>
    intro s rest h hnext
    rw [elseTail_eq, accept_of_ne (by rw [h.upcoming]; exact hnext)]
    exact (Passed.refl h.calm).congr rfl rfl (Nat.le_refl _) rfl rfl
  | elseIf word inner ih =>
    intro s rest h hnext
    have hinner := ih hl
    cases inner with
    | branch wordIf _ _ _ _ _ =>
      obtain ⟨hp₁, -, h₁⟩ := h.advance
      obtain ⟨hp₂, -, h₂⟩ := h₁.advance
      rw [elseTail_eq, h.accept word]
      dsimp only
      rw [if_pos (h₁.sees wordIf)]
      exact (hp₁.trans (hp₂.trans (hinner _ rest _ _ rfl h₂ hnext))).congr rfl rfl
        (Nat.le_refl _) rfl rfl
  | elseBlock word opening _ closing ih =>
    intro s rest h hnext
    obtain ⟨hp₁, -, h₁⟩ := h.advance
    obtain ⟨hp₂, -, h₂⟩ := h₁.advance
    have hif : ¬ s.advance.sees .ifWord = true := by
      rw [Draft.sees, h₁.current, opening]
      decide
    rw [elseTail_eq, h.accept word]
    dsimp only
    rw [if_neg hif, if_pos (h₁.sees opening)]
    exact (hp₁.trans (hp₂.trans ((ih hl).1 _ _ rest closing h₂))).congr rfl rfl
      (Nat.le_refl _) rfl rfl
  | block opening _ closing ih =>
    intro s rest h _
    obtain ⟨hp, -, h₁⟩ := h.advance
    rw [statement_block (by rw [h.current, opening])]
    exact (hp.trans ((ih hl).1 _ _ rest closing h₁)).congr rfl rfl (Nat.le_refl _) rfl rfl

/-- A legal block from which values are missing is compiled to its end. -/
theorem Affords.blockBody {zs : List Token} {r : Token}
    (h : Affords K s (ts ++ [r]) rest left.work) (he : Emptied .body stmt left ts zs)
    (hr : r.kind = .rightBrace) (hl : stmt.Legal) :
    Passed K s (ts ++ [r]) left.work (zs.map missingValue) s.blockBody.1 :=
  (resumes he hl).1 s r rest hr h

end Compile.Draft

end EntityScript
