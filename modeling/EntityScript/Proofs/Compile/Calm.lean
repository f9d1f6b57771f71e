import EntityScript.Proofs.Compile.Matching
import EntityScript.Proofs.Compile.StatementAccepted

/-!
# Compiling behind earlier problems

`Wrote` speaks of drafts in which nothing is wrong. Here a draft may have found problems before, as
long as it has recovered from them: it is calm. How it goes on does not depend on the earlier
problems (`statementMatching_behind`), so whatever compiles without a problem from a draft that is
ready adds no problem to a calm one.

What was written before a problem need not be the code of any tree. `Passed` therefore does not say
what was written, only how much at most, and that the pool keeps within a list of constants for
which there is room. That is all on which later problems depend.
-/

namespace EntityScript.Compile.Draft

open Grammar

section Earlier

variable (earlier : Array Diagnostic)

/-- A draft whose problems stand behind earlier ones. -/
def behind (s : Draft) : Draft := { s with diagnostics := earlier ++ s.diagnostics }

/-- A report goes behind the earlier problems as well. -/
theorem behind_report (s : Draft) (line : ℕ) (problem : Problem) :
    (s.report line problem).behind earlier = (s.behind earlier).report line problem := by
  unfold report
  change _ = if s.panicking = true then _ else _
  split
  · rfl
  · simp [behind]

/-- Problems with unreadable tokens go behind the earlier ones as well. -/
theorem behind_settle (s : Draft) (tokens : List Token) :
    (s.settle tokens).behind earlier = (s.behind earlier).settle tokens := by
  induction tokens generalizing s with
  | nil => rfl
  | cons t rest ih =>
    rw [settle, settle]
    split
    · rw [ih, behind_report]
    · rfl

/-- Advancing does not depend on earlier problems. -/
theorem behind_advance (s : Draft) : s.advance.behind earlier = (s.behind earlier).advance := by
  unfold advance
  rw [behind_settle]
  rfl

/-- Interning answers the same whatever problems stand in front. -/
theorem behind_intern (s : Draft) (v : Value) :
    (s.behind earlier).intern v = ((s.intern v).1, (s.intern v).2.behind earlier) := by
  unfold intern
  rw [show (s.behind earlier).chunk = s.chunk from rfl]
  rcases s.chunk.intern v with ⟨_ | index, chunk⟩
  · dsimp only
    unfold reportPrevious
    rw [behind_report]
    rfl
  · rfl

/-- Patching a jump does not depend on earlier problems. -/
theorem behind_patchJump (s : Draft) (operand : ℕ) :
    (s.patchJump operand).behind earlier = (s.behind earlier).patchJump operand := by
  unfold patchJump
  dsimp only
  change _ = if s.chunk.size - operand - 2 < 65536 then _ else _
  split
  · rfl
  · exact behind_report earlier ..

/-- Statements are compiled alike whatever was found before. -/
theorem statementMatching_behind : StatementMatching fun s t => t = s.behind earlier where
  current := by
    rintro s t rfl
    rfl
  previous := by
    rintro s t rfl
    rfl
  size := by
    rintro s t rfl
    rfl
  advance := by
    rintro s t rfl
    exact (behind_advance earlier s).symm
  reportPrevious := by
    rintro s t rfl problem
    exact (behind_report earlier ..).symm
  reportMissing := by
    rintro s t rfl wanted
    exact (behind_report earlier ..).symm
  emit := by
    rintro s t rfl i
    rfl
  intern := by
    rintro s t rfl v
    rw [behind_intern]
    exact ⟨rfl, rfl⟩
  patchJump := by
    rintro s t rfl operand
    exact (behind_patchJump earlier ..).symm
  panicking := by
    rintro s t rfl
    rfl
  declared := by
    rintro s t rfl
    rfl
  calm := by
    rintro s t rfl
    rfl
  declare := by
    rintro s t rfl types
    rfl
  noteTarget := by
    rintro s t rfl
    rfl

end Earlier

/-- A draft without its problems. -/
def unmarked (s : Draft) : Draft := { s with diagnostics := #[] }

/-- A draft is the one without its problems, behind the problems that it has. -/
theorem behind_unmarked (s : Draft) : s = s.unmarked.behind s.diagnostics := by
  simp [behind, unmarked]

/-- Nothing is to be recovered from, all tokens to come are readable, and the pool keeps within a
list of constants for which there is room. -/
structure Calm (K : List Value) (s : Draft) : Prop where
  panicking : s.panicking = false
  clear : s.Clear
  nodup : s.pool.Nodup
  pool : s.pool ⊆ K
  room : K.dedup.length ≤ Chunk.maxConstants

/-- Tokens read and problems found, with no more bytes than those of the work, and with just its
annotations and targets. -/
structure Passed (K : List Value) (s : Draft) (ts : List Token) (w : Work) (ds : List Diagnostic)
    (s' : Draft) : Prop where
  upcoming : s.upcoming = ts ++ s'.upcoming
  calm : s'.Calm K
  size : s'.chunk.size ≤ s.chunk.size + codeSize w.code
  declared : ∀ name type, s'.declared.get? name = some type ↔
    s.declared.get? name = some type ∨ (name, type) ∈ w.annotations
  targets : s'.targets.toList.map (·.1) = s.targets.toList.map (·.1) ++ w.targets
  diagnostics : s'.diagnostics.toList = s.diagnostics.toList ++ ds

/-- The work can be done on the tokens to come without a problem. -/
structure Affords (K : List Value) (s : Draft) (ts rest : List Token) (w : Work) : Prop where
  calm : s.Calm K
  upcoming : s.upcoming = ts ++ rest
  constants : w.constants ⊆ K
  fits : ∀ i ∈ w.code, i.Fits
  types : ∀ name type type', s.Typed w name type → s.Typed w name type' → type = type'

variable {K : List Value} {s s₁ s₂ : Draft} {t : Token} {ts us rest : List Token} {v w : Work}
  {ds ds' : List Diagnostic}

/-- A variable has one type if the work annotates none. -/
theorem Typed.unique (h : w.annotations = []) {name : String} {type type' : ValueType}
    (ht : s.Typed w name type) (ht' : s.Typed w name type') : type = type' := by
  have hnone : (name, type) ∉ w.annotations ∧ (name, type') ∉ w.annotations := by simp [h]
  exact Option.some.inj ((ht.resolve_right hnone.1).symm.trans (ht'.resolve_right hnone.2))

/-- A calm draft has nothing to recover from. -/
theorem Calm.recover (h : s.Calm K) : s.recover = s := by
  simp [Draft.recover, h.panicking]

/-- Interning values for which there is room keeps the pool of a calm draft within its limit. -/
theorem Calm.length_le (h : s.Calm K) {values : List Value} (hvalues : values ⊆ K) :
    (pooled s.pool values).length ≤ Chunk.maxConstants := by
  have hsubset : pooled s.pool values ⊆ K.dedup := by
    intro v hv
    rw [List.mem_dedup]
    exact (mem_pooled.1 hv).elim (fun hv => h.pool hv) fun hv => hvalues hv
  have hnodup : (pooled s.pool values).Nodup := nodup_pooled h.nodup values
  exact Nat.le_trans (hnodup.length_le_of_subset hsubset) h.room

/-- A calm draft is ready for its work, apart from what was found before. -/
theorem Affords.prepared (h : Affords K s ts rest w) : Prepared s.unmarked ts rest w where
  ready := ⟨rfl, h.calm.panicking, h.calm.length_le (List.nil_subset K)⟩
  clear := h.calm.clear
  upcoming := h.upcoming
  room := h.calm.length_le h.constants
  fits := h.fits
  types := h.types

/-- Nothing is read and nothing is found where a calm draft stays as it is. -/
theorem Passed.refl (h : s.Calm K) : Passed K s [] .none [] s where
  upcoming := rfl
  calm := h
  size := Nat.le_refl _
  declared := by simp
  targets := by simp
  diagnostics := (List.append_nil _).symm

/-- What is read, done and found in two steps lies end to end. -/
theorem Passed.trans (h₁ : Passed K s ts v ds s₁) (h₂ : Passed K s₁ us w ds' s₂) :
    Passed K s (ts ++ us) (v ++ w) (ds ++ ds') s₂ where
  upcoming := by rw [h₁.upcoming, h₂.upcoming, List.append_assoc]
  calm := h₂.calm
  size := by
    have hsize₁ := h₁.size
    have hsize₂ := h₂.size
    rw [Work.append_def, codeSize_append]
    omega
  declared name type := by
    rw [h₂.declared, h₁.declared, Work.append_def, List.mem_append, or_assoc]
  targets := by rw [h₂.targets, h₁.targets, Work.append_def, List.append_assoc]
  diagnostics := by rw [h₂.diagnostics, h₁.diagnostics, List.append_assoc]

/-- Work may be taken for other work that is not smaller and notes the same. -/
theorem Passed.congr (h : Passed K s ts v ds s₁) (hts : ts = us) (hds : ds = ds')
    (hsize : codeSize v.code ≤ codeSize w.code) (hannotations : v.annotations = w.annotations)
    (htargets : v.targets = w.targets) : Passed K s us w ds' s₁ := by
  subst hts hds
  exact {
    upcoming := h.upcoming
    calm := h.calm
    size := Nat.le_trans h.size (Nat.add_le_add_left hsize _)
    declared := hannotations ▸ h.declared
    targets := htargets ▸ h.targets
    diagnostics := h.diagnostics }

/-- Tokens and work may be written in another way. -/
theorem Affords.congr {a : List Token} (h : Affords K s ts rest w) (hts : ts = a) (hw : w = v) :
    Affords K s a rest v := by
  subst hts hw
  exact h

/-- The first part of the work can be done first. -/
theorem Affords.first {a b : List Token} (h : Affords K s (a ++ b) rest (v ++ w)) :
    Affords K s a (b ++ rest) v where
  calm := h.calm
  upcoming := by rw [h.upcoming, List.append_assoc]
  constants := List.Subset.trans (List.subset_append_left ..) h.constants
  fits i hi := h.fits i (List.mem_append_left _ hi)
  types name type type' ht ht' :=
    h.types name type type' (ht.imp_right (List.mem_append_left _))
      (ht'.imp_right (List.mem_append_left _))

/-- The rest of the work can be done once the first part is done. -/
theorem Affords.second {a b : List Token} (h : Affords K s (a ++ b) rest (v ++ w))
    (hp : Passed K s a v ds s₁) : Affords K s₁ b rest w where
  calm := hp.calm
  upcoming := by
    have hup := h.upcoming
    rw [hp.upcoming, List.append_assoc] at hup
    exact List.append_cancel_left hup
  constants := List.Subset.trans (List.subset_append_right ..) h.constants
  fits i hi := h.fits i (List.mem_append_right _ hi)
  types name type type' ht ht' := by
    have hback : ∀ type, s₁.Typed w name type → s.Typed (v ++ w) name type := by
      rintro type (ht | ht)
      · exact ((hp.declared name type).1 ht).imp_right (List.mem_append_left _)
      · exact .inr (List.mem_append_right _ ht)
    exact h.types name type type' (hback type ht) (hback type' ht')

/-- What is written without a problem from a draft that is ready keeps within the limits. -/
theorem Affords.passed (h : Affords K s ts rest w) (hw : Wrote s.unmarked ts w s₁) :
    Passed K s ts w [] (s₁.behind s.diagnostics) where
  upcoming := hw.upcoming
  calm := {
    panicking := hw.ready.panicking
    clear :=
      have hclear : s₁.Clear := Clear.of_wrote (s := s.unmarked) h.calm.clear hw
      hclear
    nodup := by
      change s₁.pool.Nodup
      rw [hw.pool]
      exact nodup_pooled h.calm.nodup _
    pool := by
      intro v hv
      change v ∈ s₁.pool at hv
      rw [hw.pool] at hv
      exact (mem_pooled.1 hv).elim (fun hv => h.calm.pool hv) fun hv => h.constants hv
    room := h.calm.room }
  size := Nat.le_of_eq hw.length_written
  declared := hw.declared
  targets := hw.targets
  diagnostics := by simp [behind, hw.ready.diagnostics]

/-- A legal expression compiles where neither an operator nor an equals sign follows. -/
theorem Affords.expression {e : Expression} (h : Affords K s ts rest e.work)
    (hp : Phrase .assignment e ts) (hl : e.Legal)
    (hnone : Continuation.ofKind? (nextKind rest) = none) (hne : nextKind rest ≠ .equal) :
    Passed K s ts e.work [] s.expression := by
  have hw := h.prepared.expression hp hl hnone hne
  rw [(statementMatching_behind s.diagnostics).expression s.behind_unmarked]
  exact h.passed hw

/-- A legal statement compiles. -/
theorem Affords.statement {stmt : Statement} (h : Affords K s ts rest stmt.work)
    (hc : Clause .statement stmt ts) (hl : stmt.Legal) (hnext : nextKind rest ≠ .elseWord) :
    Passed K s ts stmt.work [] s.statement.1 := by
  have hw := Compiles.of_clause hc hl s.unmarked rest h.prepared hnext
  rw [(statementMatching_behind s.diagnostics).statement s.behind_unmarked]
  exact h.passed hw

/-- The next token is the first of those that are afforded. -/
theorem Affords.current (h : Affords K s (t :: ts) rest w) : s.current = t := by
  simp [Draft.current, h.upcoming]

/-- The first of the tokens that are afforded is seen. -/
theorem Affords.sees (h : Affords K s (t :: ts) rest w) {kind : Token.Kind} (hk : t.kind = kind) :
    s.sees kind = true := by
  rw [Draft.sees, h.current, hk]
  exact beq_self_eq_true kind

/-- The next token is read. -/
theorem Affords.advance (h : Affords K s (t :: ts) rest w) : Passed K s [t] .none [] s.advance ∧
    s.advance.previous = t ∧ Affords K s.advance ts rest w := by
  have hp : Passed K s [t] .none [] s.advance := by
    rw [advance_eq h.upcoming (h.calm.clear.head? h.upcoming)]
    exact {
      upcoming := h.upcoming
      calm := {
        panicking := h.calm.panicking
        clear := fun u hu => h.calm.clear u (by
          rw [h.upcoming]
          exact List.mem_cons_of_mem t hu)
        nodup := h.calm.nodup
        pool := h.calm.pool
        room := h.calm.room }
      size := Nat.le_refl _
      declared := by simp
      targets := by simp
      diagnostics := (List.append_nil _).symm }
  refine ⟨hp, ?_, Affords.second (a := [t]) (v := .none) (h.congr rfl rfl) hp⟩
  rw [advance_eq h.upcoming (h.calm.clear.head? h.upcoming)]

/-- The first of the tokens that are afforded is accepted. -/
theorem Affords.accept (h : Affords K s (t :: ts) rest w) {kind : Token.Kind} (hk : t.kind = kind) :
    s.accept kind = (true, s.advance) := by
  rw [Draft.accept, if_pos (h.sees hk)]

/-- The first of the tokens that are afforded is as expected. -/
theorem Affords.expect (h : Affords K s (t :: ts) rest w) {kind : Token.Kind} (hk : t.kind = kind)
    (wanted : Wanted) : s.expect kind wanted = (true, s.advance) := by
  rw [Draft.expect, if_pos (h.sees hk)]

/-- Writing an instruction adds its size to the code. -/
theorem size_emit (s : Draft) (i : Instruction) :
    (s.emit i).chunk.size = s.chunk.size + i.size := by
  simp [Draft.emit, Chunk.emit_eq, Chunk.size, i.length_encode]

/-- Writing an instruction leaves the pool as it is. -/
theorem pool_emit (s : Draft) (i : Instruction) : (s.emit i).pool = s.pool := by
  simp [Draft.pool, Draft.emit, Chunk.emit_eq]

/-- A calm draft stays calm when an instruction is written. -/
theorem Calm.emit (h : s.Calm K) (i : Instruction) : (s.emit i).Calm K where
  panicking := h.panicking
  clear := h.clear
  nodup := by
    rw [pool_emit]
    exact h.nodup
  pool := by
    rw [pool_emit]
    exact h.pool
  room := h.room

/-- An instruction that is written counts for code of its size. -/
theorem Passed.emit (h : Passed K s ts w ds s₁) {i : Instruction} {c : List Symbolic}
    (hsize : i.size = codeSize c) : Passed K s ts (w ++ .emit c) ds (s₁.emit i) where
  upcoming := h.upcoming
  calm := h.calm.emit i
  size := by
    have hle := h.size
    rw [size_emit, Work.append_def, codeSize_append, hsize, ← Nat.add_assoc]
    exact Nat.add_le_add_right hle _
  declared name type := (h.declared name type).trans (by simp [Work.append_def])
  targets := h.targets.trans (by simp [Work.append_def])
  diagnostics := h.diagnostics

/-- Beginning a branch counts for a jump and the value that is dropped behind it. -/
theorem Passed.beginBranch (h : Passed K s ts w ds s₁) (distance : ℕ) :
    Passed K s ts (w ++ .emit [.jumpIfFalse distance, .pop]) ds s₁.beginBranch.2 := by
  have hjump := h.emit (i := .jumpIfFalse 0xFFFF) (c := [.jumpIfFalse distance]) rfl
  have hpop := hjump.emit (i := .pop) (c := [.pop]) rfl
  rwa [Work.append_assoc] at hpop

/-- A jump that does not lead too far is corrected. -/
theorem Passed.patchJump (h : Passed K s ts w ds s₁) (operand : ℕ)
    (hdistance : s₁.chunk.size - operand - 2 ≤ 65535) :
    Passed K s ts w ds (s₁.patchJump operand) := by
  unfold Draft.patchJump
  dsimp only
  rw [if_pos (Nat.lt_succ_of_le hdistance)]
  exact {
    upcoming := h.upcoming
    calm := ⟨h.calm.panicking, h.calm.clear, h.calm.nodup, h.calm.pool, h.calm.room⟩
    size := by simpa [Chunk.setWord, Chunk.size] using h.size
    declared := h.declared
    targets := h.targets
    diagnostics := h.diagnostics }

/-- Switching to the other branch counts for a jump and the value that is dropped behind it. -/
theorem Passed.switchBranch (h : Passed K s ts w ds s₁) (operand distance : ℕ)
    (hdistance : s₁.chunk.size + 3 - operand - 2 ≤ 65535) :
    Passed K s ts (w ++ .emit [.jump distance, .pop]) ds (s₁.switchBranch operand).2 := by
  have hjump := h.emit (i := .jump 0xFFFF) (c := [.jump distance]) rfl
  have hpatch := hjump.patchJump operand (by
    rw [size_emit]
    exact hdistance)
  have hpop := hpatch.emit (i := .pop) (c := [.pop]) rfl
  rwa [Work.append_assoc] at hpop

end EntityScript.Compile.Draft
