import EntityScript.Proofs.Compile.Growth
import EntityScript.Proofs.Grammar.Assembly
import EntityScript.Proofs.Token.Scanned

/-!
# What a draft has read and written

`Wrote s ts w s'` says that compiling took the tokens `ts` off the draft `s`, added the work `w` to
it, found nothing wrong, and ended as the draft `s'`. Work is what a tree stands for: constants in
the order of interning, symbolic instructions, annotations, and states that are changed to.
`Wrote.trans` puts work together, so what a function of the compiler does follows from what its
parts do.

From a draft that is ready, every primitive either is troubled by a problem or does its work; which
of the two is decided by the tokens to come and by the room that the pool has.
-/

namespace EntityScript

open Grammar

namespace Chunk

/-- Emitting adds the bytes of an instruction, and a line for each of them. -/
theorem emit_eq (c : Chunk) (i : Instruction) (line : ℕ) :
    c.emit i line = { c with
      code := c.code ++ i.encode.toArray
      lines := c.lines ++ (List.replicate i.size line).toArray } := by
  have push : ∀ (bs : List UInt8) (c : Chunk), bs.foldl (fun c byte => c.push byte line) c =
      { c with
        code := c.code ++ bs.toArray
        lines := c.lines ++ (List.replicate bs.length line).toArray } := by
    intro bs
    induction bs with
    | nil => intro c; simp
    | cons b rest ih =>
      intro c
      rw [List.foldl_cons, ih]
      simp [Chunk.push, List.replicate_succ, ← Array.toList_inj]
  rw [emit, push, i.length_encode]

/-- A value is looked for in the pool by its first place. -/
theorem findIdx?_constants (c : Chunk) (v : Value) :
    c.constants.findIdx? (· == v) =
      if v ∈ c.constants.toList then some (c.constants.toList.idxOf v) else none := by
  rw [← c.constants.toArray_toList, List.findIdx?_toArray]
  split
  · rename_i h
    exact List.findIdx?_eq_some_of_exists ⟨v, h, by simp⟩
  · rename_i h
    rw [List.findIdx?_eq_none_iff]
    intro w hw
    have hne : w ≠ v := fun heq => h (heq ▸ hw)
    simpa using hne

/-- Interning with room for the value, or with the value in the pool already. -/
theorem intern_of_le {c : Chunk} {v : Value}
    (h : (pooledOne c.constants.toList v).length ≤ maxConstants) :
    c.intern v = (some (slot (pooledOne c.constants.toList v) v),
      { c with constants := (pooledOne c.constants.toList v).toArray }) := by
  unfold intern
  rw [findIdx?_constants]
  by_cases hv : v ∈ c.constants.toList
  · have hlt : c.constants.toList.idxOf v < maxConstants :=
      Nat.lt_of_lt_of_le (List.idxOf_lt_length_iff.2 hv) (by simpa [pooledOne, hv] using h)
    simp [hv, byteIndex?, hlt, slot, pooledOne]
  · have hsize : c.constants.size < maxConstants := by
      simpa [pooledOne, hv, Nat.succ_le_iff] using h
    have hidx : (c.constants.toList ++ [v]).idxOf v = c.constants.size := by
      rw [List.idxOf_append_of_notMem hv]
      simp
    simp [hv, byteIndex?, hsize, slot, pooledOne, hidx, ← Array.toList_inj]

/-- Interning a new value into a pool that is full. -/
theorem intern_of_lt {c : Chunk} {v : Value}
    (h : maxConstants < (pooledOne c.constants.toList v).length)
    (hroom : c.constants.size ≤ maxConstants) : c.intern v = (none, c) := by
  unfold intern
  rw [findIdx?_constants]
  by_cases hv : v ∈ c.constants.toList
  · simp [pooledOne, hv] at h
    omega
  · have hsize : ¬ c.constants.size < maxConstants := by
      simp [pooledOne, hv] at h
      omega
    simp [hv, hsize]

end Chunk

namespace Compile

/-- What a tree adds to a draft. -/
structure Work where
  /-- The constants, in the order in which they are interned. -/
  constants : List Value
  /-- The instructions. -/
  code : List Symbolic
  /-- The annotated variables. -/
  annotations : List (String × ValueType)
  /-- The states that are changed to. -/
  targets : List String

namespace Work

/-- Nothing to add. -/
@[simp] def none : Work := ⟨[], [], [], []⟩

/-- A constant. -/
@[simp] def intern (v : Value) : Work := ⟨[v], [], [], []⟩

/-- Instructions whose constants are in the pool. -/
@[simp] def emit (code : List Symbolic) : Work := ⟨[], code, [], []⟩

/-- A constant, and an instruction that pushes it. -/
@[simp] def push (v : Value) : Work := ⟨[v], [.constant v], [], []⟩

/-- The work of two parts, one behind the other. -/
protected def append (v w : Work) : Work :=
  ⟨v.constants ++ w.constants, v.code ++ w.code, v.annotations ++ w.annotations,
    v.targets ++ w.targets⟩

/-- Work is put together part by part. -/
instance : Append Work := ⟨Work.append⟩

/-- The work of two parts has what each of them adds, one behind the other. -/
theorem append_def (v w : Work) : v ++ w =
    ⟨v.constants ++ w.constants, v.code ++ w.code, v.annotations ++ w.annotations,
      v.targets ++ w.targets⟩ := rfl

/-- Works given by what they add are put together part by part. -/
@[simp] theorem mk_append_mk (c c' : List Value) (i i' : List Symbolic)
    (a a' : List (String × ValueType)) (t t' : List String) :
    (⟨c, i, a, t⟩ : Work) ++ ⟨c', i', a', t'⟩ = ⟨c ++ c', i ++ i', a ++ a', t ++ t'⟩ := rfl

/-- Work in three parts may be put together from either end. -/
theorem append_assoc (u v w : Work) : u ++ v ++ w = u ++ (v ++ w) := by simp [append_def]

/-- Nothing to add may stand in front of work. -/
theorem none_append (w : Work) : none ++ w = w := rfl

/-- Nothing to add may stand behind work. -/
theorem append_none (w : Work) : w ++ none = w := by simp [append_def]

end Work

end Compile

namespace Token

/-- The literal of a number token stands for a value. -/
theorem Readable.number {t : Token} (h : t.Readable) (kind : t.kind = .number) :
    (Literal.number t.lexeme).Readable :=
  h.1 kind

/-- The literal of a vector token stands for a value. -/
theorem Readable.vector {t : Token} (h : t.Readable) (kind : t.kind = .vec2) :
    (Literal.vector t.lexeme).Readable := by
  obtain ⟨v, hv⟩ := h.2 kind
  exact ⟨.vec2 v.1 v.2, by rw [Literal.read, hv]; rfl⟩

/-- So does the one that a minus sign belongs to. -/
theorem Readable.negatedVector {t : Token} (h : t.Readable) (kind : t.kind = .vec2) :
    (Literal.negatedVector t.lexeme).Readable := by
  obtain ⟨v, hv⟩ := h.2 kind
  exact ⟨.vec2 (-v.1) v.2, by rw [Literal.read, hv]; rfl⟩

end Token

namespace Grammar

open Compile (Work)

/-- What an expression adds to a draft. -/
def Expression.work (e : Expression) : Work := ⟨e.constants, e.code, [], []⟩

/-- What a statement adds to a draft. -/
def Statement.work (s : Statement) : Work := ⟨s.constants, s.code, s.annotations, s.targets⟩

end Grammar

namespace Compile

namespace Draft

/-- The pool of the chunk under construction. -/
def pool (s : Draft) : List Value := s.chunk.constants.toList

/-- The bytes of the chunk under construction. -/
def written (s : Draft) : List UInt8 := s.chunk.code.toList

/-- Something was found to be wrong. -/
def Troubled (s : Draft) : Prop := s.diagnostics ≠ #[]

/-- Nothing was found to be wrong, and the pool has no more places than an operand can name. -/
structure Ready (s : Draft) : Prop where
  diagnostics : s.diagnostics = #[]
  panicking : s.panicking = false
  room : s.pool.length ≤ Chunk.maxConstants

/-- Trouble stays wherever problems are kept. -/
theorem Troubled.of_keeps {s s' : Draft} (h : s.Troubled)
    (hk : s.Keeps s.diagnostics.toList → s'.Keeps s.diagnostics.toList) : s'.Troubled := by
  intro hempty
  have hprefix := hk (keeps_self s)
  rw [Keeps, hempty] at hprefix
  exact h (Array.toList_eq_nil_iff.1 (List.prefix_nil.1 hprefix))

/-- Trouble stays whatever is compiled. -/
theorem Troubled.of_leads {s s' : Draft} (h : s.Troubled) (hl : s.Leads s → s.Leads s') :
    s'.Troubled :=
  h.of_keeps (hl .refl).keeps

/-- Reporting leaves something wrong where nothing was. -/
theorem Ready.troubled_report {s : Draft} (h : s.Ready) (line : ℕ) (problem : Problem) :
    (s.report line problem).Troubled := by
  simp [Troubled, report, h.panicking]

/-- Tokens read and work added without a problem. -/
structure Wrote (s : Draft) (ts : List Token) (w : Work) (s' : Draft) : Prop where
  upcoming : s.upcoming = ts ++ s'.upcoming
  previous : s'.previous = ts.getLast?.getD s.previous
  endLine : s'.endLine = s.endLine
  ready : s'.Ready
  name : s'.chunk.name = s.chunk.name
  pool : s'.pool = pooled s.pool w.constants
  pooled : Pooled s'.pool w.code
  written : s'.written = s.written ++ bytes s'.pool w.code
  fits : ∀ i ∈ w.code, i.Fits
  declared : ∀ name type, s'.declared.get? name = some type ↔
    s.declared.get? name = some type ∨ (name, type) ∈ w.annotations
  targets : s'.targets.toList.map (·.1) = s.targets.toList.map (·.1) ++ w.targets

/-- Only the types of variables and the states that are changed to are noted. -/
theorem Ready.notes {s : Draft} (hs : s.Ready) {annotations : List (String × ValueType)}
    {states : List String} {declared : Table String ValueType} {targets : Array (String × ℕ)}
    (hdeclared : ∀ name type, declared.get? name = some type ↔
      s.declared.get? name = some type ∨ (name, type) ∈ annotations)
    (htargets : targets.toList.map (·.1) = s.targets.toList.map (·.1) ++ states) :
    Wrote s [] ⟨[], [], annotations, states⟩ { s with declared, targets } where
  upcoming := rfl
  previous := rfl
  endLine := rfl
  ready := ⟨hs.diagnostics, hs.panicking, hs.room⟩
  name := rfl
  pool := rfl
  pooled := .nil _
  written := (List.append_nil s.written).symm
  fits := by simp
  declared := hdeclared
  targets := htargets

/-- Nothing is written where a ready draft stays as it is. -/
theorem Wrote.refl {s : Draft} (hs : s.Ready) : Wrote s [] .none s :=
  hs.notes (by simp) (by simp)

/-- The token that was read last. -/
theorem Wrote.previous_eq {s s' : Draft} {t : Token} {w : Work} (h : Wrote s [t] w s') :
    s'.previous = t := h.previous

/-- Work is put together in the order in which it is done. -/
theorem Wrote.trans {s s₁ s₂ : Draft} {ts us : List Token} {v w : Work}
    (h₁ : Wrote s ts v s₁) (h₂ : Wrote s₁ us w s₂) : Wrote s (ts ++ us) (v ++ w) s₂ where
  upcoming := by rw [h₁.upcoming, h₂.upcoming, List.append_assoc]
  previous := by
    rw [h₂.previous, h₁.previous, List.getLast?_append]
    cases us.getLast? <;> rfl
  endLine := h₂.endLine.trans h₁.endLine
  ready := h₂.ready
  name := h₂.name.trans h₁.name
  pool := by rw [h₂.pool, h₁.pool, Work.append_def, pooled_append]
  pooled := by
    rw [h₂.pool]
    exact (h₁.pooled.mono _).append (h₂.pool ▸ h₂.pooled)
  written := by
    have hbytes : bytes s₂.pool v.code = bytes s₁.pool v.code := by
      rw [h₂.pool, bytes_pooled h₁.pooled]
    rw [h₂.written, h₁.written, Work.append_def, bytes_append, hbytes, List.append_assoc]
  fits := by
    intro i hi
    rcases List.mem_append.1 hi with hi | hi
    · exact h₁.fits i hi
    · exact h₂.fits i hi
  declared := by
    intro name type
    rw [h₂.declared, h₁.declared, Work.append_def, List.mem_append, or_assoc]
  targets := by rw [h₂.targets, h₁.targets, Work.append_def, List.append_assoc]

/-- Tokens and work may be written in another way. -/
theorem Wrote.congr {s s' : Draft} {ts us : List Token} {v w : Work} (h : Wrote s ts v s')
    (hts : ts = us) (hw : v = w) : Wrote s us w s' := by
  subst hts hw
  exact h

/-- Work after which nothing more is read. -/
theorem Wrote.then {s s₁ s₂ : Draft} {ts : List Token} {v w : Work} (h₁ : Wrote s ts v s₁)
    (h₂ : Wrote s₁ [] w s₂) : Wrote s ts (v ++ w) s₂ :=
  (h₁.trans h₂).congr (List.append_nil ts) rfl

/-- The next token is the first of those that were read. -/
theorem Wrote.current {s s' : Draft} {t : Token} {ts : List Token} {w : Work}
    (h : Wrote s (t :: ts) w s') : s.current = t := by
  simp [Draft.current, h.upcoming]

/-- Reading a token leaves the draft as it is, up to the place in the source. -/
theorem advance_eq {s : Draft} {t : Token} {rest : List Token} (h : s.upcoming = t :: rest)
    (hrest : ∀ u, rest.head? = some u → u.kind ≠ .error) :
    s.advance = { s with previous := t, upcoming := rest } := by
  cases rest with
  | nil => simp [advance, current, h, settle]
  | cons u rest =>
    have hu : u.kind ≠ .error := hrest u rfl
    simp [advance, current, h, settle, hu]

/-- A ready draft reads a token if the one behind it is readable. -/
theorem Ready.advance {s : Draft} {t : Token} {rest : List Token} (hs : s.Ready)
    (h : s.upcoming = t :: rest) (hrest : ∀ u, rest.head? = some u → u.kind ≠ .error) :
    Wrote s [t] .none s.advance := by
  rw [advance_eq h hrest]
  exact {
    upcoming := h
    previous := rfl
    endLine := rfl
    ready := ⟨hs.diagnostics, hs.panicking, hs.room⟩
    name := rfl
    pool := rfl
    pooled := .nil _
    written := by simp [Work.none, Draft.written]
    fits := by simp [Work.none]
    declared := by simp [Work.none]
    targets := by simp [Work.none] }

/-- Reading a token leads to trouble only by an unreadable one behind it. -/
theorem Ready.advance_or {s : Draft} {t : Token} {rest : List Token} (hs : s.Ready)
    (h : s.upcoming = t :: rest) : s.advance.Troubled ∨ Wrote s [t] .none s.advance := by
  by_cases hrest : ∀ u, rest.head? = some u → u.kind ≠ .error
  · exact .inr (hs.advance h hrest)
  · left
    push Not at hrest
    obtain ⟨u, hu, hkind⟩ := hrest
    obtain ⟨rest, rfl⟩ : ∃ more, rest = u :: more := by
      cases rest with
      | nil => simp at hu
      | cons v more => exact ⟨more, by simpa using hu⟩
    have hadvance : s.advance
        = (({ s with previous := t }.report u.line (.ofUnreadable u)).settle rest) := by
      simp [Draft.advance, Draft.current, h, settle, hkind]
    rw [hadvance]
    have hready : Ready { s with previous := t } := ⟨hs.diagnostics, hs.panicking, hs.room⟩
    exact (hready.troubled_report _ _).of_keeps fun hk => hk.settle rest

/-- A token that is seen is the first of those to come. -/
theorem upcoming_of_sees {s : Draft} {kind : Token.Kind} (h : s.sees kind = true)
    (hk : kind ≠ .eof) : ∃ t rest, s.upcoming = t :: rest ∧ t.kind = kind := by
  unfold sees current at h
  cases hup : s.upcoming with
  | nil =>
    rw [hup] at h
    exact absurd (beq_iff_eq.1 h).symm hk
  | cons t rest =>
    rw [hup] at h
    exact ⟨t, rest, rfl, beq_iff_eq.1 h⟩

/-- Reading the next token where its kind is known. -/
theorem Ready.advance_kind_or {s : Draft} (hs : s.Ready) {kind : Token.Kind}
    (h : s.current.kind = kind) (hk : kind ≠ .eof) : s.advance.Troubled ∨
      s.advance.previous.kind = kind ∧ Wrote s [s.advance.previous] .none s.advance := by
  obtain ⟨t, rest, hup, hkind⟩ := upcoming_of_sees (beq_iff_eq.2 h) hk
  refine (hs.advance_or hup).imp_right fun hw => ?_
  have hprevious : s.advance.previous = t := hw.previous_eq
  rw [hprevious]
  exact ⟨hkind, hw⟩

/-- What is accepted was there, and what is not accepted leaves the draft alone. -/
theorem Ready.accept_or {s : Draft} (hs : s.Ready) {k : Token.Kind} (hk : k ≠ .eof) :
    s.accept k = (false, s) ∧ s.current.kind ≠ k ∨
    ∃ s', s.accept k = (true, s') ∧
      (s'.Troubled ∨ ∃ t, t.kind = k ∧ Wrote s [t] .none s') := by
  unfold accept
  by_cases h : s.sees k = true
  · right
    obtain ⟨t, rest, hup, hkind⟩ := upcoming_of_sees h hk
    rw [if_pos h]
    refine ⟨_, rfl, ?_⟩
    rcases hs.advance_or hup with ht | hw
    · exact .inl ht
    · exact .inr ⟨t, hkind, hw⟩
  · left
    rw [if_neg h]
    exact ⟨rfl, fun heq => h (by simp [sees, heq])⟩

/-- What is called for was there, or there is trouble. -/
theorem Ready.expect_or {s : Draft} (hs : s.Ready) {k : Token.Kind} (hk : k ≠ .eof)
    (wanted : Wanted) :
    (∃ b s', s.expect k wanted = (b, s') ∧ s'.Troubled) ∨
    ∃ s' t, s.expect k wanted = (true, s') ∧ t.kind = k ∧ Wrote s [t] .none s' := by
  unfold expect
  by_cases h : s.sees k = true
  · obtain ⟨t, rest, hup, hkind⟩ := upcoming_of_sees h hk
    rw [if_pos h]
    rcases hs.advance_or hup with ht | hw
    · exact .inl ⟨_, _, rfl, ht⟩
    · exact .inr ⟨_, t, rfl, hkind, hw⟩
  · rw [if_neg h]
    exact .inl ⟨_, _, rfl, hs.troubled_report _ _⟩

/-- Every token to come is one that scanning makes of what can be read. -/
def Clear (s : Draft) : Prop := ∀ t ∈ s.upcoming, t.kind ≠ .error ∧ t.Readable

/-- The tokens behind those that were read are readable if all were. -/
theorem Clear.of_wrote {s s' : Draft} {ts : List Token} {w : Work} (h : s.Clear)
    (hw : Wrote s ts w s') : s'.Clear :=
  fun t ht => h t (hw.upcoming ▸ List.mem_append_right _ ht)

/-- The token behind the next one is readable where all are. -/
theorem Clear.head? {s : Draft} {t : Token} {rest : List Token} (h : s.Clear)
    (hup : s.upcoming = t :: rest) : ∀ u, rest.head? = some u → u.kind ≠ .error := by
  intro u hu
  exact (h u (hup ▸ List.mem_cons_of_mem _ (List.mem_of_mem_head? hu))).1

/-- Where all tokens are readable a ready draft reads the next one. -/
theorem Ready.advance_of_clear {s : Draft} {t : Token} {rest : List Token} (hs : s.Ready)
    (hc : s.Clear) (h : s.upcoming = t :: rest) :
    Wrote s [t] .none s.advance ∧ s.advance.upcoming = rest := by
  have hw := hs.advance h (hc.head? h)
  refine ⟨hw, ?_⟩
  have := hw.upcoming
  rw [h] at this
  simpa using this.symm

/-- Emitting an instruction whose constant is in the pool. -/
theorem Ready.emit {s : Draft} (hs : s.Ready) {i : Symbolic} (hfits : i.Fits)
    (hpooled : ∀ v, i.constant? = some v → v ∈ s.pool) :
    Wrote s [] (.emit [i]) (s.emit (i.assemble s.pool)) := by
  have hpool : (s.emit (i.assemble s.pool)).pool = s.pool := by
    simp [Draft.pool, Draft.emit, Chunk.emit_eq]
  exact {
    upcoming := rfl
    previous := rfl
    endLine := rfl
    ready := ⟨hs.diagnostics, hs.panicking, by rw [hpool]; exact hs.room⟩
    name := by simp [Draft.emit, Chunk.emit_eq]
    pool := hpool
    pooled := by
      intro j hj
      rw [hpool]
      obtain rfl : j = i := by simpa [Work.emit] using hj
      exact hpooled
    written := by
      rw [hpool]
      simp [Draft.written, Draft.emit, Chunk.emit_eq, Work.emit]
    fits := by
      intro j hj
      obtain rfl : j = i := by simpa [Work.emit] using hj
      exact hfits
    declared := by simp [Work.emit, Draft.emit]
    targets := by simp [Work.emit, Draft.emit] }

/-- Interning a value for which there is room. -/
theorem Ready.intern_of_le {s : Draft} (hs : s.Ready) {v : Value}
    (h : (pooled s.pool [v]).length ≤ Chunk.maxConstants) :
    Wrote s [] (.intern v) (s.intern v).2 ∧ (s.intern v).1 = slot (s.intern v).2.pool v ∧
      v ∈ (s.intern v).2.pool := by
  have hintern : s.intern v = (slot (pooled s.pool [v]) v,
      { s with chunk := { s.chunk with constants := (pooled s.pool [v]).toArray } }) := by
    unfold Draft.intern
    rw [Chunk.intern_of_le h]
    rfl
  rw [hintern]
  refine ⟨?_, rfl, mem_pooled.2 (.inr (List.mem_singleton_self v))⟩
  exact {
    upcoming := rfl
    previous := rfl
    endLine := rfl
    ready := ⟨hs.diagnostics, hs.panicking, h⟩
    name := rfl
    pool := rfl
    pooled := .nil _
    written := by simp [Draft.written, Work.intern]
    fits := by simp [Work.intern]
    declared := by simp [Work.intern]
    targets := by simp [Work.intern] }

/-- Interning a value leads to trouble only if there is no room for it. -/
theorem Ready.intern_or {s : Draft} (hs : s.Ready) (v : Value) :
    (s.intern v).2.Troubled ∨
      (Wrote s [] (.intern v) (s.intern v).2 ∧ (s.intern v).1 = slot (s.intern v).2.pool v ∧
        v ∈ (s.intern v).2.pool) := by
  by_cases h : (pooled s.pool [v]).length ≤ Chunk.maxConstants
  · exact .inr (hs.intern_of_le h)
  · left
    have hfull := Chunk.intern_of_lt (Nat.lt_of_not_le h) hs.room
    have hintern : (s.intern v).2 = s.reportPrevious .tooManyConstants := by
      unfold Draft.intern
      rw [hfull]
    rw [hintern]
    exact hs.troubled_report _ _

end Draft

end Compile

end EntityScript
