import EntityScript.Proofs.Compile.Jumps

/-!
# A draft that is prepared for its work

`Prepared s ts rest w` says what has to hold of the draft `s` for the work `w` to be done on the
tokens `ts`: they come next, before `rest`, none of the tokens to come is unreadable, the pool has
room for the constants, the operands have room for the numbers in the instructions, and nothing
is annotated with two types. Work that is put together can be done part by part
(`Prepared.first`, `Prepared.second`), and the primitives of the compiler do not fail on it.
-/

namespace EntityScript.Compile.Draft

open Grammar

/-- The kind of the first of some tokens, or the end of the source if there are none. -/
def nextKind (ts : List Token) : Token.Kind := (ts.head?.map (·.kind)).getD .eof

/-- The kind of the next token is that of the first one to come. -/
theorem current_kind (s : Draft) : s.current.kind = nextKind s.upcoming := by
  unfold current nextKind
  cases s.upcoming <;> rfl

/-- A variable has a type already, or gets it by the work that is to be done. -/
def Typed (s : Draft) (w : Work) (name : String) (type : ValueType) : Prop :=
  s.declared.get? name = some type ∨ (name, type) ∈ w.annotations

/-- Everything is there for the work to be done without a problem. -/
structure Prepared (s : Draft) (ts rest : List Token) (w : Work) : Prop where
  ready : s.Ready
  clear : s.Clear
  upcoming : s.upcoming = ts ++ rest
  room : (pooled s.pool w.constants).length ≤ Chunk.maxConstants
  fits : ∀ i ∈ w.code, i.Fits
  types : ∀ name type type', s.Typed w name type → s.Typed w name type' → type = type'

variable {s s' : Draft} {t : Token} {ts us rest : List Token} {v v' w : Work}

/-- Tokens and work may be written in another way. -/
theorem Prepared.congr {a : List Token} (h : Prepared s ts rest w) (hts : ts = a)
    (hw : w = v) : Prepared s a rest v := by
  subst hts hw
  exact h

/-- The first part of the work can be done first. -/
theorem Prepared.first {a b : List Token} (h : Prepared s (a ++ b) rest (v ++ w)) :
    Prepared s a (b ++ rest) v where
  ready := h.ready
  clear := h.clear
  upcoming := by rw [h.upcoming, List.append_assoc]
  room := by
    have hroom := h.room
    rw [Work.append_def, pooled_append] at hroom
    exact Nat.le_trans (length_le_pooled _ _) hroom
  fits i hi := h.fits i (List.mem_append_left _ hi)
  types name type type' ht ht' :=
    h.types name type type' (ht.imp_right (List.mem_append_left _))
      (ht'.imp_right (List.mem_append_left _))

/-- The rest of the work can be done once the first part is done. -/
theorem Prepared.second {a b : List Token} (h : Prepared s (a ++ b) rest (v ++ w))
    (hw : Wrote s a v' s') (hconstants : v'.constants = v.constants)
    (hannotations : v'.annotations = v.annotations) : Prepared s' b rest w where
  ready := hw.ready
  clear := h.clear.of_wrote hw
  upcoming := by
    have hup := h.upcoming
    rw [hw.upcoming, List.append_assoc] at hup
    exact List.append_cancel_left hup
  room := by
    have hroom := h.room
    rw [Work.append_def, pooled_append, ← hconstants, ← hw.pool] at hroom
    exact hroom
  fits i hi := h.fits i (List.mem_append_right _ hi)
  types name type type' ht ht' := by
    have hback : ∀ type, s'.Typed w name type → s.Typed (v ++ w) name type := by
      rintro type (ht | ht)
      · rw [hw.declared, hannotations] at ht
        exact ht.imp_right (List.mem_append_left _)
      · exact .inr (List.mem_append_right _ ht)
    exact h.types name type type' (hback type ht) (hback type' ht')

/-- The text of a number or vector token to come stands for a value. -/
theorem Prepared.readable (h : Prepared s (t :: ts) rest w) : t.Readable :=
  (h.clear t (by rw [h.upcoming]; exact List.mem_cons_self)).2

/-- The next token is the first of those that are prepared for. -/
theorem Prepared.current (h : Prepared s (t :: ts) rest w) : s.current = t := by
  simp [Draft.current, h.upcoming]

/-- The first of the tokens that are prepared for is seen. -/
theorem Prepared.sees (h : Prepared s (t :: ts) rest w) {kind : Token.Kind} (hk : t.kind = kind) :
    s.sees kind = true := by
  rw [Draft.sees, h.current, hk]
  exact beq_self_eq_true kind

/-- The next token is read. -/
theorem Prepared.advance (h : Prepared s (t :: ts) rest w) : Wrote s [t] .none s.advance ∧
    s.advance.previous = t ∧ Prepared s.advance ts rest w := by
  have hw := (h.ready.advance_of_clear h.clear h.upcoming).1
  exact ⟨hw, hw.previous_eq,
    Prepared.second (a := [t]) (v := .none) (h.congr rfl rfl) hw rfl rfl⟩

/-- The first of the tokens that are prepared for is as expected. -/
theorem Prepared.expect (h : Prepared s (t :: ts) rest w) {kind : Token.Kind} (hk : t.kind = kind)
    (wanted : Wanted) : s.expect kind wanted = (true, s.advance) := by
  rw [Draft.expect, if_pos (h.sees hk)]

/-- The first of the tokens that are prepared for is accepted. -/
theorem Prepared.accept (h : Prepared s (t :: ts) rest w) {kind : Token.Kind}
    (hk : t.kind = kind) : s.accept kind = (true, s.advance) := by
  rw [Draft.accept, if_pos (h.sees hk)]

/-- A token of another kind than the next one is not seen. -/
theorem sees_of_ne {kind : Token.Kind} (h : nextKind s.upcoming ≠ kind) : ¬ s.sees kind = true := by
  rw [sees, current_kind]
  simpa using h

/-- A token of another kind than the next one is not accepted, and nothing changes. -/
theorem accept_of_ne {kind : Token.Kind} (h : nextKind s.upcoming ≠ kind) :
    s.accept kind = (false, s) := by
  rw [accept, if_neg (sees_of_ne h)]

/-- Work that is done leaves the tokens behind it. -/
theorem Prepared.rest_upcoming (h : Prepared s ts rest w) (hw : Wrote s ts v s') :
    s'.upcoming = rest := by
  have hup := h.upcoming
  rw [hw.upcoming] at hup
  exact List.append_cancel_left hup

/-- A constant is interned. -/
theorem Prepared.intern {c : Value} (h : Prepared s ts rest (.intern c ++ w)) :
    Wrote s [] (.intern c) (s.intern c).2 ∧ (s.intern c).1 = slot (s.intern c).2.pool c ∧
      c ∈ (s.intern c).2.pool ∧ Prepared (s.intern c).2 ts rest w := by
  have hfirst := Prepared.first (a := []) (b := ts) (v := .intern c) h
  obtain ⟨hw, hindex, hmem⟩ := h.ready.intern_of_le hfirst.room
  exact ⟨hw, hindex, hmem, Prepared.second (a := []) h hw rfl rfl⟩

/-- A constant is interned, and pushed. -/
theorem Prepared.emitConstant {c : Value} (h : Prepared s ts rest (.push c ++ w)) :
    Wrote s [] (.push c) (s.emitConstant c) ∧ Prepared (s.emitConstant c) ts rest w := by
  have hfirst := Prepared.first (a := []) (b := ts) (v := .push c) h
  have hw := h.ready.emitConstant_of_le hfirst.room
  exact ⟨hw, Prepared.second (a := []) h hw rfl rfl⟩

end EntityScript.Compile.Draft
