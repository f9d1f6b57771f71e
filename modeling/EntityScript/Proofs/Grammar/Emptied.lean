import EntityScript.Proofs.Grammar.Framed
import EntityScript.Proofs.Grammar.Rendering
import EntityScript.Proofs.Grammar.Valid

/-!
# Assignments that lost their value

A source in which assignment statements were emptied: of `v = e;` only `v = ;` is left. `Emptied`
says which tokens spell a tree apart from such statements, lists the semicolons of those, and says
what is left of the tree: a tree with the constants that are still interned.

The token that is missing is noticed at the semicolon, which is read with it. What comes next then
looks as if it continued an operand, and a statement that begins with a minus sign does: it is read
as what is subtracted. `Phrase.continued` says that such a statement behind a name is an expression
again. It needs the name and the constants of the statement itself, except where the minus sign
belongs to a vector, which is then interned without it. So the emptied handler has room for its
constants if what is left of its tree has (`HasRoom`).
-/

namespace EntityScript.Grammar

open Compile (Level operatorLevel)

/-- An expression without the minus sign of the vector in front, if that is a vector with one. -/
def Expression.unsigned : Expression → Expression
  | literal (.negatedVector lexeme) => literal (.vector lexeme)
  | binary op a b => binary op a.unsigned b
  | and a b => and a.unsigned b
  | or a b => or a.unsigned b
  | component a name => component a.unsigned name
  | e => e

/-- What is left of the statements of a block right behind an emptied assignment. A minus sign in
front of their tokens is not that of a vector any more. -/
def Statement.behindGap : Statement → List Token → Statement
  | seq (evaluate e) rest, m :: _ =>
    if m.kind = .minus then seq (evaluate e.unsigned) rest else seq (evaluate e) rest
  | s, _ => s

/-- `Emptied site s left ts zs`: apart from assignments that were emptied, the tokens `ts` spell the
statement `s` at a site. The semicolons of those assignments are `zs`, and `left` is a statement
with the constants that are left: of an emptied assignment only its name. -/
inductive Emptied : Site → Statement → Statement → List Token → List Token → Prop where
  | done : Emptied .body .skip .skip [] []
  | next {first first' rest rest' : Statement} {ts us xs ys : List Token}
      (head : Emptied .statement first first' ts xs) (tail : Emptied .body rest rest' us ys) :
      Emptied .body (.seq first rest) (.seq first' rest') (ts ++ us) (xs ++ ys)
  | gap {name : String} {e : Expression} {rest rest' : Statement} {q z : Token}
      {ts us zs : List Token} (target : Name name ts) (sign : q.kind = .equal)
      (semicolon : z.kind = .semicolon) (tail : Emptied .body rest rest' us zs) :
      Emptied .body (.seq (.evaluate (.assign name e)) rest)
        (.seq (.evaluate (.var name)) (rest'.behindGap us)) (ts ++ q :: z :: us) (z :: zs)
  | whole {s : Statement} {ts : List Token} (clause : Clause .statement s ts) :
      Emptied .statement s s ts []
  | branch {condition : Expression} {whenTrue whenTrue' whenFalse whenFalse' : Statement}
      {w l r : Token} {ts us vs xs ys : List Token} (word : w.kind = .ifWord)
      (test : Phrase .assignment condition ts) (opening : l.kind = .leftBrace)
      (block : Emptied .body whenTrue whenTrue' us xs) (closing : r.kind = .rightBrace)
      (otherwise : Emptied .alternative whenFalse whenFalse' vs ys) :
      Emptied .conditional (.branch condition whenTrue whenFalse)
        (.branch condition whenTrue' whenFalse') (w :: (ts ++ l :: (us ++ r :: vs))) (xs ++ ys)
  | conditional {s left : Statement} {ts zs : List Token}
      (inner : Emptied .conditional s left ts zs) : Emptied .statement s left ts zs
  | nothing : Emptied .alternative .skip .skip [] []
  | elseIf {s left : Statement} {w : Token} {ts zs : List Token} (word : w.kind = .elseWord)
      (inner : Emptied .conditional s left ts zs) : Emptied .alternative s left (w :: ts) zs
  | elseBlock {s left : Statement} {w l r : Token} {ts zs : List Token} (word : w.kind = .elseWord)
      (opening : l.kind = .leftBrace) (block : Emptied .body s left ts zs)
      (closing : r.kind = .rightBrace) : Emptied .alternative s left (w :: l :: (ts ++ [r])) zs
  | block {s left : Statement} {l r : Token} {ts zs : List Token} (opening : l.kind = .leftBrace)
      (inner : Emptied .body s left ts zs) (closing : r.kind = .rightBrace) :
      Emptied .statement s left (l :: (ts ++ [r])) zs

/-- The tokens that are there after assignments were emptied are still readable. -/
theorem Emptied.readable {site : Site} {s left : Statement} {ts zs : List Token}
    (h : Emptied site s left ts zs) : AllReadable ts := by
  induction h with
  | gap target _ _ _ _ =>
    have := target.readable
    simp [*]
  | whole clause => exact clause.readable
  | branch _ test _ _ _ _ _ _ =>
    have := test.readable
    simp [*]
  | done | next | conditional | nothing | elseIf | elseBlock | block => simp [*]

/-- A statement may be taken as it is, with nothing emptied in it. -/
theorem Emptied.of_clause {site : Site} {s : Statement} {ts : List Token} (h : Clause site s ts) :
    Emptied site s s ts [] := by
  induction h with
  | done => exact .done
  | nothing => exact .nothing
  | next head _ _ ih => exact .next (.whole head) ih
  | branch word test opening _ closing _ ih₁ ih₂ => exact .branch word test opening ih₁ closing ih₂
  | elseIf word _ ih => exact .elseIf word ih
  | elseBlock word opening _ closing ih => exact .elseBlock word opening ih closing
  | declare word name typed initial semicolon =>
    exact .whole (.declare word name typed initial semicolon)
  | conditional inner => exact .whole (.conditional inner)
  | fire word name semicolon => exact .whole (.fire word name semicolon)
  | fireWith word opening name goal arguments closing semicolon =>
    exact .whole (.fireWith word opening name goal arguments closing semicolon)
  | change word name semicolon => exact .whole (.change word name semicolon)
  | changeTo word opening name closing semicolon =>
    exact .whole (.changeTo word opening name closing semicolon)
  | block opening inner closing => exact .whole (.block opening inner closing)
  | evaluate value semicolon => exact .whole (.evaluate value semicolon)

/-- Some semicolons of a list of tokens, in their order. -/
structure Semicolons (ts zs : List Token) : Prop where
  sublist : zs.Sublist ts
  kind : ∀ z ∈ zs, z.kind = .semicolon

namespace Semicolons

variable {ts us xs ys : List Token}

/-- None of the semicolons of some tokens need be listed. -/
theorem nil (ts : List Token) : Semicolons ts [] := ⟨List.nil_sublist ts, by simp⟩

/-- The semicolons of two lists of tokens are those of both together. -/
theorem append (h₁ : Semicolons ts xs) (h₂ : Semicolons us ys) :
    Semicolons (ts ++ us) (xs ++ ys) where
  sublist := h₁.sublist.append h₂.sublist
  kind := List.forall_mem_append.2 ⟨h₁.kind, h₂.kind⟩

/-- Tokens in front that are left out. -/
theorem behind (h : Semicolons ts xs) (us : List Token) : Semicolons (us ++ ts) xs :=
  (nil us).append h

/-- A token in front does not change which semicolons follow. -/
theorem cons (h : Semicolons ts xs) (t : Token) : Semicolons (t :: ts) xs := h.behind [t]

/-- Tokens at the end that are left out. -/
theorem before (h : Semicolons ts xs) (us : List Token) : Semicolons (ts ++ us) xs := by
  simpa using h.append (nil us)

end Semicolons

/-- The semicolons of the emptied assignments are among the tokens, in their order. -/
theorem Emptied.semicolons {site : Site} {s left : Statement} {ts zs : List Token}
    (h : Emptied site s left ts zs) : Semicolons ts zs := by
  induction h with
  | done | nothing | whole => exact .nil _
  | next _ _ ih₁ ih₂ => exact ih₁.append ih₂
  | @gap _ _ _ _ q z ts us zs _ _ semicolon _ ih =>
    have hz : Semicolons [z] [z] := ⟨List.Sublist.refl _, by simpa using semicolon⟩
    exact ((hz.append ih).cons q).behind ts
  | branch _ _ _ _ _ _ ih₁ ih₂ => exact ((ih₁.append (ih₂.cons _)).cons _ |>.behind _).cons _
  | conditional _ ih => exact ih
  | elseIf _ _ ih => exact ih.cons _
  | elseBlock _ _ _ _ ih => exact ((ih.before _).cons _).cons _
  | block _ _ _ ih => exact (ih.before _).cons _

/-- Only an expression begins with a minus sign. -/
theorem Emptied.exists_phrase_of_minus {stmt left : Statement} {ts zs : List Token}
    (h : Emptied .statement stmt left ts zs) (hm : Begins .minus ts) :
    ∃ e m us z, stmt = .evaluate e ∧ left = .evaluate e ∧ ts = m :: us ++ [z] ∧ zs = [] ∧
      m.kind = .minus ∧ z.kind = .semicolon ∧ Phrase .assignment e (m :: us) := by
  have hword : ∀ {k : Token.Kind} {w : Token} {us : List Token}, w.kind = k →
      Begins .minus (w :: us) → k = .minus := fun hw h => hw.symm.trans (Option.some.inj h)
  cases h with
  | whole clause =>
    cases clause with
    | declare word _ _ _ _ | fire word _ _ | fireWith word _ _ _ _ _ _ | change word _ _
    | changeTo word _ _ _ _ | block word _ _ => cases hword word hm
    | conditional inner =>
      cases inner with
      | branch word _ _ _ _ _ => cases hword word hm
    | evaluate value semicolon =>
      obtain ⟨m, us, rfl⟩ := List.exists_cons_of_ne_nil value.ne_nil
      exact ⟨_, m, us, _, rfl, rfl, rfl, rfl, Option.some.inj hm, semicolon, value⟩
  | conditional inner =>
    cases inner with
    | branch word _ _ _ _ _ => cases hword word hm
  | block opening _ _ => cases hword opening hm

/-- A statement that can stand in for another one where the limits of handlers are concerned: it
needs no more room for its code, and it notes the same. -/
structure Leaner (s left : Statement) : Prop where
  size : codeSize left.code ≤ codeSize s.code
  fits : (∀ i ∈ s.code, i.Fits) → ∀ i ∈ left.code, i.Fits
  annotations : left.annotations = s.annotations
  targets : left.targets = s.targets

namespace Leaner

variable {s s' t t' u : Statement}

/-- A statement stands in for itself. -/
theorem refl (s : Statement) : Leaner s s := ⟨Nat.le_refl _, id, rfl, rfl⟩

/-- What stands in for a statement that stands in for another one stands in for that. -/
theorem trans (h : Leaner s t) (h' : Leaner t u) : Leaner s u :=
  ⟨Nat.le_trans h'.size h.size, fun hfits => h'.fits (h.fits hfits),
    h'.annotations.trans h.annotations, h'.targets.trans h.targets⟩

/-- Statements may be exchanged one by one. -/
theorem seq (h : Leaner s s') (h' : Leaner t t') : Leaner (.seq s t) (.seq s' t') where
  size := by
    have := h.size
    have := h'.size
    simp only [Statement.code, codeSize_append]
    omega
  fits hfits := by
    simp only [Statement.code, List.forall_mem_append] at hfits ⊢
    exact ⟨h.fits hfits.1, h'.fits hfits.2⟩
  annotations := by simp only [Statement.annotations, h.annotations, h'.annotations]
  targets := by simp only [Statement.targets, h.targets, h'.targets]

/-- Shorter branches make shorter jumps. -/
theorem branch (condition : Expression) (h : Leaner s s') (h' : Leaner t t') :
    Leaner (.branch condition s t) (.branch condition s' t') where
  size := by
    have := h.size
    have := h'.size
    simp only [Statement.code, Statement.branchCode, codeSize_append, codeSize_cons, Symbolic.size]
    omega
  fits hfits := by
    have := h.size
    have := h'.size
    simp only [Statement.code, Statement.branchCode, List.forall_mem_append, List.forall_mem_cons,
      Symbolic.Fits] at hfits ⊢
    obtain ⟨hcondition, ⟨⟨hjump, hpop⟩, hs⟩, ⟨hjump', hpop'⟩, ht⟩ := hfits
    exact ⟨hcondition, ⟨⟨by omega, hpop⟩, h.fits hs⟩, ⟨by omega, hpop'⟩, h'.fits ht⟩
  annotations := by simp only [Statement.annotations, h.annotations, h'.annotations]
  targets := by simp only [Statement.targets, h.targets, h'.targets]

/-- One expression may be exchanged for another one. -/
theorem evaluate {e e' : Expression} (hsize : codeSize e'.code ≤ codeSize e.code)
    (hfits : (∀ i ∈ e.code, i.Fits) → ∀ i ∈ e'.code, i.Fits) :
    Leaner (.evaluate e) (.evaluate e') where
  size := by
    simp only [Statement.code, codeSize_append]
    omega
  fits := by
    simp only [Statement.code, List.forall_mem_append]
    exact And.imp_left hfits
  annotations := rfl
  targets := rfl

end Leaner

/-- A vector needs as many bytes without its sign. -/
theorem Expression.codeSize_unsigned (e : Expression) :
    codeSize e.unsigned.code = codeSize e.code := by
  induction e with
  | literal l => cases l <;> rfl
  | var | assign | negate | not => rfl
  | binary op a b iha _ | and a b iha _ | or a b iha _ | component a name iha =>
    simp [unsigned, code, iha]

/-- An expression fits as well if the vector in front is without its sign. -/
theorem Expression.fits_unsigned (e : Expression) (h : ∀ i ∈ e.code, i.Fits) :
    ∀ i ∈ e.unsigned.code, i.Fits := by
  induction e with
  | literal l =>
    cases l with
    | negatedVector lexeme => exact List.forall_mem_singleton.2 trivial
    | number | vector | text | truth => exact h
  | var | assign | negate | not => exact h
  | binary op a b iha _ =>
    simp only [unsigned, code, List.forall_mem_append] at h ⊢
    exact ⟨⟨iha h.1.1, h.1.2⟩, h.2⟩
  | and a b iha _ | or a b iha _ | component a name iha =>
    simp only [unsigned, code, List.forall_mem_append] at h ⊢
    exact ⟨iha h.1, h.2⟩

/-- An expression is as legal if the vector in front is without its sign. -/
theorem Expression.Legal.unsigned {e : Expression} (h : e.Legal) : e.unsigned.Legal := by
  induction e with
  | literal l =>
    cases l with
    | negatedVector lexeme => trivial
    | number | vector | text | truth => exact h
  | var | assign | negate | not => exact h
  | binary op a b iha _ | and a b iha _ | or a b iha _ | component a name iha =>
    exact ⟨iha h.1, h.2⟩

/-- What is left of statements behind an emptied assignment stands in for the statements. -/
theorem Leaner.behindGap (s : Statement) (ts : List Token) : Leaner s (s.behindGap ts) := by
  unfold Statement.behindGap
  split
  · split
    · exact .seq (.evaluate (Nat.le_of_eq (Expression.codeSize_unsigned _))
        (Expression.fits_unsigned _)) (.refl _)
    · exact .refl _
  · exact .refl _

/-- Every expression has some code, so reading a variable takes no more than any expression. -/
theorem Expression.two_le_codeSize (e : Expression) : 2 ≤ codeSize e.code := by
  induction e with
  | literal | var => exact Nat.le_refl _
  | assign name e ih | negate e ih | not e ih | component e name ih =>
    simp only [code, codeSize_append]
    omega
  | binary op a b iha _ | and a b iha _ | or a b iha _ =>
    simp only [code, codeSize_append]
    omega

/-- What is left of an emptied statement stands in for the statement. -/
theorem Emptied.leaner {site : Site} {s left : Statement} {ts zs : List Token}
    (h : Emptied site s left ts zs) : Leaner s left := by
  induction h with
  | done | nothing | whole => exact .refl _
  | next _ _ ih₁ ih₂ => exact .seq ih₁ ih₂
  | @gap name e rest rest' q z ts us zs _ _ _ _ ih =>
    refine .seq (.evaluate ?_ fun _ => ?_) (ih.trans (.behindGap rest' us))
    · simp only [Expression.code, codeSize_append, codeSize_cons, codeSize_nil, Symbolic.size]
      omega
    · exact List.forall_mem_singleton.2 trivial
  | branch _ _ _ _ _ _ ih₁ ih₂ => exact .branch _ ih₁ ih₂
  | conditional _ ih | elseIf _ _ ih | elseBlock _ _ _ _ ih | block _ _ _ ih => exact ih

section Sources

variable (Room : Statement → Prop)

/-- The tokens that spell a block apart from emptied assignments, and the semicolons of those. Of
what is left of the block something more may be asked. -/
def EmptiedBlock (body : Statement) (ts zs : List Token) : Prop :=
  ∃ left, Emptied .body body left ts zs ∧ Room left

/-- The tokens that spell a source apart from emptied assignments, and the semicolons of those. -/
def FileEmptied : File → List Token → List Token → Prop := FramedFile (EmptiedBlock Room)

variable {Room : Statement → Prop} {f : File} {ts zs : List Token}

/-- Semicolons of parts are semicolons of the whole. -/
theorem accrues_semicolons : Accrues Semicolons where
  nil := .nil _
  cons _ _ h := h.cons _
  append h₁ h₂ := h₁.append h₂

/-- The tokens that are there after assignments of a source were emptied are still readable. -/
theorem FileEmptied.readable (h : FileEmptied Room f ts zs) : AllReadable ts :=
  accrues_readable.file (fun ⟨_, hblock, _⟩ => hblock.readable) h

/-- The semicolons of the emptied assignments of a source are among its tokens, in their order. -/
theorem FileEmptied.semicolons (h : FileEmptied Room f ts zs) : Semicolons ts zs :=
  accrues_semicolons.file (fun ⟨_, hblock, _⟩ => hblock.semicolons) h

/-- The tokens of a source with one handler, from which assignments lost their value. -/
theorem fileEmptied_handlerTokens (state event : String) {body left : Statement}
    (h : Emptied .body body left ts zs) (hroom : Room left) :
    FileEmptied Room [.state ⟨state, [⟨event, body⟩]⟩] (handlerTokens state event ts) zs := by
  have hblock : EmptiedBlock Room body ts zs := ⟨left, h, hroom⟩
  have hhandlers := FramedHandlers.cons (w := mark .onEvent) (n := word event)
    (l := mark .leftBrace) (r := mark .rightBrace) rfl rfl rfl hblock rfl .nil
  have hstate := FramedState.mk (w := mark .state) (n := word state) (l := mark .leftBrace)
    (r := mark .rightBrace) rfl rfl rfl hhandlers rfl
  have hfile := FramedFile.state hstate .nil
  simp only [List.cons_append, List.append_assoc, List.nil_append, List.append_nil] at hfile
  exact hfile

end Sources

/-- A handler has room for its constants. -/
def HasRoom (body : Statement) : Prop := body.constants.dedup.length ≤ Chunk.maxConstants

/-- Whether there is room is decided by counting. -/
instance (body : Statement) : Decidable (HasRoom body) := inferInstanceAs (Decidable (_ ≤ _))

/-- An expression needs the constants of another one behind some more, and only so many more bytes.
It is legal and fits if the other one does. -/
structure Lighter (more : List Value) (slack : ℕ) (e e' : Expression) : Prop where
  constants : e'.constants = more ++ e.constants
  size : codeSize e'.code ≤ codeSize e.code + slack
  fits : (∀ i ∈ e.code, i.Fits) → ∀ i ∈ e'.code, i.Fits
  legal : e.Legal → e'.Legal

namespace Lighter

variable {more : List Value} {slack : ℕ} {a a' : Expression}

/-- An expression needs what it needs itself. -/
theorem refl (e : Expression) : Lighter [] 0 e e := ⟨rfl, Nat.le_refl _, id, id⟩

/-- A component of an expression needs as much more as the expression. -/
theorem component (h : Lighter more slack a a') (name : String) :
    Lighter more slack (.component a name) (.component a' name) where
  constants := by simp only [Expression.constants, h.constants, List.append_assoc]
  size := by
    have := h.size
    simp only [Expression.code, codeSize_append]
    omega
  fits hfits := by
    simp only [Expression.code, List.forall_mem_append] at hfits ⊢
    exact ⟨h.fits hfits.1, hfits.2⟩
  legal hlegal := ⟨h.legal hlegal.1, hlegal.2⟩

/-- An expression is as light as its left part if the right part stays. -/
theorem left {e e' b : Expression} {i : List Symbolic} (h : Lighter more slack a a')
    (hconstants : e.constants = a.constants ++ b.constants)
    (hconstants' : e'.constants = a'.constants ++ b.constants) (hcode : e.code = a.code ++ i)
    (hcode' : e'.code = a'.code ++ i) (hlegal : e.Legal ↔ a.Legal ∧ b.Legal)
    (hlegal' : e'.Legal ↔ a'.Legal ∧ b.Legal) : Lighter more slack e e' where
  constants := by rw [hconstants', h.constants, hconstants, List.append_assoc]
  size := by
    have := h.size
    rw [hcode, hcode', codeSize_append, codeSize_append]
    omega
  fits hfits := by
    rw [hcode, List.forall_mem_append] at hfits
    rw [hcode', List.forall_mem_append]
    exact ⟨h.fits hfits.1, hfits.2⟩
  legal := by
    rw [hlegal, hlegal']
    exact And.imp_left h.legal

/-- An operation needs as much more as its left operand. -/
theorem binary (h : Lighter more slack a a') (op : Operator) (b : Expression) :
    Lighter more slack (.binary op a b) (.binary op a' b) :=
  h.left rfl rfl (List.append_assoc ..) (List.append_assoc ..) .rfl .rfl

/-- A conjunction needs as much more as its left operand. -/
theorem and (h : Lighter more slack a a') (b : Expression) :
    Lighter more slack (.and a b) (.and a' b) :=
  h.left rfl rfl rfl rfl .rfl .rfl

/-- A disjunction needs as much more as its left operand. -/
theorem or (h : Lighter more slack a a') (b : Expression) :
    Lighter more slack (.or a b) (.or a' b) :=
  h.left rfl rfl rfl rfl .rfl .rfl

/-- An operand needs nothing more without the minus sign of its negation. -/
theorem negate (e : Expression) : Lighter [] 0 (.negate e) e where
  constants := rfl
  size := by simp [Expression.code]
  fits hfits i hi := hfits i (List.mem_append_left _ hi)
  legal := id

/-- A name from which the expression is subtracted. -/
theorem subtract (h : Lighter [] 0 a a') (name : String) :
    Lighter [.string name] 3 a (.binary .subtract (.var name) a') where
  constants := by simp only [Expression.constants, h.constants, List.nil_append]
  size := by
    have := h.size
    simp only [Expression.code, codeSize_append, codeSize_cons, codeSize_nil, Symbolic.size]
    omega
  fits hfits := by
    have := h.fits hfits
    simp only [Expression.code, List.forall_mem_append, List.forall_mem_singleton]
    exact ⟨⟨trivial, this⟩, trivial⟩
  legal hlegal := ⟨trivial, h.legal hlegal⟩

end Lighter

variable {level : Level} {e : Expression} {m : Token} {us : List Token}

/-- What comes first of a phrase and more comes first of the phrase. -/
theorem Phrase.exists_cons_of_append {ts vs : List Token} (h : Phrase level e ts)
    (hts : m :: us = ts ++ vs) : ∃ ws, ts = m :: ws ∧ us = ws ++ vs := by
  obtain ⟨m', ws, rfl⟩ := List.exists_cons_of_ne_nil h.ne_nil
  obtain ⟨rfl, rfl⟩ := List.cons.inj hts
  exact ⟨ws, rfl, rfl⟩

/-- A phrase that binds more tightly than a sum is one without its minus sign as well. -/
theorem Phrase.unsigned (h : Phrase level e (m :: us)) (hm : m.kind = .minus)
    (hlevel : .factor ≤ level) : ∃ e', Phrase level e' us ∧ Lighter [] 0 e.unsigned e' := by
  generalize hts : m :: us = ts at h
  induction h generalizing us with
  | number kind | vector kind | text kind | yes kind | no kind | group kind _ _ | not _ kind _ =>
    obtain ⟨rfl, -⟩ := List.cons.inj hts
    rw [hm] at kind
    cases kind
  | var spelled =>
    cases spelled with
    | plain kind _ | argument kind _ _ _ =>
      obtain ⟨rfl, -⟩ := List.cons.inj hts
      rw [hm] at kind
      cases kind
  | negatedVector sign kind =>
    obtain ⟨-, rfl⟩ := List.cons.inj hts
    exact ⟨_, .vector kind, .refl _⟩
  | component operand dot kind ih =>
    obtain ⟨ws, rfl, rfl⟩ := operand.exists_cons_of_append hts
    obtain ⟨e', hphrase, hlighter⟩ := ih (by decide) rfl
    exact ⟨_, .component hphrase dot kind, hlighter.component _⟩
  | negate loose sign free operand _ =>
    obtain ⟨-, rfl⟩ := List.cons.inj hts
    exact ⟨_, operand.loosen loose, .negate _⟩
  | @binary level op a b _ _ _ loose left sign right ih _ =>
    obtain ⟨ws, rfl, rfl⟩ := left.exists_cons_of_append hts
    obtain ⟨a', hphrase, hlighter⟩ := ih (Nat.le_trans hlevel loose) rfl
    exact ⟨_, .binary loose hphrase sign right, hlighter.binary op b⟩
  | and loose | or loose => exact absurd (Nat.le_trans hlevel loose) (by decide)
  | assign => exact absurd hlevel (by decide)

/-- A phrase that begins with a minus sign continues a name. -/
theorem Phrase.continued {name : String} {ns : List Token} (hname : Name name ns)
    (h : Phrase level e (m :: us)) (hm : m.kind = .minus) (hlevel : level ≤ .term) :
    ∃ e', Phrase level e' (ns ++ m :: us) ∧ Lighter [.string name] 3 e.unsigned e' := by
  -- What binds more tightly than a sum is subtracted as a whole.
  have subtracted : ∀ {e : Expression} {us ts : List Token}, m :: us = ts →
      ∀ {level : Level}, level ≤ .term → Phrase .factor e ts →
      ∃ e', Phrase level e' (ns ++ ts) ∧ Lighter [.string name] 3 e.unsigned e' := by
    rintro e us _ rfl level hlevel h
    obtain ⟨e', hphrase, hlighter⟩ := h.unsigned hm (Nat.le_refl _)
    exact ⟨.binary .subtract (.var name) _, .binary hlevel (.var hname) hm hphrase,
      hlighter.subtract name⟩
  generalize hts : m :: us = ts at h
  induction h generalizing us with
  | number kind | vector kind | text kind | yes kind | no kind | group kind _ _ | not _ kind _ =>
    obtain ⟨rfl, -⟩ := List.cons.inj hts
    rw [hm] at kind
    cases kind
  | var spelled | assign spelled _ _ _ =>
    cases spelled with
    | plain kind _ | argument kind _ _ _ =>
      obtain ⟨rfl, -⟩ := List.cons.inj hts
      rw [hm] at kind
      cases kind
  | negatedVector sign kind => exact subtracted hts hlevel (.negatedVector sign kind)
  | component operand dot kind _ => exact subtracted hts hlevel (.component operand dot kind)
  | negate loose sign free operand _ =>
    exact subtracted hts hlevel (.negate (by decide) sign free operand)
  | @binary level op a b _ _ _ loose left sign right ih _ =>
    by_cases hop : operatorLevel op ≤ .term
    · obtain ⟨ws, rfl, rfl⟩ := left.exists_cons_of_append hts
      obtain ⟨a', hphrase, hlighter⟩ := ih hop rfl
      refine ⟨_, ?_, hlighter.binary op b⟩
      rw [← List.append_assoc]
      exact .binary loose hphrase sign right
    · have hfactor : operatorLevel op = .factor := by
        cases op <;> first | rfl | exact absurd (by decide) hop
      exact subtracted hts hlevel (.binary (Nat.le_of_eq (by rw [hfactor])) left sign right)
  | and loose left sign right ih _ =>
    obtain ⟨ws, rfl, rfl⟩ := left.exists_cons_of_append hts
    obtain ⟨a', hphrase, hlighter⟩ := ih (by decide) rfl
    refine ⟨_, ?_, hlighter.and _⟩
    rw [← List.append_assoc]
    exact .and loose hphrase sign right
  | or loose left sign right ih _ =>
    obtain ⟨ws, rfl, rfl⟩ := left.exists_cons_of_append hts
    obtain ⟨a', hphrase, hlighter⟩ := ih (by decide) rfl
    refine ⟨_, ?_, hlighter.or _⟩
    rw [← List.append_assoc]
    exact .or loose hphrase sign right

end EntityScript.Grammar
