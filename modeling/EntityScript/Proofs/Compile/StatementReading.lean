import EntityScript.Proofs.Compile.ExpressionReading

/-!
# What compiles as a statement is one

If compiling a statement finds nothing wrong, then the tokens that it took spell a statement of the
grammar, and what it wrote is the code of that statement. There is one lemma for each function of
the compiler; those for blocks and branches take each other as hypotheses and are put together
by the induction along the compilation of statements.
-/

namespace EntityScript.Compile

open Grammar

/-- What an annotation adds to a draft. -/
def annotationWork (name : String) (type : Option String) : Work :=
  ⟨[], [], ((annotatedType type).map fun t => (name, t)).toList, []⟩

/-- What the value that a variable begins with adds to a draft. -/
def initialWork (type : Option String) : Option Expression → Work
  | none => .push (Statement.unset type)
  | some e => e.work

/-- What the target of an event adds to a draft. -/
def targetWork (target : Option Target) : Work :=
  ⟨(target.map fun t => Value.string t.text).toList,
    (target.map fun t => Symbolic.constant (.string t.text)).toList, [], []⟩

/-- What the arguments of an event add to a draft. -/
def argumentsWork (args : List (String × Expression)) : Work :=
  ⟨args.flatMap fun a => [.string a.1] ++ a.2.constants, Statement.argumentCode args, [], []⟩

/-- The first argument adds its name and its value in front of the others. -/
theorem argumentsWork_cons (name : String) (e : Expression) (args : List (String × Expression)) :
    argumentsWork ((name, e) :: args) = .push (.string name) ++ e.work ++ argumentsWork args := by
  simp [argumentsWork, Statement.argumentCode, Expression.work]

/-- A variable adds its annotation, its value, its name and the instruction that sets it. -/
theorem work_declare (name : String) (type : Option String) (init : Option Expression) :
    (Statement.declare name type init).work = annotationWork name type ++ (initialWork type init
      ++ (.intern (.string name) ++ .emit [.setVariable name, .pop])) := by
  cases init <;>
    simp [Statement.work, annotationWork, initialWork, Statement.constants, Statement.code,
      Statement.annotations, Statement.targets, Expression.work]

/-- Firing an event adds its name, its target, its arguments and the instruction that fires it. -/
theorem work_fire (event : String) (target : Option Target) (args : List (String × Expression)) :
    (Statement.fire event target args).work = .intern (.string event) ++ (targetWork target
      ++ argumentsWork args) ++ .emit [.fireEvent event target.isSome args.length] := by
  simp [Statement.work, targetWork, argumentsWork, Statement.constants, Statement.code,
    Statement.annotations, Statement.targets]

namespace Draft

variable {s : Draft}

/-- An annotation with a type that the variable does not have elsewhere. -/
theorem Ready.annotate_of_declared (hs : s.Ready) {name : String} {type : ValueType}
    (htype : ValueType.ofName? s.previous.lexeme = some type)
    (hdeclared : ∀ earlier, s.declared.get? name = some earlier → earlier = type) :
    (s.annotate name).1 = some type ∧
      Wrote s [] ⟨[], [], [(name, type)], []⟩ (s.annotate name).2 := by
  have hsame : (s.annotate name).2 = s ∨
      (s.annotate name).2 = { s with declared := s.declared.insert name type } := by
    unfold annotate
    rw [htype]
    dsimp only
    split
    · exact .inr rfl
    · rename_i earlier hearlier
      rw [if_pos (hdeclared earlier hearlier)]
      exact .inl rfl
  have hanswer : (s.annotate name).1 = some type ∧
      (s.annotate name).2.declared.get? name = some type := by
    unfold annotate
    rw [htype]
    dsimp only
    split
    · exact ⟨rfl, Table.get?_insert_self ..⟩
    · rename_i earlier hearlier
      rw [if_pos (hdeclared earlier hearlier)]
      exact ⟨rfl, hdeclared earlier hearlier ▸ hearlier⟩
  refine ⟨hanswer.1, ?_⟩
  have hother : ∀ n, n ≠ name → (s.annotate name).2.declared.get? n = s.declared.get? n := by
    intro n hn
    rcases hsame with h | h <;> rw [h]
    exact Table.get?_insert_of_ne _ hn _
  have hiff : ∀ n t, (s.annotate name).2.declared.get? n = some t ↔
      s.declared.get? n = some t ∨ (n, t) ∈ [(name, type)] := by
    intro n t
    by_cases hn : n = name
    · subst hn
      rw [hanswer.2]
      constructor
      · rintro h
        cases h
        exact .inr (List.mem_singleton_self _)
      · rintro (h | h)
        · rw [hdeclared t h]
        · cases List.mem_singleton.1 h
          rfl
    · rw [hother n hn]
      simp [hn]
  rcases hsame with h | h <;> rw [h] at hiff ⊢ <;> exact hs.notes hiff (List.append_nil _).symm

/-- The annotation is noted with a type, or something is wrong. -/
theorem Ready.annotate_or (hs : s.Ready) (name : String) :
    (s.annotate name).2.Troubled ∨ ∃ type, ValueType.ofName? s.previous.lexeme = some type ∧
      (s.annotate name).1 = some type ∧
      Wrote s [] ⟨[], [], [(name, type)], []⟩ (s.annotate name).2 := by
  cases htype : ValueType.ofName? s.previous.lexeme with
  | none =>
    left
    simp only [annotate, htype]
    exact hs.troubled_report _ _
  | some type =>
    by_cases hdeclared : ∀ earlier, s.declared.get? name = some earlier → earlier = type
    · exact .inr ⟨type, rfl, hs.annotate_of_declared htype hdeclared⟩
    · left
      push Not at hdeclared
      obtain ⟨earlier, hearlier, hne⟩ := hdeclared
      simp only [annotate, htype, hearlier, if_neg hne]
      exact hs.troubled_report _ _

/-- An annotation is read if there is one, or something is wrong. -/
theorem Ready.annotation_or (hs : s.Ready) (name : String) : (s.annotation name).2.Troubled ∨
    ∃ ts type s', s.annotation name = (some (annotatedType type), s') ∧
      AnnotationSpelling type ts ∧ (∀ t, type = some t → (ValueType.ofName? t).isSome) ∧
      Wrote s ts (annotationWork name type) s' := by
  unfold annotation
  rcases hs.accept_or (k := .colon) (by decide) with ⟨heq, -⟩ | ⟨s₁, heq, ht | ⟨c, hc, hw₁⟩⟩
  · rw [heq]
    exact .inr ⟨[], none, s, rfl, .none, by simp, .refl hs⟩
  · rw [heq]
    left
    have h := ht.of_leads fun hk => hk.expect .identifier .typeName
    dsimp only
    split <;> rename_i heq <;> rw [heq] at h
    · exact h
    · have h := h.of_leads fun hk => hk.annotate name
      split <;> rename_i heq <;> rwa [heq] at h
  · rw [heq]
    dsimp only
    rcases hw₁.ready.expect_or (k := .identifier) (by decide) .typeName with
      ⟨b, s₂, heq, ht⟩ | ⟨s₂, t, heq, htk, hw₂⟩ <;> rw [heq]
    · left
      cases b with
      | false => exact ht
      | true =>
        have h := ht.of_leads fun hk => hk.annotate name
        dsimp only
        split <;> rename_i heq <;> rwa [heq] at h
    · have hprevious : s₂.previous = t := hw₂.previous_eq
      dsimp only
      rcases hw₂.ready.annotate_or name with ht | ⟨type, htype, hanswer, hw₃⟩
      · left
        split <;> rename_i heq <;> rwa [heq] at ht
      · right
        rw [hprevious] at htype
        rcases hannotate : s₂.annotate name with ⟨o, s₃⟩
        rw [hannotate] at hanswer hw₃
        obtain rfl : o = some type := hanswer
        have htyped : annotatedType (some t.lexeme) = some type := htype
        refine ⟨[c, t], some t.lexeme, s₃, ?_, .some hc htk, ?_, ?_⟩
        · rw [htyped]
        · rintro u hu
          cases hu
          rw [htype]
          rfl
        · refine ((hw₁.trans hw₂).then hw₃).congr rfl ?_
          simp [annotationWork, htyped]

/-- What a variable begins with is read if it is said, or something is wrong. -/
theorem Ready.initialValue_or (hs : s.Ready) (type : Option String) :
    (s.initialValue (annotatedType type)).Troubled ∨
      ∃ ts init, InitialSpelling init ts ∧ (∀ e, init = some e → e.Legal) ∧
        Wrote s ts (initialWork type init) (s.initialValue (annotatedType type)) := by
  unfold initialValue
  rcases hs.accept_or (k := .equal) (by decide) with ⟨heq, -⟩ | ⟨s₁, heq, ht | ⟨q, hq, hw₁⟩⟩ <;>
    rw [heq] <;> dsimp only
  · refine (hs.emitConstant_or _).imp_right fun hw => ?_
    exact ⟨[], none, .none, by simp, hw⟩
  · exact .inl (ht.of_leads fun hk => hk.expression)
  · refine hw₁.ready.expression_or.imp_right ?_
    rintro ⟨ts, e, hp, hl, hw₂⟩
    refine ⟨q :: ts, some e, .some hq hp, ?_, hw₁.trans hw₂⟩
    rintro _ h
    cases h
    exact hl

/-- A draft has read a statement at a site, from `s` to `s'`. -/
def ReadsClause (site : Site) (front : List Token) (s s' : Draft) : Prop :=
  ∃ ts stmt, Clause site stmt (front ++ ts) ∧ stmt.Legal ∧ Wrote s ts stmt.work s'

/-- Behind its first word a variable is read, or something is wrong. -/
theorem Ready.varTail_or (hs : s.Ready) (hkind : s.previous.kind = .varWord) :
    s.varTail.Troubled ∨ ReadsClause .statement [s.previous] s s.varTail := by
  unfold varTail
  rcases hs.expect_or (k := .identifier) (by decide) .variableName with
    ⟨b, s₁, heq, ht⟩ | ⟨s₁, n, heq, hn, hw₁⟩ <;> rw [heq]
  · left
    cases b with
    | false => exact ht
    | true =>
      refine ht.of_leads fun hk => ?_
      dsimp only
      split
      · exact hk.reportPrevious _
      · have hk₂ := hk.annotation s₁.previous.lexeme
        split <;> rename_i heq <;> rw [heq] at hk₂
        · exact hk₂
        · exact ((((hk₂.initialValue _).internName _).emit _).emit _).expect ..
  · have hprevious : s₁.previous = n := hw₁.previous_eq
    dsimp only
    rw [hprevious]
    by_cases hargs : n.lexeme = "args"
    · rw [if_pos hargs]
      exact .inl (hw₁.ready.troubled_report _ _)
    rw [if_neg hargs]
    rcases hw₁.ready.annotation_or n.lexeme with ht | ⟨ts, type, s₂, heq, hts, htype, hw₂⟩
    · left
      split <;> rename_i heq <;> rw [heq] at ht
      · exact ht
      · exact ht.of_leads fun hk => ((((hk.initialValue _).internName _).emit _).emit _).expect ..
    rw [heq]
    dsimp only [internName]
    rcases hw₂.ready.initialValue_or type with ht | ⟨us, init, hus, hinit, hw₃⟩
    · exact .inl (ht.of_leads fun hk => (((hk.internName _).emit _).emit _).expect ..)
    rcases hw₃.ready.intern_or (.string n.lexeme) with ht | ⟨hw₄, hindex, hmem⟩
    · exact .inl (ht.of_leads fun hk => ((hk.emit _).emit _).expect ..)
    have hset := hw₄.emitNamed (i := .setVariable n.lexeme) (fun _ => rfl) rfl trivial hmem hindex
    have hpop := hset.emitPlain (i := .pop) trivial rfl (fun _ => rfl)
    rcases hpop.ready.expect_or (k := .semicolon) (by decide) .variableEnd with
      ⟨b, s₅, heq, ht⟩ | ⟨s₅, z, heq, hz, hw₅⟩
    · rw [heq]
      exact .inl ht
    · right
      rw [heq]
      refine ⟨n :: (ts ++ (us ++ [z])), .declare n.lexeme type init,
        .declare hkind hn hts hus hz, ⟨hargs, htype, hinit⟩, ?_⟩
      refine (hw₁.trans (hw₂.trans (hw₃.trans (hpop.trans hw₅)))).congr rfl ?_
      rw [work_declare]
      simp [Work.append_def]

/-- A target or an argument was read, from behind its comma on. -/
inductive ReadsArgument (a : EventOperands) (s : Draft) : Option EventOperands × Draft → Prop where
  | target {target : Target} {t : Token} {s' : Draft} (may : a.mayTarget = true)
      (spelled : ∀ c : Token, c.kind = .comma → TargetSpelling (some target) [c, t])
      (legal : target.Legal) (wrote : Wrote s [t] (targetWork (some target)) s') :
      ReadsArgument a s (some { a with targeted := true }, s')
  | argument {n q : Token} {e : Expression} {ts : List Token} {s' : Draft}
      (name : n.kind = .identifier) (sign : q.kind = .equal) (value : Phrase .assignment e ts)
      (legal : e.Legal) (wrote : Wrote s (n :: q :: ts) (.push (.string n.lexeme) ++ e.work) s') :
      ReadsArgument a s (some { a with count := a.count + 1 }, s')

/-- Behind its comma a target or an argument is read, or something is wrong. -/
theorem Ready.argument_or (hs : s.Ready) (a : EventOperands) :
    (argument a s).2.Troubled ∨ ReadsArgument a s (argument a s) := by
  unfold argument
  split
  · rename_i h
    obtain ⟨hsees, hmay⟩ := Bool.and_eq_true_iff.1 h
    obtain ⟨t, rest, hup, htk⟩ := upcoming_of_sees hsees (by decide)
    dsimp only
    rcases hs.advance_or hup with ht | hw₁
    · left
      split
      · exact ht.of_leads fun hk => hk.emitConstant _
      · exact ht.of_leads fun hk => hk.reportPrevious _
    · have hprevious : s.advance.previous = t := hw₁.previous_eq
      rw [hprevious]
      cases hread : readText t.lexeme with
      | error problem => exact .inl (hw₁.ready.troubled_report _ _)
      | ok text =>
        refine (hw₁.ready.emitConstant_or (.string text)).imp_right fun hw₂ => ?_
        have htext : (Target.quoted t.lexeme).text = text := by
          simp [Target.text, Target.read, hread]
        refine .target hmay (fun c hc => .quoted hc htk)
          ((Target.readable_iff_legal _).1 ⟨text, hread⟩) ((hw₁.trans hw₂).congr rfl ?_)
        simp [targetWork, htext]
  · rcases hs.accept_or (k := .identifier) (by decide) with
      ⟨heq, -⟩ | ⟨s₁, heq, ht | ⟨n, hn, hw₁⟩⟩ <;> rw [heq] <;> dsimp only
    · exact .inl (hs.troubled_report _ _)
    · left
      have h := ht.of_leads fun hk => hk.accept .equal
      split <;> rename_i heq <;> rw [heq] at h
      · exact h.of_leads fun hk => (hk.emitConstant _).expression
      · split
        · exact h.of_leads fun hk => hk.emitConstant _
        · exact h.of_leads fun hk => hk.reportMissing _
    · have hprevious : s₁.previous = n := hw₁.previous_eq
      rw [hprevious]
      rcases hw₁.ready.accept_or (k := .equal) (by decide) with
        ⟨heq, -⟩ | ⟨s₂, heq, ht | ⟨q, hq, hw₂⟩⟩ <;> rw [heq] <;> dsimp only
      · split
        · rename_i hmay
          refine (hw₁.ready.emitConstant_or _).imp_right fun hw₂ => ?_
          exact .target hmay (fun c hc => .named hc hn) trivial (hw₁.trans hw₂)
        · exact .inl (hw₁.ready.troubled_report _ _)
      · exact .inl (ht.of_leads fun hk => (hk.emitConstant _).expression)
      · rcases hw₂.ready.emitConstant_or (.string n.lexeme) with ht | hw₃
        · exact .inl (ht.of_leads fun hk => hk.expression)
        · refine hw₃.ready.expression_or.imp_right ?_
          rintro ⟨ts, e, hp, hl, hw₄⟩
          exact .argument hn hq hp hl ((hw₁.trans (hw₂.trans (hw₃.trans hw₄))).congr rfl rfl)

/-- The target and the arguments that were read, from before their first comma on. -/
def ReadsArguments (a : EventOperands) (s : Draft) (r : Option EventOperands × Draft) : Prop :=
  ∃ target args ts us, TargetSpelling target ts ∧ ArgumentSpelling args us ∧
    (target.isSome = true → a.mayTarget = true) ∧ (∀ t, target = some t → t.Legal) ∧
    (∀ x ∈ args, x.2.Legal) ∧
    r.1 = some ⟨a.targeted || target.isSome, a.count + args.length⟩ ∧
    Wrote s (ts ++ us) (targetWork target ++ argumentsWork args) r.2

/-- Where no target may come, there were only arguments. -/
theorem ReadsArguments.of_not_mayTarget {a : EventOperands} {r : Option EventOperands × Draft}
    (h : ReadsArguments a s r) (ha : a.mayTarget = false) :
    ∃ args us, ArgumentSpelling args us ∧ (∀ x ∈ args, x.2.Legal) ∧
      r.1 = some ⟨a.targeted, a.count + args.length⟩ ∧ Wrote s us (argumentsWork args) r.2 := by
  obtain ⟨target, args, ts, us, hts, hus, htarget, -, hargs, hanswer, hw⟩ := h
  obtain rfl : target = none := by
    cases target with
    | none => rfl
    | some t => simp [ha] at htarget
  cases hts
  refine ⟨args, us, hus, hargs, ?_, hw⟩
  simpa using hanswer

/-- The target and the arguments are read, or something is wrong. -/
theorem Ready.arguments_or (hs : s.Ready) (a : EventOperands) :
    (arguments a s).2.Troubled ∨ ReadsArguments a s (arguments a s) := by
  fun_induction arguments a s with
  | case1 a s hsees s₁ harg =>
    left
    obtain ⟨c, rest, hup, hc⟩ := upcoming_of_sees hsees (by decide)
    rcases hs.advance_or hup with ht | hw₁
    · have h := ht.of_leads fun hk => hk.argument a
      rwa [harg] at h
    · rcases hw₁.ready.argument_or a with ht | hr
      · rwa [harg] at ht
      · rw [harg] at hr
        cases hr
  | case2 a s hsees b s₁ harg hlt ih =>
    obtain ⟨c, rest, hup, hc⟩ := upcoming_of_sees hsees (by decide)
    rcases hs.advance_or hup with ht | hw₁
    · have h := ht.of_leads fun hk => hk.argument a
      rw [harg] at h
      exact .inl (h.of_leads fun hk => hk.arguments b)
    rcases hw₁.ready.argument_or a with ht | hr
    · rw [harg] at ht
      exact .inl (ht.of_leads fun hk => hk.arguments b)
    rw [harg] at hr
    cases hr with
    | @target target t _ hmay hspelled hreadable hw₂ =>
      refine (ih hw₂.ready).imp_right ?_
      intro h
      obtain ⟨args, us, hus, hargs, hanswer, hw₃⟩ :=
        h.of_not_mayTarget (by simp [EventOperands.mayTarget])
      refine ⟨some target, args, [c, t], us, hspelled c hc, hus, fun _ => hmay, ?_, hargs, ?_, ?_⟩
      · rintro _ h
        cases h
        exact hreadable
      · rw [hanswer]
        simp
      · exact (hw₁.trans (hw₂.trans hw₃)).congr rfl rfl
    | @argument n q e ts _ hn hq hp hl hw₂ =>
      refine (ih hw₂.ready).imp_right ?_
      intro h
      obtain ⟨args, us, hus, hargs, hanswer, hw₃⟩ :=
        h.of_not_mayTarget (by simp [EventOperands.mayTarget])
      refine ⟨none, (n.lexeme, e) :: args, [], c :: n :: q :: (ts ++ us), .none,
        .cons hc hn hq hp hus, by simp, by simp, ?_, ?_, ?_⟩
      · intro x hx
        rcases List.mem_cons.1 hx with rfl | hx
        · exact hl
        · exact hargs x hx
      · rw [hanswer]
        simp [Nat.add_comm, Nat.add_left_comm]
      · refine (hw₁.trans (hw₂.trans hw₃)).congr (by simp) ?_
        rw [argumentsWork_cons]
        simp [targetWork, Work.append_def]
  | case3 a s hsees =>
    exact .inr ⟨none, [], [], [], .none, .nil, by simp, by simp, by simp, by simp, .refl hs⟩

/-- A target and arguments with their closing parenthesis, if one was opened. -/
theorem Ready.argumentList_or (hs : s.Ready) (parenthesized : Bool) :
    (argumentList parenthesized s).2.Troubled ∨
      (parenthesized = false ∧ argumentList parenthesized s = (some .none, s)) ∨
      ∃ target args ts us r, parenthesized = true ∧ TargetSpelling target ts ∧
        ArgumentSpelling args us ∧ r.kind = .rightParen ∧ (∀ t, target = some t → t.Legal) ∧
        (∀ x ∈ args, x.2.Legal) ∧
        (argumentList parenthesized s).1 = some ⟨target.isSome, args.length⟩ ∧
        Wrote s (ts ++ us ++ [r]) (targetWork target ++ argumentsWork args)
          (argumentList parenthesized s).2 := by
  unfold argumentList
  cases parenthesized with
  | false => exact .inr (.inl ⟨rfl, rfl⟩)
  | true =>
    rw [if_pos rfl]
    have hr := hs.arguments_or .none
    rcases harguments : arguments .none s with ⟨answer, s₁⟩
    rw [harguments] at hr
    rcases hr with ht | ⟨target, args, ts, us, hts, hus, -, htarget, hargs, hanswer, hw₁⟩
    · left
      cases answer with
      | none => exact ht
      | some a =>
        have h := ht.of_leads fun hk => hk.expect .rightParen .fireClose
        dsimp only
        split <;> rename_i heq <;> rwa [heq] at h
    · obtain rfl : answer = some ⟨target.isSome, args.length⟩ := by
        rw [show answer = _ from hanswer]
        simp [EventOperands.none]
      dsimp only
      rcases hw₁.ready.expect_or (k := .rightParen) (by decide) .fireClose with
        ⟨b, s₂, heq, ht⟩ | ⟨s₂, r, heq, hrk, hw₂⟩ <;> rw [heq]
      · left
        cases b <;> exact ht
      · exact .inr (.inr ⟨target, args, ts, us, r, rfl, hts, hus, hrk, htarget, hargs, rfl,
          (hw₁.trans hw₂).congr rfl (by simp [Work.append_def])⟩)

/-- The end of a statement that fires an event: its semicolon and its instruction. -/
theorem Wrote.fireEnd_or {s s' : Draft} {ts : List Token} {w : Work} (h : Wrote s ts w s')
    {event : String} (hmem : Value.string event ∈ s'.pool) {index : UInt8}
    (hindex : index = Grammar.slot s'.pool (.string event)) (targeted : Bool) {count : ℕ}
    (hcount : count < 256) :
    ((s'.expect .semicolon .fireEnd).2.emit (.fireEvent index
      (if targeted then Instruction.targetFlag else 0) (UInt8.ofNat count))).Troubled ∨
    ∃ z, z.kind = .semicolon ∧ Wrote s (ts ++ [z]) (w ++ .emit [.fireEvent event targeted count])
      ((s'.expect .semicolon .fireEnd).2.emit (.fireEvent index
        (if targeted then Instruction.targetFlag else 0) (UInt8.ofNat count))) := by
  rcases h.ready.expect_or (k := .semicolon) (by decide) .fireEnd with
    ⟨b, s₁, heq, ht⟩ | ⟨s₁, z, heq, hz, hw₁⟩ <;> rw [heq]
  · exact .inl (ht.of_leads fun hk => hk.emit _)
  · right
    refine ⟨z, hz, ?_⟩
    have hall := (h.trans hw₁).emitNamed (i := .fireEvent event targeted count)
      (f := fun index => .fireEvent index (if targeted then Instruction.targetFlag else 0)
        (UInt8.ofNat count)) (fun _ => rfl) rfl (Nat.le_of_lt_succ hcount) (hw₁.mem_pool hmem)
      (hindex.trans (hw₁.slot hmem).symm)
    exact hall.congr rfl (by simp [Work.append_def])

/-- A statement that fires an event, from its name on. -/
theorem Ready.fireName_or (hs : s.Ready) (parenthesized : Bool) :
    (fireName parenthesized s).Troubled ∨ ∃ n target args ts z, n.kind = .identifier ∧
      z.kind = .semicolon ∧ (∀ t, target = some t → t.Legal) ∧ (∀ x ∈ args, x.2.Legal) ∧
      Wrote s (n :: (ts ++ [z])) (Statement.fire n.lexeme target args).work
        (fireName parenthesized s) ∧
      (parenthesized = false ∧ target = none ∧ args = [] ∧ ts = [] ∨
        parenthesized = true ∧ ∃ us vs r, TargetSpelling target us ∧ ArgumentSpelling args vs ∧
          r.kind = .rightParen ∧ ts = us ++ vs ++ [r]) := by
  unfold fireName
  rcases hs.expect_or (k := .identifier) (by decide) .firedEventName with
    ⟨b, s₁, heq, ht⟩ | ⟨s₁, n, heq, hn, hw₁⟩ <;> rw [heq]
  · left
    cases b with
    | false => exact ht
    | true =>
      dsimp only
      have h := ht.of_leads fun hk =>
        (hk.internName s₁.previous.lexeme).argumentList parenthesized
      split <;> rename_i heq <;> rw [heq] at h
      · exact h
      · split
        · exact h.of_leads fun hk => (hk.expect ..).emit _
        · exact h.of_leads fun hk => hk.reportPrevious _
  · have hprevious : s₁.previous = n := hw₁.previous_eq
    dsimp only [internName]
    rw [hprevious]
    rcases hw₁.ready.intern_or (.string n.lexeme) with ht | ⟨hw₂, hindex, hmem⟩
    · left
      have h := ht.of_leads fun hk => hk.argumentList parenthesized
      split <;> rename_i heq <;> rw [heq] at h
      · exact h
      · split
        · exact h.of_leads fun hk => (hk.expect ..).emit _
        · exact h.of_leads fun hk => hk.reportPrevious _
    have hlist := hw₂.ready.argumentList_or parenthesized
    rcases heq : argumentList parenthesized (s₁.intern (.string n.lexeme)).2 with ⟨answer, s₃⟩
    rw [heq] at hlist
    rcases hlist with ht | ⟨hplain, hanswer⟩ |
      ⟨target, args, us, vs, r, hparen, hus, hvs, hr, htarget, hargs, hanswer, hw₃⟩
    · left
      cases answer with
      | none => exact ht
      | some a =>
        dsimp only
        split
        · exact ht.of_leads fun hk => (hk.expect ..).emit _
        · exact ht.of_leads fun hk => hk.reportPrevious _
    · cases hanswer
      dsimp only
      rw [if_pos (by decide)]
      refine (hw₂.fireEnd_or hmem hindex false (show 0 < 256 by decide)).imp_right ?_
      rintro ⟨z, hz, hw₄⟩
      refine ⟨n, none, [], [], z, hn, hz, by simp, by simp, ?_, .inl ⟨hplain, rfl, rfl, rfl⟩⟩
      exact (hw₁.trans hw₄).congr rfl (by rw [work_fire]; rfl)
    · obtain rfl : answer = some ⟨target.isSome, args.length⟩ := hanswer
      dsimp only
      split
      · rename_i hcount
        have hw₂₃ := hw₂.trans hw₃
        refine (hw₂₃.fireEnd_or (hw₃.mem_pool hmem) (hindex.trans (hw₃.slot hmem).symm)
          target.isSome hcount).imp_right ?_
        rintro ⟨z, hz, hw₄⟩
        refine ⟨n, target, args, us ++ vs ++ [r], z, hn, hz, htarget, hargs, ?_,
          .inr ⟨hparen, us, vs, r, hus, hvs, hr, rfl⟩⟩
        exact (hw₁.trans hw₄).congr (by simp) (by rw [work_fire]; rfl)
      · exact .inl (hw₃.ready.troubled_report _ _)

/-- Behind its first word a statement that fires an event is read, or something is wrong. -/
theorem Ready.fireTail_or (hs : s.Ready) (hkind : s.previous.kind = .fireEvent) :
    s.fireTail.Troubled ∨ ReadsClause .statement [s.previous] s s.fireTail := by
  rw [fireTail_eq]
  rcases hs.accept_or (k := .leftParen) (by decide) with ⟨heq, -⟩ | ⟨s₁, heq, ht | ⟨l, hl, hw₁⟩⟩ <;>
    rw [heq]
  · refine (hs.fireName_or false).imp_right ?_
    rintro ⟨n, target, args, ts, z, hn, hz, htarget, hargs, hw, ⟨-, rfl, rfl, rfl⟩ | ⟨h, -⟩⟩
    · exact ⟨[n, z], _, .fire hkind hn hz, ⟨htarget, hargs⟩, hw⟩
    · cases h
  · exact .inl (ht.of_leads fun hk => hk.fireName true)
  · refine (hw₁.ready.fireName_or true).imp_right ?_
    rintro ⟨n, target, args, ts, z, hn, hz, htarget, hargs, hw₂,
      ⟨h, -⟩ | ⟨-, us, vs, r, hus, hvs, hr, rfl⟩⟩
    · cases h
    · refine ⟨l :: n :: (us ++ vs ++ [r] ++ [z]), .fire n.lexeme target args, ?_,
        ⟨htarget, hargs⟩, hw₁.trans hw₂⟩
      have := Clause.fireWith hkind hl hn hus hvs hr hz
      simpa using this

/-- Noting a state adds it to the states that are changed to. -/
theorem Ready.noteTarget (hs : s.Ready) :
    Wrote s [] ⟨[], [], [], [s.previous.lexeme]⟩ s.noteTarget :=
  hs.notes (by simp) (by simp)

/-- The closing parenthesis is read if there was an opening one, or something is wrong. -/
theorem Ready.closeName_or (hs : s.Ready) (parenthesized : Bool) :
    (∃ b s', closeName parenthesized s = (b, s') ∧ s'.Troubled) ∨
    ∃ ts s', closeName parenthesized s = (true, s') ∧ Wrote s ts .none s' ∧
      (parenthesized = false ∧ ts = [] ∨ parenthesized = true ∧ ∃ r, r.kind = .rightParen ∧
        ts = [r]) := by
  unfold closeName
  cases parenthesized with
  | false => exact .inr ⟨[], s, rfl, .refl hs, .inl ⟨rfl, rfl⟩⟩
  | true =>
    rw [if_pos rfl]
    refine (hs.expect_or (by decide) _).imp_right ?_
    rintro ⟨s', r, heq, hr, hw⟩
    exact ⟨[r], s', heq, hw, .inr ⟨rfl, r, hr, rfl⟩⟩

/-- A statement that changes the state, from its name on. -/
theorem Ready.changeName_or (hs : s.Ready) (parenthesized : Bool) :
    (changeName parenthesized s).Troubled ∨ ∃ n ts z, n.kind = .identifier ∧
      z.kind = .semicolon ∧
      Wrote s (n :: (ts ++ [z])) (Statement.change n.lexeme).work (changeName parenthesized s) ∧
      (parenthesized = false ∧ ts = [] ∨ parenthesized = true ∧ ∃ r, r.kind = .rightParen ∧
        ts = [r]) := by
  unfold changeName
  rcases hs.expect_or (k := .identifier) (by decide) .targetStateName with
    ⟨b, s₁, heq, ht⟩ | ⟨s₁, n, heq, hn, hw₁⟩ <;> rw [heq]
  · left
    cases b with
    | false => exact ht
    | true =>
      dsimp only
      have h := ht.of_leads fun hk =>
        (hk.noteTarget.internName s₁.previous.lexeme).closeName parenthesized
      split <;> rename_i heq <;> rw [heq] at h
      · exact h
      · exact h.of_leads fun hk => (hk.expect ..).emit _
  · have hprevious : s₁.previous = n := hw₁.previous_eq
    have hw₂ := hw₁.ready.noteTarget
    dsimp only [internName]
    rw [hprevious] at hw₂ ⊢
    rcases hw₂.ready.intern_or (.string n.lexeme) with ht | ⟨hw₃, hindex, hmem⟩
    · left
      have h := ht.of_leads fun hk => hk.closeName parenthesized
      split <;> rename_i heq <;> rw [heq] at h
      · exact h
      · exact h.of_leads fun hk => (hk.expect ..).emit _
    rcases hw₃.ready.closeName_or parenthesized with
      ⟨b, s₄, heq, ht⟩ | ⟨ts, s₄, heq, hw₄, hts⟩ <;> rw [heq]
    · left
      cases b with
      | false => exact ht
      | true => exact ht.of_leads fun hk => (hk.expect ..).emit _
    dsimp only
    rcases hw₄.ready.expect_or (k := .semicolon) (by decide) .changeEnd with
      ⟨b, s₅, heq, ht⟩ | ⟨s₅, z, heq, hz, hw₅⟩ <;> rw [heq]
    · exact .inl (ht.of_leads fun hk => hk.emit _)
    · right
      have hw₄₅ := hw₄.trans hw₅
      have hemit := hw₄₅.emitNamed (i := .changeState n.lexeme) (fun _ => rfl) rfl trivial
        (hw₄₅.mem_pool hmem) (hindex.trans (hw₄₅.slot hmem).symm)
      refine ⟨n, ts, z, hn, hz, ?_, hts⟩
      exact (hw₁.trans (hw₂.trans (hw₃.trans hemit))).congr rfl rfl

/-- Behind its first word a change of state is read, or something is wrong. -/
theorem Ready.changeTail_or (hs : s.Ready) (hkind : s.previous.kind = .changeState) :
    s.changeTail.Troubled ∨ ReadsClause .statement [s.previous] s s.changeTail := by
  rw [changeTail_eq]
  rcases hs.accept_or (k := .leftParen) (by decide) with ⟨heq, -⟩ | ⟨s₁, heq, ht | ⟨l, hl, hw₁⟩⟩ <;>
    rw [heq]
  · refine (hs.changeName_or false).imp_right ?_
    rintro ⟨n, ts, z, hn, hz, hw, ⟨-, rfl⟩ | ⟨h, -⟩⟩
    · exact ⟨[n, z], _, .change hkind hn hz, trivial, hw⟩
    · cases h
  · exact .inl (ht.of_leads fun hk => hk.changeName true)
  · refine (hw₁.ready.changeName_or true).imp_right ?_
    rintro ⟨n, ts, z, hn, hz, hw₂, ⟨h, -⟩ | ⟨-, r, hr, rfl⟩⟩
    · cases h
    · exact ⟨[l, n, r, z], .change n.lexeme, .changeTo hkind hl hn hr hz, trivial, hw₁.trans hw₂⟩

/-- A statement that is an expression is read, or something is wrong. -/
theorem Ready.expressionStatement_or (hs : s.Ready) : s.expressionStatement.Troubled ∨
    ReadsClause .statement [] s s.expressionStatement := by
  unfold expressionStatement
  rcases hs.expression_or with ht | ⟨ts, e, hp, hl, hw₁⟩
  · exact .inl (ht.of_leads fun hk => (hk.expect ..).emit _)
  rcases hw₁.ready.expect_or (k := .semicolon) (by decide) .expressionEnd with
    ⟨b, s₂, heq, ht⟩ | ⟨s₂, z, heq, hz, hw₂⟩ <;> rw [heq]
  · exact .inl (ht.of_leads fun hk => hk.emit _)
  · have hall := (hw₁.trans hw₂).emitPlain (i := .pop) trivial rfl (fun _ => rfl)
    refine .inr ⟨ts ++ [z], .evaluate e, .evaluate hp hz, hl, hall.congr rfl ?_⟩
    simp [Statement.work, Statement.constants, Statement.code, Statement.annotations,
      Statement.targets, Expression.work]

/-- A draft has read a block, from behind its opening brace to its closing one. -/
def ReadsBlock (s s' : Draft) : Prop :=
  ∃ ts stmt r, Clause .body stmt ts ∧ r.kind = .rightBrace ∧ stmt.Legal ∧
    Wrote s (ts ++ [r]) stmt.work s'

/-- A statement without its first token is one with it. -/
theorem ReadsClause.of_advance {site : Site} {t : Token} {s₁ s' : Draft}
    (hw : Wrote s [t] .none s₁) (h : ReadsClause site [t] s₁ s') : ReadsClause site [] s s' := by
  obtain ⟨ts, stmt, hc, hl, hw'⟩ := h
  exact ⟨t :: ts, stmt, hc, hl, hw.trans hw'⟩

/-- A branch in braces, from before its opening brace on. -/
theorem Ready.braced_or (hs : s.Ready) (hkind : s.current.kind = .leftBrace)
    (ih : s.advance.Ready →
      s.advance.blockBody.1.Troubled ∨ ReadsBlock s.advance s.advance.blockBody.1) :
    s.advance.blockBody.1.Troubled ∨ ∃ l ts r stmt, l.kind = .leftBrace ∧ r.kind = .rightBrace ∧
      Clause .body stmt ts ∧ stmt.Legal ∧
      Wrote s (l :: (ts ++ [r])) stmt.work s.advance.blockBody.1 := by
  rcases hs.advance_kind_or hkind (by decide) with ht | ⟨hl, hw₁⟩
  · exact .inl (ht.of_leads fun hk => hk.blockBody)
  · refine (ih hw₁.ready).imp_right ?_
    rintro ⟨ts, stmt, r, hc, hr, hlegal, hw₂⟩
    exact ⟨_, ts, r, stmt, hl, hr, hc, hlegal, hw₁.trans hw₂⟩

/-- A block is read if its first statement and the rest of it are, or something is wrong. -/
theorem Ready.blockBody_step (hs : s.Ready)
    (ihQ : s.advance.left < s.left →
      s.statement.1.Troubled ∨ ReadsClause .statement [] s s.statement.1)
    (ihP : ∀ t : Draft, t.left < s.left → t.Ready →
      t.blockBody.1.Troubled ∨ ReadsBlock t t.blockBody.1) :
    s.blockBody.1.Troubled ∨ ReadsBlock s s.blockBody.1 := by
  by_cases hends : endsBlock s.current.kind = true
  · rw [blockBody_of_ends hends]
    rcases hs.expect_or (k := .rightBrace) (by decide) .blockEnd with
      ⟨b, s₁, heq, ht⟩ | ⟨s₁, r, heq, hr, hw⟩ <;> rw [heq]
    · exact .inl ht
    · exact .inr ⟨[], .skip, r, .done, hr, trivial, hw⟩
  · rw [blockBody_of_not_ends hends]
    have hlt : s.advance.left < s.left := left_advance_lt fun heof => hends (by rw [heof]; rfl)
    rcases ihQ hlt with ht | ⟨ts, first, hfirst, hl₁, hw₁⟩
    · exact .inl (ht.of_leads fun hk => hk.recover.blockBody)
    have hrecover : s.statement.1.recover = s.statement.1 := by
      simp [recover, hw₁.ready.panicking]
    rw [hrecover]
    refine (ihP _ (Nat.lt_of_le_of_lt s.statement.2 hlt) hw₁.ready).imp_right ?_
    rintro ⟨us, rest, r, hrest, hr, hl₂, hw₂⟩
    exact ⟨ts ++ us, .seq first rest, r, .next hfirst hrest, hr, ⟨hl₁, hl₂⟩,
      (hw₁.trans hw₂).congr (by simp) rfl⟩

/-- A statement is read if the block or the conditional statement that it begins is, or something is
wrong. -/
theorem Ready.statement_step (hs : s.Ready)
    (ih : s.advance.left < s.left → s.advance.Ready →
      (s.advance.blockBody.1.Troubled ∨ ReadsBlock s.advance s.advance.blockBody.1) ∧
      (s.advance.previous.kind = .ifWord → s.advance.ifTail.1.Troubled ∨
        ReadsClause .conditional [s.advance.previous] s.advance s.advance.ifTail.1)) :
    s.statement.1.Troubled ∨ ReadsClause .statement [] s s.statement.1 := by
  by_cases hother : beginsOther s.current.kind = true
  · have hlt : s.advance.left < s.left :=
      left_advance_lt fun heof => by simp [heof, beginsOther] at hother
    unfold beginsOther at hother
    split at hother
    · rename_i hkind
      rw [statement_var hkind]
      rcases hs.advance_kind_or hkind (by decide) with ht | ⟨hk, hw⟩
      · exact .inl (ht.of_leads fun h => h.varTail)
      · exact (hw.ready.varTail_or hk).imp_right (.of_advance hw)
    · rename_i hkind
      rw [statement_if hkind]
      rcases hs.advance_kind_or hkind (by decide) with ht | ⟨hk, hw⟩
      · exact .inl (ht.of_leads fun h => h.ifTail)
      · refine ((ih hlt hw.ready).2 hk).imp_right fun h => ?_
        obtain ⟨ts, stmt, hc, hl, hw'⟩ := ReadsClause.of_advance hw h
        exact ⟨ts, stmt, .conditional hc, hl, hw'⟩
    · rename_i hkind
      rw [statement_fire hkind]
      rcases hs.advance_kind_or hkind (by decide) with ht | ⟨hk, hw⟩
      · exact .inl (ht.of_leads fun h => h.fireTail)
      · exact (hw.ready.fireTail_or hk).imp_right (.of_advance hw)
    · rename_i hkind
      rw [statement_change hkind]
      rcases hs.advance_kind_or hkind (by decide) with ht | ⟨hk, hw⟩
      · exact .inl (ht.of_leads fun h => h.changeTail)
      · exact (hw.ready.changeTail_or hk).imp_right (.of_advance hw)
    · rename_i hkind
      rw [statement_block hkind]
      refine (hs.braced_or hkind fun hr => (ih hlt hr).1).imp_right ?_
      rintro ⟨l, ts, r, stmt, hl, hr, hc, hlegal, hw⟩
      exact ⟨_, stmt, .block hl hc hr, hlegal, hw⟩
    · cases hother
  · rw [statement_expression hother]
    exact hs.expressionStatement_or

/-- A conditional statement is read if its branches are, or something is wrong. -/
theorem Ready.ifTail_step (hs : s.Ready) (hkind : s.previous.kind = .ifWord)
    (ih : ∀ t : Draft, t.left < s.left → t.Ready →
      (t.blockBody.1.Troubled ∨ ReadsBlock t t.blockBody.1) ∧
      (t.elseTail.1.Troubled ∨ ReadsClause .alternative [] t t.elseTail.1)) :
    s.ifTail.1.Troubled ∨ ReadsClause .conditional [s.previous] s s.ifTail.1 := by
  rw [ifTail_eq]
  dsimp only
  rcases hs.expression_or with ht | ⟨ts, e, hp, hle, hw₁⟩
  · left
    split
    · exact ht.of_leads fun hk =>
        ((hk.beginBranch.advance.blockBody.switchBranch _).elseTail).patchJump _
    · exact ht.of_leads fun hk => hk.beginBranch.reportMissing _
  obtain ⟨hotherwise, hw₂⟩ := hw₁.beginBranch
  split
  · rename_i hsees
    have hleft : s.expression.beginBranch.2.advance.left < s.left := by
      refine Nat.lt_of_lt_of_le (left_advance_lt_of_sees hsees (by decide)) ?_
      rw [left_beginBranch]
      exact Nat.le_trans s.left_expression_le s.left_advance_le
    rcases hw₂.ready.braced_or (beq_iff_eq.1 hsees) fun hr => (ih _ hleft hr).1 with
      ht | ⟨l, us, r, whenTrue, hl, hr, hc₁, hl₁, hw₃⟩
    · exact .inl (ht.of_leads fun hk => (hk.switchBranch _).elseTail.patchJump _)
    have hoperand : s.expression.beginBranch.1 = s.written.length + codeSize e.code + 1 := by
      rw [hotherwise, hw₁.length_written]
      rfl
    obtain ⟨hdone, hfit₁, hfar₁⟩ := (hw₂.trans hw₃).switchBranch (a := e.code)
      (b := .pop :: whenTrue.code)
      (by simp [Work.append_def, Expression.work, Statement.work]) hoperand
    by_cases hsize₁ : codeSize (.pop :: whenTrue.code) + 3 ≤ 65535
    · have hw₄ := hfit₁ hsize₁
      have hle₃ := Nat.lt_of_le_of_lt
        (blockBody s.expression.beginBranch.2.advance).2 hleft
      rcases (ih _ (by simpa using hle₃) hw₄.ready).2 with
        ht | ⟨vs, whenFalse, hc₂, hl₂, hw₅⟩
      · exact .inl (ht.of_leads fun hk => hk.patchJump _)
      have hoperand₂ : (s.expression.beginBranch.2.advance.blockBody.1.switchBranch
          s.expression.beginBranch.1).1 = s.written.length + codeSize (e.code
            ++ [.jumpIfFalse (codeSize (.pop :: whenTrue.code) + 3)] ++ .pop :: whenTrue.code)
            + 1 := by
        rw [hdone, (hw₂.trans hw₃).length_written]
        simp [Work.append_def, Expression.work, Statement.work, Symbolic.size, Nat.add_assoc]
      obtain ⟨hfit₂, hfar₂⟩ := (hw₄.trans hw₅).patch .jump
        (a := e.code ++ [.jumpIfFalse (codeSize (.pop :: whenTrue.code) + 3)]
          ++ .pop :: whenTrue.code) (b := .pop :: whenFalse.code)
        (by simp [Work.append_def, Statement.work]) hoperand₂
      by_cases hsize₂ : codeSize (.pop :: whenFalse.code) ≤ 65535
      · right
        refine ⟨ts ++ l :: (us ++ r :: vs), .branch e whenTrue whenFalse,
          .branch hkind hp hl hc₁ hr hc₂, ⟨hle, hl₁, hl₂⟩, ?_⟩
        refine (hfit₂ hsize₂).congr (by simp) ?_
        simp [Work.append_def, Expression.work, Statement.work, Statement.constants,
          Statement.code, Statement.branchCode, Statement.annotations, Statement.targets,
          Symbolic.size]
      · exact .inl (hfar₂ (Nat.lt_of_not_le hsize₂))
    · exact .inl ((hfar₁ (Nat.lt_of_not_le hsize₁)).of_leads fun hk => hk.elseTail.patchJump _)
  · exact .inl (hw₂.ready.troubled_report _ _)

/-- The other branch is read if the block or the conditional statement in it is, or something is
wrong. -/
theorem Ready.elseTail_step (hs : s.Ready)
    (ih : ∀ t : Draft, t.left < s.left → t.Ready →
      (t.blockBody.1.Troubled ∨ ReadsBlock t t.blockBody.1) ∧
      (t.previous.kind = .ifWord →
        t.ifTail.1.Troubled ∨ ReadsClause .conditional [t.previous] t t.ifTail.1)) :
    s.elseTail.1.Troubled ∨ ReadsClause .alternative [] s s.elseTail.1 := by
  rw [elseTail_eq]
  rcases haccept : s.accept .elseWord with ⟨found, s₁⟩
  have hword := hs.accept_or (k := .elseWord) (by decide)
  rw [haccept] at hword
  rcases hword with ⟨heq, -⟩ | ⟨s', heq, ht | ⟨w, hw, hw₁⟩⟩ <;> cases heq <;> dsimp only
  · exact .inr ⟨[], .skip, .nothing, trivial, .refl hs⟩
  · left
    split
    · exact ht.of_leads fun hk => hk.advance.ifTail
    · split
      · exact ht.of_leads fun hk => hk.advance.blockBody
      · exact ht.of_leads fun hk => hk.reportMissing _
  · have hleft : s₁.advance.left < s.left := by
      refine Nat.lt_of_le_of_lt (left_advance_le _) ?_
      simpa [haccept] using @left_accept_lt s .elseWord (by decide) (by rw [haccept])
    split
    · rename_i hsees
      rcases hw₁.ready.advance_kind_or (beq_iff_eq.1 hsees) (by decide) with ht | ⟨hk, hw₂⟩
      · exact .inl (ht.of_leads fun hk => hk.ifTail)
      · refine ((ih _ hleft hw₂.ready).2 hk).imp_right fun h => ?_
        obtain ⟨ts, stmt, hc, hl, hw₃⟩ := ReadsClause.of_advance hw₂ h
        exact ⟨w :: ts, stmt, .elseIf hw hc, hl, hw₁.trans hw₃⟩
    · split
      · rename_i hsees
        refine (hw₁.ready.braced_or (beq_iff_eq.1 hsees) fun hr => (ih _ hleft hr).1).imp_right ?_
        rintro ⟨l, ts, r, stmt, hl, hr, hc, hlegal, hw₂⟩
        exact ⟨w :: l :: (ts ++ [r]), stmt, .elseBlock hw hl hc hr, hlegal, hw₁.trans hw₂⟩
      · exact .inl (hw₁.ready.troubled_report _ _)

/-- Compiling a block finds something wrong or reads the statements of the block. -/
theorem Ready.blockBody_or (hs : s.Ready) :
    s.blockBody.1.Troubled ∨ ReadsBlock s s.blockBody.1 := by
  have main := statement_induction
    (P := fun s => s.Ready → s.blockBody.1.Troubled ∨ ReadsBlock s s.blockBody.1)
    (Q := fun s => s.Ready → s.statement.1.Troubled ∨ ReadsClause .statement [] s s.statement.1)
    (R := fun s => s.Ready → s.previous.kind = .ifWord →
      s.ifTail.1.Troubled ∨ ReadsClause .conditional [s.previous] s s.ifTail.1)
    (S := fun s => s.Ready → s.elseTail.1.Troubled ∨ ReadsClause .alternative [] s s.elseTail.1)
    (fun s ihQ ihP hs => hs.blockBody_step (fun h => ihQ h hs) ihP)
    (fun s ih hs => hs.statement_step fun hlt hr => ⟨(ih hlt).1 hr, (ih hlt).2 hr⟩)
    (fun s ih hs hkind => hs.ifTail_step hkind fun t hlt hr => ⟨(ih t hlt).1 hr, (ih t hlt).2 hr⟩)
    (fun s ih hs => hs.elseTail_step fun t hlt hr => ⟨(ih t hlt).1 hr, (ih t hlt).2 hr⟩)
  exact main.1 s hs

end Draft

end EntityScript.Compile
