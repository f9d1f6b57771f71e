import EntityScript.Proofs.Compile.Lined

/-!
# Problems come in source order

A problem is reported at the token read last, at the next token, at a token further on that cannot
be read, or, for a second handler of an event, at its first instruction. Whatever a source looks
like, these places never go back (`Draft.Ordered`), although a problem at the next token is reported
before that token is read.

What makes it so is the panic. A problem at the next token starts one, and nothing is reported until
it ends. It ends at a place where a token is read, or found missing, before the token read last
counts as a place for problems again (`Draft.Settled`).

Changes to states that are not declared are only found at the end. They follow all other problems,
in their own order.
-/

namespace EntityScript

namespace Compile

namespace Draft

variable {last : ℕ} {s : Draft}

/-- The lines of the problems found so far. -/
def problemLines (s : Draft) : List ℕ := s.diagnostics.toList.map Diagnostic.line

/-- The problems found so far are in order, up to the next token, and so are the changes to states,
up to the token read last. -/
structure Ordered (last : ℕ) (s : Draft) : Prop where
  forward : s.Forward last
  found : Rising 1 s.current.line s.problemLines
  known : ∀ d ∈ s.diagnostics.toList, d.problem.isUnknownState = false
  changes : Rising 1 s.previous.line (s.targets.toList.map Prod.snd)

/-- The token read last stands behind all problems found so far, unless none is reported for now. -/
structure Settled (last : ℕ) (s : Draft) : Prop extends s.Ordered last where
  settled : s.panicking = false → Rising 1 s.previous.line s.problemLines

/-- A problem that is reported, if any is, starts a panic. -/
theorem report_cases (s : Draft) (line : ℕ) (problem : Problem) :
    s.panicking = true ∧ s.report line problem = s ∨ s.panicking = false ∧
      s.report line problem =
        { s with diagnostics := s.diagnostics.push ⟨line, problem⟩, panicking := true } := by
  unfold report
  cases hpanicking : s.panicking with
  | true => exact .inl ⟨rfl, rfl⟩
  | false => exact .inr ⟨rfl, rfl⟩

/-- A problem that is no unknown state may be added where there was none. -/
theorem known_push {diagnostics : Array Diagnostic} {d : Diagnostic}
    (h : ∀ d ∈ diagnostics.toList, d.problem.isUnknownState = false)
    (hd : d.problem.isUnknownState = false) :
    ∀ d' ∈ (diagnostics.push d).toList, d'.problem.isUnknownState = false := by
  rw [Array.toList_push]
  exact List.forall_mem_append.2 ⟨h, List.forall_mem_singleton.2 hd⟩

/-- A problem between those found before and the next token. -/
theorem Ordered.push (h : s.Ordered last) {d : Diagnostic} (hfound : Rising 1 d.line s.problemLines)
    (hbegun : 1 ≤ d.line) (hd : d.line ≤ s.current.line) (hknown : d.problem.isUnknownState = false)
    (panicking : Bool) :
    Ordered last { s with diagnostics := s.diagnostics.push d, panicking } where
  forward := h.forward.congr rfl rfl rfl
  found := by
    have hpush := (hfound.concat hbegun).widen (Nat.le_refl 1) hd
    rw [problemLines, Array.toList_push, List.map_append]
    exact hpush
  known := known_push h.known hknown
  changes := h.changes

/-- A missing token is reported in order, and the panic that follows settles the problems. -/
theorem Ordered.reportMissing (h : s.Ordered last) (wanted : Wanted) :
    (s.reportMissing wanted).Settled last := by
  have hbegun := Nat.le_trans h.forward.begun h.forward.previous_le_current
  rcases s.report_cases s.current.line (.missingAt wanted s.current) with ⟨hp, heq⟩ | ⟨-, heq⟩ <;>
    rw [Draft.reportMissing, heq]
  · exact ⟨h, fun hcalm => by simp [hp] at hcalm⟩
  · exact ⟨h.push h.found hbegun (Nat.le_refl _) rfl true, fun hcalm => by cases hcalm⟩

/-- A report at the token read last is in order where problems are settled. -/
theorem Settled.reportPrevious (h : s.Settled last) {problem : Problem}
    (hproblem : problem.isUnknownState = false) : (s.reportPrevious problem).Settled last := by
  rcases s.report_cases s.previous.line problem with ⟨-, heq⟩ | ⟨hp, heq⟩ <;>
    rw [Draft.reportPrevious, heq]
  · exact h
  · exact ⟨h.toOrdered.push (h.settled hp) h.forward.begun h.forward.previous_le_current hproblem
      true, fun hcalm => by cases hcalm⟩

/-- Passing an unreadable token keeps the problems in order. -/
theorem Ordered.skip {t : Token} {rest : List Token}
    (h : Ordered last { s with upcoming := t :: rest }) :
    Ordered last { s with upcoming := rest } where
  forward := h.forward.skip.1
  found := h.found.widen (Nat.le_refl 1) h.forward.skip.2
  known := h.known
  changes := h.changes

/-- A token that cannot be read is reported on the way to the next one. -/
theorem Settled.skip {t : Token} {rest : List Token}
    (h : Settled last { s with upcoming := t :: rest }) :
    Settled last { s.report t.line (.ofUnreadable t) with upcoming := rest } := by
  rcases s.report_cases t.line (.ofUnreadable t) with ⟨-, heq⟩ | ⟨-, heq⟩ <;> rw [heq]
  · exact ⟨h.toOrdered.skip, h.settled⟩
  · have hbegun : 1 ≤ t.line := Nat.le_trans h.forward.begun h.forward.previous_le_current
    have hknown : (Problem.ofUnreadable t).isUnknownState = false := by
      unfold Problem.ofUnreadable
      split <;> rfl
    exact ⟨h.toOrdered.skip.push h.found hbegun h.forward.skip.2 hknown true,
      fun hcalm => by cases hcalm⟩

/-- Once a token is read, it stands behind all problems found so far. -/
theorem Ordered.advance (h : s.Ordered last) : s.advance.Settled last := by
  have hread := h.forward.read
  have hmove := h.forward.previous_le_current
  refine settle_of_skip (fun _ _ _ h => h.skip) ⟨⟨hread, ?_, h.known, ?_⟩, fun _ => h.found⟩
  · exact h.found.widen (Nat.le_refl 1) hread.previous_le_current
  · exact h.changes.widen (Nat.le_refl 1) hmove

/-- Recovering and writing leave the problems alone. -/
theorem Ordered.congr {t : Draft} (h : s.Ordered last) (hprevious : t.previous = s.previous)
    (hup : t.upcoming = s.upcoming) (hend : t.endLine = s.endLine)
    (hdiagnostics : t.diagnostics = s.diagnostics) (htargets : t.targets = s.targets) :
    t.Ordered last where
  forward := h.forward.congr hprevious hup hend
  found := by
    have hcurrent : t.current = s.current := by rw [current, current, hup, hend]
    rw [problemLines, hcurrent, hdiagnostics]
    exact h.found
  known := hdiagnostics ▸ h.known
  changes := by
    rw [hprevious, htargets]
    exact h.changes

/-- Writing and noting leave the order of the problems as it is. -/
theorem Settled.write (h : s.Settled last) (chunk : Chunk) (declared : Table String ValueType) :
    Settled last { s with chunk, declared } :=
  ⟨h.congr rfl rfl rfl rfl rfl, h.settled⟩

/-- A change of state is noted at the token read last, so it is in order. -/
theorem Settled.noteTarget (h : s.Settled last) : s.noteTarget.Settled last := by
  refine ⟨⟨h.forward.congr rfl rfl rfl, h.found, h.known, ?_⟩, h.settled⟩
  have hchanges := h.changes.concat h.forward.begun
  simpa [Draft.noteTarget] using hchanges

/-- The order of problems is a property that compiling keeps. -/
theorem ordered_keeping (last : ℕ) : Keeping (Settled last) (Ordered last) where
  loosen h := h.toOrdered
  advance h := h.advance
  reportMissing h wanted := h.reportMissing wanted
  reportPrevious h hproblem := h.reportPrevious hproblem.isUnknownState
  calm h := h.congr rfl rfl rfl rfl rfl
  emit h _ := h.write ..
  pool h _ := h.write ..
  patch h _ _ := h.write ..
  declare h _ := h.write ..
  noteTarget h := h.noteTarget

end Draft

namespace Outline

open Draft (Ordered Settled)

variable {last : ℕ} {o : Outline}

/-- The name of a handler is the next token. -/
theorem eventName_of_some {s : Draft} {event : String} (h : (eventName s).1 = some event) :
    (eventName s).2 = s.advance := by
  unfold eventName Draft.accept at h ⊢
  by_cases hsees : s.sees .identifier = true
  · rw [if_pos hsees]
  · rw [if_neg hsees] at h
    cases h

/-- A second handler of an event is a problem at its first instruction. That is behind all problems
found before, and there are no others in its block. -/
theorem ordered_addHandler (h : o.draft.Settled last) (name state event : String)
    (hsize : (handlerChunk o.draft.advance name).2.diagnostics.size = o.draft.diagnostics.size) :
    Ordered last (addHandler { o with draft := (handlerChunk o.draft.advance name).2 } state event
      (handlerChunk o.draft.advance name).1).draft := by
  have hread : o.draft.advance.Settled last := h.toOrdered.advance
  have hkept : (handlerChunk o.draft.advance name).2.Settled last :=
    (Draft.ordered_keeping last).handlerChunk (fun h _ => h.write ..) hread name
  unfold addHandler
  dsimp only
  split
  · have hkeeps : o.draft.diagnostics.toList
        <+: (handlerChunk o.draft.advance name).2.diagnostics.toList :=
      (leads_handlerChunk (Draft.Leads.refl.advance) name).keeps o.draft.keeps_self
    have hsame : (handlerChunk o.draft.advance name).2.problemLines = o.draft.problemLines :=
      congrArg (List.map Diagnostic.line) (hkeeps.eq_of_length (by simpa using hsize.symm)).symm
    obtain ⟨hlined, -, hpos⟩ := handlerChunk_lined hread.forward name
    obtain ⟨hlow, hhigh⟩ := hlined.lineAt hpos
    have hbrace : o.draft.current.line ≤ o.draft.advance.current.line := by
      have hmove := hread.forward.previous_le_current
      obtain ⟨_, _, _, heq⟩ := o.draft.exists_advance
      rwa [congrArg Draft.previous heq] at hmove
    have hbegun : 1 ≤ o.draft.current.line :=
      Nat.le_trans h.forward.begun h.forward.previous_le_current
    refine hkept.toOrdered.push ?_ ?_ ?_ rfl _
    · rw [hsame]
      exact h.found.widen (Nat.le_refl 1) (Nat.le_trans hbrace hlow)
    · exact Nat.le_trans hbegun (Nat.le_trans hbrace hlow)
    · exact Nat.le_trans hhigh hkept.forward.previous_le_current
  · exact hkept.toOrdered

/-- A handler keeps the problems in order, also where it is the second of its event. -/
theorem ordered_handlerTail (h : o.draft.Settled last) (state : String) :
    (o.handlerTail state).draft.Ordered last := by
  have hk := Draft.ordered_keeping last
  have hname := hk.eventName h
  unfold handlerTail
  dsimp only
  split
  · have hkept := hk.handlerChunk (fun h _ => h.write ..) hname
      (state ++ "." ++ (eventName o.draft).1.getD "?")
    cases hevent : (eventName o.draft).1 with
    | none =>
      rw [hevent] at hkept
      exact hkept.toOrdered
    | some event =>
      rw [hevent] at hkept
      dsimp only
      split
      · rename_i hsize
        rw [eventName_of_some hevent] at hsize ⊢
        exact ordered_addHandler h _ state event hsize
      · exact hkept.toOrdered
  · exact hk.synchronize (hk.loosen (hk.reportMissing (hk.loosen hname) _))

/-- The order of problems is kept by whole declarations. -/
theorem ordered_keeping (last : ℕ) : Keeping (Settled last) (Ordered last) :=
  { Draft.ordered_keeping last with handlerTail := ordered_handlerTail }

/-- The beginning of a source. -/
theorem settled_ofSource (source : String) :
    (ofSource source).draft.Settled (Token.ending source).line := by
  have hending : 1 ≤ (Token.ending source).line := Nat.le_add_right ..
  have hrising := (Token.tokenize_rising source).2
  rw [draft_ofSource]
  exact Draft.settle_of_skip (fun _ _ _ h => h.skip)
    ⟨⟨⟨Nat.le_refl 1, hending, rfl, hrising⟩, .nil, by simp, .nil⟩, fun _ => .nil⟩

/-- The unknown states are those that changes name and that no declaration has, in their order. -/
theorem unknownTargets_eq (o : Outline) : o.unknownTargets =
    (o.draft.targets.toList.filter fun t => !o.states.contains t.1).map
      fun t => ⟨t.2, .unknownState t.1⟩ := by
  unfold unknownTargets
  induction o.draft.targets.toList with
  | nil => rfl
  | cons t rest ih =>
    rw [List.filterMap_cons, ih, List.filter_cons]
    dsimp only
    cases o.states.contains t.1 <;> rfl

end Outline

end Compile

/-- The problems of a source come in the order of its lines, first all but those with changes to
states that are not declared, and then these. Every problem is reported at a line of the source. -/
theorem diagnostics_ordered {file source : String} {e : CompileError}
    (h : compile file source = .error e) : ∃ first second, e.diagnostics = first ++ second ∧
      (∀ d ∈ first, d.problem.isUnknownState = false) ∧
      (∀ d ∈ second, d.problem.isUnknownState = true) ∧
      (first.map Compile.Diagnostic.line).Pairwise (· ≤ ·) ∧
      (second.map Compile.Diagnostic.line).Pairwise (· ≤ ·) ∧
      ∀ d ∈ e.diagnostics, 1 ≤ d.line ∧ d.line ≤ 1 + source.toList.count '\n' := by
  let o := (Compile.Outline.ofSource source).declarations
  have hk := Compile.Outline.ordered_keeping (Token.ending source).line
  have hread : o.draft.Ordered (Token.ending source).line :=
    hk.declarations (Compile.Outline.settled_ofSource source).toOrdered
  have hend : o.requireStates.draft.Ordered (Token.ending source).line := hk.requireStates hread
  have hdiagnostics : e.diagnostics = o.problems := by
    unfold compile at h
    dsimp only at h
    split at h <;> cases h
    rfl
  have hfirst := hend.found.widen (Nat.le_refl 1) hend.forward.current_le
  have hsecond : Rising 1 (Token.ending source).line
      (o.unknownTargets.map Compile.Diagnostic.line) := by
    rw [o.unknownTargets_eq, List.map_map]
    exact (hread.changes.sublist (List.filter_sublist.map _)).widen (Nat.le_refl 1)
      hread.forward.ends
  refine ⟨o.requireStates.draft.diagnostics.toList, o.unknownTargets, hdiagnostics, hend.known, ?_,
    hfirst.sorted, hsecond.sorted, fun d hd => ?_⟩
  · intro d hd
    rw [o.unknownTargets_eq] at hd
    obtain ⟨t, -, rfl⟩ := List.mem_map.1 hd
    rfl
  · rw [hdiagnostics] at hd
    rcases List.mem_append.1 hd with hd | hd
    · have hmem := List.mem_map_of_mem (f := Compile.Diagnostic.line) hd
      exact ⟨hfirst.low_le _ hmem, hfirst.le_high _ hmem⟩
    · have hmem := List.mem_map_of_mem (f := Compile.Diagnostic.line) hd
      exact ⟨hsecond.low_le _ hmem, hsecond.le_high _ hmem⟩

/-- A lamp with four problems: a second handler of a press, a value that is missing, a character
that begins no token, and before all of these a change to a state that is not declared. -/
def troubledLampSource : String :=
  "State off \x7b\n  OnEvent press \x7b ChangeState dim; \x7d\n  OnEvent press \x7b\n  \x7d\n" ++
    "  OnEvent hold \x7b time = ; \x7d\n\x7d\nState on \x7b @ \x7d"

/-- The empty handler is reported at its closing brace, and the missing state last of all. -/
theorem diagnostics_ordered_lamp : ∃ e first second,
    compile "lamp" troubledLampSource = .error e ∧ e.diagnostics = first ++ second ∧
      e.diagnostics.map Compile.Diagnostic.line = [4, 5, 7, 2] ∧
      (first.map Compile.Diagnostic.line).Pairwise (· ≤ ·) ∧
      (second.map Compile.Diagnostic.line).Pairwise (· ≤ ·) := by
  have hlines : (compile "lamp" troubledLampSource).mapError
      (fun e => e.diagnostics.map Compile.Diagnostic.line) = .error [4, 5, 7, 2] := by
    decide +kernel
  cases hcompile : compile "lamp" troubledLampSource with
  | ok script =>
    rw [hcompile] at hlines
    cases hlines
  | error e =>
    rw [hcompile] at hlines
    obtain ⟨first, second, hsplit, -, -, hfirst, hsecond, -⟩ := diagnostics_ordered hcompile
    exact ⟨e, first, second, rfl, hsplit, Except.error.inj hlines, hfirst, hsecond⟩

end EntityScript
