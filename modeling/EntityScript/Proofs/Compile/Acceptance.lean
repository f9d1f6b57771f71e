import EntityScript.Proofs.Compile.FileAccepted
import EntityScript.Proofs.Grammar.Valid

/-!
# The compiler accepts exactly its language

A source compiles if and only if its tokens are all readable and spell declarations that are valid.
What it compiles to is what the declarations say: `compile_represents` ties every handler of the
script to the code of its tree, which is what all statements about running scripts start from.
-/

namespace EntityScript

open Grammar Compile

/-- A script holds the states, the handlers and the annotations of a source. -/
structure Represents (f : File) (script : Script) : Prop where
  states : script.states = f.states.map (·.name)
  found : ∀ x ∈ f.handlers, ∃ chunk, script.handler? x.1 x.2.event = some chunk ∧
    Assembled (Outline.label x) x.2.body chunk
  origin : ∀ state event chunk, script.handler? state event = some chunk →
    ∃ x ∈ f.handlers, (x.1, x.2.event) = (state, event) ∧
      Assembled (Outline.label x) x.2.body chunk
  declared : ∀ name type, script.declared.get? name = some type ↔ (name, type) ∈ f.annotations

namespace Compile.Outline

variable {o : Outline}

/-- Where the draft is troubled, some problem is reported. -/
theorem problems_ne_nil_of_troubled (h : o.draft.Troubled) : o.problems ≠ [] := by
  have hrequire : o.requireStates.draft.Troubled :=
    troubled_of_leads h fun hk => hk.requireStates
  intro hnil
  exact hrequire (Array.toList_eq_nil_iff.1 (List.append_eq_nil_iff.1 hnil).1)

/-- No change of state is to be reported just if all of them name declared states. -/
theorem unknownTargets_eq_nil_iff :
    o.unknownTargets = [] ↔ ∀ t ∈ o.draft.targets.toList.map (·.1), t ∈ o.states.toList := by
  unfold unknownTargets
  rw [List.filterMap_eq_nil_iff]
  constructor
  · intro h t ht
    obtain ⟨⟨state, line⟩, hx, rfl⟩ := List.mem_map.1 ht
    have hnone := h (state, line) hx
    by_contra hmem
    dsimp only at hnone hmem
    rw [if_neg (by simpa using hmem)] at hnone
    cases hnone
  · rintro h ⟨state, line⟩ hx
    have hmem : state ∈ o.states.toList := h state (List.mem_map.2 ⟨(state, line), hx, rfl⟩)
    dsimp only
    rw [if_pos (by simpa using hmem)]

/-- Without a problem before, there is one at the end if no state is declared or one is missing. -/
theorem problems_eq_nil_iff (h : o.draft.Ready) : o.problems = [] ↔
    o.states.toList ≠ [] ∧ ∀ t ∈ o.draft.targets.toList.map (·.1), t ∈ o.states.toList := by
  rw [← unknownTargets_eq_nil_iff]
  by_cases hempty : o.states.toList = []
  · have hrequire : o.requireStates.draft.Troubled := by
      have : (o.states.isEmpty && o.draft.diagnostics.isEmpty) = true := by
        rw [h.diagnostics]
        simpa using hempty
      unfold requireStates
      rw [if_pos this]
      exact h.troubled_report _ _
    constructor
    · intro hnil
      exact absurd (Array.toList_eq_nil_iff.1 (List.append_eq_nil_iff.1 hnil).1) hrequire
    · exact fun hand => absurd hempty hand.1
  · have hrequire : o.requireStates = o := by
      have : ¬ (o.states.isEmpty && o.draft.diagnostics.isEmpty) = true := by
        rw [h.diagnostics]
        simpa using hempty
      unfold requireStates
      rw [if_neg this]
    unfold problems
    rw [hrequire, h.diagnostics]
    simp [hempty]

/-- A source begins with trouble, or with all its tokens to come. -/
theorem ofSource_or (source : String) : (ofSource source).draft.Troubled ∨
    (ofSource source).draft.Ready ∧ (ofSource source).draft.upcoming = Token.words source := by
  have hstart : ∀ s : Draft, s.Ready → (s.settle (Token.words source)).Troubled ∨
      (s.settle (Token.words source)).Ready ∧
        (s.settle (Token.words source)).upcoming = Token.words source := by
    intro s hs
    cases hwords : Token.words source with
    | nil => exact .inr ⟨⟨hs.diagnostics, hs.panicking, hs.room⟩, rfl⟩
    | cons t rest =>
      unfold Draft.settle
      split
      · exact .inl ((hs.troubled_report _ _).of_keeps fun hk => hk.settle rest)
      · exact .inr ⟨⟨hs.diagnostics, hs.panicking, hs.room⟩, rfl⟩
  exact hstart _ ⟨rfl, rfl, Nat.zero_le _⟩

/-- A source whose tokens are all readable begins with all of them. -/
theorem ofSource_of_clear {source : String} (h : ∀ t ∈ Token.words source, t.kind ≠ .error) :
    (ofSource source).draft.Ready ∧ (ofSource source).draft.upcoming = Token.words source := by
  have hstart : ∀ s : Draft, s.settle (Token.words source)
      = { s with upcoming := Token.words source } := by
    intro s
    cases hwords : Token.words source with
    | nil => rfl
    | cons t rest =>
      unfold Draft.settle
      rw [if_neg (h t (by rw [hwords]; exact List.mem_cons_self))]
  have hdraft : (ofSource source).draft = Draft.settle _ (Token.words source) := rfl
  rw [hdraft, hstart]
  exact ⟨⟨rfl, rfl, Nat.zero_le _⟩, rfl⟩

/-- Settling on the next token notes no annotation and no change of state. -/
theorem settle_declared (s : Draft) (tokens : List Token) :
    (s.settle tokens).declared = s.declared ∧ (s.settle tokens).targets = s.targets := by
  obtain ⟨_, _, _, heq⟩ := s.exists_settle tokens
  rw [heq]
  exact ⟨rfl, rfl⟩

/-- Nothing is annotated or changed to before the first token. -/
theorem ofSource_declared (source : String) : (ofSource source).draft.declared = .empty ∧
    (ofSource source).draft.targets = #[] :=
  settle_declared _ _

/-- Declarations that were gathered from a whole source are what its script represents. -/
theorem represents_of_gathered (file : String) {source : String} {ts : List Token} {f : File}
    (hg : Gathered (ofSource source) ts (f.states.map (·.name)) f.handlers o) :
    Represents f (o.script file) where
  states := hg.states
  found := hg.found
  origin := by
    intro state event chunk hlookup
    rcases hg.origin state event chunk hlookup with hnone | hnew
    · cases hnone
    · exact hnew
  declared := by
    intro name type
    have hdeclared := hg.declared name type
    rw [(ofSource_declared source).1] at hdeclared
    refine hdeclared.trans ⟨?_, .inr⟩
    rintro (hnone | hnew)
    · cases hnone
    · exact hnew

/-- A source that compiles spells valid declarations. -/
theorem valid_of_problems {source : String} (h : (ofSource source).declarations.problems = []) :
    ∃ f, FileSpelling f (Token.words source) ∧ Valid f := by
  have hclean : ¬ (ofSource source).declarations.draft.Troubled :=
    fun ht => problems_ne_nil_of_troubled ht h
  rcases ofSource_or source with ht | ⟨hready, hup⟩
  · exact absurd (troubled_of_leads ht fun hk => hk.declarations) hclean
  rcases declarations_or hready with ht | ⟨heof, ts, f, hts, hlegal, hg⟩
  · exact absurd ht hclean
  -- No token for the end of the source stands before the end, so all of them were read.
  have hall : ts = Token.words source := by
    have hsplit := hg.upcoming
    rw [hup] at hsplit
    cases hrest : (ofSource source).declarations.draft.upcoming with
    | nil => rw [hsplit, hrest, List.append_nil]
    | cons t rest =>
      have hmem : t ∈ Token.words source := by
        rw [hsplit, hrest]
        exact List.mem_append_right _ List.mem_cons_self
      rw [Outline.current, Draft.current_kind, hrest] at heof
      exact absurd heof (Token.mem_words hmem).1
  subst hall
  obtain ⟨hstates, htargets⟩ := (problems_eq_nil_iff hg.ready).1 h
  rw [hg.states] at hstates
  rw [hg.targets, hg.states, (ofSource_declared source).2] at htargets
  have hfits : ∀ x ∈ f.handlers, ∀ i ∈ x.2.body.code, i.Fits := by
    intro x hx
    obtain ⟨chunk, -, hchunk⟩ := hg.found x hx
    exact hchunk.fits
  exact ⟨f, hts, {
    inhabited := by
      rintro hempty
      rw [hempty] at hstates
      exact hstates rfl
    states := by
      have hdistinct := hg.distinct List.nodup_nil
      rwa [hg.states] at hdistinct
    handlers := hg.keys
    targets := htargets
    legal := hlegal
    types := by
      intro name type type' ht ht'
      have hone := (hg.declared name type).2 (.inr ht)
      rw [(hg.declared name type').2 (.inr ht')] at hone
      exact (Option.some.inj hone).symm
    constants := by
      intro x hx
      obtain ⟨chunk, -, hchunk⟩ := hg.found x hx
      rw [← length_pooled_nil]
      exact hchunk.room
    arguments := fun x hx => ((forall_fits_iff _).1 (hfits x hx)).1
    jumps := fun x hx => ((forall_fits_iff _).1 (hfits x hx)).2 }⟩

/-- Valid declarations can be made at the beginning of a source. -/
theorem declarable_of_valid (source : String) {f : File} (hvalid : Valid f) :
    Declarable (ofSource source) (f.states.map (·.name)) f.handlers where
  names := hvalid.states
  fresh _ _ := rfl
  keys := hvalid.handlers
  legal := hvalid.legal
  fits x hx := (forall_fits_iff _).2 ⟨hvalid.arguments x hx, hvalid.jumps x hx⟩
  types := by
    have hnone : ∀ name type, (ofSource source).draft.declared.get? name ≠ some type := by
      intro name type
      rw [(ofSource_declared source).1]
      exact nofun
    rintro name type type' (ht | ht) (ht' | ht')
    · exact absurd ht (hnone _ _)
    · exact absurd ht (hnone _ _)
    · exact absurd ht' (hnone _ _)
    · exact hvalid.types name type type' ht ht'

/-- Valid declarations are gathered from any source that spells them. -/
theorem gathered_of_valid {source : String} {f : File}
    (hts : FileSpelling f (Token.words source)) (hvalid : Valid f) :
    Gathered (ofSource source) (Token.words source) (f.states.map (·.name)) f.handlers
      (ofSource source).declarations := by
  have hreadable := hts.readable
  obtain ⟨hready, hup⟩ := ofSource_of_clear hreadable
  have hprepared : Prepared (ofSource source) (Token.words source) [] (f.states.map (·.name))
      f.handlers := {
    __ := declarable_of_valid source hvalid
    ready := hready
    clear := by
      intro t ht
      rw [hup] at ht
      exact ⟨hreadable t ht, (Token.mem_words ht).2⟩
    upcoming := by rw [hup, List.append_nil]
    room := by
      intro x hx
      rw [length_pooled_nil]
      exact hvalid.constants x hx }
  exact hprepared.declarations hts

/-- Valid declarations compile without a problem. -/
theorem problems_of_valid {source : String} {f : File}
    (hts : FileSpelling f (Token.words source)) (hvalid : Valid f) :
    (ofSource source).declarations.problems = [] := by
  have hg := gathered_of_valid hts hvalid
  refine (problems_eq_nil_iff hg.ready).2 ⟨?_, ?_⟩
  · rw [hg.states]
    intro hempty
    exact hvalid.inhabited (List.map_eq_nil_iff.1 hempty)
  · rw [hg.targets, hg.states, (ofSource_declared source).2]
    exact hvalid.targets

end Compile.Outline

/-- A source compiles just if none of its declarations is reported, to the script of its outline. -/
theorem compile_eq_ok_iff (file source : String) (script : Script) :
    compile file source = .ok script ↔
      (Outline.ofSource source).declarations.problems = [] ∧
        script = (Outline.ofSource source).declarations.script file := by
  unfold compile
  dsimp only
  cases (Outline.ofSource source).declarations.problems with
  | nil =>
    constructor
    · rintro h
      cases h
      exact ⟨rfl, rfl⟩
    · rintro ⟨-, rfl⟩
      rfl
  | cons d ds =>
    constructor
    · rintro h
      cases h
    · rintro ⟨h, -⟩
      cases h

/-- A script that was compiled represents whatever valid declarations its source spells. -/
theorem represents_of_compile {file source : String} {script : Script} {f : File}
    (h : compile file source = .ok script) (hts : FileSpelling f (Token.words source))
    (hvalid : Valid f) : Represents f script := by
  obtain ⟨-, rfl⟩ := (compile_eq_ok_iff file source script).1 h
  exact Outline.represents_of_gathered file (Outline.gathered_of_valid hts hvalid)

/-- Valid declarations compile to a script that represents them. -/
theorem compile_of_valid (file : String) {source : String} {f : File}
    (hts : FileSpelling f (Token.words source)) (hvalid : Valid f) :
    ∃ script, compile file source = .ok script ∧ Represents f script := by
  have h := (compile_eq_ok_iff file source _).2 ⟨Outline.problems_of_valid hts hvalid, rfl⟩
  exact ⟨_, h, represents_of_compile h hts hvalid⟩

/-- A script that was compiled represents valid declarations that its source spells. -/
theorem compile_represents {file source : String} {script : Script}
    (h : compile file source = .ok script) : ∃ f, FileSpelling f (Token.words source) ∧ Valid f ∧
      Represents f script := by
  obtain ⟨hproblems, -⟩ := (compile_eq_ok_iff file source script).1 h
  obtain ⟨f, hts, hvalid⟩ := Outline.valid_of_problems hproblems
  exact ⟨f, hts, hvalid, represents_of_compile h hts hvalid⟩

/-- A source compiles exactly if its tokens are readable and spell valid declarations. -/
theorem compile_accepts_iff (file source : String) : (∃ script, compile file source = .ok script) ↔
    (∀ t ∈ Token.words source, t.kind ≠ .error) ∧
      ∃ f, FileSpelling f (Token.words source) ∧ Valid f := by
  constructor
  · rintro ⟨script, h⟩
    obtain ⟨f, hts, hvalid, -⟩ := compile_represents h
    exact ⟨hts.readable, f, hts, hvalid⟩
  · rintro ⟨-, f, hts, hvalid⟩
    exact ⟨_, (compile_eq_ok_iff file source _).2 ⟨Outline.problems_of_valid hts hvalid, rfl⟩⟩

end EntityScript
