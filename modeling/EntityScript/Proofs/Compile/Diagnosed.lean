import EntityScript.Proofs.Compile.Crowded

/-!
# Every missing value is reported once

A source that compiles, apart from assignments that lost their value, compiles to one diagnostic for
each of those: at its semicolon, in the order of the source, and no other.

One thing may come in between. A statement behind a missing value that begins with a minus sign is
read as what is subtracted, so a vector there is interned without its sign. This may be one constant
more than before, and a handler that has no room for it reports this as another problem. The
constants of the values that are missing do not count any more.
-/

namespace EntityScript

open Grammar Compile

namespace Compile.Outline

open Draft

/-- Everything is there for declarations to be compiled without a problem, apart from values that
are missing. -/
structure Affords (o : Outline) (ts rest : List Token) (names : List String)
    (handlers : List (String × Handler)) : Prop extends Declarable o names handlers where
  calm : o.draft.Calm []
  upcoming : o.draft.upcoming = ts ++ rest

/-- Tokens read and problems found, with the states that were declared. Handlers may have been
compiled or not. -/
structure Passed (o : Outline) (ts : List Token) (names : List String)
    (handlers : List (String × Handler)) (ds : List Diagnostic) (o' : Outline) : Prop where
  upcoming : o.draft.upcoming = ts ++ o'.draft.upcoming
  calm : o'.draft.Calm []
  states : o'.states.toList = o.states.toList ++ names
  origin : ∀ state event, o.handler? state event = none → (state, event) ∉ handlers.map key →
    o'.handler? state event = none
  declared : ∀ name type, o'.draft.declared.get? name = some type ↔
    o.draft.declared.get? name = some type ∨
      (name, type) ∈ handlers.flatMap (·.2.body.annotations)
  targets : o'.draft.targets.toList.map (·.1)
    = o.draft.targets.toList.map (·.1) ++ handlers.flatMap (·.2.body.targets)
  diagnostics : o'.draft.diagnostics.toList = o.draft.diagnostics.toList ++ ds

variable {o o₁ o₂ : Outline} {t : Token} {ts us rest : List Token} {names more : List String}
  {handlers others : List (String × Handler)} {ds ds' : List Diagnostic}

/-- Declarations that are walked through one behind the other lie end to end. -/
theorem Passed.trans (h₁ : Passed o ts names handlers ds o₁)
    (h₂ : Passed o₁ us more others ds' o₂) :
    Passed o (ts ++ us) (names ++ more) (handlers ++ others) (ds ++ ds') o₂ where
  upcoming := by rw [h₁.upcoming, h₂.upcoming, List.append_assoc]
  calm := h₂.calm
  states := by rw [h₂.states, h₁.states, List.append_assoc]
  origin state event hnone hkey := by
    rw [List.map_append, List.mem_append, not_or] at hkey
    exact h₂.origin state event (h₁.origin state event hnone hkey.1) hkey.2
  declared name type := by
    rw [h₂.declared, h₁.declared, List.flatMap_append, List.mem_append, or_assoc]
  targets := by rw [h₂.targets, h₁.targets, List.flatMap_append, List.append_assoc]
  diagnostics := by rw [h₂.diagnostics, h₁.diagnostics, List.append_assoc]

/-- Tokens that were read and nothing else. -/
theorem Passed.of_draft {s : Draft} (h : Draft.Passed [] o.draft ts .none ds s) :
    Passed o ts [] [] ds { o with draft := s } where
  upcoming := h.upcoming
  calm := h.calm
  states := by simp
  origin _ _ hnone _ := hnone
  declared := h.declared
  targets := h.targets
  diagnostics := h.diagnostics

/-- Nothing is read and nothing is found where a calm outline stays as it is. -/
theorem Passed.refl (h : o.draft.Calm []) : Passed o [] [] [] [] o := .of_draft (.refl h)

/-- The name of the machine plays no part in what is passed. -/
theorem Passed.rename (h : Passed o ts names handlers ds o₁) (name : Option String) :
    Passed o ts names handlers ds { o₁ with name } :=
  ⟨h.upcoming, h.calm, h.states, h.origin, h.declared, h.targets, h.diagnostics⟩

/-- The first declarations can be compiled first. -/
theorem Affords.first (h : Affords o (ts ++ us) rest (names ++ more) (handlers ++ others)) :
    Affords o ts (us ++ rest) names handlers where
  toDeclarable := h.toDeclarable.first
  calm := h.calm
  upcoming := by rw [h.upcoming, List.append_assoc]

/-- The other declarations can be compiled once the first are passed. -/
theorem Affords.second (h : Affords o (ts ++ us) rest (names ++ more) (handlers ++ others))
    (hp : Passed o ts names handlers ds o₁) : Affords o₁ us rest more others where
  toDeclarable := h.toDeclarable.second hp.states hp.origin hp.declared
  calm := hp.calm
  upcoming := by
    have hup := h.upcoming
    rw [hp.upcoming, List.append_assoc] at hup
    exact List.append_cancel_left hup

/-- The draft of an outline can read the first token of the declarations to come. -/
theorem Affords.draft (h : Affords o (t :: ts) rest names handlers) :
    Draft.Affords [] o.draft [t] (ts ++ rest) .none where
  calm := h.calm
  upcoming := h.upcoming
  constants := List.nil_subset _
  fits := by simp
  types name type type' ht ht' :=
    h.types name type type' (ht.imp_right (by simp)) (ht'.imp_right (by simp))

/-- The next token is read. -/
theorem Affords.advance (h : Affords o (t :: ts) rest names handlers) :
    Passed o [t] [] [] [] o.advance ∧ o.advance.draft.previous = t ∧
      Affords o.advance ts rest names handlers := by
  obtain ⟨hp, hprevious, -⟩ := h.draft.advance
  have hpassed : Passed o [t] [] [] [] o.advance := .of_draft hp
  have h' : Affords o ([t] ++ ts) rest ([] ++ names) ([] ++ handlers) := h
  exact ⟨hpassed, hprevious, h'.second hpassed⟩

/-- A block from which values are missing is compiled into a chunk that is given up. -/
theorem Affords.handlerChunk {state event : String} {body left : Statement} {l r : Token}
    {zs : List Token} (h : Affords o (l :: (ts ++ [r])) rest [] [(state, ⟨event, body⟩)])
    (name : String) (he : Emptied .body body left ts zs) (hr : r.kind = .rightBrace)
    (hroom : HasRoom left) :
    Draft.Passed [] o.draft (l :: (ts ++ [r])) body.work (zs.map missingValue)
      (Outline.handlerChunk o.draft name).2 := by
  have hmem := List.mem_singleton_self (state, (⟨event, body⟩ : Handler))
  have hleaner := he.leaner
  -- The pool of the handler is its own, so all constants that are left may be in it.
  have hblock : Draft.Affords left.constants { o.draft with chunk := .empty name }
      (l :: (ts ++ [r])) rest left.work := {
    calm := ⟨h.calm.panicking, h.calm.clear, List.nodup_nil, List.nil_subset _, hroom⟩
    upcoming := h.upcoming
    constants := List.Subset.refl _
    fits := hleaner.fits (h.fits _ hmem)
    types := fun name type type' ht ht' => h.types name type type'
      (ht.imp_right fun h => by simpa [Statement.work, hleaner.annotations] using h)
      (ht'.imp_right fun h => by simpa [Statement.work, hleaner.annotations] using h) }
  obtain ⟨hp₁, -, h₁⟩ := hblock.advance
  have hp := (hp₁.trans (h₁.blockBody he hr (h.legal _ hmem))).congr (w := body.work) rfl rfl
    hleaner.size hleaner.annotations hleaner.targets
  exact {
    upcoming := hp.upcoming
    calm := ⟨hp.calm.panicking, hp.calm.clear, List.nodup_nil, List.nil_subset _, by decide⟩
    size := Nat.zero_le _
    declared := hp.declared
    targets := hp.targets
    diagnostics := hp.diagnostics }

/-- A handler is added where its state has none for the event. -/
theorem addHandler_of_fresh {state event : String} {chunk : Chunk} {s : Draft}
    (hfresh : o.handler? state event = none) :
    Outline.addHandler { o with draft := s } state event chunk
      = { o.keep state event chunk with draft := s } := by
  unfold Outline.addHandler
  dsimp only
  rw [contains_events, hfresh]
  rfl

/-- A handler is kept if no value is missing, and left out otherwise. -/
theorem Affords.handlerTail {state : String} {n l r : Token} {body : Statement} {zs : List Token}
    (h : Affords o (n :: l :: (ts ++ [r])) rest [] [(state, ⟨n.lexeme, body⟩)])
    (hn : n.kind = .identifier) (hl : l.kind = .leftBrace) (he : EmptiedBlock HasRoom body ts zs)
    (hr : r.kind = .rightBrace) :
    Passed o (n :: l :: (ts ++ [r])) [] [(state, ⟨n.lexeme, body⟩)] (zs.map missingValue)
      (o.handlerTail state) := by
  obtain ⟨hp₁, hprevious, h₁⟩ := h.advance
  obtain ⟨left, hemptied, hroom⟩ := he
  have hp₂ := h₁.handlerChunk (state ++ "." ++ n.lexeme) hemptied hr hroom
  rw [handlerTail_eq (h.draft.sees hn) (h₁.draft.sees hl), hprevious]
  dsimp only
  generalize Outline.handlerChunk o.advance.draft (state ++ "." ++ n.lexeme) = made at hp₂ ⊢
  have hpassed : ∀ o' : Outline, o'.draft = made.2 → o'.states = o.states →
      (∀ state' event', o.handler? state' event' = none → (state', event') ≠ (state, n.lexeme) →
        o'.handler? state' event' = none) →
      Passed o (n :: l :: (ts ++ [r])) [] [(state, ⟨n.lexeme, body⟩)] (zs.map missingValue) o' := by
    intro o' hdraft hstates horigin
    exact {
      upcoming := by
        rw [hp₁.upcoming, hp₂.upcoming, hdraft]
        rfl
      calm := hdraft ▸ hp₂.calm
      states := by rw [hstates, List.append_nil]
      origin := fun state' event' hnone hkey =>
        horigin state' event' hnone fun heq => hkey (by simp [key, heq])
      declared := fun name type => by
        rw [hdraft, hp₂.declared, hp₁.declared]
        simp [Statement.work]
      targets := by
        rw [hdraft, hp₂.targets, hp₁.targets]
        simp [Statement.work]
      diagnostics := by
        rw [hdraft, hp₂.diagnostics, hp₁.diagnostics, List.append_nil] }
  split
  · rw [addHandler_of_fresh (h.fresh _ (List.mem_singleton_self _))]
    refine hpassed _ rfl rfl fun state' event' hnone hne => ?_
    change (o.keep state n.lexeme made.1).handler? state' event' = none
    rw [handler?_keep, if_neg hne]
    exact hnone
  · exact hpassed _ rfl rfl fun state' event' hnone _ => hnone

/-- The state that is next among those to be declared is declared under its name, once. -/
theorem Affords.declareState (h : Affords o ts rest [o.draft.previous.lexeme] []) :
    o.declareState.1 = o.draft.previous.lexeme ∧
      Passed o [] [o.draft.previous.lexeme] [] [] o.declareState.2 := by
  rw [declareState_of_not_mem h.toDeclarable.not_mem]
  exact ⟨rfl, rfl, h.calm, by simp, fun _ _ hnone _ => hnone, by simp, by simp, by simp⟩

/-- Declarations from which values are missing are walked through, and the missing values are all
that is found. -/
def passing : Walk (EmptiedBlock HasRoom) where
  Before := Affords
  After o ts names handlers zs o' := Passed o ts names handlers (zs.map missingValue) o'
  upcoming h := h.upcoming
  panicking h := h.calm.panicking
  refl h := .refl h.calm
  trans h₁ h₂ := by
    rw [List.map_append]
    exact h₁.trans h₂
  first h := h.first
  second h hp := h.second hp
  advance h := ⟨h.advance.1, h.advance.2.1⟩
  declareState h := h.declareState
  rename h name := h.rename name
  handlerTail h name opening block closing := h.handlerTail name opening block closing

/-- Settling on the next token leaves the chunk as it is. -/
theorem settle_chunk (s : Draft) (tokens : List Token) :
    (s.settle tokens).chunk = s.chunk := by
  obtain ⟨_, _, _, heq⟩ := s.exists_settle tokens
  rw [heq]

/-- Everything is there for valid declarations at the beginning of a source, where values may be
missing. -/
theorem affords_of_valid {source : String} {f : File} {zs : List Token} (hvalid : Valid f)
    (hts : FileEmptied HasRoom f (Token.words source) zs) :
    Affords (ofSource source) (Token.words source) [] (f.states.map (·.name)) f.handlers := by
  obtain ⟨hready, hup⟩ := ofSource_of_clear hts.readable
  have hpool : (ofSource source).draft.pool = [] :=
    congrArg (fun c : Chunk => c.constants.toList) (settle_chunk _ _)
  exact {
    toDeclarable := declarable_of_valid source hvalid
    calm := {
      panicking := hready.panicking
      clear := by
        intro t ht
        rw [hup] at ht
        exact ⟨hts.readable t ht, (Token.mem_words ht).2⟩
      nodup := hpool ▸ List.nodup_nil
      pool := by
        rw [hpool]
        exact List.nil_subset _
      room := Nat.zero_le _ }
    upcoming := by rw [hup, List.append_nil] }

/-- The problems of a source in which values of valid declarations are missing. -/
theorem problems_of_emptied {source : String} {f : File} {zs : List Token} (hvalid : Valid f)
    (hts : FileEmptied HasRoom f (Token.words source) zs) :
    (ofSource source).declarations.problems = zs.map missingValue := by
  have hp := passing.declarations hts (affords_of_valid hvalid hts)
  have hready := (ofSource_of_clear hts.readable).1
  have hstates : (ofSource source).declarations.states.toList ≠ [] := by
    rw [hp.states]
    exact fun hempty => hvalid.inhabited (List.map_eq_nil_iff.1 hempty)
  have hrequire : (ofSource source).declarations.requireStates
      = (ofSource source).declarations := by
    unfold requireStates
    rw [if_neg (by simpa using fun hempty => absurd (by simpa using hempty) hstates)]
  have htargets : (ofSource source).declarations.unknownTargets = [] := by
    rw [unknownTargets_eq_nil_iff, hp.targets, hp.states, (ofSource_declared source).2]
    exact hvalid.targets
  rw [problems, hrequire, htargets, hp.diagnostics, hready.diagnostics]
  simp

end Compile.Outline

/-- What is reported at the semicolon of an assignment without a value. -/
theorem Compile.Draft.missingValue_of_semicolon {source : String} {z : Token}
    (hz : z ∈ Token.words source) (hkind : z.kind = .semicolon) :
    missingValue z = ⟨z.line, .missing .expression (some ";")⟩ := by
  rw [missingValue, Problem.missingAt, if_neg (by rw [hkind]; decide),
    Token.lexeme_of_semicolon hz hkind]

/-- Missing values are each reported once. A source that compiles spells valid declarations. Some of
its assignments, at least one and at any depth of any of its handlers, may have lost their value. As
long as every handler has room for the constants that are left, where a vector right behind such an
assignment and a minus sign counts without that sign, compiling then fails with one problem for each
of them, in their order: the value is missing at the semicolon. -/
theorem missing_values_reported {file source : String} {script : Script}
    (h : compile file source = .ok script) :
    (∃ f, FileSpelling f (Token.words source) ∧ Valid f) ∧
    ∀ f, FileSpelling f (Token.words source) → Valid f →
    ∀ file' source' zs, FileEmptied HasRoom f (Token.words source') zs → zs ≠ [] →
      zs.Sublist (Token.words source') ∧ (∀ z ∈ zs, z.kind = .semicolon) ∧
      compile file' source'
        = .error ⟨file', zs.map fun z => ⟨z.line, .missing .expression (some ";")⟩⟩ ∧
      (Problem.missing .expression (some ";")).message = "expected expression, found ';'" ∧
      (Problem.missing .expression (some ";")).isLexical = false := by
  obtain ⟨f, hf, hvalid, -⟩ := compile_represents h
  refine ⟨⟨f, hf, hvalid⟩, fun f _ hvalid file' source' zs hts hzs => ?_⟩
  obtain ⟨hsublist, hkind⟩ := hts.semicolons
  refine ⟨hsublist, hkind, ?_, rfl, rfl⟩
  have hmap : zs.map Draft.missingValue
      = zs.map fun z => ⟨z.line, .missing .expression (some ";")⟩ :=
    List.map_congr_left fun z hz =>
      Draft.missingValue_of_semicolon (hsublist.subset hz) (hkind z hz)
  have hproblems := (Outline.problems_of_emptied hvalid hts).trans hmap
  obtain ⟨z, zs, rfl⟩ := List.exists_cons_of_ne_nil hzs
  unfold compile
  dsimp only
  rw [hproblems]
  rfl

/-- A gauge that is read. -/
def gaugeSource : String := "State on { OnEvent read { if n { args.w = n; } v = n; -3,4; } }"

/-- The gauge without the values of its assignments. -/
def emptiedGaugeSource : String := "State on {
  OnEvent read {
    if n { args.w = ; }
    v = ;
    -3,4;
  }
}"

/-- What the gauge does. -/
def gaugeBody : Statement :=
  .seq (.branch (.var "n") (.seq (.evaluate (.assign "args.w" (.var "n"))) .skip) .skip)
    (.seq (.evaluate (.assign "v" (.var "n"))) (.seq opposite .skip))

/-- The words of the gauge spell its file. -/
theorem fileSpelling_gauge :
    FileSpelling [.state ⟨"on", [⟨"read", gaugeBody⟩]⟩] (Token.words gaugeSource) := by
  have hn : Phrase .assignment (.var "n") [word "n"] :=
    .var (.plain (t := word "n") rfl (by decide))
  have hw : Name "args.w" [word "args", mark .dot, word "w"] :=
    .argument (t := word "w") rfl rfl rfl rfl
  have hinner := Clause.next
    (.evaluate (z := mark .semicolon) (.assign hw (q := mark .equal) rfl hn) rfl) .done
  have hbranch := Clause.conditional (.branch (w := mark .ifWord) rfl hn
    (l := mark .leftBrace) rfl hinner (r := mark .rightBrace) rfl .nothing)
  have hassign := Clause.evaluate (z := mark .semicolon)
    (.assign name_v (q := mark .equal) rfl hn) rfl
  have hbody : Clause .body gaugeBody _ :=
    .next hbranch (.next hassign (.next clause_opposite .done))
  convert fileSpelling_handlerTokens "on" "read" hbody using 1
  decide +kernel

/-- The words of the emptied gauge spell its file apart from two assignments, with room for its
constants. -/
theorem fileEmptied_gauge : FileEmptied HasRoom [.state ⟨"on", [⟨"read", gaugeBody⟩]⟩]
    (Token.words emptiedGaugeSource) [⟨.semicolon, ";", 3⟩, ⟨.semicolon, ";", 4⟩] := by
  have hn : Phrase .assignment (.var "n") [⟨.identifier, "n", 3⟩] :=
    .var (.plain (t := ⟨.identifier, "n", 3⟩) rfl (by decide))
  have hw : Name "args.w" [⟨.identifier, "args", 3⟩, ⟨.dot, ".", 3⟩, ⟨.identifier, "w", 3⟩] :=
    .argument (t := ⟨.identifier, "w", 3⟩) rfl rfl rfl rfl
  have hv : Name "v" [⟨.identifier, "v", 4⟩] :=
    .plain (t := ⟨.identifier, "v", 4⟩) rfl (by decide)
  have hinner := Emptied.gap (e := .var "n") (q := ⟨.equal, "=", 3⟩) (z := ⟨.semicolon, ";", 3⟩)
    hw rfl rfl .done
  have hbranch := Emptied.conditional (.branch (w := ⟨.ifWord, "if", 3⟩) rfl hn
    (l := ⟨.leftBrace, "\x7b", 3⟩) rfl hinner (r := ⟨.rightBrace, "\x7d", 3⟩) rfl .nothing)
  have hlast := Emptied.whole (.evaluate (z := ⟨.semicolon, ";", 5⟩)
    (.negatedVector (m := ⟨.minus, "-", 5⟩) (t := ⟨.vec2, "3,4", 5⟩) rfl rfl) rfl)
  have hbody : Emptied .body gaugeBody _ _ _ := .next hbranch
    (.gap (q := ⟨.equal, "=", 4⟩) (z := ⟨.semicolon, ";", 4⟩) hv rfl rfl (.next hlast .done))
  have hroom : EmptiedBlock HasRoom gaugeBody _ _ := ⟨_, hbody, by decide +kernel⟩
  have hhandlers := FramedHandlers.cons (w := ⟨.onEvent, "OnEvent", 2⟩)
    (n := ⟨.identifier, "read", 2⟩) (l := ⟨.leftBrace, "\x7b", 2⟩) (r := ⟨.rightBrace, "\x7d", 6⟩)
    rfl rfl rfl hroom rfl .nil
  have hstate := FramedState.mk (w := ⟨.state, "State", 1⟩) (n := ⟨.identifier, "on", 1⟩)
    (l := ⟨.leftBrace, "\x7b", 1⟩) (r := ⟨.rightBrace, "\x7d", 7⟩) rfl rfl rfl hhandlers rfl
  have hfile : FileEmptied HasRoom _ _ _ := FramedFile.state hstate .nil
  convert hfile using 1 <;> decide +kernel

/-- The gauge misses both values, each on its line. -/
theorem missing_values_reported_gauge : (∃ script, compile "gauge" gaugeSource = .ok script) ∧
    compile "gauge" emptiedGaugeSource = .error ⟨"gauge",
      [⟨3, .missing .expression (some ";")⟩, ⟨4, .missing .expression (some ";")⟩]⟩ := by
  have hvalid : Valid [.state ⟨"on", [⟨"read", gaugeBody⟩]⟩] := by
    refine valid_of_handler ?_ ?_ ?_ ?_ ?_
    · simp [gaugeBody, opposite, Statement.Legal, Expression.Legal, Literal.Legal]
    · simp [gaugeBody, opposite, Statement.targets]
    · simp [gaugeBody, opposite, Statement.annotations]
    · decide +kernel
    · decide
  obtain ⟨script, hscript, -⟩ := compile_of_valid "gauge" fileSpelling_gauge hvalid
  obtain ⟨-, -, herror, -⟩ := (missing_values_reported hscript).2 _ fileSpelling_gauge hvalid
    "gauge" _ _ fileEmptied_gauge (List.cons_ne_nil _ _)
  exact ⟨⟨script, hscript⟩, herror⟩

/-- Names of two letters. -/
def crowdNames : List String :=
  (("abcdefghijklmnop".toList.product "ABCDEFGHIJKLMNOP".toList).drop 2).map fun p =>
    String.ofList [p.1, p.2]

/-- No two of the names are the same. -/
theorem nodup_crowdNames : crowdNames.Nodup := by
  have hleft : "abcdefghijklmnop".toList.Nodup := by decide +kernel
  have hright : "ABCDEFGHIJKLMNOP".toList.Nodup := by decide +kernel
  refine ((hleft.product hright).sublist (List.drop_sublist 2 _)).map fun p q h => ?_
  obtain ⟨h₁, h₂⟩ := List.cons.inj (String.ofList_injective h)
  exact Prod.ext h₁ (List.cons.inj h₂).1

/-- Where a handler has no room for a vector that keeps its sign, a missing value is not all that is
reported. -/
theorem missing_value_crowds_out :
    FileSpelling (crowdFile crowdNames) (Token.words (crowdSource [word "v"] crowdNames)) ∧
    (∃ script, compile "crowd" (crowdSource [word "v"] crowdNames) = .ok script) ∧
    FileEmptied (fun _ => True) (crowdFile crowdNames)
      (Token.words (crowdSource [] crowdNames)) [mark .semicolon] ∧
    compile "crowd" (crowdSource [] crowdNames)
      ≠ .error ⟨"crowd", [⟨1, .missing .expression (some ";")⟩]⟩ := by
  have hletters : ("abcdefghijklmnop".toList.product "ABCDEFGHIJKLMNOP".toList).all (fun p =>
      Token.startsWord p.1 && (Token.continuesWord p.1 && Token.continuesWord p.2) &&
        (Token.Kind.keyword? (String.ofList [p.1, p.2])).isNone) = true := by decide +kernel
  have hspaced : ∀ name ∈ crowdNames, Spaced (word name) := by
    intro name hname
    obtain ⟨p, hp, rfl⟩ := List.mem_map.1 hname
    have hp := List.all_eq_true.1 hletters p (List.mem_of_mem_drop hp)
    simp only [Bool.and_eq_true, Option.isNone_iff_eq_none] at hp
    obtain ⟨⟨hstart, hfirst, hsecond⟩, hfree⟩ := hp
    exact spaced_of_continuesWord String.toList_ofList hstart (by simp [hfirst, hsecond]) hfree
  have htwo : ∀ name ∈ crowdNames, name.toList.length = 2 := by
    intro name hname
    obtain ⟨p, -, rfl⟩ := List.mem_map.1 hname
    rw [String.toList_ofList]
    rfl
  have hargs : ∀ name ∈ crowdNames, name ≠ "args" := by
    rintro name hname rfl
    exact absurd (htwo _ hname) (by decide)
  have hv : "v" ∉ crowdNames := fun hname => absurd (htwo _ hname) (by decide)
  have hlength : crowdNames.length = 254 := by decide +kernel
  have hspelling := fileSpelling_crowd hspaced hargs
  have hvalid : Valid (crowdFile crowdNames) := valid_crowdFile (by rw [hlength]; decide)
  obtain ⟨script, hscript, -⟩ := compile_of_valid "crowd" hspelling hvalid
  exact ⟨hspelling, ⟨script, hscript⟩, fileEmptied_crowd hspaced hargs,
    compile_crowd_ne "crowd" hspaced hargs nodup_crowdNames hv (by rw [hlength]; decide) _⟩

end EntityScript
