import EntityScript.Proofs.Library.Reloaded
import EntityScript.Proofs.Machine.Scene

/-!
# Sessions

A scene and a library beside it. Scripts are loaded, inserted, forgotten and reloaded while files
change as they like, the host makes scripts of its own, and between any of this the scene goes on.
It goes on by itself: the scripts of a library come to it only with what the host brings, and when
an entity is rebound.

A session keeps a list of all editions that were made in it. Their serial numbers tell them apart
(`Session.Sound.genuine`), so that an entity has the edition that is kept under its path exactly if
the numbers are equal.
-/

namespace EntityScript

/-- What rebinding a context comes to. -/
structure Library.Rebinds (l : Library) (c : Context) (bound : Bool) (c' : Context) : Prop where
  /-- The answer tells whether a script is kept under the path of its own. -/
  found : bound = true ↔ (l.get? c.definition.script.path).isSome
  /-- If so, it moves to that script. The state stays if the script has it, and else is the one that
  the script begins in; nothing else changes. -/
  moved : ∀ edition, l.get? c.definition.script.path = some edition →
    c'.definition = edition ∧ c'.bindings = c.bindings ∧ c'.owner = c.owner ∧
      c'.state = if edition.script.hasState c.state then c.state else edition.script.initialState
  /-- If not, nothing changes at all. -/
  unbound : bound = false → c' = c

/-- The state that a context has in its own script anyway is the one that it would get there. -/
theorem Context.Rooted.state_eq {c : Context} (h : c.Rooted) : c.state =
    if c.definition.script.hasState c.state then c.state
    else c.definition.script.initialState := by
  split
  · rfl
  · rename_i hunknown
    exact h.resolve_left hunknown

/-- Rebinding changes the script, and the state only if the new script lacks it. -/
theorem Context.rebind_eq (c : Context) (edition : Edition) : (c.rebind edition).2
    = { c with
      definition := edition
      state := if edition.script.hasState c.state then c.state
        else edition.script.initialState } := by
  unfold Context.rebind
  split <;> rfl

/-- A context whose script can be told by its number is rebound as it should be. -/
theorem Library.rebinds (l : Library) {c : Context} (hrooted : c.Rooted)
    (hgenuine : ∀ edition, l.get? c.definition.script.path = some edition →
      edition.serial = c.definition.serial → edition = c.definition) :
    l.Rebinds c (l.rebind c).1 (l.rebind c).2 := by
  cases hget : l.get? c.definition.script.path with
  | none =>
    rw [rebind_of_none hget]
    refine ⟨⟨nofun, fun h => ?_⟩, fun edition h => ?_, fun _ => rfl⟩
    · rw [hget] at h
      cases h
    · cases hget.symm.trans h
  | some edition =>
    have hbound : true = true ↔ (l.get? c.definition.script.path).isSome := by
      rw [hget]
      exact Iff.rfl
    rw [rebind_of_some hget]
    split
    · rename_i hserial
      refine ⟨hbound, fun edition' h => ?_, fun h => by cases h⟩
      cases hget.symm.trans h
      obtain rfl := hgenuine edition hget hserial
      exact ⟨rfl, rfl, rfl, hrooted.state_eq⟩
    · refine ⟨hbound, fun edition' h => ?_, fun h => by cases h⟩
      cases hget.symm.trans h
      rw [Context.rebind_eq]
      exact ⟨rfl, rfl, rfl, rfl⟩

/-- A scene with a library. -/
structure Session where
  scene : Scene
  library : Library
  /-- All editions that were made so far. -/
  made : List Edition

/-- What a host with a library does. -/
inductive Session.Act where
  /-- Something that needs no library. -/
  | play (act : Scene.Act)
  /-- A call of the library, with the files as they are then. -/
  | call (files : Files) (request : Call)
  /-- The host makes a script by itself. -/
  | make (script : Script)
  /-- An entity is moved to the script that the library keeps under the path of its own. -/
  | rebind (id : EntityId)

namespace Session

/-- What an act does to the scene, if it needs no library. -/
def Act.play? : Act → Option Scene.Act
  | play act => some act
  | _ => none

/-- The script that an act brings to an entity. -/
def Act.brings? (a : Act) : Option Edition := a.play?.bind Scene.Act.brings?

/-- The entity that an act moves to another script. -/
def Act.moves? : Act → Option EntityId
  | play act => act.moves?
  | rebind id => some id
  | _ => none

/-- The session at the beginning. -/
def start (limits : Limits) : Session := ⟨.start limits, .empty, []⟩

/-- The session after an act. -/
def after (s : Session) : Act → Session
  | .play act => { s with scene := s.scene.after act }
  | .call files request =>
    let library := s.library.after files request
    { s with library, made := s.made ++ library.editions.values }
  | .make script =>
    let (edition, library) := s.library.number script
    { s with library, made := s.made ++ [edition] }
  | .rebind id => { s with scene := s.scene.work id fun c => (s.library.rebind c).2 }

/-- The session after some acts. -/
def afterAll (s : Session) (acts : List Act) : Session := acts.foldl after s

/-- A session that can be come to. The scripts that a host brings to its entities have been made. -/
inductive Reached : Session → Prop
  | start (limits : Limits) : Reached (.start limits)
  | after {s : Session} (before : Reached s) (a : Act)
    (made : ∀ edition, a.brings? = some edition → edition ∈ s.made) : Reached (s.after a)

/-- What is known of every session. -/
structure Sound (s : Session) : Prop where
  numbered : s.library.Numbered
  /-- What was made was numbered. -/
  below : ∀ edition ∈ s.made, edition.serial < s.library.made
  /-- Two editions with one number are the same. -/
  genuine : ∀ edition ∈ s.made, ∀ edition' ∈ s.made, edition.serial = edition'.serial →
    edition = edition'
  kept : ∀ path edition, s.library.get? path = some edition → edition ∈ s.made
  running : ∀ id c, s.scene.context? id = some c → c.definition ∈ s.made ∧ c.Rooted
  populated : Scene.Populated s.scene.world

variable {s : Session}

/-- The session at the beginning is sound: nothing was made yet. -/
theorem sound_start (limits : Limits) : (start limits).Sound where
  numbered := ⟨fun h => (nomatch h), fun h => (nomatch h)⟩
  below _ h := absurd h List.not_mem_nil
  genuine _ h := absurd h List.not_mem_nil
  kept _ _ h := nomatch h
  running _ _ h := nomatch h
  populated _ _ h := nomatch h

/-- Editions are added that were made after all the others, and that have numbers of their own. -/
theorem Sound.of_made (h : s.Sound) {library : Library} {new : List Edition}
    (hgrown : s.library.made ≤ library.made) (hnumbered : library.Numbered)
    (hnew : ∀ edition ∈ new, edition ∈ s.made ∨
      s.library.made ≤ edition.serial ∧ edition.serial < library.made)
    (happart : ∀ edition ∈ new, ∀ edition' ∈ new, edition.serial = edition'.serial →
      edition = edition')
    (hkept : ∀ path edition, library.get? path = some edition → edition ∈ s.made ++ new) :
    (⟨s.scene, library, s.made ++ new⟩ : Session).Sound where
  numbered := hnumbered
  below edition hmem := by
    change edition.serial < library.made
    obtain hold | hmem := List.mem_append.1 hmem
    · exact (h.below edition hold).trans_le hgrown
    · obtain hold | ⟨-, hlt⟩ := hnew edition hmem
      · exact (h.below edition hold).trans_le hgrown
      · exact hlt
  genuine edition hmem edition' hmem' hserial := by
    have hcases {edition : Edition} (hmem : edition ∈ s.made ++ new) : edition ∈ s.made ∨
        edition ∈ new ∧ s.library.made ≤ edition.serial := by
      obtain hold | hmem := List.mem_append.1 hmem
      · exact .inl hold
      · exact (hnew edition hmem).imp_right fun hle => ⟨hmem, hle.1⟩
    obtain hold | ⟨hmem, hle⟩ := hcases hmem <;> obtain hold' | ⟨hmem', hle'⟩ := hcases hmem'
    · exact h.genuine edition hold edition' hold' hserial
    · have hlt := h.below edition hold
      omega
    · have hlt := h.below edition' hold'
      omega
    · exact happart edition hmem edition' hmem' hserial
  kept := hkept
  running id c hc := by
    obtain ⟨hmem, hrooted⟩ := h.running id c hc
    exact ⟨List.mem_append_left _ hmem, hrooted⟩
  populated := h.populated

/-- A call to the library keeps a session sound: what it makes is among what was made. -/
theorem Sound.call (h : s.Sound) (files : Files) (request : Call) :
    (s.after (.call files request)).Sound := by
  have hrenews := Library.Renews.after s.library files request
  have hnumbered : (s.library.after files request).Numbered :=
    Tended.numbered_call (t := ⟨s.library, fun _ => none⟩) h.numbered (files, request)
  have hvalues {edition : Edition} :
      edition ∈ (s.library.after files request).editions.values ↔
        ∃ path, (s.library.after files request).get? path = some edition :=
    Table.mem_values_iff
  refine h.of_made hrenews.grown hnumbered (fun edition hmem => ?_)
    (fun edition hmem edition' hmem' hserial => ?_)
    fun path edition hget => List.mem_append_right _ (hvalues.2 ⟨path, hget⟩)
  · obtain ⟨path, hget⟩ := hvalues.1 hmem
    obtain hold | hnew := hrenews.kept path edition hget
    · exact .inl (h.kept path edition hold)
    · exact .inr ⟨hnew, hnumbered.below hget⟩
  · obtain ⟨path, hget⟩ := hvalues.1 hmem
    obtain ⟨path', hget'⟩ := hvalues.1 hmem'
    obtain rfl := hnumbered.apart hget hget' hserial
    exact Option.some.inj (hget.symm.trans hget')

/-- A script that is made without the library keeps a session sound. -/
theorem Sound.make (h : s.Sound) (script : Script) : (s.after (.make script)).Sound := by
  have hnumbered : (s.library.number script).2.Numbered :=
    ⟨fun hget => Nat.lt_succ_of_lt (h.numbered.below hget), h.numbered.apart⟩
  refine h.of_made (Nat.le_succ _) hnumbered (fun edition hmem => ?_)
    (fun edition hmem edition' hmem' _ => ?_)
    fun path edition hget => List.mem_append_left _ (h.kept path edition hget)
  · obtain rfl := List.mem_singleton.1 hmem
    exact .inr ⟨Nat.le_refl _, Nat.lt_succ_self _⟩
  · exact (List.mem_singleton.1 hmem).trans (List.mem_singleton.1 hmem').symm

/-- The scene after an act is one that an act without the library can lead to, with a script that
the act brings or that is kept. -/
theorem turns_after (s : Session) (a : Act) : ∃ act : Scene.Act,
    act.Turns s.scene.world (s.after a).scene.world ∧
    (∀ edition, act.brings? = some edition →
      a.brings? = some edition ∨ ∃ path, s.library.get? path = some edition) ∧
    ∀ id, act.moves? = some id → a.moves? = some id := by
  cases a with
  | play act => exact ⟨act, s.scene.turns_after act, fun _ => .inl, fun _ h => h⟩
  | call files request => exact ⟨.collect, .same (.refl _), nofun, nofun⟩
  | make script => exact ⟨.collect, .same (.refl _), nofun, nofun⟩
  | rebind id =>
    have hcontext (id' : EntityId) : (s.after (.rebind id)).scene.context? id' = if id' = id then
        (s.scene.context? id).map fun c => (s.library.rebind c).2 else s.scene.context? id' :=
      Scene.context?_work s.scene id _ id'
    have hpopulation := s.scene.population_work id fun c => (s.library.rebind c).2
    have hsame (h : (s.scene.context? id).map (fun c => (s.library.rebind c).2)
        = s.scene.context? id) : s.scene.world.Descends (s.after (.rebind id)).scene.world := by
      refine ⟨fun id' => ?_, hpopulation⟩
      have hid := (World.Descends.refl s.scene.world).contexts id'
      change Option.Rel _ _ ((s.after (.rebind id)).scene.context? id')
      rw [hcontext, h]
      split
      · rename_i heq
        exact heq ▸ hid
      · exact hid
    cases hc : s.scene.context? id with
    | none =>
      rw [hc] at hsame
      exact ⟨.collect, .same (hsame rfl), nofun, nofun⟩
    | some c =>
      obtain hkept | ⟨path, edition, hget, hmoved⟩ := s.library.rebind_cases c
      · rw [hc, Option.map_some, hkept] at hsame
        exact ⟨.collect, .same (hsame rfl), nofun, nofun⟩
      · refine ⟨.rebindTo id edition, .moved (fun id' => ?_) hpopulation, fun edition' h => ?_,
          fun _ h => h⟩
        · have hid := hcontext id'
          rw [hc, Option.map_some, hmoved] at hid
          change _ = if id' = id then (s.scene.context? id).map _ else _
          rw [hc]
          exact hid
        · cases h
          exact .inr ⟨path, hget⟩

/-- An act of the scene keeps a session sound if it brings only scripts that were made. -/
theorem Sound.of_turns (h : s.Sound) {scene : Scene} {act : Scene.Act}
    (hturns : act.Turns s.scene.world scene.world)
    (hbrings : ∀ edition, act.brings? = some edition → edition ∈ s.made) :
    (⟨scene, s.library, s.made⟩ : Session).Sound where
  numbered := h.numbered
  below := h.below
  genuine := h.genuine
  kept := h.kept
  running id c' hc' := by
    obtain ⟨c, hc, hdescends⟩ | ⟨hbrought, hrooted⟩ := hturns.context_cases hc'
    · obtain ⟨hmem, hrooted⟩ := h.running id c hc
      exact ⟨hdescends.definition ▸ hmem, hdescends.rooted hrooted⟩
    · exact ⟨hbrings _ hbrought, hrooted⟩
  populated := hturns.populated h.populated

/-- One act keeps a session sound. -/
theorem Sound.after (h : s.Sound) (a : Act)
    (hmade : ∀ edition, a.brings? = some edition → edition ∈ s.made) : (s.after a).Sound := by
  obtain ⟨act, hturns, hbrings, -⟩ := s.turns_after a
  have hmade' (edition : Edition) (hbrought : act.brings? = some edition) : edition ∈ s.made := by
    obtain hbrought | ⟨path, hget⟩ := hbrings edition hbrought
    · exact hmade edition hbrought
    · exact h.kept path edition hget
  cases a with
  | play _ => exact h.of_turns hturns hmade'
  | call files request => exact h.call files request
  | make script => exact h.make script
  | rebind id => exact h.of_turns hturns hmade'

/-- Every session that can be come to is sound. -/
theorem Reached.sound (h : s.Reached) : s.Sound := by
  induction h with
  | start limits => exact sound_start limits
  | after _ a made ih => exact ih.after a made

/-- Without rebinding, the scene goes on as if there were no library. -/
theorem scene_afterAll (acts : List Act) (hacts : ∀ a ∈ acts, ∀ id, a ≠ .rebind id) : ∀ s : Session,
    (s.afterAll acts).scene = (acts.filterMap Act.play?).foldl Scene.after s.scene := by
  induction acts with
  | nil => exact fun s => rfl
  | cons a acts ih =>
    obtain ⟨ha, hrest⟩ := List.forall_mem_cons.1 hacts
    intro s
    have hafter := ih hrest (s.after a)
    cases a with
    | play act => exact hafter
    | call files request => exact hafter
    | make script => exact hafter
    | rebind id => exact absurd rfl (ha id)

/-- An entity that is not moved keeps its script, whatever becomes of others and of the library. -/
theorem exists_context_afterAll {id : EntityId} (acts : List Act)
    (hstays : ∀ a ∈ acts, a.moves? ≠ some id) : ∀ {s : Session} {c : Context},
      Scene.Populated s.scene.world → s.scene.context? id = some c →
        ∃ c', (s.afterAll acts).scene.context? id = some c' ∧ c.Continues c' := by
  induction acts with
  | nil => exact fun {s c} _ hc => ⟨c, hc, .refl c⟩
  | cons a acts ih =>
    obtain ⟨ha, hrest⟩ := List.forall_mem_cons.1 hstays
    intro s c hs hc
    obtain ⟨act, hturns, -, hmoves⟩ := s.turns_after a
    obtain ⟨c₁, hc₁, hdescends⟩ := hturns.exists_context hs hc fun h => ha (hmoves id h)
    obtain ⟨c', hc', hcontinues⟩ := ih hrest (hturns.populated hs) hc₁
    exact ⟨c', hc', hdescends.toContinues.trans hcontinues⟩

/-- Whatever a host did with its library and its entities, reloading makes every tracked script
anew or answers an error about it, and what it makes was never there before. A context that is
rebound, of an entity or of any other life with a script that was made, then has the script that is
kept under the path of its own, and keeps all else that this script allows. As long as no entity is
rebound the scene goes on as if there were no library, and an entity that is not moved keeps its
script whatever becomes of the others. -/
theorem reload_loses_nothing (h : s.Reached) :
    (∀ files, let (errors, l) := s.library.reload files
      s.library.Reloads files errors l ∧
        ∀ path edition, l.get? path = some edition → edition ∉ s.made) ∧
    (∀ c : Context, ((∃ id, s.scene.context? id = some c) ∨
        c.Lived (fun _ => True) ∧ c.definition ∈ s.made) →
      let (bound, c') := s.library.rebind c
      s.library.Rebinds c bound c') ∧
    (∀ acts : List Act, (∀ a ∈ acts, ∀ id, a ≠ .rebind id) →
      (s.afterAll acts).scene = (acts.filterMap Act.play?).foldl Scene.after s.scene) ∧
    ∀ id c (acts : List Act), s.scene.context? id = some c → (∀ a ∈ acts, a.moves? ≠ some id) →
      ∃ c', (s.afterAll acts).scene.context? id = some c' ∧ c.Continues c' := by
  have hsound := h.sound
  refine ⟨fun files => ⟨s.library.reloads files, fun path edition hget hmem => ?_⟩,
    fun c hc => ?_, fun acts hacts => scene_afterAll acts hacts s,
    fun id c acts hc hstays => exists_context_afterAll acts hstays hsound.populated hc⟩
  · have hlt := hsound.below edition hmem
    have hle := Library.le_serial_of_reload hget
    omega
  · obtain ⟨hmem, hrooted⟩ : c.definition ∈ s.made ∧ c.Rooted := by
      obtain ⟨id, hc⟩ | ⟨hlived, hmem⟩ := hc
      · exact hsound.running id c hc
      · exact ⟨hmem, hlived.sound.2⟩
    refine s.library.rebinds hrooted fun edition hget hserial => ?_
    exact hsound.genuine edition (hsound.kept _ edition hget) c.definition hmem hserial

/-- An entity with a lamp that is off, which a library keeps. -/
def lamps : Session := (start {}).afterAll [.call .empty (.ask (.insertSource "lamp" lampSource)),
  .play (.spawn "lamp" ⟨0, lampScript⟩ "off" true)]

/-- The session with the lamp can be come to. -/
theorem reached_lamps : lamps.Reached := by
  have hinserted : ((start {}).after
      (.call .empty (.ask (.insertSource "lamp" lampSource)))).Reached :=
    .after (.start {}) _ fun _ h => nomatch h
  refine hinserted.after (.play (.spawn "lamp" ⟨0, lampScript⟩ "off" true)) fun edition h => ?_
  cases h
  decide +kernel

/-- A lamp is reloaded from changed files and moved to its new script without losing anything. -/
theorem reload_loses_nothing_lamps : lamps.Reached ∧
    let l := (lamps.library.reload .empty).2
    let c := lampOff.withOwner 1
    l.get? "lamp" = some ⟨1, lampScript⟩ ∧ ⟨1, lampScript⟩ ∉ lamps.made ∧
      lamps.scene.context? 1 = some c ∧
      l.rebind c = (true, { c with definition := ⟨1, lampScript⟩ }) ∧
      l.Rebinds c (l.rebind c).1 (l.rebind c).2 := by
  have hfresh : (lamps.library.reload .empty).2.get? "lamp" = some ⟨1, lampScript⟩ := by
    decide +kernel
  have hcontext : lamps.scene.context? 1 = some (lampOff.withOwner 1) := by decide +kernel
  have hreloaded : (lamps.after (.call .empty .reload)).Reached :=
    reached_lamps.after _ fun _ h => nomatch h
  have hrebinds := (reload_loses_nothing hreloaded).2.1 _ (.inl ⟨1, hcontext⟩)
  exact ⟨reached_lamps, hfresh, ((reload_loses_nothing reached_lamps).1 .empty).2 "lamp" _ hfresh,
    hcontext, by decide +kernel, hrebinds⟩

end Session

end EntityScript
