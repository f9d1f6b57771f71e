import EntityScript.Proofs.Library.Consistent
import EntityScript.Proofs.Text.Bytewise

/-!
# Reloading

Reloading makes every tracked script anew, from where it comes and with the files as they are now.
What comes of a path depends on nothing else: there is an edition that was never there before, or
there is one error about it. So reloading once more, with the same files, comes to the same.

Nothing that a library does brings an old edition back: `Library.Renews`.
-/

namespace EntityScript

/-- The path that a load error is about. -/
def LoadError.path : LoadError → String
  | unreadable path _ | undecodable path _ => path
  | uncompilable cause => cause.file

namespace Origin

/-- What is wrong with a script that cannot be made. -/
def trouble (files : Files) (path : String) (origin : Origin) : Option LoadError :=
  match origin.build files path with
  | .ok _ => none
  | .error e => some e

/-- An error is about the path whose script could not be made. -/
theorem path_of_error {files : Files} {path : String} {origin : Origin} {e : LoadError}
    (h : origin.build files path = .error e) : e.path = path := by
  obtain ⟨cause, hbuild⟩ | ⟨bytes, hbuild⟩ | ⟨text, hbuild⟩ := origin.build_cases files path
  · cases hbuild.symm.trans h
    rfl
  · rw [hbuild, decode] at h
    split at h <;> cases h
    rfl
  · rw [hbuild, compile, EntityScript.compile] at h
    split at h <;> cases h
    rfl

/-- What is wrong with a script is told under its path. -/
theorem path_of_trouble {files : Files} {path : String} {origin : Origin} {e : LoadError}
    (h : origin.trouble files path = some e) : e.path = path := by
  unfold trouble at h
  split at h
  · cases h
  · rename_i hbuild
    cases h
    exact path_of_error hbuild

end Origin

namespace Library

variable {l l' l'' : Library} {files : Files} {path : String}

/-- A library some time later: what it keeps is what it kept under the same path, or was made
since. -/
structure Renews (l l' : Library) : Prop where
  grown : l.made ≤ l'.made
  kept : ∀ path edition, l'.get? path = some edition →
    l.get? path = some edition ∨ l.made ≤ edition.serial

namespace Renews

/-- A library renews itself by doing nothing. -/
theorem refl (l : Library) : l.Renews l := ⟨Nat.le_refl _, fun _ _ h => .inl h⟩

/-- Renewing is done in steps. -/
theorem trans (h : l.Renews l') (h' : l'.Renews l'') : l.Renews l'' where
  grown := h.grown.trans h'.grown
  kept path edition hget := by
    obtain hold | hnew := h'.kept path edition hget
    · exact h.kept path edition hold
    · exact .inr (h.grown.trans hnew)

/-- Keeping a script renews a library. -/
theorem keep (l : Library) (path : String) (s : Script) : l.Renews (l.keep path s).2 where
  grown := Nat.le_succ _
  kept other edition hget := by
    by_cases hother : other = path
    · rw [hother, get?_keep_self] at hget
      cases hget
      exact .inr (Nat.le_refl _)
    · exact .inl (get?_keep_of_ne hother l s ▸ hget)

/-- Tracking a path renews a library: it keeps less. -/
theorem track (l : Library) (path : String) (origin : Origin) : l.Renews (l.track path origin) where
  grown := Nat.le_refl _
  kept other edition hget := by
    by_cases hother : other = path
    · rw [hother, get?_track_self] at hget
      cases hget
    · exact .inl (get?_track_of_ne hother l origin ▸ hget)

/-- A library that keeps nothing. -/
theorem of_empty (hmade : l.made ≤ l'.made) (hnone : ∀ path, l'.get? path = none) :
    l.Renews l' where
  grown := hmade
  kept path edition hget := by cases (hnone path).symm.trans hget

/-- Inserting a script renews a library. -/
theorem insert (l : Library) (files : Files) (path : String) (origin : Origin) :
    l.Renews (l.insert files path origin).2 := by
  have hinsert : (l.insert files path origin).2 = match origin.build files path with
      | .ok s => ((l.track path origin).keep path s).2
      | .error _ => l.track path origin := by
    unfold Library.insert
    cases origin.build files path <;> rfl
  rw [hinsert]
  cases origin.build files path with
  | error e => exact track l path origin
  | ok s => exact (track l path origin).trans (keep _ path s)

/-- Making some tracked scripts again renews a library. -/
theorem remake (files : Files) (entries : List (String × Origin)) : ∀ (errors : Array LoadError)
    (l : Library), l.Renews (entries.foldl (Library.remake files) (errors, l)).2 := by
  induction entries with
  | nil => exact fun errors l => refl l
  | cons entry entries ih =>
    intro errors l
    rw [List.foldl_cons]
    refine trans ?_ (ih _ _)
    change l.Renews (Library.remake files (errors, l) entry).2
    unfold Library.remake
    cases entry.2.build files entry.1 with
    | error e => exact refl l
    | ok s => exact keep l entry.1 s

/-- No call brings an old edition back. -/
theorem after (l : Library) (files : Files) (request : Call) :
    l.Renews (l.after files request) := by
  cases request with
  | clear => exact of_empty (Nat.le_refl _) fun path => rfl
  | reload =>
    have hempty : l.Renews { l with editions := .empty } :=
      of_empty (Nat.le_refl _) fun path => rfl
    exact hempty.trans (remake files l.tracked.entries #[] _)
  | ask q =>
    cases q with
    | insertSource path text => exact insert l files path _
    | insertBaked path bytes => exact insert l files path _
    | load path =>
      change l.Renews (l.load files path).2
      unfold load
      split
      · exact refl l
      · exact insert l files path _

end Renews

/-- All that is kept after reloading was made by it. -/
theorem le_serial_of_reload {edition : Edition}
    (h : (l.reload files).2.get? path = some edition) : l.made ≤ edition.serial := by
  have hrenews := Renews.remake files l.tracked.entries #[] { l with editions := .empty }
  obtain hold | hnew := hrenews.kept path edition h
  · cases hold
  · exact hnew

/-- The errors of making some scripts again are told in the order of their entries. -/
theorem remake_errors (files : Files) (entries : List (String × Origin)) :
    ∀ (errors : Array LoadError) (l : Library),
      (entries.foldl (remake files) (errors, l)).1.toList
        = errors.toList ++ entries.filterMap fun entry => entry.2.trouble files entry.1 := by
  induction entries with
  | nil => exact fun errors l => (List.append_nil _).symm
  | cons entry entries ih =>
    intro errors l
    rw [List.foldl_cons, ih, List.filterMap_cons]
    unfold remake Origin.trouble
    cases entry.2.build files entry.1 with
    | ok s => rfl
    | error e =>
      dsimp only
      rw [Array.toList_push, List.append_assoc]
      rfl

/-- The errors are those of the tracked scripts, one after another. -/
theorem reload_errors (l : Library) (files : Files) : (l.reload files).1
    = l.tracked.entries.filterMap fun entry => entry.2.trouble files entry.1 :=
  remake_errors files l.tracked.entries #[] { l with editions := .empty }

/-- Of several scripts, one path is only that of one error. -/
theorem filter_trouble (files : Files) (path : String) {entries : List (String × Origin)}
    (hkeys : entries.Pairwise fun a b => a.1 ≠ b.1) :
    (entries.filterMap fun entry => entry.2.trouble files entry.1).filter (·.path = path)
      = ((Table.find path entries).bind fun origin => origin.trouble files path).toList := by
  induction entries with
  | nil => rfl
  | cons entry entries ih =>
    obtain ⟨other, origin⟩ := entry
    obtain ⟨hfirst, hrest⟩ := List.pairwise_cons.1 hkeys
    rw [List.filterMap_cons, Table.find]
    by_cases hpath : path = other
    · obtain rfl := hpath
      have hothers : (entries.filterMap fun entry => entry.2.trouble files entry.1).filter
          (·.path = path) = [] := by
        rw [List.filter_eq_nil_iff]
        intro e he
        obtain ⟨entry, hentry, htrouble⟩ := List.mem_filterMap.1 he
        rw [Origin.path_of_trouble htrouble, decide_eq_true_eq]
        exact fun heq => hfirst entry hentry heq.symm
      rw [if_pos Std.ReflCmp.compare_self]
      cases htrouble : origin.trouble files path with
      | none => exact hothers.trans (by rw [Option.bind_some, htrouble]; rfl)
      | some e =>
        dsimp only
        rw [List.filter_cons_of_pos (by simpa using Origin.path_of_trouble htrouble), hothers,
          Option.bind_some, htrouble]
        rfl
    · rw [if_neg fun heq => hpath (Std.LawfulEqCmp.eq_of_compare heq), ← ih hrest]
      cases htrouble : origin.trouble files other with
      | none => rfl
      | some e =>
        refine List.filter_cons_of_neg ?_
        rw [Origin.path_of_trouble htrouble, decide_eq_true_eq]
        exact fun heq => hpath heq.symm

/-- What reloading comes to. -/
structure Reloads (l : Library) (files : Files) (errors : List LoadError) (l' : Library) :
    Prop where
  /-- Scripts come from where they came from. -/
  tracked : l'.tracked = l.tracked
  /-- Every tracked path has an edition that was not there before, with the script that is made
  now, or there is exactly one error about it. -/
  remade : ∀ path origin, l.tracked.get? path = some origin →
    match origin.build files path with
    | .ok s => (∃ edition, l'.get? path = some edition ∧ edition.script = s ∧
        l.made ≤ edition.serial) ∧ errors.filter (·.path = path) = []
    | .error e => l'.get? path = none ∧ errors.filter (·.path = path) = [e]
  /-- Nothing is kept, and nothing is wrong, for any other path. -/
  untracked : ∀ path, l.tracked.get? path = none →
    l'.get? path = none ∧ errors.filter (·.path = path) = []
  /-- The errors come in the order of the bytes of their paths. -/
  ordered : errors.Pairwise fun a b => textBytes a.path < textBytes b.path
  /-- With the same files, it comes to the same once more. -/
  again : (l'.reload files).1 = errors ∧
    ∀ path, ((l'.reload files).2.get? path).map (·.script) = (l'.get? path).map (·.script)

/-- Reloading makes every tracked script again, and tells what is wrong with those that cannot be
made. -/
theorem reloads (l : Library) (files : Files) :
    l.Reloads files (l.reload files).1 (l.reload files).2 := by
  obtain ⟨htracked, -, hget⟩ := l.reload_spec files
  have hkeys := Table.pairwise_ne_of_ascending l.tracked.ascending
  have herrors (path : String) : (l.reload files).1.filter (·.path = path)
      = ((l.tracked.get? path).bind fun origin => origin.trouble files path).toList := by
    rw [reload_errors]
    exact filter_trouble files path hkeys
  refine ⟨htracked, fun path origin horigin => ?_, fun path hnone => ?_, ?_, ?_, fun path => ?_⟩
  · have hpath := hget path
    have herror := herrors path
    rw [horigin, Option.bind_some] at hpath herror
    unfold Origin.trouble at herror
    cases hbuild : origin.build files path with
    | ok s =>
      rw [hbuild] at hpath herror
      obtain ⟨edition, hedition, hscript⟩ := Option.map_eq_some_iff.1 hpath
      exact ⟨⟨edition, hedition, hscript, le_serial_of_reload hedition⟩, herror⟩
    | error e =>
      rw [hbuild] at hpath herror
      exact ⟨Option.map_eq_none_iff.1 hpath, herror⟩
  · have hpath := hget path
    have herror := herrors path
    rw [hnone] at hpath herror
    exact ⟨Option.map_eq_none_iff.1 hpath, herror⟩
  · rw [reload_errors]
    refine List.Pairwise.filterMap _ ?_ l.tracked.ascending
    intro a b hab e he e' he'
    rw [Origin.path_of_trouble he, Origin.path_of_trouble he']
    exact textBytes_lt hab
  · rw [reload_errors, reload_errors, htracked]
  · rw [((l.reload files).2.reload_spec files).2.2 path, hget path, htracked]

end Library

end EntityScript
