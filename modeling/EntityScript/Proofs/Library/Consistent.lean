import EntityScript.Library
import EntityScript.Proofs.Bytecode.Compiled
import EntityScript.Proofs.Table

/-!
# Libraries and what they remember

A library keeps two tables, the scripts that could be made and where scripts come from, and every
call changes both. Here it is followed through any calls, while files change between them as they
like. A ledger beside it notes for every path the last time that its script was made: from which
origin, and with which files.

What one query does is said by `Library.answer_cases`, and what reloading does by
`Library.reload_spec`. From these follows what a call preserves, `Tended.Agrees.call`, and by an
induction over the calls what holds after any number of them.
-/

namespace EntityScript

/-- What a host asks a library for. -/
inductive Query where
  | load (path : String)
  | insertSource (path text : String)
  | insertBaked (path : String) (bytes : List UInt8)

namespace Query

/-- The path under which the script is to be kept. -/
def path : Query → String
  | load path | insertSource path _ | insertBaked path _ => path

/-- Where the script is to come from. -/
def origin : Query → Origin
  | load _ => .file
  | insertSource _ text => .source text
  | insertBaked _ bytes => .baked bytes

/-- A script that is kept will do. -/
def isLoad : Query → Bool
  | load _ => true
  | insertSource .. | insertBaked .. => false

end Query

/-- What a host does with a library. -/
inductive Call where
  | ask (q : Query)
  | clear
  | reload

namespace Origin

/-- To make a script is to decode or to compile something, unless a file cannot be read. -/
theorem build_cases (files : Files) (path : String) (origin : Origin) :
    (∃ cause, origin.build files path = .error (.unreadable path cause)) ∨
    (∃ bytes, origin.build files path = decode path bytes) ∨
    ∃ text, origin.build files path = compile path text := by
  cases origin with
  | source text => exact .inr (.inr ⟨text, rfl⟩)
  | baked bytes => exact .inr (.inl ⟨bytes, rfl⟩)
  | file =>
    by_cases hbaked : Path.extension? path = some bakedExtension
    · rw [build, if_pos hbaked]
      cases files.read path with
      | error cause => exact .inl ⟨cause, rfl⟩
      | ok bytes => exact .inr (.inl ⟨bytes, rfl⟩)
    · rw [build, if_neg hbaked]
      cases files.readText path with
      | error cause => exact .inl ⟨cause, rfl⟩
      | ok text => exact .inr (.inr ⟨text, rfl⟩)

/-- A script that was built knows the path that it was built for. -/
theorem path_of_build {files : Files} {path : String} {origin : Origin} {s : Script}
    (h : origin.build files path = .ok s) : s.path = path := by
  obtain ⟨cause, hbuild⟩ | ⟨bytes, hbuild⟩ | ⟨text, hbuild⟩ := origin.build_cases files path
  · cases hbuild.symm.trans h
  · rw [hbuild, decode] at h
    split at h <;> cases h
    rfl
  · rw [hbuild, compile, EntityScript.compile] at h
    split at h <;> cases h
    rfl

end Origin

namespace Library

variable {l : Library} {files : Files} {path : String}

/-- Answers a query. -/
def answer (l : Library) (files : Files) : Query → Except LoadError Edition × Library
  | .load path => l.load files path
  | .insertSource path text => l.insert files path (.source text)
  | .insertBaked path bytes => l.insert files path (.baked bytes)

/-- The library after a call. -/
def after (l : Library) (files : Files) : Call → Library
  | .ask q => (l.answer files q).2
  | .clear => l.clear
  | .reload => (l.reload files).2

/-- Where the script of a path comes from, if a call makes it. -/
def makes? (l : Library) (path : String) : Call → Option Origin
  | .ask q =>
    if q.path = path ∧ ¬ (q.isLoad ∧ (l.get? path).isSome) then some q.origin else none
  | .clear => none
  | .reload => l.tracked.get? path

/-- Every script that is kept was numbered, and each has a number of its own. -/
structure Numbered (l : Library) : Prop where
  below : ∀ {path edition}, l.get? path = some edition → edition.serial < l.made
  apart : ∀ {path path' edition edition'}, l.get? path = some edition →
    l.get? path' = some edition' → edition.serial = edition'.serial → path = path'

/-- A script that is kept is found under its path, with the number that it was given. -/
theorem get?_keep_self (l : Library) (path : String) (s : Script) :
    (l.keep path s).2.get? path = some ⟨l.made, s⟩ :=
  Table.get?_insert_self _ _ _

/-- Keeping a script leaves other paths alone. -/
theorem get?_keep_of_ne {other : String} (h : other ≠ path) (l : Library) (s : Script) :
    (l.keep path s).2.get? other = l.get? other :=
  Table.get?_insert_of_ne _ h _

/-- Keeping a script gives it a number that no other script has. -/
theorem Numbered.keep (h : l.Numbered) (path : String) (s : Script) :
    (l.keep path s).2.Numbered := by
  have hnew {path' : String} {edition : Edition}
      (hget : (l.keep path s).2.get? path' = some edition) :
      path' = path ∧ edition.serial = l.made ∨ l.get? path' = some edition := by
    by_cases hpath : path' = path
    · rw [hpath, get?_keep_self] at hget
      cases hget
      exact .inl ⟨hpath, rfl⟩
    · exact .inr (get?_keep_of_ne hpath l s ▸ hget)
  constructor
  · intro path' edition hget
    change edition.serial < l.made + 1
    obtain ⟨-, hserial⟩ | hold := hnew hget
    · omega
    · exact Nat.lt_succ_of_lt (h.below hold)
  · intro path₁ path₂ edition₁ edition₂ hget₁ hget₂ hsame
    obtain ⟨hpath₁, hserial₁⟩ | hold₁ := hnew hget₁ <;>
      obtain ⟨hpath₂, hserial₂⟩ | hold₂ := hnew hget₂
    · exact hpath₁.trans hpath₂.symm
    · exact absurd (h.below hold₂) (by omega)
    · exact absurd (h.below hold₁) (by omega)
    · exact h.apart hold₁ hold₂ hsame

/-- Numbers stay apart in a library that keeps no other scripts. -/
theorem Numbered.of_le {l' : Library} (h : l.Numbered) (hmade : l'.made = l.made)
    (hkept : ∀ path edition, l'.get? path = some edition → l.get? path = some edition) :
    l'.Numbered where
  below hget := hmade ▸ h.below (hkept _ _ hget)
  apart hget hget' := h.apart (hkept _ _ hget) (hkept _ _ hget')

/-- The library while the script of a path is made: what was kept under it is gone. -/
def track (l : Library) (path : String) (origin : Origin) : Library :=
  { l with editions := l.editions.erase path, tracked := l.tracked.insert path origin }

/-- Nothing is kept under a path while its script is made. -/
theorem get?_track_self (l : Library) (path : String) (origin : Origin) :
    (l.track path origin).get? path = none :=
  Table.get?_erase_self _ _

/-- Making the script of one path leaves other paths alone. -/
theorem get?_track_of_ne {other : String} (h : other ≠ path) (l : Library) (origin : Origin) :
    (l.track path origin).get? other = l.get? other :=
  Table.get?_erase_of_ne _ h

/-- A library that keeps one script less still has a number for each. -/
theorem Numbered.track (h : l.Numbered) (path : String) (origin : Origin) :
    (l.track path origin).Numbered := by
  refine h.of_le rfl fun other edition hget => ?_
  by_cases hother : other = path
  · rw [hother, get?_track_self] at hget
    cases hget
  · exact get?_track_of_ne hother l origin ▸ hget

/-- What an answer and the library after it have to do with the library before, when a script was
made for a path. -/
structure Makes (l : Library) (files : Files) (path : String) (origin : Origin)
    (answer : Except LoadError Edition) (l' : Library) : Prop where
  tracked : l'.tracked = l.tracked.insert path origin
  others : ∀ other, other ≠ path → l'.get? other = l.get? other
  script : answer.map (·.script) = origin.build files path
  kept : l'.get? path = answer.toOption
  numbered : l.Numbered → l'.Numbered

/-- Inserting a script makes it, or leaves the path with nothing kept. -/
theorem makes_insert (l : Library) (files : Files) (path : String) (origin : Origin) :
    l.Makes files path origin (l.insert files path origin).1 (l.insert files path origin).2 := by
  cases hbuild : origin.build files path with
  | error e =>
    have hinsert : l.insert files path origin = (.error e, l.track path origin) := by
      unfold insert
      simp only [hbuild]
      rfl
    rw [hinsert]
    exact ⟨rfl, fun other hother => get?_track_of_ne hother l origin, hbuild.symm,
      get?_track_self l path origin, fun h => h.track path origin⟩
  | ok s =>
    have hinsert : l.insert files path origin
        = (.ok ⟨l.made, s⟩, ((l.track path origin).keep path s).2) := by
      unfold insert
      simp only [hbuild]
      rfl
    rw [hinsert]
    refine ⟨rfl, fun other hother => ?_, hbuild.symm, get?_keep_self _ path s,
      fun h => (h.track path origin).keep path s⟩
    exact (get?_keep_of_ne hother _ s).trans (get?_track_of_ne hother l origin)

/-- A query is answered with the script that is kept, or the script is made. -/
theorem answer_cases (l : Library) (files : Files) (q : Query) :
    (∃ edition, q.isLoad = true ∧ l.get? q.path = some edition ∧
      l.answer files q = (.ok edition, l)) ∨
    (l.makes? q.path (.ask q) = some q.origin ∧
      l.Makes files q.path q.origin (l.answer files q).1 (l.answer files q).2) := by
  cases q with
  | insertSource path text =>
    exact .inr ⟨if_pos ⟨rfl, fun h => nomatch h.1⟩, makes_insert l files path _⟩
  | insertBaked path bytes =>
    exact .inr ⟨if_pos ⟨rfl, fun h => nomatch h.1⟩, makes_insert l files path _⟩
  | load path =>
    cases hkept : l.get? path with
    | some edition =>
      refine .inl ⟨edition, rfl, hkept, ?_⟩
      unfold get? at hkept
      rw [answer, load, hkept]
    | none =>
      have hmakes : l.makes? path (.ask (.load path)) = some .file := by
        refine if_pos ⟨rfl, fun h => ?_⟩
        rw [hkept] at h
        exact nomatch h.2
      have hload : l.answer files (.load path) = l.insert files path .file := by
        unfold get? at hkept
        rw [answer, load, hkept]
      rw [hload]
      exact .inr ⟨hmakes, makes_insert l files path _⟩

/-- The script that making all of some tracked scripts gives a path. -/
def found (files : Files) (path : String) (entries : List (String × Origin)) : Option Script :=
  (Table.find path entries).bind fun origin => (origin.build files path).toOption

/-- The first entry of a path says what is found for it. -/
theorem found_cons_self (files : Files) {path : String} {origin : Origin}
    (entries : List (String × Origin)) :
    found files path ((path, origin) :: entries) = (origin.build files path).toOption := by
  unfold found
  rw [Table.find, if_pos Std.ReflCmp.compare_self]
  rfl

/-- Entries of other paths do not matter. -/
theorem found_cons_of_ne (files : Files) {path : String} {entry : String × Origin}
    (h : path ≠ entry.1) (entries : List (String × Origin)) :
    found files path (entry :: entries) = found files path entries := by
  unfold found
  rw [Table.find, if_neg fun heq => h (Std.LawfulEqCmp.eq_of_compare heq)]

/-- A path without an entry is given nothing. -/
theorem found_of_forall_ne (files : Files) {path : String} {entries : List (String × Origin)}
    (h : ∀ entry ∈ entries, path ≠ entry.1) : found files path entries = none := by
  induction entries with
  | nil => rfl
  | cons entry entries ih =>
    obtain ⟨hentry, hrest⟩ := List.forall_mem_cons.1 h
    rw [found_cons_of_ne files hentry, ih hrest]

/-- What making tracked scripts one after another does: a path that fails keeps what it has. -/
theorem remade (files : Files) {entries : List (String × Origin)}
    (hkeys : entries.Pairwise fun a b => a.1 ≠ b.1) : ∀ (errors : Array LoadError) (l : Library),
    let l' := (entries.foldl (remake files) (errors, l)).2
    l'.tracked = l.tracked ∧ (l.Numbered → l'.Numbered) ∧ ∀ path, (l'.get? path).map (·.script)
      = (found files path entries).or ((l.get? path).map (·.script)) := by
  induction entries with
  | nil => exact fun errors l => ⟨rfl, id, fun path => rfl⟩
  | cons entry entries ih =>
    obtain ⟨path, origin⟩ := entry
    obtain ⟨hpath, hrest⟩ := List.pairwise_cons.1 hkeys
    intro errors l
    rw [List.foldl_cons]
    have hother {other : String} (h : other ≠ path) :
        found files other ((path, origin) :: entries) = found files other entries :=
      found_cons_of_ne files h entries
    -- The rest makes other paths only, so what this entry makes is still there behind it.
    have hself := found_of_forall_ne files hpath
    cases hbuild : origin.build files path with
    | error e =>
      have hstep : remake files (errors, l) (path, origin) = (errors.push e, l) := by
        unfold remake
        rw [hbuild]
      rw [hstep]
      obtain ⟨htracked, hnumbered, hget⟩ := ih hrest (errors.push e) l
      refine ⟨htracked, hnumbered, fun other => ?_⟩
      rw [hget other]
      by_cases h : other = path
      · rw [h, found_cons_self, hself, hbuild]
        rfl
      · rw [hother h]
    | ok s =>
      have hstep : remake files (errors, l) (path, origin) = (errors, (l.keep path s).2) := by
        unfold remake
        rw [hbuild]
      rw [hstep]
      obtain ⟨htracked, hnumbered, hget⟩ := ih hrest errors (l.keep path s).2
      refine ⟨htracked, fun h => hnumbered (h.keep path s), fun other => ?_⟩
      rw [hget other]
      by_cases h : other = path
      · rw [h, found_cons_self, hself, hbuild, get?_keep_self]
        rfl
      · rw [hother h, get?_keep_of_ne h]

/-- Reloading makes every tracked script, and keeps no other. -/
theorem reload_spec (l : Library) (files : Files) :
    (l.reload files).2.tracked = l.tracked ∧ (l.reload files).2.Numbered ∧
      ∀ path, ((l.reload files).2.get? path).map (·.script)
        = (l.tracked.get? path).bind fun origin => (origin.build files path).toOption := by
  obtain ⟨htracked, hnumbered, hget⟩ := remade files
    (Table.pairwise_ne_of_ascending l.tracked.ascending) #[] { l with editions := .empty }
  refine ⟨htracked, hnumbered ⟨fun h => (nomatch h), fun h => (nomatch h)⟩, fun path => ?_⟩
  refine (hget path).trans ?_
  exact Option.or_none

end Library

/-- A library, and for every path from what its script was made the last time. -/
structure Tended where
  library : Library
  ledger : String → Option (Origin × Files)

namespace Tended

/-- Nothing was kept or made yet. -/
def empty : Tended := ⟨.empty, fun _ => none⟩

/-- A call, with the files as they are then. -/
def call (t : Tended) (request : Files × Call) : Tended where
  library := t.library.after request.1 request.2
  ledger path := ((t.library.makes? path request.2).map (·, request.1)).or (t.ledger path)

/-- Calls one after another. -/
def calls (t : Tended) (requests : List (Files × Call)) : Tended := requests.foldl call t

/-- What is known of a library. -/
structure Consistent (t : Tended) : Prop where
  /-- A script that is kept is the one that was made the last time, from where its path is tracked
  to, and it has this path. -/
  kept : ∀ path edition, t.library.get? path = some edition → edition.script.path = path ∧
    ∃ origin files, t.library.tracked.get? path = some origin ∧
      t.ledger path = some (origin, files) ∧ origin.build files path = .ok edition.script
  /-- If there is none for a path that is tracked, it could not be made the last time. -/
  missing : ∀ path origin, t.library.tracked.get? path = some origin →
    t.library.get? path = none →
    ∃ files e, t.ledger path = some (origin, files) ∧ origin.build files path = .error e
  numbered : t.library.Numbered

/-- What is known of one path: it is not tracked and nothing is kept, or what is kept is what was
made the last time. -/
def Agrees (t : Tended) (path : String) : Prop :=
  match t.library.tracked.get? path with
  | none => t.library.get? path = none
  | some origin => ∃ files, t.ledger path = some (origin, files) ∧
    (t.library.get? path).map (·.script) = (origin.build files path).toOption

/-- A library is consistent if all its paths agree with what was made last. -/
theorem consistent_of_agrees {t : Tended} (h : ∀ path, t.Agrees path)
    (hnumbered : t.library.Numbered) : t.Consistent := by
  refine ⟨fun path edition hget => ?_, fun path origin htracked hget => ?_, hnumbered⟩
  · have hpath := h path
    unfold Agrees at hpath
    cases htracked : t.library.tracked.get? path with
    | none =>
      rw [htracked] at hpath
      cases hget.symm.trans hpath
    | some origin =>
      rw [htracked] at hpath
      obtain ⟨files, hledger, hmade⟩ := hpath
      rw [hget] at hmade
      cases hbuild : origin.build files path with
      | error e =>
        rw [hbuild] at hmade
        cases hmade
      | ok s =>
        rw [hbuild] at hmade
        obtain rfl : edition.script = s := Option.some.inj hmade
        exact ⟨Origin.path_of_build hbuild, origin, files, rfl, hledger, hbuild⟩
  · have hpath := h path
    unfold Agrees at hpath
    rw [htracked] at hpath
    obtain ⟨files, hledger, hmade⟩ := hpath
    rw [hget] at hmade
    cases hbuild : origin.build files path with
    | error e => exact ⟨files, e, hledger, hbuild⟩
    | ok s =>
      rw [hbuild] at hmade
      cases hmade

/-- A path that is not tracked and keeps nothing agrees. -/
theorem agrees_of_not_kept {t : Tended} {path : String}
    (htracked : t.library.tracked.get? path = none) (hget : t.library.get? path = none) :
    t.Agrees path := by
  unfold Agrees
  rw [htracked]
  exact hget

/-- After its script was made, a path agrees. -/
theorem agrees_of_made {t : Tended} {path : String} (origin : Origin) (files : Files)
    (htracked : t.library.tracked.get? path = some origin)
    (hledger : t.ledger path = some (origin, files))
    (hget : (t.library.get? path).map (·.script) = (origin.build files path).toOption) :
    t.Agrees path := by
  unfold Agrees
  rw [htracked]
  exact ⟨files, hledger, hget⟩

/-- A path agrees after a call that makes nothing for it and leaves its entries alone. -/
theorem Agrees.of_same {t t' : Tended} {path : String} (h : t.Agrees path)
    (htracked : t'.library.tracked.get? path = t.library.tracked.get? path)
    (hget : t'.library.get? path = t.library.get? path) (hledger : t'.ledger path = t.ledger path) :
    t'.Agrees path := by
  unfold Agrees
  rw [htracked, hget, hledger]
  exact h

/-- One call preserves what is known of every path. -/
theorem Agrees.call {t : Tended} {path : String} (h : t.Agrees path) (request : Files × Call) :
    (t.call request).Agrees path := by
  obtain ⟨files, request⟩ := request
  cases request with
  | clear => exact agrees_of_not_kept rfl rfl
  | reload =>
    obtain ⟨htracked, -, hget⟩ := t.library.reload_spec files
    have htracked' : (t.call (files, .reload)).library.tracked.get? path
        = t.library.tracked.get? path := congrArg (·.get? path) htracked
    have hget' := hget path
    cases horigin : t.library.tracked.get? path with
    | none =>
      rw [horigin] at hget' htracked'
      exact agrees_of_not_kept htracked' (Option.map_eq_none_iff.1 hget')
    | some origin =>
      rw [horigin] at hget' htracked'
      refine agrees_of_made origin files htracked' ?_ hget'
      change ((t.library.tracked.get? path).map (·, files)).or (t.ledger path) = _
      rw [horigin]
      rfl
  | ask q =>
    obtain ⟨edition, hload, hkept, hanswer⟩ | ⟨hmakes, hmade⟩ := t.library.answer_cases files q
    · have hlibrary : (t.call (files, .ask q)).library = t.library := congrArg Prod.snd hanswer
      refine h.of_same (congrArg (·.tracked.get? path) hlibrary)
        (congrArg (·.get? path) hlibrary) ?_
      have hnone : t.library.makes? path (.ask q) = none := by
        refine if_neg fun hboth => hboth.2 ⟨hload, ?_⟩
        rw [← hboth.1, hkept]
        rfl
      change ((t.library.makes? path (.ask q)).map (·, files)).or (t.ledger path) = _
      rw [hnone]
      rfl
    · by_cases hpath : path = q.path
      · rw [hpath]
        refine agrees_of_made q.origin files ?_ ?_ ?_
        · exact (congrArg (·.get? q.path) hmade.tracked).trans (Table.get?_insert_self ..)
        · change ((t.library.makes? q.path (.ask q)).map (·, files)).or (t.ledger q.path) = _
          rw [hmakes]
          rfl
        · change ((t.library.answer files q).2.get? q.path).map (·.script) = _
          rw [hmade.kept, ← hmade.script]
          cases (t.library.answer files q).1 <;> rfl
      · refine h.of_same ?_ (hmade.others path hpath) ?_
        · exact (congrArg (·.get? path) hmade.tracked).trans (Table.get?_insert_of_ne _ hpath _)
        · have hnone : t.library.makes? path (.ask q) = none :=
            if_neg fun hboth => hpath hboth.1.symm
          change ((t.library.makes? path (.ask q)).map (·, files)).or (t.ledger path) = _
          rw [hnone]
          rfl

/-- Every call leaves scripts with numbers of their own. -/
theorem numbered_call {t : Tended} (h : t.library.Numbered) (request : Files × Call) :
    (t.call request).library.Numbered := by
  obtain ⟨files, request⟩ := request
  cases request with
  | clear => exact ⟨fun h => (nomatch h), fun h => (nomatch h)⟩
  | reload => exact (t.library.reload_spec files).2.1
  | ask q =>
    obtain ⟨edition, -, -, hanswer⟩ | ⟨-, hmade⟩ := t.library.answer_cases files q
    · have hlibrary : (t.call (files, .ask q)).library = t.library := congrArg Prod.snd hanswer
      exact hlibrary ▸ h
    · exact hmade.numbered h

/-- Whatever is called, the library is consistent afterwards. -/
theorem consistent_calls (requests : List (Files × Call)) : (empty.calls requests).Consistent := by
  have hall (requests : List (Files × Call)) : ∀ t : Tended, (∀ path, t.Agrees path) →
      t.library.Numbered → (∀ path, (t.calls requests).Agrees path) ∧
        (t.calls requests).library.Numbered := by
    induction requests with
    | nil => exact fun t h hnumbered => ⟨h, hnumbered⟩
    | cons request requests ih =>
      exact fun t h hnumbered =>
        ih (t.call request) (fun path => (h path).call request) (numbered_call hnumbered request)
  obtain ⟨hagrees, hnumbered⟩ := hall requests empty (fun path => agrees_of_not_kept rfl rfl)
    ⟨fun h => (nomatch h), fun h => (nomatch h)⟩
  exact consistent_of_agrees hagrees hnumbered

end Tended

/-- After any calls, with files that change between them, a library keeps for every path that it
tracks the script that was made for it the last time, and nothing else. A script that is kept is
answered as it is, whatever the files are. A query that fails leaves its path tracked and without
a script, and no query touches another path. -/
theorem Library.consistent_with_tracked (requests : List (Files × Call)) :
    let t := Tended.empty.calls requests
    t.Consistent ∧
    (∀ path edition files, t.library.get? path = some edition →
      t.library.load files path = (.ok edition, t.library)) ∧
    ∀ files q, let l := (t.library.answer files q).2
      (∀ path, path ≠ q.path → l.get? path = t.library.get? path ∧
        l.tracked.get? path = t.library.tracked.get? path) ∧
      match (t.library.answer files q).1 with
      | .ok edition => l.get? q.path = some edition
      | .error _ => l.get? q.path = none ∧ l.tracked.get? q.path = some q.origin := by
  intro t
  refine ⟨Tended.consistent_calls requests, fun path edition files hget => ?_, fun files q => ?_⟩
  · unfold get? at hget
    rw [load, hget]
  · obtain ⟨edition, -, hkept, hanswer⟩ | ⟨-, hmade⟩ := t.library.answer_cases files q
    · rw [hanswer]
      exact ⟨fun path _ => ⟨rfl, rfl⟩, hkept⟩
    · refine ⟨fun path hpath => ⟨hmade.others path hpath, ?_⟩, ?_⟩
      · exact (congrArg (·.get? path) hmade.tracked).trans (Table.get?_insert_of_ne _ hpath _)
      · have hkept := hmade.kept
        cases hresult : (t.library.answer files q).1 with
        | ok edition =>
          rw [hresult] at hkept
          exact hkept
        | error e =>
          rw [hresult] at hkept
          exact ⟨hkept, (congrArg (·.get? q.path) hmade.tracked).trans
            (Table.get?_insert_self ..)⟩

/-- A library to which a lamp was added, and a door that cannot be unbaked. -/
theorem Library.consistent_with_tracked_lamp :
    let t := Tended.empty.calls [(.empty, .ask (.insertSource "lamp" lampSource)),
      (.empty, .ask (.insertBaked "door" [])), (.empty, .reload)]
    t.Consistent ∧ t.library.tracked.get? "door" = some (.baked []) ∧
    t.library.get? "door" = none ∧ ∃ edition, t.library.get? "lamp" = some edition ∧
      ∀ files, t.library.load files "lamp" = (.ok edition, t.library) := by
  intro t
  obtain ⟨hconsistent, hload, -⟩ := Library.consistent_with_tracked
    [(.empty, .ask (.insertSource "lamp" lampSource)), (.empty, .ask (.insertBaked "door" [])),
      (.empty, .reload)]
  have hkept : (t.library.get? "lamp").isSome = true := by decide +kernel
  have hmissing : (t.library.get? "door").isNone = true := by decide +kernel
  obtain ⟨edition, hedition⟩ := Option.isSome_iff_exists.1 hkept
  exact ⟨hconsistent, by decide +kernel, Option.isNone_iff_eq_none.1 hmissing, edition, hedition,
    fun files => hload "lamp" edition files hedition⟩

end EntityScript
