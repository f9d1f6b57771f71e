import EntityScript.Files
import Mathlib.Data.Nat.Notation

/-!
# Reading what was written

A file that was written is read as it was written, and writing one file leaves the others alone.
Several paths may lead to one place, but paths with different extensions never do: the place of a
file ends with the name that its path leads to.
-/

namespace EntityScript

/-- The path of a place ends as the last of its names does. -/
theorem Place.getLast?_path {p : Place} {name : String} (h : p.getLast? = some name)
    (hne : name ≠ "") : p.path.toList.getLast? = name.toList.getLast? := by
  obtain ⟨front, rfl⟩ := List.getLast?_eq_some_iff.1 h
  have hnonempty : name.toList ≠ [] := fun hnil => hne (String.toList_eq_nil_iff.1 hnil)
  unfold path
  cases front with
  | nil => rw [List.nil_append, String.intercalate_singleton]
  | cons first front =>
    rw [String.intercalate_append_of_ne_nil (List.cons_ne_nil _ _) (List.cons_ne_nil _ _),
      String.intercalate_singleton, String.toList_append, ← List.dropLast_concat_getLast hnonempty,
      ← List.append_assoc, List.getLast?_concat, List.getLast?_concat]

namespace Path

/-- A name with an extension ends as the extension does. -/
theorem getLast?_of_splitExtension {name stem extension : String}
    (h : splitExtension name = (stem, some extension)) (hne : extension ≠ "") :
    name.toList.getLast? = extension.toList.getLast? := by
  unfold splitExtension at h
  dsimp only at h
  split at h
  · cases h
  · cases h
  · obtain ⟨-, hextension⟩ := Prod.mk.inj h
    obtain rfl := Option.some.inj hextension
    have hsplit := List.takeWhile_append_dropWhile (p := fun c : Char => decide (c ≠ '.'))
      (l := name.toList.reverse)
    obtain ⟨last, rest, hcons⟩ : ∃ last rest,
        (name.toList.reverse.takeWhile fun c => decide (c ≠ '.')) = last :: rest := by
      refine List.exists_cons_of_ne_nil fun hnil => ?_
      rw [hnil] at hne
      exact hne rfl
    rw [hcons, List.cons_append] at hsplit
    rw [String.toList_ofList, List.getLast?_reverse, ← List.head?_reverse, hcons, ← hsplit]
    rfl

/-- A path with an extension has a file name that ends in the same character. -/
theorem exists_fileName_of_extension {path extension : String}
    (h : extension? path = some extension) (hne : extension ≠ "") :
    ∃ name, fileName? path = some name ∧ name ≠ "" ∧
      name.toList.getLast? = extension.toList.getLast? := by
  obtain ⟨name, hname, hextension⟩ := Option.bind_eq_some_iff.1 h
  have hlast := getLast?_of_splitExtension (Prod.ext rfl hextension) hne
  refine ⟨name, hname, ?_, hlast⟩
  rintro rfl
  cases hextension

end Path

namespace Files

variable {files files' : Files} {path : String}

/-- A place can be entered just if it is a directory. -/
theorem enter_eq_ok {p : Place} : files.enter p = .ok () ↔ files.hasDirectory p = true := by
  unfold enter
  split
  · simp [*]
  · rename_i h
    split <;> simp [h]

/-- A path is followed part by part, through directories only. -/
theorem follow_cons_eq_ok {p q : Place} {part : String} {rest : List String} :
    files.follow p (part :: rest) = .ok q ↔
      files.hasDirectory p = true ∧ files.follow (p.follow part) rest = .ok q := by
  rw [follow, ← enter_eq_ok]
  cases files.enter p with
  | ok u => exact ⟨fun h => ⟨rfl, h⟩, fun h => h.2⟩
  | error e => exact ⟨nofun, fun h => nomatch h.1⟩

/-- The last part of a path leads on from a directory. -/
theorem follow_concat {p q : Place} {parts : List String} {part : String}
    (h : files.follow p (parts ++ [part]) = .ok q) :
    ∃ p', files.hasDirectory p' = true ∧ q = p'.follow part := by
  induction parts generalizing p with
  | nil =>
    obtain ⟨hdirectory, hrest⟩ := follow_cons_eq_ok.1 h
    exact ⟨p, hdirectory, (Except.ok.inj hrest).symm⟩
  | cons first parts ih => exact ih (follow_cons_eq_ok.1 h).2

/-- What is no directory has the name that its path leads to. -/
theorem getLast?_of_follow {p q : Place} {parts : List String} {name : String}
    (h : files.follow p parts = .ok q) (hq : files.hasDirectory q = false)
    (hname : (parts.filter fun part => part ≠ "" && part ≠ ".").getLast? = some name)
    (hup : name ≠ "..") : q.getLast? = some name := by
  obtain rfl | ⟨front, part, rfl⟩ := parts.eq_nil_or_concat
  · cases hname
  · rw [List.concat_eq_append] at h hname
    obtain ⟨p', hdirectory, rfl⟩ := follow_concat h
    by_cases hstay : part = "" ∨ part = "."
    · -- A part that stays leads to a directory.
      rw [Place.follow, if_pos hstay, hdirectory] at hq
      cases hq
    · have hkept : [part].filter (fun part => part ≠ "" && part ≠ ".") = [part] := by
        simpa using hstay
      rw [List.filter_append, hkept, List.getLast?_concat] at hname
      obtain rfl := Option.some.inj hname
      rw [Place.follow, if_neg hstay, if_neg hup, List.getLast?_concat]

/-- A file that was located has the name at the end of its path. -/
theorem getLast?_of_locate {q : Place} {name : String} (h : files.locate path = .ok q)
    (hq : files.hasDirectory q = false) (hname : Path.fileName? path = some name) :
    q.getLast? = some name := by
  obtain ⟨hlast, hup⟩ : (Path.parts path).getLast? = some name ∧ name ≠ ".." := by
    unfold Path.fileName? at hname
    split at hname
    · cases hname
    · rename_i last hlast
      split at hname
      · cases hname
      · obtain rfl := Option.some.inj hname
        exact ⟨hlast, ‹_›⟩
  unfold Path.parts at hlast
  unfold locate Path.route? at h
  split at h
  · cases h
  · rename_i p parts hroute
    split at hroute
    · cases hroute
    · rename_i parts' hsplit
      cases hroute
      rw [hsplit] at hlast
      exact getLast?_of_follow h hq hlast hup
    · cases hroute
      exact getLast?_of_follow h hq hlast hup

/-- A file is located where its path leads, unless that is a directory. -/
theorem locateFile_eq_ok {p : Place} : files.locateFile path = .ok p ↔
    files.locate path = .ok p ∧ files.hasDirectory p = false := by
  unfold locateFile
  cases files.locate path with
  | error e => exact ⟨nofun, fun h => nomatch h.1⟩
  | ok q =>
    change (if files.hasDirectory q = true then _ else _) = _ ↔ _
    by_cases hq : files.hasDirectory q = true
    · rw [if_pos hq]
      refine ⟨nofun, fun h => ?_⟩
      obtain rfl := Except.ok.inj h.1
      rw [hq] at h
      cases h.2
    · rw [if_neg hq]
      refine ⟨fun h => ?_, fun h => h.1⟩
      obtain rfl := Except.ok.inj h
      exact ⟨rfl, Bool.eq_false_iff.2 hq⟩

/-- The path of a file with an extension is one that ends as the extension does. -/
theorem getLast?_of_extension {p : Place} {extension : String} (h : files.locateFile path = .ok p)
    (hextension : Path.extension? path = some extension) (hne : extension ≠ "") :
    p.path.toList.getLast? = extension.toList.getLast? := by
  obtain ⟨name, hname, hnonempty, hlast⟩ := Path.exists_fileName_of_extension hextension hne
  obtain ⟨hlocate, hdirectory⟩ := locateFile_eq_ok.1 h
  rw [Place.getLast?_path (getLast?_of_locate hlocate hdirectory hname) hnonempty, hlast]

/-- Which places are directories depends on the directories only. -/
theorem hasDirectory_congr (h : files'.directories = files.directories) (p : Place) :
    files'.hasDirectory p = files.hasDirectory p := by
  rw [hasDirectory, hasDirectory, h]

/-- Where a path leads depends on the directories only. -/
theorem follow_congr (h : files'.directories = files.directories) {p q : Place}
    {parts : List String} :
    files'.follow p parts = .ok q ↔ files.follow p parts = .ok q := by
  induction parts generalizing p with
  | nil => rfl
  | cons part rest ih => rw [follow_cons_eq_ok, follow_cons_eq_ok, hasDirectory_congr h, ih]

/-- Where a file is located depends on the directories only. -/
theorem locateFile_congr (h : files'.directories = files.directories) {p : Place} :
    files'.locateFile path = .ok p ↔ files.locateFile path = .ok p := by
  rw [locateFile_eq_ok, locateFile_eq_ok, hasDirectory_congr h]
  unfold locate
  cases Path.route? path with
  | none => rfl
  | some route =>
    dsimp only
    rw [follow_congr h]

/-- What is read is the content of the file that the path leads to. -/
theorem read_eq_ok {content : List UInt8} : files.read path = .ok content ↔
    ∃ p, files.locateFile path = .ok p ∧ files.contents.get? p.path = some content := by
  unfold read
  cases files.locateFile path with
  | error e => exact ⟨nofun, fun ⟨_, h, _⟩ => nomatch h⟩
  | ok p =>
    dsimp only [bind, Except.bind]
    cases hget : files.contents.get? p.path with
    | none =>
      refine ⟨nofun, fun ⟨q, hq, hfound⟩ => ?_⟩
      obtain rfl := Except.ok.inj hq
      cases hget.symm.trans hfound
    | some found =>
      refine ⟨fun h => ⟨p, rfl, hget.trans (congrArg some (Except.ok.inj h))⟩, ?_⟩
      rintro ⟨q, hq, hfound⟩
      obtain rfl := Except.ok.inj hq
      exact congrArg Except.ok (Option.some.inj (hget.symm.trans hfound))

/-- Writing changes the content of the file that the path leads to, and nothing else. -/
theorem write_eq_ok {content : List UInt8} : files.write path content = .ok files' ↔
    ∃ p, files.locateFile path = .ok p ∧
      files' = { files with contents := files.contents.insert p.path content } := by
  unfold write
  cases files.locateFile path with
  | error e => exact ⟨nofun, fun ⟨_, h, _⟩ => nomatch h⟩
  | ok p =>
    constructor
    · intro h
      exact ⟨p, rfl, (Except.ok.inj h).symm⟩
    · rintro ⟨q, hq, rfl⟩
      obtain rfl := Except.ok.inj hq
      rfl

/-- A file is read as it was written. -/
theorem read_of_write {content : List UInt8} (h : files.write path content = .ok files') :
    files'.read path = .ok content := by
  obtain ⟨p, hlocate, rfl⟩ := write_eq_ok.1 h
  refine read_eq_ok.2 ⟨p, (locateFile_congr (by rfl)).2 hlocate, ?_⟩
  exact Table.get?_insert_self _ _ _

/-- A file with another extension than one that was written is read as before. -/
theorem read_of_write_of_ne {other extension extension' : String} {content bytes : List UInt8}
    (h : files.write path content = .ok files') (hread : files.read other = .ok bytes)
    (hpath : Path.extension? path = some extension)
    (hother : Path.extension? other = some extension')
    (hne : extension ≠ "") (hne' : extension' ≠ "")
    (hlast : extension.toList.getLast? ≠ extension'.toList.getLast?) :
    files'.read other = .ok bytes := by
  obtain ⟨p, hlocate, rfl⟩ := write_eq_ok.1 h
  obtain ⟨q, hlocate', hfound⟩ := read_eq_ok.1 hread
  refine read_eq_ok.2 ⟨q, (locateFile_congr (by rfl)).2 hlocate', ?_⟩
  have hplaces : q.path ≠ p.path := by
    intro heq
    have hend := getLast?_of_extension hlocate' hother hne'
    rw [heq, getLast?_of_extension hlocate hpath hne] at hend
    exact hlast hend
  exact (Table.get?_insert_of_ne _ hplaces _).trans hfound

end Files

end EntityScript
