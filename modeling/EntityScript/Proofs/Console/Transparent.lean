import EntityScript.Console
import EntityScript.Proofs.Baked.Faithful
import EntityScript.Proofs.Bytecode.Compiled
import EntityScript.Proofs.Files
import EntityScript.Proofs.Machine.Reissued

/-!
# Baking cannot be told on the command line

A baked script is used like the file it was baked from: with the same requests the program prints
the same, complains the same and exits the same. Only the path of a script tells a baked one from
its source, and nothing that is asked of a script on the command line depends on its path.
-/

namespace EntityScript.Console

/-- What the arguments may ask of a script, apart from baking it. -/
inductive Request where
  /-- To list the code of its handlers, by the long name of the flag or the short one. -/
  | code (long : Bool)
  /-- To begin in a state. -/
  | state (name : String)
  /-- To handle an event. -/
  | dispatch (event : String)
  deriving DecidableEq, Repr

namespace Request

/-- The arguments that ask for it. -/
def words : Request → List String
  | code long => [if long then "--bytecode" else "--bc"]
  | state name => ["--state", name]
  | dispatch event => ["--dispatch", event]

/-- What the options are with it. A value must not look like a flag. -/
def add (o : Options) : Request → Except UsageError Options
  | code _ => .ok { o with code := true }
  | state name =>
    if isFlag name then .error (.missingValue "--state") else .ok { o with state := some name }
  | dispatch event =>
    if isFlag event then .error (.missingValue "--dispatch")
    else .ok { o with events := o.events.push event }

/-- The words of a request on a command line add the request to the options. -/
theorem read_words (r : Request) (o : Options) (rest : List String) :
    o.read (r.words ++ rest) = (r.add o).bind fun o => o.read rest := by
  cases r with
  | code long =>
    cases long <;> cases rest <;> rfl
  | state name =>
    have hread : o.read ("--state" :: name :: rest) = if isFlag name then
        .error (.missingValue "--state")
      else ({ o with state := some name } : Options).read rest := rfl
    dsimp only [words, add]
    rw [List.cons_append, List.singleton_append, hread]
    split <;> rfl
  | dispatch event =>
    have hread : o.read ("--dispatch" :: event :: rest) = if isFlag event then
        .error (.missingValue "--dispatch")
      else ({ o with events := o.events.push event } : Options).read rest := rfl
    dsimp only [words, add]
    rw [List.cons_append, List.singleton_append, hread]
    split <;> rfl

/-- Requests do not care about the file they are made of. -/
theorem add_file (r : Request) (o : Options) (file : Option String) :
    r.add { o with file } = (r.add o).map fun o => { o with file } := by
  cases r with
  | code long => rfl
  | state name =>
    dsimp only [add]
    split <;> rfl
  | dispatch event =>
    dsimp only [add]
    split <;> rfl

/-- What no request changes. -/
theorem add_eq_ok {r : Request} {o o' : Options} (h : r.add o = .ok o') : o'.file = o.file ∧
    o'.tokens = o.tokens ∧ o'.bake = o.bake ∧ o'.help = o.help := by
  cases r with
  | code long =>
    cases h
    exact ⟨rfl, rfl, rfl, rfl⟩
  | state name =>
    dsimp only [add] at h
    split at h <;> cases h
    exact ⟨rfl, rfl, rfl, rfl⟩
  | dispatch event =>
    dsimp only [add] at h
    split at h <;> cases h
    exact ⟨rfl, rfl, rfl, rfl⟩

end Request

/-- The arguments that ask something of a file. -/
def commandLine (before : List Request) (file : String) (after : List Request) : List String :=
  before.flatMap Request.words ++ file :: after.flatMap Request.words

/-- What the options are with some requests. -/
def addAll (o : Options) (requests : List Request) : Except UsageError Options :=
  requests.foldlM Request.add o

/-- Requests are added from the first one on. -/
theorem addAll_cons (o : Options) (r : Request) (requests : List Request) :
    addAll o (r :: requests) = (r.add o).bind fun o => addAll o requests := rfl

/-- The words of several requests add one after another. -/
theorem read_requests (requests : List Request) (o : Options) (rest : List String) :
    o.read (requests.flatMap Request.words ++ rest)
      = (addAll o requests).bind fun o => o.read rest := by
  induction requests generalizing o with
  | nil => rfl
  | cons r requests ih =>
    rw [List.flatMap_cons, List.append_assoc, Request.read_words, addAll_cons]
    cases r.add o with
    | error e => rfl
    | ok o => exact ih o

/-- Requests may be added in two parts. -/
theorem addAll_append (o : Options) (before after : List Request) :
    addAll o (before ++ after) = (addAll o before).bind fun o => addAll o after := by
  unfold addAll
  rw [List.foldlM_append]
  rfl

/-- Requests are added in the same way whatever file is named. -/
theorem addAll_file (requests : List Request) (o : Options) (file : Option String) :
    addAll { o with file } requests = (addAll o requests).map fun o => { o with file } := by
  induction requests generalizing o with
  | nil => rfl
  | cons r requests ih =>
    rw [addAll_cons, addAll_cons, Request.add_file]
    cases r.add o with
    | error e => rfl
    | ok o => exact ih o

/-- Requests leave the file, the listing of tokens, the baking and the help as they are. -/
theorem addAll_eq_ok {requests : List Request} {o o' : Options} (h : addAll o requests = .ok o') :
    o'.file = o.file ∧ o'.tokens = o.tokens ∧ o'.bake = o.bake ∧ o'.help = o.help := by
  induction requests generalizing o with
  | nil =>
    cases h
    exact ⟨rfl, rfl, rfl, rfl⟩
  | cons r requests ih =>
    rw [addAll_cons] at h
    cases hadd : r.add o with
    | error e =>
      rw [hadd] at h
      cases h
    | ok o₁ =>
      rw [hadd] at h
      obtain ⟨hfile, htokens, hbake, hhelp⟩ := ih h
      obtain ⟨hfile₁, htokens₁, hbake₁, hhelp₁⟩ := Request.add_eq_ok hadd
      exact ⟨hfile.trans hfile₁, htokens.trans htokens₁, hbake.trans hbake₁, hhelp.trans hhelp₁⟩

/-- Only what is meant as a flag is one. -/
theorem isFlag_of_takesValue {arg : String} (h : takesValue arg = true) : isFlag arg = true := by
  unfold takesValue at h
  simp only [Bool.or_eq_true, beq_iff_eq] at h
  obtain (rfl | rfl) | rfl := h <;> rfl

/-- A word that is no flag names the file if none is named so far. -/
theorem withArgument_file {file : String} (h : isFlag file = false) {o : Options}
    (ho : o.file = none) : o.withArgument file = .ok { o with file := some file } := by
  unfold Options.withArgument
  split <;> first | cases h | skip
  rw [h, ho]
  rfl

/-- The file is read from the command line in front of whatever else is there. -/
theorem read_file {file : String} (h : isFlag file = false) {o : Options} (ho : o.file = none)
    (rest : List String) :
    o.read (file :: rest) = ({ o with file := some file } : Options).read rest := by
  have htakes : ¬ takesValue file = true := fun htakes => by
    rw [isFlag_of_takesValue htakes] at h
    cases h
  cases rest with
  | nil =>
    change (if takesValue file = true then _ else o.withArgument file) = _
    rw [if_neg htakes, withArgument_file h ho]
    rfl
  | cons next rest => rw [Options.read, if_neg htakes, withArgument_file h ho]

/-- Of requests for a file, the options say the same as of requests for another, apart from the
file. -/
theorem read_commandLine {file : String} (h : isFlag file = false) (before after : List Request) :
    ({} : Options).read (commandLine before file after)
      = (addAll {} (before ++ after)).map fun o => { o with file := some file } := by
  rw [commandLine, read_requests, addAll_append]
  cases hbefore : addAll {} before with
  | error e => rfl
  | ok o =>
    have hread := read_requests after { o with file := some file } []
    rw [List.append_nil] at hread
    change o.read (file :: after.flatMap Request.words) = (addAll o after).map _
    rw [read_file h (addAll_eq_ok hbefore).1, hread, addAll_file]
    cases addAll o after <;> rfl

/-- An edition of the same script under another path. -/
def retitle (path : String) (d : Edition) : Edition :=
  { d with script := { d.script with path } }

/-- Another path is a reissue of a definition. -/
theorem reissue_retitle (path : String) : Edition.Reissue (retitle path) :=
  ⟨fun _ => rfl, fun _ => rfl, fun _ => rfl⟩

/-- The entity of a host, with its script under another path. -/
def SoleHost.retitle (path : String) (host : SoleHost) : SoleHost :=
  { host with context := host.context.map (Context.reissue (Console.retitle path)) }

/-- A host with one definition does not see under which path that was compiled. -/
theorem SoleHost.reissues (path : String) :
    Host.Reissues SoleHost (Console.retitle path) (SoleHost.retitle path) where
  fire _ _ _ := rfl
  resolve _ _ := rfl
  take host id := by
    have htake (host : SoleHost) : Host.take host id
        = if id = entity then (host.context, { host with context := none }) else (none, host) := rfl
    rw [htake, htake]
    split <;> rfl
  giveBack host id c := by
    have hgive (host : SoleHost) (c : Context) : Host.giveBack host id c
        = if id = entity then { host with context := some c } else host := rfl
    rw [hgive, hgive]
    split <;> rfl
  hasScript _ _ := rfl

/-- What is shown of events that were handled. -/
def showDrained (t : Transcript) (drained : Drained SoleHost) : Exit :=
  let t := t.print drained.host.printed
  let t := drained.faults.foldl (fun t report => t.complain report.message) t
  let t := match drained.host.context with
    | some c => t.print (contextPage c)
    | none => t
  t.exit (if drained.faults.isEmpty then 0 else 1)

/-- The events that the options ask for, in a queue. -/
def Options.queue (o : Options) : EventQueue :=
  o.events.foldl (fun q event => q.push entity event .empty) EventQueue.empty

/-- Events are handled from the initial state, or from the one that was asked for. -/
theorem handleEvents_eq (t : Transcript) (d : Edition) (o : Options) : handleEvents t d o =
    match Context.new d (o.state.getD d.script.initialState) with
    | .error fault => (t.complain ("Error: " ++ fault.message)).exit 1
    | .ok c => showDrained t
      (o.queue.drain (Machine.new {}) ⟨d.script.name, some (c.withOwner entity), ""⟩).1 := rfl

/-- What is shown of drained events does not depend on the path of the definition. -/
theorem showDrained_retitle (t : Transcript) (drained : Drained SoleHost) (path : String) :
    showDrained t (drained.rehost (SoleHost.retitle path)) = showDrained t drained := by
  unfold showDrained Drained.rehost SoleHost.retitle
  cases drained.host.context <;> rfl

/-- Events are handled the same under any path. -/
theorem handleEvents_retitle (t : Transcript) (d : Edition) (o : Options) (path : String) :
    handleEvents t (retitle path d) o = handleEvents t d o := by
  have hnew := (reissue_retitle path).new d (o.state.getD d.script.initialState)
  have hstate : (retitle path d).script.initialState = d.script.initialState := rfl
  rw [handleEvents_eq, handleEvents_eq, hstate, hnew]
  cases Context.new d (o.state.getD d.script.initialState) with
  | error fault => rfl
  | ok c =>
    have hdrain := EventQueue.drain_reissue (reissue_retitle path) (SoleHost.reissues path)
      o.queue (Machine.new {}) ⟨d.script.name, some (c.withOwner entity), ""⟩
    have hshown := showDrained_retitle t (o.queue.drain (Machine.new {})
      ⟨d.script.name, some (c.withOwner entity), ""⟩).1 path
    rw [← hdrain] at hshown
    exact hshown

/-- A script that is not baked is listed if that was asked for, and then given its events or summed
up. -/
theorem useScript_eq (t : Transcript) (d : Edition) {o : Options} (ho : o.bake = none) :
    useScript t d o =
      let t := if o.code then t.print (scriptPages d.script) else t
      if !o.events.isEmpty then .ok (handleEvents t d o)
      else if o.code then .ok (t.exit 0)
      else .ok ((t.print (summary d.script)).exit 0) := by
  unfold useScript
  rw [ho]
  cases o.code <;> rfl

/-- Without baking, a script is used the same under any path. -/
theorem useScript_retitle (t : Transcript) (d : Edition) {o : Options} (ho : o.bake = none)
    (path : String) : useScript t (retitle path d) o = useScript t d o := by
  rw [useScript_eq t _ ho, useScript_eq t _ ho]
  dsimp only
  rw [handleEvents_retitle]
  rfl

/-- What becomes of the script of a file that is used. -/
def useBuilt (t : Transcript) (o : Options) : Except LoadError Script → Exit
  | .error e => (t.complain e.message).exit 1
  | .ok s =>
    match useScript t ⟨0, s⟩ o with
    | .ok done => done
    | .error failed => failed

/-- A file with the extension of sources or of baked scripts is built and used. -/
theorem useFile_eq (t : Transcript) {o : Options} {file : String} (ho : o.tokens = false)
    (hfile : Path.extension? file = some sourceExtension ∨
      Path.extension? file = some bakedExtension) :
    useFile t o file = useBuilt t o (Origin.file.build t.files file) := by
  have hload : (Library.empty.load t.files file).1
      = (Origin.file.build t.files file).map fun s => ⟨0, s⟩ := by
    have hempty : Library.empty.editions.get? file = none := rfl
    unfold Library.load Library.insert
    rw [hempty]
    dsimp only
    cases Origin.file.build t.files file <;> rfl
  have hkind : ¬ (Path.extension? file ≠ some sourceExtension ∧
      Path.extension? file ≠ some bakedExtension) := fun h => hfile.elim h.1 h.2
  unfold useFile
  dsimp only
  rw [if_neg hkind, ho, hload]
  cases Origin.file.build t.files file <;> rfl

/-- Two files whose scripts are the same up to their paths are used the same. -/
theorem run_commandLine_congr {files : Files} {file other : String} {s : Script}
    (hflag : isFlag file = false) (hflag' : isFlag other = false)
    (hfile : Path.extension? file = some sourceExtension ∨
      Path.extension? file = some bakedExtension)
    (hother : Path.extension? other = some sourceExtension ∨
      Path.extension? other = some bakedExtension)
    (hbuild : Origin.file.build files file = .ok s)
    (hbuild' : Origin.file.build files other = .ok { s with path := other })
    (before after : List Request) :
    run files (commandLine before other after) = run files (commandLine before file after) := by
  unfold run
  dsimp only
  rw [read_commandLine hflag, read_commandLine hflag']
  cases hadd : addAll {} (before ++ after) with
  | error e => rfl
  | ok o =>
    obtain ⟨-, htokens, hbake, hhelp⟩ := addAll_eq_ok hadd
    change (if o.help = true then _ else useFile _ _ other)
      = if o.help = true then _ else useFile _ _ file
    rw [hhelp, if_neg Bool.false_ne_true, if_neg Bool.false_ne_true,
      useFile_eq (o := { o with file := some other }) _ htokens hother,
      useFile_eq (o := { o with file := some file }) _ htokens hfile]
    change useBuilt _ _ (Origin.file.build files other)
      = useBuilt _ _ (Origin.file.build files file)
    rw [hbuild, hbuild', useBuilt, useBuilt]
    exact congrArg (fun used : Except Exit Exit => match used with
        | .ok done => done
        | .error failed => failed)
      (useScript_retitle _ ⟨0, s⟩ (o := { o with file := some file }) hbake other)

/-- What is asked of the program to bake a file. -/
def bakeLine (file out : String) : List String := [file, "--bake", out]

/-- The flags that the program knows have no extension. -/
theorem withArgument_flag {file : String} (hfile : Path.extension? file = some sourceExtension)
    (h : isFlag file = true) (o : Options) :
    o.withArgument file = .error (.unknownFlag file) := by
  unfold Options.withArgument
  split
  any_goals
    exfalso
    revert hfile
    decide +kernel
  rw [if_pos h]

/-- Neither name on a command line that bakes is a flag, if the line can be read. -/
theorem not_isFlag_of_bakeLine {file out : String}
    (hfile : Path.extension? file = some sourceExtension) {o : Options}
    (h : ({} : Options).read (bakeLine file out) = .ok o) :
    isFlag file = false ∧ isFlag out = false := by
  have hflag : isFlag file = false := by
    rw [← Bool.not_eq_true]
    intro hflag
    unfold bakeLine Options.read at h
    split at h
    · cases h
    · rw [withArgument_flag hfile hflag] at h
      cases h
  refine ⟨hflag, ?_⟩
  rw [← Bool.not_eq_true]
  intro hout
  rw [bakeLine, read_file hflag rfl] at h
  change (if isFlag out = true then Except.error (UsageError.missingValue "--bake") else _) = _ at h
  rw [if_pos hout] at h
  cases h

/-- A command line that bakes is read as the file and where its script goes. -/
theorem read_bakeLine {file out : String} (hfile : isFlag file = false)
    (hout : isFlag out = false) :
    ({} : Options).read (bakeLine file out) = .ok { file := some file, bake := some out } := by
  rw [bakeLine, read_file hfile rfl]
  change (if isFlag out = true then Except.error (UsageError.missingValue "--bake") else _) = _
  rw [hout, if_neg Bool.false_ne_true]
  rfl

/-- Where only baking is asked for, the script is baked and nothing else is done with it. -/
theorem useScript_bake (t : Transcript) (d : Edition) (file : Option String) (out : String) :
    useScript t d { file, bake := some out }
      = (bakeTo t d.script out).map fun t => t.exit 0 := by
  change (bakeTo t d.script out).bind (fun t => .ok (t.exit 0)) = _
  cases bakeTo t d.script out <;> rfl

/-- To bake a file with success is to write the script that was made of it. -/
theorem write_of_bakeLine {files : Files} {file out : String}
    (hfile : Path.extension? file = some sourceExtension)
    (h : (run files (bakeLine file out)).code = 0) :
    isFlag file = false ∧ isFlag out = false ∧ ∃ s, Origin.file.build files file = .ok s ∧
      files.write out s.bake = .ok (run files (bakeLine file out)).files := by
  cases hread : ({} : Options).read (bakeLine file out) with
  | error e =>
    unfold run at h
    rw [hread] at h
    cases h
  | ok o =>
    obtain ⟨hflag, hout⟩ := not_isFlag_of_bakeLine hfile hread
    obtain rfl := Except.ok.inj ((read_bakeLine hflag hout).symm.trans hread)
    have hrun : run files (bakeLine file out) = useBuilt (.start files)
        { file := some file, bake := some out } (Origin.file.build files file) := by
      unfold run
      dsimp only
      rw [hread]
      exact useFile_eq _ rfl (.inl hfile)
    rw [hrun] at h ⊢
    cases hbuild : Origin.file.build files file with
    | error e =>
      rw [hbuild] at h
      cases h
    | ok s =>
      refine ⟨hflag, hout, s, rfl, ?_⟩
      rw [hbuild, useBuilt, useScript_bake] at h
      rw [useBuilt, useScript_bake]
      unfold bakeTo at h ⊢
      dsimp only [Transcript.start] at h ⊢
      cases hwrite : files.write out s.bake with
      | error e =>
        rw [hwrite] at h
        cases h
      | ok files' => rfl

/-- What is baked is built as what it was baked from, apart from its path. -/
theorem build_of_write {files files' : Files} {out : String} {s : Script} (hs : s.Countable)
    (hout : Path.extension? out = some bakedExtension) (h : files.write out s.bake = .ok files') :
    Origin.file.build files' out = .ok { s with path := out } := by
  have hunbake : Script.unbake s.bake = .ok s := by
    have htakes : Baked.Takes Baked.takeScript s.bake s := .script hs
    have hwhole := htakes.whole []
    rw [List.append_nil] at hwhole
    rw [Script.unbake, hwhole]
    rfl
  unfold Origin.build
  rw [if_pos hout, Files.read_of_write h]
  change Origin.decode out s.bake = _
  rw [Origin.decode, hunbake]

/-- A source is built as before when something was baked. -/
theorem build_of_write_of_source {files files' : Files} {file out : String} {s : Script}
    {bytes : List UInt8} (hfile : Path.extension? file = some sourceExtension)
    (hout : Path.extension? out = some bakedExtension) (h : files.write out bytes = .ok files')
    (hbuild : Origin.file.build files file = .ok s) : Origin.file.build files' file = .ok s := by
  have hsource : Path.extension? file ≠ some bakedExtension := by
    rw [hfile]
    decide
  unfold Origin.build Files.readText at hbuild ⊢
  rw [if_neg hsource] at hbuild ⊢
  cases hread : files.read file with
  | error e =>
    rw [hread] at hbuild
    cases hbuild
  | ok content =>
    rw [hread] at hbuild
    rw [Files.read_of_write_of_ne h hread hout hfile (by decide) (by decide) (by decide)]
    exact hbuild

/-- Whatever is asked of a script, a baked one answers as its source: with the same text, the same
complaints and the same exit. -/
theorem baking_transparent {files : Files} {file out : String}
    (hfile : Path.extension? file = some sourceExtension)
    (hout : Path.extension? out = some bakedExtension)
    (hbaked : (run files (bakeLine file out)).code = 0)
    (hcount : ∀ s, Origin.file.build files file = .ok s → s.Countable)
    (before after : List Request) :
    run (run files (bakeLine file out)).files (commandLine before out after)
      = run (run files (bakeLine file out)).files (commandLine before file after) := by
  obtain ⟨hflag, hflag', s, hbuild, hwrite⟩ := write_of_bakeLine hfile hbaked
  exact run_commandLine_congr hflag hflag' (.inl hfile) (.inr hout)
    (build_of_write_of_source hfile hout hwrite hbuild)
    (build_of_write (hcount s hbuild) hout hwrite) before after

/-- A lamp in a file. -/
def lampFiles : Files := ⟨.ofList [("lamp.zephyr", lampSource.toUTF8.data.toList)], .empty⟩

/-- A lamp that was baked is pressed as the one in its source is. -/
theorem baking_transparent_lamp :
    let baked := (run lampFiles (bakeLine "lamp.zephyr" "lamp.zbc")).files
    (run lampFiles (bakeLine "lamp.zephyr" "lamp.zbc")).code = 0 ∧
    run baked ["--bc", "lamp.zbc", "--state", "off", "--dispatch", "press"]
      = run baked ["--bc", "lamp.zephyr", "--state", "off", "--dispatch", "press"] := by
  have hbaked : (run lampFiles (bakeLine "lamp.zephyr" "lamp.zbc")).code = 0 := by decide +kernel
  refine ⟨hbaked, ?_⟩
  have hcount : ∀ s ∈ (Origin.file.build lampFiles "lamp.zephyr").toOption, s.Countable := by
    decide +kernel
  refine @baking_transparent lampFiles "lamp.zephyr" "lamp.zbc" (by decide +kernel)
    (by decide +kernel) hbaked (fun s hs => hcount s ?_) [.code false]
    [.state "off", .dispatch "press"]
  rw [hs]
  rfl

end EntityScript.Console
