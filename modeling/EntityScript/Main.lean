import EntityScript.Console

/-!
# The program

Runs the command line on the files that its arguments name.
-/

namespace EntityScript.Program

/-- Whether something is at a path. -/
def isThere (path : String) : IO Bool := do
  try
    let _ ← IO.FS.realPath path
    return true
  catch _ => return false

/-- Adds a directory if it is there. -/
def gatherDirectory (files : Files) (p : Place) : IO Files := do
  if ← isThere (p.path ++ "/.") then return files.addDirectory p else return files

/-- Adds the file or directory that an argument may name, and the directories on the way. -/
def gather (files : Files) (arg : String) : IO Files := do
  let files ← (Files.passed (arg ++ "/")).foldlM gatherDirectory files
  try
    let content ← IO.FS.readBinFile arg
    return (files.write arg content.data.toList).toOption.getD files
  catch _ => return files

/-- Writes the files that are not as they were. -/
def writeBack (before after : Files) : IO Unit := do
  for (path, content) in after.contents.entries do
    if before.contents.get? path ≠ some content then
      IO.FS.writeBinFile path ⟨content.toArray⟩

end EntityScript.Program

open EntityScript in
/-- Runs the command line. -/
def main (args : List String) : IO UInt32 := do
  let files ← args.foldlM Program.gather Files.empty
  let done := Console.run files args
  Program.writeBack files done.files
  (← IO.getStdout).putStr done.output
  (← IO.getStderr).putStr done.errors
  return UInt32.ofNat done.code
