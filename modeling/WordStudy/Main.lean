import WordStudy.CommandLine.Run

/-!
# The program

The files that the command line names are looked up, the command is run on them, and what it
changed is written.
-/

namespace WordStudy

/-- What lies at a path of the file system. Only folders can be opened and not be read. -/
def lookUp (path : String) : IO (Option FileEntry) := do
  try
    let content := (← IO.FS.readBinFile path).toList
    return some ((TableFile.decode content).elim (.bytes content) .table)
  catch
    | .inappropriateType .. => return some .folder
    | _ => return none

/-- The files as they are found, with one more path and the folders that it leads through. -/
def addPath (files : Files) (path : String) : IO Files :=
  (Files.parents path ++ [Files.key path]).foldlM
    (fun files key => do
      -- Below what is no folder there is nothing to look up.
      match files.find? key with
      | .error .notDirectory => return files
      | _ =>
        match ← lookUp key with
        | some entry => return files.put key entry
        | none => return files)
    files

/-- Write what lies at a path now. -/
def writeEntry (path : String) (entry : FileEntry) : IO Unit :=
  match entry.content? with
  | some content => IO.FS.writeBinFile path (ByteArray.mk content.toArray)
  | none => IO.FS.createDirAll path

/-- Remove everything that is gone, and write everything that is not as it was before. -/
def writeChanges (before after : Files) : IO Unit := do
  before.entries.toList.forM fun (path, _) =>
    if after.entries.contains path then pure () else IO.FS.removeFile path
  after.entries.toList.forM fun (path, entry) =>
    if (before.entries[path]?).map (·.content?) = some entry.content? then pure ()
    else writeEntry path entry

/-- Where the program runs. -/
def surroundings : IO Surroundings := do
  let given ← IO.getEnv "XDG_DATA_HOME"
  let home ← IO.getEnv "HOME"
  let term ← IO.getEnv "TERM"
  return {
    dataFolder := (given.filter Files.isAbsolute).or (home.map (· ++ "/.local/share"))
    coloured := term.any (· != "dumb") && (← IO.getEnv "NO_COLOR").isNone }

end WordStudy

open WordStudy

/-- Run the program on the file system. -/
def main (arguments : List String) : IO UInt32 := do
  let place ← surroundings
  let before ← ((Reply.ofArguments arguments).paths place).foldlM addPath Files.empty
  let result := runProgram place before arguments
  writeChanges before result.files
  (← IO.getStdout).putStr result.output
  (← IO.getStderr).putStr result.errors
  return UInt32.ofNat result.code
