import SourceIndex.CommandLine.Run
import SourceIndex.Disk.Edit
/-!
# The program

Reads the workspace, its settings file and its cache directory, runs the command on what was read,
writes the cache directory back and prints. There is no connection to any server and no grammar
here, so commands that need one end with the error that an unreachable server gives.
-/

namespace SourceIndex.CommandLine

/-- Read a file or a directory with all that is in it. Links are left out. -/
partial def readNode (path : String) : IO (Option Node) := do
  let place := (← IO.currentDir) / path
  if ← place.isDir then
    let mut entries := []
    for entry in ← place.readDir do
      let kind := (← entry.path.symlinkMetadata).type
      if kind == .dir || kind == .file then
        if let some node ← readNode entry.path.toString then
          entries := (entry.fileName, node) :: entries
    return some (.dir entries.reverse)
  else if ← place.pathExists then
    return some (.file (← IO.FS.readBinFile place))
  else return none

/-- The environment variables that count. -/
def variableNames : List String :=
  ["OPENAI_API_KEY", "CODEINDEX_OPENAI_COMPATIBLE_API_KEY", "QDRANT_URL", "QDRANT_API_KEY",
   "XDG_CACHE_HOME", "HOME", "TMPDIR"]

/-- The home directory that an account table gives for a user's number: a row has seven fields
between colons, the third is the number and the sixth the directory. -/
def homeInTable (table user : String) : Option String :=
  (table.splitOn "\n").findSome? fun row =>
    match row.splitOn ":" with
    | _ :: _ :: number :: _ :: _ :: home :: _ => if number == user then some home else none
    | _ => none

/-- The number of the user who runs a process, from the text that tells the process's state. -/
def userOf (state : String) : Option String :=
  (state.splitOn "\n").findSome? fun line =>
    match (line.splitOn "\t") with
    | "Uid:" :: user :: _ => some user
    | _ => none

/-- The home directory of the account that runs the program, if the system tells it. -/
def accountHome : IO (Option String) := do
  try
    let table ← IO.FS.readFile "/etc/passwd"
    let state ← IO.FS.readFile "/proc/self/status"
    return (userOf state).bind (homeInTable table)
  catch _ => return none

/-- Everything that a run with these arguments may read. -/
def pathsFor (workingDir cacheDir : String) (a : Arguments) : List String :=
  (a.workspace :: a.settingsFile.toList ++ [cacheDir]).map (Path.within workingDir)

end SourceIndex.CommandLine

open SourceIndex SourceIndex.CommandLine in
def main (arguments : List String) : IO UInt32 := do
  let workingDir := (← IO.currentDir).toString
  let mut known := []
  for name in variableNames do
    if let some value ← IO.getEnv name then known := (name, value) :: known
  let found := known
  let environment (name : String) : Option String := (found.find? (·.1 == name)).map (·.2)
  let around : Surroundings :=
    { workingDir, environment, accountHome := ← accountHome
      network := .down, trees := fun _ _ => none }
  let mut before : Disk := {}
  let mut written := workingDir
  if let some (.run a) := Request.parse? arguments then
    let cacheDir := a.cacheDir.getD (defaultCacheDir around)
    written := Path.within workingDir cacheDir
    for path in pathsFor workingDir cacheDir a do
      if let some node ← readNode path then before := before.mount path node
  let (outcome, after) := run around before arguments
  for (file, bytes) in Disk.changedFiles before after written do
    if let dir :: _ := Path.ancestors file then IO.FS.createDirAll dir
    IO.FS.writeBinFile file bytes
  IO.print outcome.stdout
  IO.eprint outcome.stderr
  return UInt32.ofNat outcome.code
