import SourceIndex.CommandLine.Arguments
import SourceIndex.CommandLine.Report
import SourceIndex.Index.Registry
import SourceIndex.Scenario.World
import SourceIndex.Settings.Loading
/-!
# Running a command

`run` reads the arguments, opens the workspace, loads its settings and carries the command out. It ends
with an exit code and with what was printed: 0 for success, 1 for a failure, 2 for arguments that have
no meaning.
-/

namespace SourceIndex.CommandLine

/-- What a run finds around it. -/
structure Surroundings where
  workingDir : String
  environment : String → Option String
  /-- The home directory of the user's account. -/
  accountHome : Option String := none
  network : Network
  trees : Chunk.TreeSource

/-- How a run ended. -/
structure Outcome where
  code : Nat := 0
  stdout : String := ""
  stderr : String := ""

def versionText : String := "codeindex 0.1.0\n"

def helpText : String :=
  "Usage: codeindex [OPTIONS] <COMMAND>\n\nCommands: index, watch, search, status, clear\n"

/-- Where caches live unless it is said: below the directory that the environment names for caches, if it
is absolute, or else below the home directory. -/
def defaultCacheDir (around : Surroundings) : String :=
  let home := ((around.environment "HOME").filter fun dir => !dir.isEmpty).or around.accountHome
  let base := match (around.environment "XDG_CACHE_HOME").filter Path.isAbsolute, home with
    | some dir, _ => dir
    | none, some home => Path.join home ".cache"
    | none, none => (around.environment "TMPDIR").getD "/tmp"
  Path.join base "codeindex"

/-- A workspace that was opened. -/
structure Workspace where
  manager : Manager
  settingsFile : String
  settings : Settings
  /-- The cache directory as it was given. -/
  cacheDir : String

/-- Open a workspace and load its settings. -/
def openWorkspace (around : Surroundings) (disk : Disk) (a : Arguments) :
    Except Failure Workspace := do
  let cacheDir := a.cacheDir.getD (defaultCacheDir around)
  let registry : Registry :=
    { cacheDir := Path.within around.workingDir cacheDir
      workingDir := around.workingDir
      trees := around.trees }
  let (manager, _) ← (registry.getOrCreate disk a.workspace).mapError
    (Failure.during s!"cannot open workspace {a.workspace}")
  let settingsFile := a.settingsFile.getD (Path.join manager.root Settings.fileName)
  let settings ← (Settings.load disk (Path.within around.workingDir settingsFile)
    around.environment).mapError (Failure.during s!"failed to load {settingsFile}")
  return { manager, settingsFile, settings, cacheDir }

/-- The status of a workspace. -/
def statusOf (w : Workspace) (disk : Disk) : StatusReport where
  workspace := w.manager.root
  settingsFile := w.settingsFile
  settings := w.settings
  cacheFile := cacheFile w.manager.root w.cacheDir
  cachedFiles := (HashCache.readHashes (cacheFile w.manager.root w.manager.cacheDir) disk).length

/-- Carry a command out once the services are there; answers what is printed. -/
def carryOut (m : Manager) (command : Command) : Procedure (Except IndexError String) := do
  match command with
  | .status => return .ok ""
  | .clear =>
    match ← m.clear with
    | .error e => return .error e
    | .ok () => return .ok s!"Cleared index data for {m.root}\n"
  | .index =>
    match ← m.start with
    | .error e => return .error e
    | .ok () =>
      m.stop
      return .ok s!"Index of {m.root} is up to date\n"
  | .watch =>
    match ← m.start with
    | .error e => return .error e
    | .ok () =>
      m.stop
      return .ok ""
  | .search query directory json =>
    match ← m.start with
    | .error e => return .error e
    | .ok () =>
      match ← m.search query directory with
      | .error e => return .error e
      | .ok results =>
        m.stop
        return .ok (resultsText json results)

/-- Build the services, carry a command out, and give the services up. -/
def operate (network : Network) (w : Workspace) (command : Command) :
    Procedure (Except Failure String) := do
  let (built, m) ← w.manager.configure network w.settings
  match built with
  | .error e => return .error (.during "failed to set up the code index" e)
  | .ok () =>
    if !m.isConfigured then
      let message := Manager.idleMessage w.settings
      return .error { message := s!"{message} Configure an embedder in {w.settingsFile}" }
    let result ← carryOut m command
    let _ ← m.dispose
    return result.mapError Failure.ofError

/-- What is told while services are built. -/
def notice (network : Network) (w : Workspace) : String :=
  if w.settings.enabled && w.settings.isConfigured then
    Providers.notice network w.manager.root w.settings
  else ""

/-- The world that a workspace's services begin in. -/
def worldAround (around : Surroundings) (disk : Disk) (m : Manager) : Scenario.World where
  disk := disk
  cache := HashCache.new m.root m.cacheDir 0
  services := { root := m.root, rules := { root := m.root }, trees := around.trees }

/-- Run a command. -/
def runCommand (around : Surroundings) (disk : Disk) (a : Arguments) : Outcome × Disk :=
  match openWorkspace around disk a with
  | .error f => ({ code := 1, stderr := f.text }, disk)
  | .ok w =>
    if a.command = .status then ({ stdout := (statusOf w disk).text }, disk)
    else
      let told := notice around.network w
      let (result, world) :=
        (worldAround around disk w.manager).runWatched (operate around.network w a.command)
      match result with
      | .ok text => ({ stdout := told ++ text }, world.disk)
      | .error f => ({ code := 1, stdout := told, stderr := f.text }, world.disk)

/-- Run the program. -/
def run (around : Surroundings) (disk : Disk) (arguments : List String) : Outcome × Disk :=
  match Request.parse? arguments with
  | some (.run a) => runCommand around disk a
  | some .version => ({ stdout := versionText }, disk)
  | some .help => ({ stdout := helpText }, disk)
  | none => ({ code := 2 }, disk)

end SourceIndex.CommandLine
