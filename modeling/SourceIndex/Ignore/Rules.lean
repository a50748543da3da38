import SourceIndex.Disk.Basic
import SourceIndex.Ignore.RuleFile
/-!
# Which files take part

`IgnoreRules.accepts` answers the question for one path: its language must be known, and neither the
fixed list of directories, nor the patterns of the settings, nor the ignore files at the root of the
workspace may leave it out.
-/

namespace SourceIndex

/-- The rules of a workspace. -/
structure IgnoreRules where
  root : String
  /-- Rules of the two ignore files at the root, in order. -/
  rules : List IgnoreRule := []
  /-- Patterns of the settings. -/
  patterns : List Glob := []

namespace IgnoreRules

/-- The ignore file of this tool. -/
def ownFileName : String := ".codeindexignore"

/-- Directories of dependencies, version control and build results. -/
def deniedNames : List String :=
  [".git", ".hg", ".svn", "node_modules", "target", "dist", "build", "out", "vendor",
   "__pycache__", ".venv", "venv", ".next", ".nuxt", "coverage", ".cache", "Pods"]

/-- Whether no path may go through a component: hidden names and the denied ones. -/
def isDenied : Path.Component → Bool
  | .name text => (text.toList.head? == some '.' && text != ".") || deniedNames.contains text
  | _ => false

/-- The rules of the ignore file at a path; none if there is no such file. -/
def fileRules (disk : Disk) (path : String) : List IgnoreRule :=
  match disk.read path with
  | .ok bytes => IgnoreFile.rules bytes
  | .error _ => []

/-- Read the rules of a workspace. A malformed pattern of the settings is an error, a malformed line
of an ignore file is not. -/
def load (disk : Disk) (root : String) (patterns : List String) : Except IndexError IgnoreRules :=
  match patterns.mapM (Glob.parse? {}) with
  | none => .error (.pattern "malformed pattern")
  | some patterns =>
    .ok
      { root
        rules := fileRules disk (Path.join root ".gitignore") ++
          fileRules disk (Path.join root ownFileName)
        patterns }

/-- A path without a `./` in front. -/
def withoutDot (path : String) : String :=
  match path.toList with
  | '.' :: '/' :: r => String.ofList r
  | _ => path

/-- Whether a path, absolute or relative to the workspace, is left out. What lies outside of the
workspace always is. -/
def isIgnored (r : IgnoreRules) (path : String) : Bool :=
  let relative := (Path.relativeTo? r.root path).getD path
  Path.isAbsolute relative ||
    (Path.components relative).any isDenied ||
    r.patterns.any (·.isMatch relative) ||
    IgnoreFile.verdictUpwards r.rules (withoutDot relative) false = .ignored

/-- Whether a path is indexed. -/
def accepts (r : IgnoreRules) (path : String) : Bool :=
  isSupportedPath path && !r.isIgnored path

end IgnoreRules

end SourceIndex
