import SourceIndex.Index.Manager
/-!
# The registry of managers

One manager for each workspace, under the one spelling of its root.
-/

namespace SourceIndex

/-- The managers of all workspaces in use. -/
structure Registry where
  cacheDir : String
  /-- Where relative paths begin. -/
  workingDir : String
  trees : Chunk.TreeSource
  managers : List Manager := []

namespace Registry

/-- The one spelling of a workspace's root, which has to be a directory. -/
def canonicalRoot (r : Registry) (disk : Disk) (path : String) : Except IndexError String :=
  match disk.canonicalPath (Path.within r.workingDir path) with
  | .error e => .error (.invalidPath s!"{path}: {e.message}")
  | .ok root =>
    if disk.isDir root then .ok root
    else .error (.invalidPath s!"{root} is not a directory")

/-- The manager of a workspace, if it was asked for before. -/
def get? (r : Registry) (disk : Disk) (path : String) : Option Manager :=
  match r.canonicalRoot disk path with
  | .ok root => r.managers.find? (·.root == root)
  | .error _ => none

/-- The manager of a workspace, a new one if need be. -/
def getOrCreate (r : Registry) (disk : Disk) (path : String) :
    Except IndexError (Manager × Registry) :=
  match r.canonicalRoot disk path with
  | .error e => .error e
  | .ok root =>
    match r.managers.find? (·.root == root) with
    | some m => .ok (m, r)
    | none =>
      let m : Manager := { root, cacheDir := r.cacheDir, trees := r.trees }
      .ok (m, { r with managers := r.managers ++ [m] })

/-- Put a manager in the place of the one of its workspace. -/
def put (r : Registry) (m : Manager) : Registry :=
  { r with managers := r.managers.map fun other => if other.root == m.root then m else other }

/-- Hand out all managers, to be disposed of. -/
def release (r : Registry) : List Manager × Registry :=
  (r.managers, { r with managers := [] })

end Registry

end SourceIndex
