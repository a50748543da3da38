import SourceIndex.Disk.Basic
/-!
# Changes to files

A change made to the disk from outside, and the files that a watcher hears of.
-/

namespace SourceIndex

/-- One change to the disk. -/
inductive FileEdit where
  | write (path : String) (bytes : ByteArray)
  | makeDir (path : String)
  | remove (path : String)
  | rename (source target : String)

namespace FileEdit

/-- The disk with the directory around a path. -/
def withParent (disk : Disk) (path : String) : Disk :=
  match Path.ancestors path with
  | dir :: _ => (disk.createDirs dir).toOption.getD disk
  | [] => disk

/-- Make the change. One that is impossible changes nothing. -/
def apply (disk : Disk) : FileEdit → Disk
  | write path bytes =>
    let disk := withParent disk path
    (disk.write path bytes).toOption.getD disk
  | makeDir path => (disk.createDirs path).toOption.getD disk
  | remove path => (disk.removeTree path).toOption.getD disk
  | rename source target =>
    let disk := withParent disk target
    (disk.rename source target).toOption.getD disk

mutual

/-- The paths at and below a node that stands at `path`. -/
def pathsBelow (path : String) : Node → List String
  | .file _ => [path]
  | .dir entries => path :: pathsOfEntries path entries

def pathsOfEntries (path : String) : List (String × Node) → List String
  | [] => []
  | (name, node) :: rest =>
    pathsBelow (Path.join path name) node ++ pathsOfEntries path rest

end

/-- All paths at and below a path. -/
def allPaths (disk : Disk) (path : String) : List String :=
  match disk.stat path with
  | .ok node => pathsBelow path node
  | .error _ => []

end FileEdit

namespace Disk

/-- Put a node at a path, with the directories above it. -/
def mount (d : Disk) (path : String) (node : Node) : Disk :=
  let d := FileEdit.withParent d path
  match d.resolve path with
  | .ok [] => ⟨node⟩
  | .ok names => ⟨(d.tree.update (fun _ => .ok (some node)) names).toOption.getD d.tree⟩
  | .error _ => d

/-- The files at and below a path that `d` holds otherwise than `before` did. -/
def changedFiles (before d : Disk) (path : String) : List (String × ByteArray) :=
  (FileEdit.allPaths d path).filterMap fun file =>
    match d.read file, before.read file with
    | .ok bytes, .ok old => if bytes == old then none else some (file, bytes)
    | .ok bytes, .error _ => some (file, bytes)
    | .error _, _ => none

end Disk

end SourceIndex
