import SourceIndex.Error
/-!
# The file system

A tree of directories and files, and the operations on it that indexing needs. A path is resolved
component by component, so that a `..` behind a missing directory is a missing file.
-/

namespace SourceIndex

/-- A file or a directory. -/
inductive Node where
  | file (bytes : ByteArray)
  | dir (entries : List (String × Node))
deriving Inhabited

namespace Node

def isFile : Node → Bool
  | file _ => true
  | dir _ => false

def isDir : Node → Bool
  | file _ => false
  | dir _ => true

/-- The entries of a directory; a file has none. -/
def entries : Node → List (String × Node)
  | file _ => []
  | dir entries => entries

/-- The entry of a directory under a name. -/
def child? (entries : List (String × Node)) (name : String) : Option Node :=
  (entries.find? (·.1 == name)).map (·.2)

/-- Put a node under a name, or remove what stands there. -/
def setEntry (entries : List (String × Node)) (name : String) (node : Option Node) :
    List (String × Node) :=
  match node with
  | none => entries.filter (·.1 != name)
  | some n =>
    if entries.any (·.1 == name) then entries.map fun e => if e.1 == name then (name, n) else e
    else entries ++ [(name, n)]

/-- The node at the end of a list of names. -/
def find (n : Node) : List String → Except IoFailure Node
  | [] => .ok n
  | name :: names =>
    match n with
    | .file _ => .error .notADirectory
    | .dir entries =>
      match child? entries name with
      | some child => child.find names
      | none => .error .notFound

/-- Change what stands at the end of a list of names, in a directory that exists. -/
def update (change : Option Node → Except IoFailure (Option Node)) (n : Node) :
    List String → Except IoFailure Node
  | [] => .error .isADirectory
  | name :: names =>
    match n, names with
    | .file _, _ => .error .notADirectory
    | .dir entries, [] => do
      let changed ← change (child? entries name)
      .ok (.dir (setEntry entries name changed))
    | .dir entries, _ :: _ =>
      match child? entries name with
      | none => .error .notFound
      | some child => do
        let changed ← child.update change names
        .ok (.dir (setEntry entries name (some changed)))

/-- Make a directory and every missing one on the way to it. -/
def createDirs (n : Node) : List String → Except IoFailure Node
  | [] => if n.isDir then .ok n else .error .alreadyExists
  | name :: names =>
    match n with
    | .file _ => .error .notADirectory
    | .dir entries => do
      let child ← ((child? entries name).getD (.dir [])).createDirs names
      .ok (.dir (setEntry entries name (some child)))

end Node

/-- The file system. -/
structure Disk where
  tree : Node := .dir []

namespace Disk

/-- The longest name of a directory entry, in bytes. -/
def maxName : Nat := 255

/-- Paths of this many bytes are too long. -/
def pathLimit : Nat := 4096

/-- One step of resolving a path; `names` is the way taken so far. -/
def resolveStep (d : Disk) (names : List String) (component : Path.Component) :
    Except IoFailure (List String) :=
  match component with
  | .root => .ok []
  | .current => .ok names
  | .parent => do
    let here ← d.tree.find names
    if here.isDir then .ok names.dropLast else .error .notADirectory
  | .name text => do
    let here ← d.tree.find names
    if !here.isDir then .error .notADirectory
    else if maxName < text.utf8ByteSize then .error .nameTooLong
    else .ok (names ++ [text])

/-- The names that a path resolves to. Everything above the last one exists. -/
def resolve (d : Disk) (path : String) : Except IoFailure (List String) :=
  if path.isEmpty then .error .notFound
  else if path.toList.contains '\x00' then .error .invalidName
  else if pathLimit ≤ path.utf8ByteSize then .error .nameTooLong
  else (Path.components path).foldlM d.resolveStep []

/-- Whether a path can only name a directory. -/
def demandsDirectory (path : String) : Bool :=
  path.toList.getLast? == some '/' || ['.', '/'].isPrefixOf path.toList.reverse

/-- What stands at a path. -/
def stat (d : Disk) (path : String) : Except IoFailure Node := do
  let node ← d.tree.find (← d.resolve path)
  if node.isFile && demandsDirectory path then .error .notADirectory else .ok node

def isFile (d : Disk) (path : String) : Bool :=
  ((d.stat path).toOption.map Node.isFile).getD false

def isDir (d : Disk) (path : String) : Bool :=
  ((d.stat path).toOption.map Node.isDir).getD false

/-- The content of a file. -/
def read (d : Disk) (path : String) : Except IoFailure ByteArray := do
  match ← d.stat path with
  | .file bytes => .ok bytes
  | .dir _ => .error .isADirectory

/-- The content of a file that holds text. -/
def readText (d : Disk) (path : String) : Except IoFailure String := do
  match String.fromUTF8? (← d.read path) with
  | some text => .ok text
  | none => .error .invalidText

/-- The way to a directory that may not exist yet, with `..` taken back. -/
def plainNames (path : String) : List String :=
  (Path.components path).foldl
    (fun names component =>
      match component with
      | .root => []
      | .current => names
      | .parent => names.dropLast
      | .name text => names ++ [text])
    []

def createDirs (d : Disk) (path : String) : Except IoFailure Disk := do
  .ok ⟨← d.tree.createDirs (plainNames path)⟩

/-- Write a file, replacing an earlier one. -/
def write (d : Disk) (path : String) (bytes : ByteArray) : Except IoFailure Disk := do
  let put : Option Node → Except IoFailure (Option Node)
    | some (.dir _) => .error .isADirectory
    | _ => .ok (some (.file bytes))
  .ok ⟨← d.tree.update put (← d.resolve path)⟩

/-- Remove a file. -/
def removeFile (d : Disk) (path : String) : Except IoFailure Disk := do
  let erase : Option Node → Except IoFailure (Option Node)
    | some (.file _) => .ok none
    | some (.dir _) => .error .isADirectory
    | none => .error .notFound
  .ok ⟨← d.tree.update erase (← d.resolve path)⟩

/-- Remove a file or a directory with all it holds. -/
def removeTree (d : Disk) (path : String) : Except IoFailure Disk := do
  let erase : Option Node → Except IoFailure (Option Node)
    | some _ => .ok none
    | none => .error .notFound
  .ok ⟨← d.tree.update erase (← d.resolve path)⟩

/-- Whether a node may take the place of another one. -/
def mayReplace (node : Node) : Option Node → Except IoFailure Unit
  | none => .ok ()
  | some (.file _) => if node.isFile then .ok () else .error .notADirectory
  | some (.dir entries) =>
    if node.isFile then .error .isADirectory
    else if entries.isEmpty then .ok ()
    else .error .directoryNotEmpty

/-- Move a file or a directory to another name. -/
def rename (d : Disk) (source target : String) : Except IoFailure Disk := do
  let sourceNames ← d.resolve source
  let targetNames ← d.resolve target
  let node ← d.tree.find sourceNames
  let place (old : Option Node) : Except IoFailure (Option Node) := do
    mayReplace node old
    .ok (some node)
  if sourceNames == targetNames then .ok d
  else
    let tree ← d.tree.update place targetNames
    .ok ⟨← tree.update (fun _ => .ok none) sourceNames⟩

/-- The path to a list of names. -/
def pathOf (names : List String) : String :=
  "/" ++ "/".intercalate names

/-- One step of spelling a path out: everything on the way has to exist, and only the way taken so far
may not be too long. -/
def canonicalStep (d : Disk) (names : List String) (component : Path.Component) :
    Except IoFailure (List String) := do
  let next ← d.resolveStep names component
  if pathLimit ≤ (pathOf next).utf8ByteSize then .error .nameTooLong
  else
    let _ ← d.tree.find next
    .ok next

/-- The one spelling of a path that exists. -/
def canonicalPath (d : Disk) (path : String) : Except IoFailure String :=
  if path.isEmpty then .error .notFound
  else if path.toList.contains '\x00' then .error .invalidName
  else do
    let names ← (Path.components path).foldlM d.canonicalStep []
    let node ← d.tree.find names
    if node.isFile && demandsDirectory path then .error .notADirectory else .ok (pathOf names)

end Disk

end SourceIndex
