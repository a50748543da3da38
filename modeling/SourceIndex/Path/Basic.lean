import SourceIndex.Text.Blank
/-!
# Paths

Paths are texts with `/` between their components. Empty components and `.` count for nothing, except
that a leading `.` of a relative path is a component of its own; `..` is kept. Two spellings with the
same components are the same path, yet what is left after `relativeTo?` keeps its own inner spelling.

`relativeTo` gives the workspace-relative name under which a file is stored, `segments` the directory
levels that a search can be restricted to.
-/

namespace SourceIndex.Path

/-- One step of a path. -/
inductive Component where
  | root
  | current
  | parent
  | name (text : String)
deriving DecidableEq, Repr

namespace Component

/-- Order of kinds; names come last and are ordered among themselves. -/
def rank : Component → Nat
  | root => 0
  | current => 1
  | parent => 2
  | name _ => 3

def text : Component → String
  | name t => t
  | _ => ""

def lt (a b : Component) : Bool :=
  a.rank < b.rank || (a.rank == b.rank && decide (a.text < b.text))

end Component

/-- The component that a non-empty piece between slashes stands for; `.` stands for none. -/
def ofPiece? (piece : List Char) : Option Component :=
  if piece == ['.'] then none
  else if piece == ['.', '.'] then some .parent
  else some (.name (String.ofList piece))

/-- The components of the text behind a possible root, each with the text that follows it. -/
def bodyWithRest (s : List Char) : List (Component × List Char) :=
  match s with
  | [] => []
  | '/' :: rest => bodyWithRest rest
  | c :: rest =>
    let piece := c :: rest.takeWhile (· != '/')
    let after := rest.dropWhile (· != '/')
    match ofPiece? piece with
    | none => bodyWithRest after
    | some component => (component, after) :: bodyWithRest after
termination_by s.length
decreasing_by
  all_goals
    simp only [List.length_cons]
    have := (List.dropWhile_sublist (fun x => x != '/') (l := rest)).length_le
    omega

/-- Whether a relative path starts with a `.` component. -/
def startsWithCurrent (s : List Char) : Bool :=
  s == ['.'] || ['.', '/'].isPrefixOf s

/-- The components of a path, each with the text that follows it. -/
def componentsWithRest (s : List Char) : List (Component × List Char) :=
  match s with
  | '/' :: rest => (.root, rest) :: bodyWithRest rest
  | s =>
    if startsWithCurrent s then (.current, s.drop 1) :: bodyWithRest (s.drop 1)
    else bodyWithRest s

/-- The components of a path. -/
def components (path : String) : List Component :=
  (componentsWithRest path.toList).map (·.1)

def isAbsolute (path : String) : Bool :=
  path.toList.head? == some '/'

/-- Drop separators and `.` components from the front. -/
def trimFront (s : List Char) : List Char :=
  match s with
  | '/' :: rest => trimFront rest
  | ['.'] => []
  | '.' :: '/' :: rest => trimFront rest
  | s => s

/-- Drop separators and `.` components from the back. The argument and the result are reversed. -/
def trimBackReversed (s : List Char) : List Char :=
  match s with
  | '/' :: rest => trimBackReversed rest
  | ['.'] => []
  | '.' :: '/' :: rest => trimBackReversed rest
  | s => s

def trimBack (s : List Char) : List Char :=
  (trimBackReversed s.reverse).reverse

/-- A path without trailing separators and `.` components. Its root and its leading `.` stay. -/
def withoutTail (s : List Char) : List Char :=
  match s with
  | '/' :: rest => '/' :: trimBack rest
  | s => if startsWithCurrent s then '.' :: trimBack (s.drop 1) else trimBack s

/-- What follows the components `base` at the front of `pieces`; `before` is the text in front of
`pieces`. -/
def restAfter? (base : List Component) (before : List Char)
    (pieces : List (Component × List Char)) : Option (List Char) :=
  match base, pieces with
  | [], _ => some before
  | _ :: _, [] => none
  | b :: base, (c, after) :: pieces => if b = c then restAfter? base after pieces else none

/-- `path` below `root`, if the components of `root` are the first ones of `path`. -/
def relativeTo? (root path : String) : Option String :=
  let base := components root
  let s := path.toList
  (restAfter? base s (componentsWithRest s)).map fun rest =>
    String.ofList (if base.isEmpty then withoutTail rest else trimBack (trimFront rest))

/-- Write `/` for every backslash. -/
def normalize (path : String) : String :=
  Text.replaceChar '\\' '/' path

/-- The workspace-relative name of `path`, with `/` separators; a path that is not below `root` keeps
its own text. -/
def relativeTo (root path : String) : String :=
  normalize ((relativeTo? root path).getD path)

/-- The names between slashes and backslashes, without empty ones and `.`. -/
def segments (path : String) : List String :=
  ((path.toList.splitOn '\\').flatMap (List.splitOn '/')).filterMap fun piece =>
    if piece.isEmpty || piece == ['.'] then none else some (String.ofList piece)

/-- The last component, if it is a name. -/
def fileName? (path : String) : Option String :=
  match (components path).getLast? with
  | some (.name t) => some t
  | _ => none

/-- The part of the file name behind its last dot. A name whose only dot is its first character has
none. -/
def extension? (path : String) : Option String :=
  (fileName? path).bind fun name =>
    let reversed := name.toList.reverse
    let tail := reversed.takeWhile (· != '.')
    let head := reversed.drop (tail.length + 1)
    if reversed.length == tail.length || head.isEmpty then none
    else some (String.ofList tail.reverse)

/-- The directories above a path, the nearest first. A relative path ends at the empty one, an absolute
one at the root. -/
def ancestors (path : String) : List String :=
  let s := path.toList
  let pieces := componentsWithRest s
  let fronts := pieces.dropLast.map fun (_, rest) => String.ofList (s.take (s.length - rest.length))
  match pieces with
  | [] => []
  | (.root, _) :: _ => fronts.reverse
  | _ => fronts.reverse ++ [""]

/-- `name` inside the directory `dir`; an absolute name replaces the directory. -/
def join (dir name : String) : String :=
  if isAbsolute name then name
  else if dir.isEmpty || dir.toList.getLast? == some '/' then dir ++ name
  else dir ++ "/" ++ name

/-- What a path stands for in a working directory. The empty path stands for nothing anywhere. -/
def within (workingDir path : String) : String :=
  if path.isEmpty then path else join workingDir path

/-- Lexicographic order on component lists. -/
def componentsLe : List Component → List Component → Bool
  | [], _ => true
  | _ :: _, [] => false
  | a :: as, b :: bs => if a = b then componentsLe as bs else a.lt b

/-- The order of paths: component by component, so that a directory comes before its siblings whose
names merely begin like it. -/
def le (a b : String) : Bool :=
  componentsLe (components a) (components b)

/-- Paths in order; equal ones keep their places. -/
def sort (paths : List String) : List String :=
  paths.mergeSort le

end SourceIndex.Path
