import SourceIndex.Toml.Scalar
/-!
# TOML documents

A document is a list of statements: headings of tables, headings of elements of arrays of tables, and
assignments to keys. `Toml.parse` reads the statements and builds one table from them.

Keys and values each stay below 80 levels of nesting.
-/

namespace SourceIndex.Toml

/-- How many levels a dotted key or a nested value may not reach. -/
def depthLimit : Nat := 80

/-! ## Building tables -/

/-- One step down to a table: along a heading, or along a dotted key. -/
structure Step where
  dotted : Bool
  key : String

/-- Change the table at the end of `path`, making the tables on the way that are missing. The change is
given how that table came about.

A heading may pass through every table but an inline one, and enters an array of tables at its last
element. A dotted key may not pass through a table with a heading. -/
def descend (change : Origin → Fields → Option Fields) (origin : Origin) (fields : Fields) :
    List Step → Option Fields
  | [] => change origin fields
  | step :: path =>
    match fields.get? step.key with
    | none =>
      let origin := if step.dotted then .dotted else .passed
      (descend change origin [] path).map fun sub => fields.put step.key (.tbl origin sub)
    | some (.tbl origin sub) =>
      if origin = .inline || (step.dotted && origin = .headed) then none
      else (descend change origin sub path).map fun sub => fields.put step.key (.tbl origin sub)
    | some (.arr true items) =>
      match items.getLast? with
      | some (.tbl origin sub) =>
        (descend change origin sub path).map fun sub =>
          fields.put step.key (.arr true (items.dropLast ++ [.tbl origin sub]))
      | _ => none
    | some _ => none

/-- Steps along a heading. -/
def headingSteps (path : List String) : List Step :=
  path.map fun key => ⟨false, key⟩

/-- Assign to a key of a table, directly or, when `path` is not empty, of a table made by dotted keys.
Nothing is assigned twice. -/
def assign (steps : List Step) (path : List String) (key : String) (value : Toml)
    (fields : Fields) : Option Fields :=
  let place (origin : Origin) (fields : Fields) : Option Fields :=
    if (origin == .dotted) == path.isEmpty then none
    else if (fields.get? key).isSome then none
    else some (fields.put key value)
  descend place .headed fields (steps ++ path.map fun key => ⟨true, key⟩)

/-- Give the table `key` a heading of its own. It may exist only as one that was passed through. -/
def openTable (path : List String) (key : String) (fields : Fields) : Option Fields :=
  let place (_ : Origin) (fields : Fields) : Option Fields :=
    match fields.get? key with
    | none => some (fields.put key (.tbl .headed []))
    | some (.tbl .passed sub) => some (fields.put key (.tbl .headed sub))
    | some _ => none
  descend place .headed fields (headingSteps path)

/-- Start a new element of the array of tables `key`. -/
def openElement (path : List String) (key : String) (fields : Fields) : Option Fields :=
  let place (_ : Origin) (fields : Fields) : Option Fields :=
    match fields.get? key with
    | none => some (fields.put key (.arr true [.tbl .headed []]))
    | some (.arr true items) => some (fields.put key (.arr true (items ++ [.tbl .headed []])))
    | some _ => none
  descend place .headed fields (headingSteps path)

/-! ## Keys and values -/

/-- Characters of keys without quotes. -/
def isBareKeyChar (c : Char) : Bool :=
  c.isAlphanum || c == '-' || c == '_'

/-- One part of a dotted key. -/
def readKeyPart (s : List Char) : Option (String × List Char) :=
  match s with
  | '"' :: r => (basicBody r).map fun (t, r) => (String.ofList t, r)
  | '\x27' :: r => (literalBody r).map fun (t, r) => (String.ofList t, r)
  | s =>
    let part := s.takeWhile isBareKeyChar
    if part.isEmpty then none else some (String.ofList part, s.dropWhile isBareKeyChar)

/-- The parts of a dotted key, with blanks around each. -/
def readKeyParts : Nat → List Char → Option (List String × List Char)
  | 0, _ => none
  | fuel + 1, s => do
    let (part, r) ← readKeyPart (skipBlanks s)
    match skipBlanks r with
    | '.' :: r => do
      let (parts, r) ← readKeyParts fuel r
      some (part :: parts, r)
    | r => some ([part], r)

/-- A key: the parts in front of the last one, and the last one. -/
def readKey (s : List Char) : Option (List String × String × List Char) := do
  let (parts, r) ← readKeyParts (s.length + 1) s
  if depthLimit ≤ parts.length then none
  else
    let last ← parts.getLast?
    some (parts.dropLast, last, r)

/-- The input behind a comment, if one stands first. -/
def skipComment : List Char → List Char
  | '#' :: r => r.dropWhile isPlain
  | r => r

/-- The input behind blanks, line ends and comments. -/
def skipLines : Nat → List Char → List Char
  | 0, s => s
  | fuel + 1, s =>
    match skipBlanks s with
    | '#' :: r => skipLines fuel (r.dropWhile isPlain)
    | r =>
      match lineEnd? r with
      | some r => skipLines fuel r
      | none => r

def skipAllLines (s : List Char) : List Char :=
  skipLines (s.length + 1) s

/-- A word and what follows it. -/
def word? (word : List Char) (value : Toml) (s : List Char) : Option (Toml × List Char) :=
  if word.isPrefixOf s then some (value, s.drop word.length) else none

mutual

/-- One value; `depth` levels may still be opened. -/
def readValue : Nat → Nat → List Char → Option (Toml × List Char)
  | 0, _, _ => none
  | fuel + 1, depth, s =>
    match s with
    | '"' :: _ => (readString s).map fun (t, r) => (.str t, r)
    | '\x27' :: _ => (readString s).map fun (t, r) => (.str t, r)
    | 't' :: _ => word? ['t', 'r', 'u', 'e'] (.bool true) s
    | 'f' :: _ => word? ['f', 'a', 'l', 's', 'e'] (.bool false) s
    | '[' :: r =>
      if depth ≤ 1 then none
      else
        match skipAllLines r with
        | ']' :: r => some (.arr false [], r)
        | r => readItems fuel (depth - 1) [] r
    | '{' :: r =>
      if depth ≤ 1 then none
      else
        match skipBlanks r with
        | '}' :: r => some (.tbl .inline [], r)
        | r => readFields fuel (depth - 1) [] r
    | s => readNumberOrMoment s

/-- Items of an array, which may spread over lines and end with a comma. `acc` holds those read, last
first. -/
def readItems : Nat → Nat → List Toml → List Char → Option (Toml × List Char)
  | 0, _, _, _ => none
  | fuel + 1, depth, acc, s =>
    match readValue fuel depth (skipAllLines s) with
    | none => none
    | some (v, r) =>
      match skipAllLines r with
      | ']' :: r => some (.arr false (v :: acc).reverse, r)
      | ',' :: r =>
        match skipAllLines r with
        | ']' :: r => some (.arr false (v :: acc).reverse, r)
        | r => readItems fuel depth (v :: acc) r
      | _ => none

/-- Members of an inline table, which stays on one line and does not end with a comma. -/
def readFields : Nat → Nat → Fields → List Char → Option (Toml × List Char)
  | 0, _, _, _ => none
  | fuel + 1, depth, acc, s =>
    match readKey s with
    | some (path, key, '=' :: r) =>
      match readValue fuel depth (skipBlanks r) with
      | none => none
      | some (v, r) =>
        match assign [] path key v acc with
        | none => none
        | some acc =>
          match skipBlanks r with
          | '}' :: r => some (.tbl .inline acc, r)
          | ',' :: r => readFields fuel depth acc r
          | _ => none
    | _ => none

end

/-! ## Statements -/

/-- One statement of a document. -/
inductive Statement where
  | table (path : List String) (key : String)
  | element (path : List String) (key : String)
  | assignment (path : List String) (key : String) (value : Toml)

/-- The input behind the end of a statement's line. -/
def finishLine (s : List Char) : Option (List Char) :=
  match skipComment (skipBlanks s) with
  | [] => some []
  | r => lineEnd? r

/-- One statement, given the input at its first character. -/
def readStatement (s : List Char) : Option (Statement × List Char) := do
  let (statement, r) ← match s with
    | '[' :: '[' :: r => do
      let (path, key, r) ← readKey r
      match r with
      | ']' :: ']' :: r => some (Statement.element path key, r)
      | _ => none
    | '[' :: r => do
      let (path, key, r) ← readKey r
      match r with
      | ']' :: r => some (Statement.table path key, r)
      | _ => none
    | s => do
      let (path, key, r) ← readKey s
      match r with
      | '=' :: r => do
        let r := skipBlanks r
        let (v, r) ← readValue (2 * r.length + 2) depthLimit r
        some (Statement.assignment path key v, r)
      | _ => none
  let r ← finishLine r
  some (statement, r)

/-- All statements of a document. A comment must end with its line, not with a control character. -/
def readStatements : Nat → List Char → Option (List Statement)
  | 0, _ => none
  | fuel + 1, s =>
    match skipBlanks s with
    | [] => some []
    | '#' :: r => (finishLine ('#' :: r)).bind (readStatements fuel)
    | r =>
      match lineEnd? r with
      | some r => readStatements fuel r
      | none => do
        let (statement, r) ← readStatement r
        let rest ← readStatements fuel r
        some (statement :: rest)

/-- A table under construction and the heading that assignments stand below. -/
structure Draft where
  heading : List String := []
  fields : Fields := []

def Draft.add (d : Draft) : Statement → Option Draft
  | .table path key =>
    (openTable path key d.fields).map fun fields => ⟨path ++ [key], fields⟩
  | .element path key =>
    (openElement path key d.fields).map fun fields => ⟨path ++ [key], fields⟩
  | .assignment path key value =>
    (assign (headingSteps d.heading) path key value d.fields).map fun fields =>
      { d with fields := fields }

/-- A byte order mark in front is not part of the text. -/
def withoutMark : List Char → List Char
  | '\uFEFF' :: r => r
  | r => r

/-- Read a document as one table. -/
def parse (text : String) : Option Toml := do
  let s := withoutMark text.toList
  let statements ← readStatements (s.length + 1) s
  let d ← statements.foldlM Draft.add {}
  some (.tbl .headed d.fields)

end SourceIndex.Toml
