import SourceIndex.Index.Action
/-!
# Searching

The blocks most similar to a query, perhaps only those below a directory. The directory may be given
relative to the workspace or as an absolute path inside of it, with dots, repeated slashes or
backslashes; `directoryOf?` brings it into the form the store is asked with.
-/

namespace SourceIndex

/-- One found block. -/
structure SearchResult where
  score : Float32
  filePath : String
  startLine : Nat
  endLine : Nat
  codeChunk : String
  hierarchyDisplay : Option String

def SearchResult.ofHit (hit : Hit) : SearchResult where
  score := hit.score
  filePath := hit.payload.filePath
  startLine := hit.payload.startLine
  endLine := hit.payload.endLine
  codeChunk := hit.payload.codeChunk
  hierarchyDisplay := hit.payload.hierarchyDisplay

def SearchResult.toJson (r : SearchResult) : Json :=
  .obj
    [("score", .single r.score),
     ("filePath", .str r.filePath),
     ("startLine", .ofNat r.startLine),
     ("endLine", .ofNat r.endLine),
     ("codeChunk", .str r.codeChunk),
     ("hierarchyDisplay", .ofOption .str r.hierarchyDisplay)]

namespace Search

/-- Drop every `./` in front. -/
def dropDots : List Char → List Char
  | '.' :: '/' :: r => dropDots r
  | r => r

/-- The directory that a search is restricted to, relative to the workspace and with slashes; none for
the whole workspace. -/
def directoryOf? (root given : String) : Option String :=
  let relative := if Path.isAbsolute given then Path.relativeTo root given else Path.normalize given
  let trimmed := String.ofList (Text.trimWhile (· == '/') (dropDots relative.toList))
  if trimmed.isEmpty || trimmed == "." then none else some trimmed

end Search

/-- Whether an index in this state can be searched. -/
def IndexState.isSearchable : IndexState → Bool
  | .indexed => true
  | .indexing => true
  | _ => false

/-- Search the index of the workspace at `root`. -/
def search (root : String) (settings : SearchSettings) (query : String)
    (directory : Option String) : Procedure (Except IndexError (List SearchResult)) := do
  let state ← ask .state
  if !state.isSearchable then return .error (.notReady state.name)
  match ← ask (.embed [query]) with
  | .error e => return .error (.service e)
  | .ok embeddings =>
    match embeddings.vectors with
    | [] => return .error (.service (.embedding "no embedding returned for query"))
    | vector :: _ =>
      let directory := directory.bind (Search.directoryOf? root)
      match ← ask (.nearest vector directory settings.minScore settings.maxResults) with
      | .ok hits => return .ok (hits.map SearchResult.ofHit)
      | .error e => return .error (.service e)

end SourceIndex
