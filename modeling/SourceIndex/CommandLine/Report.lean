import SourceIndex.Index.Search
import SourceIndex.Json.Printer
import SourceIndex.Number.Decimal
/-!
# What is printed

Failures with what caused them, search results for people or as JSON, and the status of a workspace.
-/

namespace SourceIndex

/-- The texts of what lies behind an error, the nearest first. -/
def ServiceError.causes : ServiceError → List String
  | .http detail => [detail]
  | .json detail => [detail]
  | .qdrant detail => [detail]
  | _ => []

/-- The texts of what lies behind an error, the nearest first. -/
def IndexError.causes : IndexError → List String
  | .io failure => [failure.message]
  | .chunk error => [error.message]
  | .service error => error.message :: error.causes
  | .json detail => [detail]
  | .config detail => [detail]
  | .pattern detail => [detail]
  | .watcher detail => [detail]
  | _ => []

namespace CommandLine

/-- Why a run failed, and what caused that, the nearest cause first. -/
structure Failure where
  message : String
  causes : List String := []
deriving DecidableEq

namespace Failure

def ofError (e : IndexError) : Failure where
  message := e.message
  causes := e.causes

/-- An error with what was being done in front. -/
def during (task : String) (e : IndexError) : Failure where
  message := task
  causes := e.message :: e.causes

/-- A text with its further lines moved to the right. -/
def indented (margin : String) (text : String) : String :=
  ("\n" ++ margin).intercalate (text.splitOn "\n")

/-- The causes, one below the other; they are numbered if there are several. -/
def causeLines (causes : List String) : List String :=
  match causes with
  | [cause] => ["    " ++ indented "    " cause]
  | causes => causes.zipIdx.map fun (cause, i) =>
    let number := toString i
    String.ofList (List.replicate (5 - number.length) ' ') ++ number ++ ": " ++
      indented "       " cause

/-- The text of a failure. -/
def text (f : Failure) : String :=
  let causes := if f.causes.isEmpty then ""
    else "\n\nCaused by:\n" ++ "\n".intercalate (causeLines f.causes)
  s!"Error: {f.message}{causes}\n"

end Failure

/-- The lines of a text without the breaks between them, which are line feeds with perhaps a carriage
return in front. -/
def linesOf (text : String) : List String :=
  let pieces := text.toList.splitOn '\n'
  let closed := pieces.dropLast.map fun piece =>
    if piece.getLast? == some '\r' then piece.dropLast else piece
  let last := pieces.getLast?.getD []
  (if last.isEmpty then closed else closed ++ [last]).map String.ofList

/-- How many lines of a result are shown. -/
def shownLines : Nat := 3

/-- A search result for people. -/
def resultLines (r : SearchResult) : List String :=
  let hierarchy := match r.hierarchyDisplay with
    | some h => s!"  ({h})"
    | none => ""
  let score := Number.fixed32 3 r.score
  s!"{score}  {r.filePath}:{r.startLine}-{r.endLine}{hierarchy}" ::
    ((linesOf r.codeChunk).take shownLines).map ("        " ++ ·)

/-- Search results. -/
def resultsText (json : Bool) (results : List SearchResult) : String :=
  if json then Json.pretty (.arr (results.map SearchResult.toJson)) ++ "\n"
  else if results.isEmpty then "No matches\n"
  else String.join ((results.flatMap resultLines).map (· ++ "\n"))

/-- The status of a workspace. -/
structure StatusReport where
  workspace : String
  settingsFile : String
  settings : Settings
  cacheFile : String
  cachedFiles : Nat

def StatusReport.text (r : StatusReport) : String :=
  let s := r.settings
  Json.pretty (.obj
    [("workspace", .str r.workspace),
     ("config_file", .str r.settingsFile),
     ("configured", .bool (s.enabled && s.isConfigured)),
     ("provider", .str s.embed.provider.name),
     ("model", .str s.embed.modelId),
     ("qdrant_url", .str s.store.url),
     ("collection", .str (collectionName r.workspace)),
     ("cache_file", .str r.cacheFile),
     ("cached_files", .ofNat r.cachedFiles)]) ++ "\n"

end CommandLine

end SourceIndex
