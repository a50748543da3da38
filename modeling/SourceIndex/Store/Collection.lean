import SourceIndex.Store.Address
import SourceIndex.Store.Protocol
import SourceIndex.Settings.Basic
/-!
# A collection in a vector database

What a client does with the collection of a workspace: creating it for the right size of vectors,
storing points, deleting those of some files, searching, and listing the files that have points. Each is
a program of calls, so that the order of calls and what happens when one fails can be read off.
-/

namespace SourceIndex

/-- A program of calls that can fail. -/
abbrev CollectionProgram (α : Type) := ExceptT ServiceError (Program collectionCalls) α

/-- The collection of a workspace. -/
structure Collection where
  name : String
  vectorSize : Nat
deriving DecidableEq

namespace Collection

/-- Up to this depth directory levels are indexed. -/
def indexedLevels : Nat := 5

/-- How many points a page holds. -/
def pageSize : Nat := 1000

/-- After this many pages a listing ends. -/
def maxPages : Nat := Nat.pow 2 60

/-- The collection that settings describe. The address must be one. -/
def open? (root : String) (settings : StoreSettings) (vectorSize : Nat) :
    Except ServiceError Collection :=
  if Text.isBlankText settings.url then .error (.configuration "Qdrant URL is required")
  else if Address.isAddress settings.url then .ok ⟨collectionName root, vectorSize⟩
  else .error (.qdrant "Failed to parse URI")

/-- Make a call. -/
def call (c : CollectionCall) : CollectionProgram c.Result :=
  ExceptT.mk do
    match ← Program.ask (I := collectionCalls) c with
    | .ok result => return .ok result
    | .error detail => return .error (.qdrant detail)

/-- The size of the vectors in the collection, if it is there. A shape that is not a plain one counts as
size zero. -/
def existingSize : CollectionProgram (Option Nat) := do
  let isThere : Bool ← call .isThere
  if !isThere then return none
  match (← call .shape : VectorShape) with
  | .plain size => return some size
  | _ => return some 0

/-- Make a call whose failure does not matter. -/
def attempt (c : CollectionCall) : CollectionProgram Unit :=
  ExceptT.mk do
    let _ ← Program.ask (I := collectionCalls) c
    return .ok ()

/-- Index the payload fields of some directory levels. -/
def indexLevels : List Nat → CollectionProgram Unit
  | [] => return ()
  | i :: rest => do
    attempt (.indexField (PointFilter.segmentField i))
    indexLevels rest

/-- Create the collection. -/
def create (c : Collection) : CollectionProgram Unit :=
  call (.create c.vectorSize)

/-- Make sure that the collection is there with the right size of vectors; answers whether it is new. -/
def prepare (c : Collection) : CollectionProgram Bool := do
  let isNew ← match ← existingSize with
    | none => do
      c.create
      pure true
    | some size =>
      if size = c.vectorSize then pure false
      else do
        let _ ← call .drop
        c.create
        pure true
  indexLevels (List.range indexedLevels)
  return isNew

/-- Store points. One whose vector has the wrong size is an error, and nothing is sent. -/
def upsert (c : Collection) (points : List Point) : CollectionProgram Unit :=
  if points.isEmpty then pure ()
  else
    match points.find? fun p => p.vector.length != c.vectorSize with
    | some p => throw (.dimensionMismatch c.vectorSize p.vector.length)
    | none => call (.upsert points)

/-- A found point as a hit, unless its payload cannot be read. -/
def hitOf? (p : ScoredPoint) : Option Hit :=
  (Payload.ofJson? (.obj p.payload)).map fun payload =>
    ⟨(p.id.map StoredId.name).getD "", p.score, payload⟩

/-- The nearest points below a directory. -/
def nearest (vector : Vector32) (directory : Option String) (minScore : Number.Single) (limit : Nat) :
    CollectionProgram (List Hit) := do
  let found : List ScoredPoint ←
    call (.search vector limit minScore (directory.bind PointFilter.ofDirectory?))
  return found.filterMap hitOf?

/-- Delete the points of files. -/
def deletePaths (paths : List String) : CollectionProgram Unit :=
  if paths.isEmpty then pure () else call (.delete (.ofFiles paths))

/-- Delete all points. -/
def clear : CollectionProgram Unit :=
  call (.delete {})

/-- Remove the collection if it is there. -/
def drop : CollectionProgram Unit := do
  let isThere : Bool ← call .isThere
  if isThere then call .drop

def isThere : CollectionProgram Bool :=
  call .isThere

/-- The file that a payload belongs to. -/
def fileOf? (payload : List (String × Json)) : Option String :=
  (Json.obj payload).get? "filePath" |>.bind Json.asStr?

/-- The files on at most `pages` pages from `offset` on. -/
def scrollFrom : (pages : Nat) → (offset : Option StoredId) → CollectionProgram (List String)
  | 0, _ => return []
  | pages + 1, offset => do
    let page : Page ← call (.scroll pageSize offset)
    let here := page.payloads.filterMap fileOf?
    match page.next with
    | none => return here
    | some next => return here ++ (← scrollFrom pages (some next))

/-- The files that have points; none if they cannot be listed. -/
def paths : Program collectionCalls (List String) := do
  match ← (scrollFrom maxPages none).run with
  | .ok found => return Text.sortDistinct found
  | .error _ => return []

/-- A server that cannot be reached. -/
def unreachable : Program.Handler collectionCalls Unit :=
  fun _ _ => (.error "transport error", ())

/-- What is told when a client is built for a server that does not answer. -/
def versionNotice : String :=
  "Failed to obtain server version. Unable to check client-server compatibility. " ++
    "Set check_compatibility=false to skip version check.\n"

end Collection

end SourceIndex
