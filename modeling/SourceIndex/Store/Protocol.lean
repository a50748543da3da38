import SourceIndex.Number.Stored
import SourceIndex.Point.Codec
import SourceIndex.Program
/-!
# What a vector database is asked

The calls that a client makes about one collection, and what each is answered. A call may fail with the
server's words.
-/

namespace SourceIndex

/-- Which points a call concerns: all conditions of `must`, some of `should` unless it is empty, none of
`mustNot`. A condition is a payload field and the word it has to hold. -/
structure PointFilter where
  must : List (String × String) := []
  should : List (String × String) := []
  mustNot : List (String × String) := []
deriving DecidableEq

namespace PointFilter

/-- The points of some files. -/
def ofFiles (paths : List String) : PointFilter where
  should := paths.map fun path => ("filePath", path)

/-- The payload field that holds the directory level number `i`. -/
def segmentField (i : Nat) : String :=
  s!"pathSegments.{i}"

/-- The points below a directory: its segments have to be the first ones. No filter for the whole
workspace. -/
def ofDirectory? (directory : String) : Option PointFilter :=
  match Path.segments directory with
  | [] => none
  | segments => some { must := segments.zipIdx.map fun (segment, i) => (segmentField i, segment) }

end PointFilter

/-- How the vectors of a collection are described. -/
inductive VectorShape where
  | plain (size : Nat)
  | named
  | missing
deriving DecidableEq

/-- The identifier of a stored point as the database gives it. -/
inductive StoredId where
  | text (id : String)
  | number (n : Nat)
deriving DecidableEq

def StoredId.name : StoredId → String
  | .text id => id
  | .number n => toString n

/-- A found point as the database gives it. -/
structure ScoredPoint where
  id : Option StoredId
  score : Float32
  payload : List (String × Json)

/-- One page of stored points: their payloads, and where the next page begins. -/
structure Page where
  payloads : List (List (String × Json))
  next : Option StoredId

/-- A call about a collection. -/
inductive CollectionCall where
  | isThere
  | shape
  /-- Create it for vectors of a size, compared by their angle. -/
  | create (size : Nat)
  | drop
  /-- Index a payload field that holds words. -/
  | indexField (field : String)
  | upsert (points : List Point)
  | delete (filter : PointFilter)
  | search (vector : Vector32) (limit : Nat) (threshold : Number.Single) (filter : Option PointFilter)
  | scroll (limit : Nat) (offset : Option StoredId)

/-- The type of each answer. -/
def CollectionCall.Result : CollectionCall → Type
  | .isThere => Bool
  | .shape => VectorShape
  | .search .. => List ScoredPoint
  | .scroll .. => Page
  | _ => Unit

/-- The calls about a collection. -/
def collectionCalls : Interface where
  Request := CollectionCall
  Answer call := Except String call.Result

end SourceIndex
