import SourceIndex.Embed.Client
import SourceIndex.Number.Stored
import SourceIndex.Point.Basic
/-!
# Scripted services

A script says how the embedding service and the store answer: one outcome per call, and success when
the outcomes are used up. What was asked is kept in a journal.
-/

namespace SourceIndex.Scenario

/-- How the embedding service answers a call. -/
inductive EmbedOutcome where
  | ok
  | fail
  | rateLimited
  /-- The last vector is missing. -/
  | short
  /-- There is one vector too many. -/
  | extra
  /-- There are no vectors. -/
  | none
deriving DecidableEq, Repr

/-- The calls of the store that can be made to fail. -/
inductive StoreCall where
  | prepare
  | upsert
  | delete
  | clear
  | drop
  | search
deriving DecidableEq, Repr

def StoreCall.name : StoreCall → String
  | .prepare => "initialize"
  | .upsert => "upsert"
  | .delete => "delete"
  | .clear => "clear"
  | .drop => "drop"
  | .search => "search"

/-- A script of outcomes. -/
structure Script where
  embed : List EmbedOutcome := []
  /-- For each call of the store, whether it succeeds. -/
  store : StoreCall → List Bool := fun _ => []
  /-- Texts that cannot be embedded contain this. -/
  failText : Option String := none
  /-- Texts that take long to embed contain this. -/
  slowText : Option String := none
  /-- How long that takes, in nanoseconds. -/
  slowSpan : Nat := 0
  /-- Points of files whose relative path contains this cannot be stored. -/
  failPath : Option String := none

/-- One entry of the journal. -/
inductive Entry where
  | prepare
  | upsert (paths ids : List String)
  | delete (paths : List String)
  | clear
  | drop
  | search (vector : Vector32) (directory : Option String) (minScore : Number.Single) (limit : Nat)
  | failed (entry : Entry)

namespace Script

/-- Whether some text contains a mark. -/
def hits (mark : Option String) (texts : List String) : Bool :=
  mark.any fun m => texts.any fun t => Text.occursIn m.toList t.toList

/-- Take the outcome of the next call that embeds. -/
def nextEmbed (s : Script) : EmbedOutcome × Script :=
  match s.embed with
  | [] => (.ok, s)
  | outcome :: rest => (outcome, { s with embed := rest })

/-- Take the outcome of the next call of the store. -/
def nextStore (s : Script) (call : StoreCall) : Bool × Script :=
  match s.store call with
  | [] => (true, s)
  | outcome :: rest => (outcome, { s with store := fun c => if c = call then rest else s.store c })

/-- The vector of a text: its length in bytes and two constants. -/
def vectorOf (text : String) : Vector32 :=
  [(Float.ofNat text.utf8ByteSize).toFloat32, 1, 0.5]

/-- The answer to a call that embeds. -/
def answer (outcome : EmbedOutcome) (texts : List String) :
    Except ServiceError Embed.Embeddings :=
  let vectors := texts.map vectorOf
  match outcome with
  | .ok => .ok { vectors }
  | .fail => .error (.embedding "embedding service down")
  | .rateLimited => .error (.rateLimited "slow down")
  | .short => .ok { vectors := vectors.dropLast }
  | .extra => .ok { vectors := vectors ++ [[0]] }
  | .none => .ok {}

/-- How a store refuses a call. -/
def refusal (call : StoreCall) : ServiceError :=
  .qdrant s!"{call.name} rejected"

end Script

end SourceIndex.Scenario
