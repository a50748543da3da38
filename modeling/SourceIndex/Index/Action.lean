import SourceIndex.Cache
import SourceIndex.Ignore.Listing
import SourceIndex.Index.Providers
import SourceIndex.Status
/-!
# What indexing asks for

Indexing reaches the embedding service, the vector store, the workspace's files, the cache, the clock
and the published status only through the requests listed here. A `Procedure` is a program that makes
such requests.
-/

namespace SourceIndex

/-- What the parts of indexing have in common. -/
structure Services where
  root : String
  tuning : Tuning := {}
  rules : IgnoreRules
  trees : Chunk.TreeSource

/-- How a file of a batch of changes ended. -/
inductive ChangeOutcome where
  | stored
  | ignored
  | tooLarge
  | unchanged
  /-- It could not be read. -/
  | unreadable (message : String)
  /-- Embedding or storing failed. -/
  | failed (message : String)
deriving DecidableEq, Repr

/-- A file of a batch of changes with its outcome. -/
structure ChangeResult where
  path : String
  outcome : ChangeOutcome
deriving DecidableEq, Repr

/-- What is told while a batch of changes is worked through. -/
inductive BatchEvent where
  | start (paths : List String)
  | progress (processed total : Nat) (current : Option String)
  | finish (results : List ChangeResult) (error : Option String)
deriving DecidableEq, Repr

/-- What is told during a scan. -/
inductive ScanEvent where
  /-- A file was parsed into `blocks` blocks; so far `indexed` of `found` blocks are indexed. -/
  | parsed (path : String) (blocks indexed found : Nat)
  /-- So far `indexed` of `found` blocks went through a batch. -/
  | indexed (indexed found : Nat)
  | error (message : String)
deriving DecidableEq, Repr

/-- One request. -/
inductive Action where
  /-- Vectors for texts. -/
  | embed (texts : List String)
  /-- Make sure that the collection exists; answers whether it is new. -/
  | prepareStore
  | upsert (points : List Point)
  /-- Remove the points of files, given by their workspace-relative paths. -/
  | deletePoints (paths : List String)
  /-- Remove all points. -/
  | clearStore
  /-- Remove the collection. -/
  | dropStore
  /-- The files that have points; none if the store cannot be read. -/
  | storedPaths
  /-- The nearest points below a directory. -/
  | nearest (vector : Vector32) (directory : Option String) (minScore : Number.Single) (limit : Nat)
  | listFiles (rules : IgnoreRules) (limit : Nat)
  | fileSize (path : String)
  | readFile (path : String)
  | hashes
  | recordHash (path hash : String)
  | forgetHashes (paths : List String)
  | clearCache
  | flushCache
  /-- Wait for a number of nanoseconds. -/
  | pause (duration : Nat)
  | tellScan (event : ScanEvent)
  | tellBatch (event : BatchEvent)
  | state
  | setState (state : IndexState) (message : String)
  | reportBlocks (indexed found : Nat)
  /-- Mark a scan as running; answers whether one was already. -/
  | beginScan
  | endScan
  | startWatcher
  | stopWatcher
  /-- Read the ignore rules of a workspace. -/
  | loadRules (root : String) (patterns : List String)
  /-- Work with these services from now on, with their cache as its file has it. -/
  | install (services : Services) (cacheDir : String) (providers : Option Providers)

/-- The type of each answer. -/
def Action.Answer : Action → Type
  | .embed _ => Except ServiceError Embed.Embeddings
  | .prepareStore => Except ServiceError Bool
  | .upsert _ => Except ServiceError Unit
  | .deletePoints _ => Except ServiceError Unit
  | .clearStore => Except ServiceError Unit
  | .dropStore => Except ServiceError Unit
  | .storedPaths => List String
  | .nearest .. => Except ServiceError (List Hit)
  | .listFiles .. => List String
  | .fileSize _ => Except IoFailure Nat
  | .readFile _ => Except IoFailure String
  | .hashes => Hashes
  | .recordHash .. => Unit
  | .forgetHashes _ => Unit
  | .clearCache => Except IndexError Unit
  | .flushCache => Except IndexError Unit
  | .pause _ => Unit
  | .tellScan _ => Unit
  | .tellBatch _ => Unit
  | .state => IndexState
  | .setState .. => Unit
  | .reportBlocks .. => Unit
  | .beginScan => Bool
  | .endScan => Unit
  | .startWatcher => Except IndexError Unit
  | .stopWatcher => Unit
  | .loadRules .. => Except IndexError IgnoreRules
  | .install .. => Unit

/-- The requests of indexing and their answers. -/
def indexing : Interface where
  Request := Action
  Answer := Action.Answer

/-- A program that indexes. -/
abbrev Procedure (α : Type) := Program indexing α

/-- Make a request. -/
def ask (action : Action) : Procedure action.Answer :=
  Program.ask (I := indexing) action

/-- Wait between two attempts. -/
def pause (duration : Nat) : Procedure Unit :=
  ask (.pause duration)

end SourceIndex
