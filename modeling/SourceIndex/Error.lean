import SourceIndex.Chunk.Parse
/-!
# Errors

What can go wrong, as causes with one text each. `ServiceError` covers the embedding service and the
vector store, `IoFailure` the file system, `IndexError` everything that reaches a caller.
-/

namespace SourceIndex

/-- A failed file operation. -/
inductive IoFailure where
  | notFound
  | notADirectory
  | isADirectory
  | alreadyExists
  | directoryNotEmpty
  | nameTooLong
  | invalidName
  | invalidText
deriving DecidableEq, Repr

def IoFailure.message : IoFailure → String
  | notFound => "No such file or directory (os error 2)"
  | notADirectory => "Not a directory (os error 20)"
  | isADirectory => "Is a directory (os error 21)"
  | alreadyExists => "File exists (os error 17)"
  | directoryNotEmpty => "Directory not empty (os error 39)"
  | nameTooLong => "File name too long (os error 36)"
  | invalidName => "file name contained an unexpected NUL byte"
  | invalidText => "stream did not contain valid UTF-8"

/-- A failure of the embedding service or of the vector store. -/
inductive ServiceError where
  /-- The request could not be sent or its answer not be read. -/
  | http (detail : String)
  | qdrant (detail : String)
  | embedding (detail : String)
  | rateLimited (detail : String)
  | configuration (detail : String)
  | json (detail : String)
  | dimensionMismatch (expected actual : Nat)
deriving DecidableEq, Repr

namespace ServiceError

def message : ServiceError → String
  | http detail => s!"HTTP error: {detail}"
  | qdrant detail => s!"Qdrant error: {detail}"
  | embedding detail => s!"Embedding error: {detail}"
  | rateLimited detail => s!"Rate limited: {detail}"
  | configuration detail => s!"Configuration error: {detail}"
  | json detail => s!"JSON error: {detail}"
  | dimensionMismatch expected actual =>
    s!"Dimension mismatch: expected {expected}, got {actual}"

/-- A response with the wrong number of vectors. -/
def wrongCount (expected actual : Nat) : ServiceError :=
  embedding s!"expected {expected} embeddings, got {actual}"

end ServiceError

/-- A failure that reaches a caller of the index. -/
inductive IndexError where
  | io (failure : IoFailure)
  | chunk (error : Chunk.ChunkError)
  | service (error : ServiceError)
  | json (detail : String)
  | config (detail : String)
  | pattern (detail : String)
  | watcher (detail : String)
  | invalidPath (detail : String)
  | notConfigured
  | notReady (state : String)
  | scanFailed (detail : String)
  | other (detail : String)
deriving DecidableEq, Repr

def IndexError.message : IndexError → String
  | io failure => s!"IO error: {failure.message}"
  | chunk error => s!"Chunker error: {error.message}"
  | service error => s!"Vector store error: {error.message}"
  | json detail => s!"JSON error: {detail}"
  | config detail => s!"Config error: {detail}"
  | pattern detail => s!"Invalid ignore pattern: {detail}"
  | watcher detail => s!"File watcher error: {detail}"
  | invalidPath detail => s!"Invalid workspace path: {detail}"
  | notConfigured => "Code indexing is not configured"
  | notReady state => s!"Index is not ready for search (state: {state})"
  | scanFailed detail => s!"Indexing failed: {detail}"
  | other detail => detail

end SourceIndex
