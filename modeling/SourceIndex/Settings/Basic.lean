import SourceIndex.Chunk.Policy
import SourceIndex.Embed.Settings
import SourceIndex.Retry
/-!
# Settings

What a workspace's settings say: the embedding service, the vector store, the search, patterns of files
that are left out, and the limits of the pipeline. `Settings.withEnvironment` fills in secrets and
endpoints, `Settings.requiresRestart` compares two versions.
-/

namespace SourceIndex

/-- Where the vector store answers. -/
structure StoreSettings where
  url : String := "http://localhost:6334"
  apiKey : Option String := none
deriving DecidableEq

/-- Which hits a search returns. -/
structure SearchSettings where
  minScore : Number.Single := .ofFloat32 0.4
  maxResults : Nat := 50

/-- Limits of the pipeline. -/
structure Tuning where
  chunk : ChunkPolicy := {}
  /-- Larger files are not indexed. -/
  maxFileSize : Nat := 1024 * 1024
  /-- How many blocks make a batch. -/
  batchThreshold : Nat := 60
  maxRetries : Nat := 3
  /-- Milliseconds in front of the first repetition. -/
  initialRetryDelay : Nat := 500
  parsingConcurrency : Nat := 10
  batchConcurrency : Nat := 10
  maxPendingBatches : Nat := 20
  maxListedFiles : Nat := 50000
  /-- Milliseconds without further changes that end a batch of changes. -/
  watcherDebounce : Nat := 500
  watcherConcurrency : Nat := 10
  /-- Milliseconds between a change of the cache and its being written. -/
  cacheDebounce : Nat := 1500
  /-- Seconds after which a scan counts as slow. -/
  slowScanWarning : Nat := 300

/-- How embedding and storing a batch is repeated. -/
def Tuning.retryPolicy (t : Tuning) : RetryPolicy where
  maxAttempts := t.maxRetries
  initialDelay := millis t.initialRetryDelay

/-- The settings of a workspace. -/
structure Settings where
  enabled : Bool := true
  embed : EmbedSettings := {}
  store : StoreSettings := {}
  search : SearchSettings := {}
  /-- Patterns of files that are not indexed. -/
  ignore : List String := []
  tuning : Tuning := {}

namespace Settings

/-- The file that holds a workspace's settings. -/
def fileName : String := ".codeindex.toml"

/-- Whether there is enough to build an embedder and to reach the store. -/
def isConfigured (s : Settings) : Bool :=
  s.embed.isConfigured && !Text.isBlankText s.store.url

/-- Whether changing from one version to the other invalidates running services. -/
def requiresRestart (a b : Settings) : Bool :=
  a.enabled != b.enabled || a.isConfigured != b.isConfigured ||
    a.embed.provider != b.embed.provider || a.embed.modelId != b.embed.modelId ||
    a.embed.baseUrl != b.embed.baseUrl || a.embed.apiKey != b.embed.apiKey ||
    a.embed.vectorSize? != b.embed.vectorSize? || a.store != b.store || a.ignore != b.ignore

/-- The variable that holds a provider's key. -/
def keyVariable? : Provider → Option String
  | .openai => some "OPENAI_API_KEY"
  | .compatible => some "CODEINDEX_OPENAI_COMPATIBLE_API_KEY"
  | .ollama => none

/-- Fill in what the environment knows; a blank variable counts as unset. Keys that are set already
stay, the address of the store does not. -/
def withEnvironment (s : Settings) (environment : String → Option String) : Settings :=
  let lookup (name : String) : Option String :=
    (environment name).filter fun v => !Text.isBlankText v
  { s with
    embed.apiKey := s.embed.apiKey.or ((keyVariable? s.embed.provider).bind lookup)
    store.url := (lookup "QDRANT_URL").getD s.store.url
    store.apiKey := s.store.apiKey.or (lookup "QDRANT_API_KEY") }

end Settings

end SourceIndex
