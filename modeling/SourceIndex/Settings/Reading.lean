import SourceIndex.Settings.Basic
import SourceIndex.Toml.Record
/-!
# Reading settings

Settings are written as a TOML document in which everything may be left out.
-/

namespace SourceIndex

def EmbedSettings.ofToml? (t : Toml) : Option EmbedSettings := do
  guard t.isRecord
  let text (v : Toml) : Option (Option String) := v.asStr?.map some
  let provider ← t.field 0 "provider" .openai (Toml.asTag? Provider.ofName?)
  let model ← t.field 1 "model" none text
  let baseUrl ← t.field 2 "base_url" none text
  let apiKey ← t.field 3 "api_key" none text
  let dimension ← t.field 4 "dimension" none fun v => (v.asNatBelow? (Nat.pow 2 64)).map some
  some { provider, model, baseUrl, apiKey, dimension }

def StoreSettings.ofToml? (t : Toml) : Option StoreSettings := do
  guard t.isRecord
  let d : StoreSettings := {}
  let url ← t.field 0 "url" d.url Toml.asStr?
  let apiKey ← t.field 1 "api_key" none fun v => v.asStr?.map some
  some { url, apiKey }

def SearchSettings.ofToml? (t : Toml) : Option SearchSettings := do
  guard t.isRecord
  let d : SearchSettings := {}
  let minScore ← t.field 0 "min_score" d.minScore Toml.asSingle?
  let maxResults ← t.field 1 "max_results" d.maxResults (Toml.asNatBelow? (Nat.pow 2 64))
  some { minScore, maxResults }

def Tuning.ofToml? (t : Toml) : Option Tuning := do
  guard t.isRecord
  let d : Tuning := {}
  let word (index : Nat) (name : String) (default : Nat) : Option Nat :=
    t.field index name default (Toml.asNatBelow? (Nat.pow 2 64))
  let minBlock ← word 0 "min_block_chars" d.chunk.minBlock
  let maxBlock ← word 1 "max_block_chars" d.chunk.maxBlock
  let minRemainder ← word 2 "min_chunk_remainder_chars" d.chunk.minRemainder
  let tolerance ← t.field 3 "max_chars_tolerance_factor" d.chunk.tolerance Toml.asDouble?
  let maxFileSize ← word 4 "max_file_size_bytes" d.maxFileSize
  let batchThreshold ← word 5 "batch_segment_threshold" d.batchThreshold
  let maxRetries ← t.field 6 "max_batch_retries" d.maxRetries (Toml.asNatBelow? (Nat.pow 2 32))
  let initialRetryDelay ← word 7 "initial_retry_delay_ms" d.initialRetryDelay
  let parsingConcurrency ← word 8 "parsing_concurrency" d.parsingConcurrency
  let batchConcurrency ← word 9 "batch_processing_concurrency" d.batchConcurrency
  let maxPendingBatches ← word 10 "max_pending_batches" d.maxPendingBatches
  let maxListedFiles ← word 11 "max_list_files" d.maxListedFiles
  let watcherDebounce ← word 12 "watcher_debounce_ms" d.watcherDebounce
  let watcherConcurrency ← word 13 "watcher_file_concurrency" d.watcherConcurrency
  let cacheDebounce ← word 14 "cache_persist_debounce_ms" d.cacheDebounce
  let slowScanWarning ← word 15 "slow_scan_warning_secs" d.slowScanWarning
  some
    { chunk := { minBlock, maxBlock, minRemainder, tolerance }
      maxFileSize, batchThreshold, maxRetries, initialRetryDelay, parsingConcurrency,
      batchConcurrency, maxPendingBatches, maxListedFiles, watcherDebounce, watcherConcurrency,
      cacheDebounce, slowScanWarning }

namespace Settings

def ofToml? (t : Toml) : Option Settings := do
  guard t.isRecord
  let d : Settings := {}
  let enabled ← t.field 0 "enabled" d.enabled Toml.asBool?
  let embed ← t.field 1 "embedder" d.embed EmbedSettings.ofToml?
  let store ← t.field 2 "qdrant" d.store StoreSettings.ofToml?
  let search ← t.field 3 "search" d.search SearchSettings.ofToml?
  let ignore ← t.field 4 "ignore" d.ignore Toml.asStrings?
  let tuning ← t.field 5 "tuning" d.tuning Tuning.ofToml?
  some { enabled, embed, store, search, ignore, tuning }

/-- Read a settings document. -/
def parse (text : String) : Option Settings :=
  (Toml.parse text).bind ofToml?

end Settings

end SourceIndex
