import SourceIndex.Block.Basic
import SourceIndex.Block.Codec
import SourceIndex.Block.Dedup
import SourceIndex.Cache
import SourceIndex.Chunk.File
import SourceIndex.Chunk.Grammar
import SourceIndex.Chunk.Lines
import SourceIndex.Chunk.Parse
import SourceIndex.Chunk.Policy
import SourceIndex.CommandLine.Arguments
import SourceIndex.CommandLine.Report
import SourceIndex.CommandLine.Run
import SourceIndex.Digest.Bytes
import SourceIndex.Digest.NameId
import SourceIndex.Digest.Sha1
import SourceIndex.Digest.Sha256
import SourceIndex.Disk.Basic
import SourceIndex.Disk.Edit
import SourceIndex.Embed.Client
import SourceIndex.Embed.Http
import SourceIndex.Embed.Settings
import SourceIndex.Error
import SourceIndex.Ignore.Glob
import SourceIndex.Ignore.Listing
import SourceIndex.Ignore.RuleFile
import SourceIndex.Ignore.Rules
import SourceIndex.Index.Action
import SourceIndex.Index.Batch
import SourceIndex.Index.Change
import SourceIndex.Index.Lifecycle
import SourceIndex.Index.Manager
import SourceIndex.Index.Providers
import SourceIndex.Index.Registry
import SourceIndex.Index.Scan
import SourceIndex.Index.Search
import SourceIndex.Json.Basic
import SourceIndex.Json.Parser
import SourceIndex.Json.Printer
import SourceIndex.Json.Record
import SourceIndex.Language
import SourceIndex.Main
import SourceIndex.Number.Binary
import SourceIndex.Number.Decimal
import SourceIndex.Number.Stored
import SourceIndex.Path.Basic
import SourceIndex.Point.Basic
import SourceIndex.Point.Codec
import SourceIndex.Program
import SourceIndex.Proofs.Block.Containment
import SourceIndex.Proofs.Block.Kept
import SourceIndex.Proofs.Block.Precedence
import SourceIndex.Proofs.Block.Records
import SourceIndex.Proofs.Cache.Failures
import SourceIndex.Proofs.Cache.Hashes
import SourceIndex.Proofs.Cache.Persistence
import SourceIndex.Proofs.Chunk.Blanks
import SourceIndex.Proofs.Chunk.Boundaries
import SourceIndex.Proofs.Chunk.Columns
import SourceIndex.Proofs.Chunk.Cuts
import SourceIndex.Proofs.Chunk.Drafts
import SourceIndex.Proofs.Chunk.Duplicates
import SourceIndex.Proofs.Chunk.Frontier
import SourceIndex.Proofs.Chunk.Nesting
import SourceIndex.Proofs.Chunk.Places
import SourceIndex.Proofs.Chunk.Positions
import SourceIndex.Proofs.Chunk.Repeats
import SourceIndex.Proofs.Chunk.Sizes
import SourceIndex.Proofs.Chunk.Stretches
import SourceIndex.Proofs.Chunk.Survivors
import SourceIndex.Proofs.Disk.Replacing
import SourceIndex.Proofs.Embed.Order
import SourceIndex.Proofs.Entries
import SourceIndex.Proofs.Ignore.Choices
import SourceIndex.Proofs.Ignore.Walks
import SourceIndex.Proofs.Index.Accounts
import SourceIndex.Proofs.Index.Agreement
import SourceIndex.Proofs.Index.Backpressure
import SourceIndex.Proofs.Index.Batches
import SourceIndex.Proofs.Index.Calls
import SourceIndex.Proofs.Index.Changes
import SourceIndex.Proofs.Index.Cleanups
import SourceIndex.Proofs.Index.Concurrency
import SourceIndex.Proofs.Index.Counts
import SourceIndex.Proofs.Index.Crashes
import SourceIndex.Proofs.Index.Crew
import SourceIndex.Proofs.Index.Deletions
import SourceIndex.Proofs.Index.Displays
import SourceIndex.Proofs.Index.Durability
import SourceIndex.Proofs.Index.Effects
import SourceIndex.Proofs.Index.Fates
import SourceIndex.Proofs.Index.Gathering
import SourceIndex.Proofs.Index.Histories
import SourceIndex.Proofs.Index.Idempotence
import SourceIndex.Proofs.Index.Jobs
import SourceIndex.Proofs.Index.Landings
import SourceIndex.Proofs.Index.Lineages
import SourceIndex.Proofs.Index.Mirrors
import SourceIndex.Proofs.Index.Outcomes
import SourceIndex.Proofs.Index.Outdated
import SourceIndex.Proofs.Index.Overlaps
import SourceIndex.Proofs.Index.Provenance
import SourceIndex.Proofs.Index.Reconfigurations
import SourceIndex.Proofs.Index.Recoveries
import SourceIndex.Proofs.Index.Refusals
import SourceIndex.Proofs.Index.Replacements
import SourceIndex.Proofs.Index.Reports
import SourceIndex.Proofs.Index.Requests
import SourceIndex.Proofs.Index.Rescans
import SourceIndex.Proofs.Index.Responses
import SourceIndex.Proofs.Index.Scans
import SourceIndex.Proofs.Index.Scenes
import SourceIndex.Proofs.Index.Segments
import SourceIndex.Proofs.Index.Serial
import SourceIndex.Proofs.Index.Snapshots
import SourceIndex.Proofs.Index.Standing
import SourceIndex.Proofs.Index.Steady
import SourceIndex.Proofs.Index.Stops
import SourceIndex.Proofs.Index.Storing
import SourceIndex.Proofs.Index.Sweeps
import SourceIndex.Proofs.Index.Texts
import SourceIndex.Proofs.Index.Transients
import SourceIndex.Proofs.Index.Turns
import SourceIndex.Proofs.Index.Upkeep
import SourceIndex.Proofs.Index.Vanishing
import SourceIndex.Proofs.Index.Wholeness
import SourceIndex.Proofs.Json.Records
import SourceIndex.Proofs.Json.RoundTrip
import SourceIndex.Proofs.Path.Levels
import SourceIndex.Proofs.Path.Names
import SourceIndex.Proofs.Point.Identity
import SourceIndex.Proofs.Point.Key
import SourceIndex.Proofs.Program.Abreast
import SourceIndex.Proofs.Program.Approaches
import SourceIndex.Proofs.Program.Crews
import SourceIndex.Proofs.Program.Exchanges
import SourceIndex.Proofs.Program.Interleavings
import SourceIndex.Proofs.Program.Passages
import SourceIndex.Proofs.Program.Runs
import SourceIndex.Proofs.Program.Tracking
import SourceIndex.Proofs.Program.Upholding
import SourceIndex.Proofs.Progress
import SourceIndex.Proofs.Retries
import SourceIndex.Proofs.Store.Filters
import SourceIndex.Proofs.Store.Points
import SourceIndex.Proofs.Store.Records
import SourceIndex.Proofs.Syntax.Containers
import SourceIndex.Proofs.Syntax.Definitions
import SourceIndex.Proofs.Syntax.Lines
import SourceIndex.Proofs.Syntax.Traversal
import SourceIndex.Retry
import SourceIndex.Scenario.Script
import SourceIndex.Scenario.World
import SourceIndex.Settings.Basic
import SourceIndex.Settings.Loading
import SourceIndex.Settings.Reading
import SourceIndex.Status
import SourceIndex.Store.Address
import SourceIndex.Store.Collection
import SourceIndex.Store.Memory
import SourceIndex.Store.Protocol
import SourceIndex.Syntax.Definition
import SourceIndex.Syntax.Hierarchy
import SourceIndex.Syntax.Source
import SourceIndex.Syntax.Tree
import SourceIndex.Text.Blank
import SourceIndex.Toml.Basic
import SourceIndex.Toml.Document
import SourceIndex.Toml.Record
import SourceIndex.Toml.Scalar
