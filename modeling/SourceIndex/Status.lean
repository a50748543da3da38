import SourceIndex.Json.Basic
/-!
# Published status

What the index tells the outside about its state: one of four states, a message, and counters with a
unit. The three operations are a change of state, progress in blocks during a scan, and progress in
files while a batch of changes is worked through.
-/

namespace SourceIndex

/-- State of a workspace's index. -/
inductive IndexState where
  | standby
  | indexing
  | indexed
  | error
deriving DecidableEq, Repr

namespace IndexState

def all : List IndexState := [.standby, .indexing, .indexed, .error]

def name : IndexState → String
  | .standby => "Standby"
  | .indexing => "Indexing"
  | .indexed => "Indexed"
  | .error => "Error"

def ofName? (s : String) : Option IndexState :=
  all.find? fun state => state.name == s

end IndexState

/-- What the counters count. -/
inductive ItemUnit where
  | blocks
  | files
deriving DecidableEq, Repr

def ItemUnit.name : ItemUnit → String
  | .blocks => "blocks"
  | .files => "files"

/-- Snapshot of the published status. -/
structure Status where
  state : IndexState := .standby
  message : String := ""
  processed : Nat := 0
  total : Nat := 0
  unit : ItemUnit := .blocks
deriving DecidableEq, Repr

namespace Status

/-- Switch state. The counters start over when the state changes to anything but `indexing`. -/
def setState (s : Status) (state : IndexState) (message : String) : Status :=
  let s := if s.state != state && state != .indexing then
      { s with processed := 0, total := 0, unit := .blocks }
    else s
  { s with state := state, message := message }

/-- Progress of a scan. -/
def reportBlocks (_ : Status) (indexed found : Nat) : Status where
  state := .indexing
  message := s!"Indexed {indexed} / {found} blocks found"
  processed := indexed
  total := found
  unit := .blocks

/-- Progress of a batch of changed files. -/
def reportFiles (_ : Status) (processed total : Nat) (current : Option String) : Status :=
  if processed < total then
    { state := .indexing
      message := match current with
        | some file => s!"Processing {processed} / {total} files. Current: {file}"
        | none => s!"Processing {processed} / {total} files"
      processed := processed
      total := total
      unit := .files }
  else
    { state := .indexed
      message := s!"Finished processing {total} files from queue"
      processed := processed
      total := total
      unit := .files }

def toJson (s : Status) : Json :=
  .obj
    [("systemStatus", .str s.state.name),
     ("message", .str s.message),
     ("processedItems", .ofNat s.processed),
     ("totalItems", .ofNat s.total),
     ("currentItemUnit", .str s.unit.name)]

end Status

end SourceIndex
