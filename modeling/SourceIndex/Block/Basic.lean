import SourceIndex.Digest.Sha256
import SourceIndex.Syntax.Hierarchy
/-!
# Blocks

A block is a contiguous span of one file that is embedded as one text. Main definitions:

* `Block.contains`: one block lies inside another by lines and by text;
* `contentHash` and `segmentHash`: the identities of a file's content and of a block;
* `Sink`: the blocks of one file collected so far, each segment hash once.
-/

namespace SourceIndex

/-- How a block was cut. Earlier constructors take precedence when blocks overlap. -/
inductive ChunkSource where
  /-- A node of the syntax tree. -/
  | grammar
  /-- A run of lines. -/
  | fallback
  /-- A piece of one overlong line. -/
  | lineSegment
deriving DecidableEq, Repr

namespace ChunkSource

def all : List ChunkSource := [.grammar, .fallback, .lineSegment]

def name : ChunkSource → String
  | .grammar => "grammar"
  | .fallback => "fallback"
  | .lineSegment => "line-segment"

def ofName? (s : String) : Option ChunkSource :=
  all.find? fun source => source.name == s

/-- Precedence; a smaller rank wins. -/
def rank : ChunkSource → Nat
  | .grammar => 0
  | .fallback => 1
  | .lineSegment => 2

end ChunkSource

/-- A span of one file. Lines are one-based and inclusive. -/
structure Block where
  filePath : String
  identifier : Option String
  blockType : String
  startLine : Nat
  endLine : Nat
  /-- Character offset of a piece cut from one overlong line. -/
  lineOffset : Option Nat
  content : String
  fileHash : String
  segmentHash : String
  chunkSource : ChunkSource
  parentChain : List Syntax.ParentContainer
  hierarchyDisplay : Option String
deriving DecidableEq

/-- Whether `inner` lies inside `outer`: same file, lines within, text within. -/
def Block.contains (outer inner : Block) : Bool :=
  outer.filePath == inner.filePath && outer.startLine ≤ inner.startLine &&
    inner.endLine ≤ outer.endLine && Text.occursIn inner.content.toList outer.content.toList

/-- The identity of a file's content. -/
def contentHash (content : String) : String :=
  Digest.sha256Hex content

/-- The text whose digest identifies a block: path, lines, the offset if there is one, content. -/
def segmentKey (filePath : String) (startLine endLine : Nat) (offset : Option Nat)
    (content : String) : String :=
  let salt := match offset with
    | some n => s!"{n}-"
    | none => ""
  s!"{filePath}-{startLine}-{endLine}-{salt}{content}"

/-- The identity of a block. -/
def segmentHash (filePath : String) (startLine endLine : Nat) (offset : Option Nat)
    (content : String) : String :=
  Digest.sha256Hex (segmentKey filePath startLine endLine offset content)

/-- A block before its file and its identity are known. -/
structure Draft where
  identifier : Option String
  blockType : String
  startLine : Nat
  endLine : Nat
  offset : Option Nat
  content : String
  chunkSource : ChunkSource
  parentChain : List Syntax.ParentContainer
  hierarchyDisplay : Option String

/-- The block that a draft becomes in a file. -/
def Draft.toBlock (filePath fileHash : String) (d : Draft) : Block where
  filePath := filePath
  identifier := d.identifier
  blockType := d.blockType
  startLine := d.startLine
  endLine := d.endLine
  lineOffset := d.offset
  content := d.content
  fileHash := fileHash
  segmentHash := segmentHash filePath d.startLine d.endLine d.offset d.content
  chunkSource := d.chunkSource
  parentChain := d.parentChain
  hierarchyDisplay := d.hierarchyDisplay

/-- The blocks collected for one file, the last one first. -/
structure Sink where
  filePath : String
  fileHash : String
  collected : List Block := []

namespace Sink

/-- Add a draft unless its segment hash is there already; also tells whether it was added. -/
def push (s : Sink) (d : Draft) : Sink × Bool :=
  let block := d.toBlock s.filePath s.fileHash
  if s.collected.any fun b => b.segmentHash == block.segmentHash then (s, false)
  else ({ s with collected := block :: s.collected }, true)

/-- Add drafts in order. -/
def pushAll (s : Sink) (drafts : List Draft) : Sink :=
  drafts.foldl (fun s d => (s.push d).1) s

/-- The collected blocks in the order they came. -/
def toBlocks (s : Sink) : List Block :=
  s.collected.reverse

end Sink

end SourceIndex
