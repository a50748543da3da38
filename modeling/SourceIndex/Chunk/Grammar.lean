import SourceIndex.Chunk.Lines
/-!
# Cutting along definitions

`visit` works through a queue of nodes that starts with a file's definitions. A node that fits the
policy becomes a block, one that is too long makes room for its children, and a childless one that is
too long is cut by lines; what is too short is dropped.

`Reached` describes the visited nodes without the queue: the definitions, and the children of every
reached node that is too long.
-/

namespace SourceIndex.Chunk

open Syntax

/-- The block of a node that fits the policy. -/
def nodeDraft (source : Source) (c : Cursor) : Draft :=
  let identifier := c.identifier? source
  let chain := parentChain source c
  { identifier := identifier
    blockType := c.kind
    startLine := source.lineOf c.tree.label.start
    endLine := source.lineOf c.tree.label.stop
    offset := none
    content := String.ofList (c.tree.text source)
    chunkSource := .grammar
    parentChain := chain
    hierarchyDisplay := display chain (containerType? c) c.kind identifier }

/-- The blocks of a childless node that is too long. -/
def leafDrafts (p : ChunkPolicy) (source : Source) (c : Cursor) : List Draft :=
  lineDrafts p ⟨c.kind, parentChain source c, source.lineOf c.tree.label.start⟩
    (c.tree.text source)

/-- Work through a queue of nodes, front first; children join it at the back. -/
def visit (p : ChunkPolicy) (source : Source) (queue : List Cursor) : List Draft :=
  match queue with
  | [] => []
  | c :: rest =>
    let length := (c.tree.text source).length
    if length < p.minBlock then visit p source rest
    else if p.effectiveMax < length then
      if c.tree.children.isEmpty then leafDrafts p source c ++ visit p source rest
      else visit p source (rest ++ c.children)
    else nodeDraft source c :: visit p source rest
termination_by Cursor.totalSize queue
decreasing_by
  all_goals
    first
    | (rw [Cursor.totalSize_append, Cursor.totalSize_cons]
       have := Cursor.totalSize_children_lt c
       omega)
    | (rw [Cursor.totalSize_cons, Tree.size_eq]
       omega)

/-- The nodes that are looked at when a file with the given definitions is cut. -/
inductive Reached (p : ChunkPolicy) (source : Source) (definitions : List Cursor) :
    Cursor → Prop where
  | definition {c : Cursor} : c ∈ definitions → Reached p source definitions c
  | child {c d : Cursor} : Reached p source definitions c →
      p.minBlock ≤ (c.tree.text source).length → p.effectiveMax < (c.tree.text source).length →
      d ∈ c.children → Reached p source definitions d

/-- The block type of pieces of a file without definitions. -/
def wholeFileType : String := "fallback_chunk"

/-- The blocks of a text taken as a whole, unless it is too short. -/
def wholeFileDrafts (p : ChunkPolicy) (text : List Char) : List Draft :=
  if text.length < p.minBlock then [] else lineDrafts p ⟨wholeFileType, [], 1⟩ text

/-- The blocks of a file with a syntax tree. Without definitions it is taken as a whole. -/
def grammarDrafts (p : ChunkPolicy) (language : Language) (source : Source) (root : Tree) :
    List Draft :=
  let definitions := collect language root
  if definitions.isEmpty then wholeFileDrafts p source.text else visit p source definitions

end SourceIndex.Chunk
