import SourceIndex.Block.Basic
import SourceIndex.Chunk.Policy
/-!
# Cutting by lines

Text without a usable syntax tree is cut between its lines. `cutLines` covers the lines, in order,
by runs that fit the policy and by single lines that do not; `pieceDrafts` says which of these become
blocks: a run of sufficient length becomes one, an overlong line becomes one per piece.
-/

namespace SourceIndex.Chunk

/-- A line and the length it counts for: its characters and, except for the last line, its break. -/
structure Line where
  text : List Char
  length : Nat
deriving DecidableEq

/-- Total length of lines. -/
def totalLength (lines : List Line) : Nat :=
  lines.foldr (fun line n => line.length + n) 0

/-- Count the break of every line but the last. -/
def measure : List (List Char) → List Line
  | [] => []
  | [l] => [⟨l, l.length⟩]
  | l :: ls => ⟨l, l.length + 1⟩ :: measure ls

/-- The lines of a text; a text with `n` breaks has `n + 1`. -/
def linesOf (text : List Char) : List Line :=
  measure (text.splitOn '\n')

/-- A stretch of lines, with the zero-based index of its first line. -/
inductive Stretch where
  /-- Lines that together fit the policy. -/
  | run (first : Nat) (lines : List Line)
  /-- One line that does not. -/
  | overlong (index : Nat) (line : Line)
deriving DecidableEq

/-- How many lines of `run` to keep in a run that has to end before `rest`: all of them, unless what
would be left is too small to stand alone and an earlier cut leaves both parts large enough. The
latest such cut is taken. -/
def splitPoint (p : ChunkPolicy) (run rest : List Line) : Nat :=
  let whole := run.length
  if totalLength run < p.minBlock || p.minRemainder ≤ totalLength rest || whole < 2 then whole
  else
    let fits (k : Nat) : Bool :=
      p.minBlock ≤ totalLength (run.take k) &&
        p.minRemainder ≤ totalLength (run.drop k) + totalLength rest
    (((List.range (whole - 1)).reverse.map (· + 1)).find? fits).getD whole

/-- `splitPoint` made safe for recursion: at least one line is kept. -/
def splitCount (p : ChunkPolicy) (run rest : List Line) : Nat :=
  max 1 (splitPoint p run rest)

/-- Cut lines into stretches. `run` holds the lines gathered since index `first`. A line that does
not fit behind a non-empty run ends it at `splitCount`; the lines behind that point are gathered
again. -/
def cutLines (p : ChunkPolicy) (first : Nat) (run rest : List Line) : List Stretch :=
  match rest with
  | [] => if run.isEmpty then [] else [.run first run]
  | line :: rest =>
    if p.effectiveMax < line.length then
      let after := .overlong (first + run.length) line ::
        cutLines p (first + run.length + 1) [] rest
      if run.isEmpty then after else .run first run :: after
    else if 0 < totalLength run && p.effectiveMax < totalLength run + line.length then
      match run with
      | [] => cutLines p first [line] rest
      | r :: rs =>
        let k := splitCount p (r :: rs) (line :: rest)
        .run first ((r :: rs).take k) ::
          cutLines p (first + k) [] ((r :: rs).drop k ++ line :: rest)
    else cutLines p first (run ++ [line]) rest
termination_by (run.length + rest.length, rest.length)
decreasing_by
  · apply Prod.Lex.left
    simp only [List.length_cons, List.length_nil]
    omega
  · apply Prod.Lex.right'
    · simp only [List.length_cons, List.length_nil]
      omega
    · simp only [List.length_cons]
      omega
  · apply Prod.Lex.left
    have : 1 ≤ splitCount p (r :: rs) (line :: rest) := Nat.le_max_left ..
    simp only [List.length_drop, List.length_append, List.length_cons, List.length_nil]
    omega
  · apply Prod.Lex.right'
    · simp only [List.length_append, List.length_cons, List.length_nil]
      omega
    · simp only [List.length_cons]
      omega

/-- Pieces of `width` characters; the last one may be shorter. -/
def pieces (width : Nat) (s : List Char) : List (List Char) :=
  match s with
  | [] => []
  | c :: s => (c :: s.take (width - 1)) :: pieces width (s.drop (width - 1))
termination_by s.length
decreasing_by
  simp only [List.length_drop, List.length_cons]
  omega

/-- What the blocks of one text have in common: the kind of node they come from, the containers
around it, and the line on which the text begins. -/
structure Setting where
  blockType : String
  parentChain : List Syntax.ParentContainer
  baseLine : Nat

/-- The blocks of a stretch. A run becomes a block if its text is long enough; the empty last line of
a text never does. Pieces of an overlong line are not held to the lower limit. -/
def stretchDrafts (p : ChunkPolicy) (s : Setting) : Stretch → List Draft
  | .run first lines =>
    let content := List.intercalate ['\n'] (lines.map (·.text))
    if totalLength lines == 0 || content.length < p.minBlock then []
    else
      [{ identifier := none
         blockType := s.blockType
         startLine := s.baseLine + first
         endLine := s.baseLine + first + lines.length - 1
         offset := none
         content := String.ofList content
         chunkSource := .fallback
         parentChain := s.parentChain
         hierarchyDisplay := Syntax.display s.parentChain none s.blockType none }]
  | .overlong index line =>
    let blockType := s.blockType ++ "_segment"
    (pieces p.pieceWidth line.text).zipIdx.map fun (piece, n) =>
      { identifier := none
        blockType := blockType
        startLine := s.baseLine + index
        endLine := s.baseLine + index
        offset := some (n * p.pieceWidth)
        content := String.ofList piece
        chunkSource := .lineSegment
        parentChain := s.parentChain
        hierarchyDisplay := Syntax.display s.parentChain none blockType none }

/-- The blocks of a text cut by lines. -/
def lineDrafts (p : ChunkPolicy) (s : Setting) (text : List Char) : List Draft :=
  (cutLines p 0 [] (linesOf text)).flatMap (stretchDrafts p s)

end SourceIndex.Chunk
