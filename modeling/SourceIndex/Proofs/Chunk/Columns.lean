import Mathlib.Data.List.Infix
import SourceIndex.Proofs.Chunk.Nesting
import SourceIndex.Proofs.Chunk.Places
import SourceIndex.Proofs.Chunk.Repeats
/-!
# Columns of pieces

The offset of a piece is counted in the text that was cut (`standsIn_line_of_mem_lineDrafts`). Where this is the
file, the piece stands at that column of its line. The text of a node, though, begins at a column of its own,
and its first line is the rest of a line of the file (`exists_line_of_append`): the pieces of that line stand
farther on by as much as there is in front of the node, and those of its other lines stand where they say.
`standsAt_of_treeKnown` says so of the blocks of a file, and `not_standsAt_literal` is a literal inside a line
whose pieces do not stand at their offsets.
-/

namespace SourceIndex

/-- What follows a text stands behind so many characters of its line. -/
def column (front : List Char) : Nat :=
  ((front.splitOn '\n').getLastD []).length

/-- The column of a byte offset, as `Source.lineOf` is its line. -/
def Syntax.Source.columnOf (source : Source) (offset : Nat) : Nat :=
  column (takeBytes offset source.text)

/-- The content of a block is found in a text, behind so many characters of the line on which the block
begins. -/
def Block.StandsAt (text : List Char) (column : Nat) (b : Block) : Prop :=
  ∃ i line, b.startLine = i + 1 ∧ (text.splitOn '\n')[i]? = some line ∧
    b.content.toList <+: line.drop column

namespace Chunk

open Syntax

variable {trees : TreeSource} {p : ChunkPolicy} {source : Source} {path content fileHash : String}
  {front rest back text line : List Char} {s : Setting} {x : Stretch} {c : Cursor} {d : Draft} {i o : Nat}

/-! ## Lines of a text that is put together -/

/-- Where two texts meet, the last line of the first one and the first line of the second one become one. -/
theorem exists_splitOn_append (front rest : List Char) : ∃ init last first tail,
    front.splitOn '\n' = init ++ [last] ∧ rest.splitOn '\n' = first :: tail ∧
      (front ++ rest).splitOn '\n' = init ++ (last ++ first) :: tail := by
  induction front with
  | nil =>
    obtain ⟨first, tail, hrest⟩ := List.exists_cons_of_ne_nil (List.splitOn_ne_nil '\n' rest)
    exact ⟨[], [], first, tail, rfl, hrest, hrest⟩
  | cons c front ih =>
    obtain ⟨init, last, first, tail, hfront, hrest, hjoin⟩ := ih
    rw [List.cons_append, List.splitOn_cons_eq_if_modifyHead, List.splitOn_cons_eq_if_modifyHead, hfront, hjoin]
    by_cases hbreak : (c == '\n') = true
    · rw [if_pos hbreak, if_pos hbreak]
      exact ⟨[] :: init, last, first, tail, rfl, hrest, rfl⟩
    · rw [if_neg hbreak, if_neg hbreak]
      cases init with
      | nil => exact ⟨[], c :: last, first, tail, rfl, hrest, rfl⟩
      | cons l init => exact ⟨(c :: l) :: init, last, first, tail, rfl, hrest, rfl⟩

theorem length_splitOn (text : List Char) : (text.splitOn '\n').length = text.count '\n' + 1 := by
  rw [← length_linesOf, linesOf, ← List.length_map Line.text, map_text_measure]

/-- A line of a text is what is left of a line of the whole text behind the column at which the text begins,
if it is the first one, and all of that line if it is not. -/
theorem exists_line_of_append (front : List Char) (hline : (rest.splitOn '\n')[i]? = some line) :
    ∃ whole, ((front ++ rest).splitOn '\n')[front.count '\n' + i]? = some whole ∧
      whole.drop (if i = 0 then column front else 0) = line := by
  obtain ⟨init, last, first, tail, hfront, hrest, hjoin⟩ := exists_splitOn_append front rest
  have hcount : front.count '\n' = init.length := by
    have hlength := length_splitOn front
    rw [hfront, List.length_append, List.length_singleton] at hlength
    omega
  have hcolumn : column front = last.length := by
    rw [column, hfront, List.getLastD_concat]
  rw [hrest] at hline
  rw [hjoin, hcount, List.getElem?_append_right (Nat.le_add_right ..), Nat.add_sub_cancel_left]
  cases i with
  | zero =>
    cases hline
    refine ⟨_, rfl, ?_⟩
    rw [if_pos rfl, hcolumn, List.drop_left]
  | succ i => exact ⟨line, hline, rfl⟩

/-- A line of a text goes on as a line of the whole text. -/
theorem exists_line_of_prefix (back : List Char) (hline : (text.splitOn '\n')[i]? = some line) :
    ∃ whole, ((text ++ back).splitOn '\n')[i]? = some whole ∧ line <+: whole := by
  obtain ⟨init, last, first, tail, htext, -, hjoin⟩ := exists_splitOn_append text back
  rw [htext] at hline
  rw [hjoin]
  rcases Nat.lt_trichotomy i init.length with hlt | rfl | hgt
  · rw [List.getElem?_append_left hlt] at hline ⊢
    exact ⟨line, hline, List.prefix_refl line⟩
  · rw [List.getElem?_append_right (Nat.le_refl _), Nat.sub_self] at hline ⊢
    cases hline
    exact ⟨_, rfl, List.prefix_append ..⟩
  · rw [List.getElem?_eq_none (by rw [List.length_append, List.length_singleton]; omega)] at hline
    cases hline

/-! ## Pieces -/

/-- A piece stands at its offset of a line of the text that was cut. -/
theorem standsIn_line_of_mem_lineDrafts (h : d ∈ lineDrafts p s text) (hoffset : d.offset = some o) :
    d.content.toList ≠ [] ∧ ∃ i line, d.startLine = s.baseLine + i ∧ (text.splitOn '\n')[i]? = some line ∧
      d.content.toList <+: line.drop o := by
  obtain ⟨x, hx, hd⟩ := List.mem_flatMap.1 h
  cases x with
  | run first part =>
    rw [offset_of_mem_stretchDrafts_run hd] at hoffset
    cases hoffset
  | overlong index l =>
    obtain ⟨⟨piece, n⟩, hpiece, rfl⟩ := List.mem_map.1 hd
    cases hoffset
    rw [List.mk_mem_zipIdx_iff_getElem?] at hpiece
    obtain ⟨hplace, hsome⟩ := getElem?_pieces pieceWidth_pos hpiece
    simp only [String.toList_ofList]
    refine ⟨hsome, index, l.text, rfl, getElem?_of_overlong_mem hx, ?_⟩
    rw [hplace]
    exact List.take_prefix ..

/-- A piece of a text that is taken as a whole stands at its offset. -/
theorem standsAt_of_mem_wholeFileDrafts (h : d ∈ wholeFileDrafts p text) (hoffset : d.offset = some o) :
    d.content.toList ≠ [] ∧ (d.toBlock path fileHash).StandsAt text o := by
  unfold wholeFileDrafts at h
  split at h
  · cases h
  · obtain ⟨hsome, i, line, hstart, hline, hprefix⟩ := standsIn_line_of_mem_lineDrafts h hoffset
    exact ⟨hsome, i, line, hstart.trans (Nat.add_comm 1 i), hline, hprefix⟩

/-- How much stands in front of the text of a node on a line of it: the column at which it begins, on its
first line. -/
def lead (source : Source) (c : Cursor) (line : Nat) : Nat :=
  if line = source.lineOf c.tree.label.start then source.columnOf c.tree.label.start else 0

/-- A piece of a node stands at its offset behind what stands in front of the node. -/
theorem standsAt_of_mem_leafDrafts (aligned : c.tree.Aligned source) (h : d ∈ leafDrafts p source c)
    (hoffset : d.offset = some o) : d.content.toList ≠ [] ∧
      (d.toBlock path fileHash).StandsAt source.text (lead source c d.startLine + o) := by
  obtain ⟨front, back, htext, hstart, -, hfront⟩ := aligned.exists_text
  obtain ⟨hsome, i, line, hplace, hline, hprefix⟩ := standsIn_line_of_mem_lineDrafts h hoffset
  obtain ⟨longer, hlonger, hcontinues⟩ := exists_line_of_prefix back hline
  obtain ⟨whole, hwhole, hrest⟩ := exists_line_of_append front hlonger
  rw [← List.append_assoc, ← htext] at hwhole
  have hlead : lead source c d.startLine = if i = 0 then column front else 0 := by
    rw [lead, hplace, Source.columnOf, hfront]
    simp only [Nat.add_eq_left]
  have hplace : d.startLine = source.lineOf c.tree.label.start + i := hplace
  refine ⟨hsome, front.count '\n' + i, whole, ?_, hwhole, ?_⟩
  · show d.startLine = _
    rw [hplace, hstart]
    omega
  · show d.content.toList <+: _
    rw [hlead, ← List.drop_drop, hrest]
    exact hprefix.trans (hcontinues.drop o)

/-- A block is a piece of a childless node that is too long, in a file with this tree. -/
structure PieceOf (p : ChunkPolicy) (path content fileHash : String) (root : Tree) (c : Cursor) (b : Block) :
    Prop where
  visited : Visited p path content root c
  splits : Splits p (.ofText content.toList) c
  childless : c.tree.children = []
  draft : ∃ d ∈ leafDrafts p (.ofText content.toList) c, d.toBlock path fileHash = b

/-- Where the pieces of a file stand. In a file that is taken as a whole each stands at its offset. In other
files each is a piece of a childless node that is too long, and stands at its offset behind what stands in front
of that node on the same line. -/
theorem standsAt_of_treeKnown (known : TreeKnown trees path content)
    (aligned : ∀ root, trees (Language.ofPath path) content = some root →
      root.Aligned (.ofText content.toList)) :
    ∃ blocks, tryParse trees p path content fileHash = .ok blocks ∧
      ∀ b ∈ blocks, ∀ o, b.lineOffset = some o → b.content.toList ≠ [] ∧
        (TakenWhole trees path content → b.StandsAt content.toList o) ∧
        (¬TakenWhole trees path content → ∃ root c, trees (Language.ofPath path) content = some root ∧
          PieceOf p path content fileHash root c b ∧
            b.StandsAt content.toList (lead (.ofText content.toList) c b.startLine + o)) := by
  refine ⟨_, tryParse_eq_of_treeKnown known, ?_⟩
  intro b hb o hoffset
  obtain ⟨d, hd, rfl⟩ := exists_draft_of_mem_parse hb
  have hoffset : d.offset = some o := hoffset
  by_cases whole : TakenWhole trees path content
  · rcases @draftsOf_of_takenWhole trees p path content whole with heq | heq
    · rw [heq] at hd
      cases hd
    · obtain ⟨hsome, hstands⟩ := @standsAt_of_mem_wholeFileDrafts p path fileHash _ d o (heq ▸ hd) hoffset
      exact ⟨hsome, fun _ => hstands, fun hparts => absurd whole hparts⟩
  · have hparts := whole
    unfold TakenWhole at hparts
    push Not at hparts
    obtain ⟨grammar, root, tree, definitions⟩ := hparts
    obtain ⟨c, hc, x, hx, hd⟩ := (mem_draftsOf grammar tree definitions).1 hd
    have hnode : x.tree.Aligned (.ofText content.toList) :=
      hereditary_of_reached Tree.Aligned.hereditary (fun y hy =>
        List.mem_singleton.1 hy ▸ Tree.Aligned.hereditary.of_mem_collect (aligned root tree) hc) hx
    rcases mem_nodeDrafts.1 hd with ⟨-, rfl⟩ | ⟨splits, childless, hd⟩
    · cases hoffset
    · obtain ⟨hsome, hstands⟩ := @standsAt_of_mem_leafDrafts p _ path fileHash x d o hnode hd hoffset
      refine ⟨hsome, fun h => absurd h whole, fun _ => ⟨root, x, tree, ?_, hstands⟩⟩
      exact ⟨reached_iff.2 ⟨c, hc, hx⟩, splits, childless, d, hd, rfl⟩

/-! ### A literal that does not begin its line -/

/-- A definition with a text of 26 characters in it. -/
def literal : String := "static FIRST: &str = \"abcdefghijklmnopqrstuvwxyz\";"

/-- Blocks of 10 to 23 characters, and pieces of 20. -/
def shortPieces : ChunkPolicy where
  minBlock := 10
  maxBlock := 20

/-- A node without children that is not named. -/
def token (kind : String) (start stop : Nat) : Tree := .node ⟨kind, false, start, stop, none⟩ []

def literalLeaf : Tree := .node ⟨"string_content", true, 22, 48, none⟩ []

def literalNode : Tree :=
  .node ⟨"string_literal", true, 21, 49, some "value"⟩ [token "\"" 21 22, literalLeaf, token "\"" 48 49]

/-- What stands in front of the literal. -/
def literalFront : List Tree :=
  [token "static" 0 6, .node ⟨"identifier", true, 7, 12, some "name"⟩ [], token ":" 12 13,
    .node ⟨"reference_type", true, 14, 18, some "type"⟩
      [token "&" 14 15, .node ⟨"primitive_type", true, 15, 18, some "type"⟩ []],
    token "=" 19 20]

def literalItem : Tree :=
  .node ⟨"static_item", true, 0, 50, none⟩ (literalFront ++ [literalNode, token ";" 49 50])

def literalTree : Tree := .node ⟨"source_file", true, 0, 50, none⟩ [literalItem]

/-- The text in the literal, as a node of the tree. -/
def literalCursor : Cursor := ⟨literalLeaf, [literalNode, literalItem, literalTree]⟩

/-- The ranges of the tree are aligned, since all characters are single bytes. -/
theorem aligned_literalTree : literalTree.Aligned (.ofText literal.toList) := by
  have hboundary : ∀ n ≤ 50, Source.IsBoundary (.ofText literal.toList) n := by
    intro n hn
    have hbytes : ∀ n ≤ 50, byteLength (literal.toList.take n) = n := by decide +kernel
    exact ⟨_, _, (List.take_append_drop n literal.toList).symm, hbytes n hn⟩
  have hnode {label : Label} {children : List Tree} (h : label.start ≤ label.stop ∧ label.stop ≤ 50)
      (below : ∀ t ∈ children, t.Aligned (.ofText literal.toList)) :
      (Syntax.Tree.node label children).Aligned (.ofText literal.toList) :=
    .node (hboundary _ (Nat.le_trans h.1 h.2)) (hboundary _ h.2) h.1 below
  have hliteral : literalNode.Aligned (.ofText literal.toList) := by
    refine hnode (by decide) ?_
    simp only [List.forall_mem_cons]
    exact ⟨hnode (by decide) nofun, hnode (by decide) nofun, hnode (by decide) nofun, nofun⟩
  refine hnode (by decide) (List.forall_mem_singleton.2 (hnode (by decide) ?_))
  simp only [literalFront, List.cons_append, List.nil_append, List.forall_mem_cons]
  refine ⟨hnode (by decide) nofun, hnode (by decide) nofun, hnode (by decide) nofun, hnode (by decide) ?_,
    hnode (by decide) nofun, hliteral, hnode (by decide) nofun, nofun⟩
  simp only [List.forall_mem_cons]
  exact ⟨hnode (by decide) nofun, hnode (by decide) nofun, nofun⟩

/-- The file has one definition. -/
theorem collect_literal : collect (Language.ofPath "/w/a.rs") literalTree = [⟨literalItem, [literalTree]⟩] := by
  rw [collect_eq, definitionsOf, List.filter_eq_cons_iff]
  exact ⟨[Cursor.ofRoot literalTree], (Cursor.namedChildren ⟨literalItem, [literalTree]⟩).flatMap Cursor.preorder,
    rfl, by decide +kernel, by decide +kernel, List.filter_eq_nil_iff.2 (by decide +kernel)⟩

/-- The definition and the literal make room, and what is left is the text in the literal. -/
theorem draftsOf_literal : draftsOf (fun _ _ => some literalTree) shortPieces "/w/a.rs" literal =
    leafDrafts shortPieces (.ofText literal.toList) literalCursor := by
  have hitem : Splits shortPieces (.ofText literal.toList) ⟨literalItem, [literalTree]⟩ := by decide +kernel
  have hnode : Splits shortPieces (.ofText literal.toList) ⟨literalNode, [literalItem, literalTree]⟩ := by
    decide +kernel
  have hleaf : Splits shortPieces (.ofText literal.toList) literalCursor := by decide +kernel
  have hchildren : Cursor.children ⟨literalItem, [literalTree]⟩ =
      literalFront.map (fun t => ⟨t, [literalItem, literalTree]⟩) ++
        [⟨literalNode, [literalItem, literalTree]⟩, ⟨token ";" 49 50, [literalItem, literalTree]⟩] := rfl
  have hqueue : [⟨token ";" 49 50, [literalItem, literalTree]⟩] ++
      Cursor.children ⟨literalNode, [literalItem, literalTree]⟩ =
        [⟨token ";" 49 50, [literalItem, literalTree]⟩,
          ⟨token "\"" 21 22, [literalNode, literalItem, literalTree]⟩] ++
        literalCursor :: ([⟨token "\"" 48 49, [literalNode, literalItem, literalTree]⟩] ++ []) := rfl
  rw [draftsOf_eq (by decide +kernel) rfl, grammarDrafts, collect_literal, if_neg (by decide),
    visit_of_splits hitem (List.cons_ne_nil _ _), List.nil_append, hchildren,
    visit_append_of_short (by decide +kernel), visit_of_splits hnode (List.cons_ne_nil _ _), hqueue,
    visit_append_of_short (by decide +kernel), visit_of_leaf hleaf rfl,
    visit_append_of_short (by decide +kernel), visit, List.append_nil]

/-- The blocks of the file are the two pieces of the text in the literal. -/
theorem segmentsOn_literal :
    tryParse (fun _ _ => some literalTree) shortPieces "/w/a.rs" literal "hash" =
        .ok (parse (fun _ _ => some literalTree) shortPieces "/w/a.rs" literal "hash") ∧
      (segmentsOn 1 (parse (fun _ _ => some literalTree) shortPieces "/w/a.rs" literal "hash")).map
          (fun b => (b.content.toList, b.lineOffset)) =
        [("abcdefghijklmnopqrst".toList, some 0), ("uvwxyz".toList, some 20)] := by
  have htext : literalCursor.tree.text (.ofText literal.toList) = "abcdefghijklmnopqrstuvwxyz".toList := by
    decide +kernel
  have hlong : shortPieces.effectiveMax < "abcdefghijklmnopqrstuvwxyz".toList.length := by decide +kernel
  have hcut : cutLines shortPieces 0 [] (linesOf (literalCursor.tree.text (.ofText literal.toList))) =
      [.overlong 0 ⟨"abcdefghijklmnopqrstuvwxyz".toList, 26⟩] := by
    rw [htext]
    exact cutLines_of_overlong (by decide) hlong
  have hpieces : pieces shortPieces.pieceWidth "abcdefghijklmnopqrstuvwxyz".toList =
      ["abcdefghijklmnopqrst".toList, "uvwxyz".toList] := by decide +kernel
  have hline : Source.lineOf (.ofText literal.toList) literalCursor.tree.label.start = 1 := by decide +kernel
  have apart : Collisionless "/w/a.rs" (leafDrafts shortPieces (.ofText literal.toList) literalCursor) := by
    rw [leafDrafts, lineDrafts, hcut]
    exact @collisionless_of_nodup "/w/a.rs" "" _ (by decide +kernel)
  have hleft := @segmentsOn_of_overlong shortPieces _ "/w/a.rs" "hash" _ 0 _ apart
    (by rw [hcut]; exact List.mem_singleton_self _)
  rw [← leafDrafts, ← draftsOf_literal, ← parse_eq, hpieces, hline] at hleft
  exact ⟨tryParse_eq rfl, hleft.trans (by decide +kernel)⟩

/-- The pieces stand behind what is in front of the text of which they are pieces. -/
theorem standsAt_literal : ∃ blocks,
    tryParse (fun _ _ => some literalTree) shortPieces "/w/a.rs" literal "hash" = .ok blocks ∧
      ∀ b ∈ blocks, ∀ o, b.lineOffset = some o →
        ∃ c, PieceOf shortPieces "/w/a.rs" literal "hash" literalTree c b ∧
          b.StandsAt literal.toList (lead (.ofText literal.toList) c b.startLine + o) := by
  obtain ⟨blocks, hok, hall⟩ := @standsAt_of_treeKnown (fun _ _ => some literalTree) shortPieces "/w/a.rs"
    literal "hash" (fun _ => ⟨literalTree, rfl⟩) fun _ hroot => Option.some.inj hroot ▸ aligned_literalTree
  have hparts : ¬TakenWhole (fun _ _ => some literalTree) "/w/a.rs" literal := by
    intro whole
    have hnone := whole (by decide +kernel) literalTree rfl
    rw [collect_literal] at hnone
    cases hnone
  refine ⟨blocks, hok, ?_⟩
  intro b hb o hoffset
  obtain ⟨-, -, hpiece⟩ := hall b hb o hoffset
  obtain ⟨root, c, hroot, hpiece, hstands⟩ := hpiece hparts
  cases hroot
  exact ⟨c, hpiece, hstands⟩

/-- No piece of the text in the literal stands at its offset: on the line there is something in front of the
text. -/
theorem not_standsAt_literal : ∃ blocks,
    tryParse (fun _ _ => some literalTree) shortPieces "/w/a.rs" literal "hash" = .ok blocks ∧
      (segmentsOn 1 blocks).map (fun b => (b.content.toList, b.lineOffset)) =
        [("abcdefghijklmnopqrst".toList, some 0), ("uvwxyz".toList, some 20)] ∧
      ∀ b ∈ segmentsOn 1 blocks, ∀ o, b.lineOffset = some o → ¬b.StandsAt literal.toList o := by
  obtain ⟨hok, hsegments⟩ := segmentsOn_literal
  refine ⟨_, hok, hsegments, ?_⟩
  rintro b hb o hoffset ⟨i, line, hstart, hline, hprefix⟩
  have hfirst := (List.mem_filter.1 hb).2
  rw [Bool.and_eq_true, beq_iff_eq, hstart] at hfirst
  obtain rfl : i = 0 := Nat.add_right_cancel hfirst.1
  rw [List.splitOn_eq_singleton (show '\n' ∉ literal.toList by decide)] at hline
  cases hline
  have hmem := List.mem_map_of_mem (f := fun b : Block => (b.content.toList, b.lineOffset)) hb
  rw [hsegments, hoffset] at hmem
  rcases List.mem_pair.1 hmem with heq | heq
  all_goals
    obtain ⟨hcontent, ho⟩ := Prod.mk.inj heq
    cases ho
    rw [hcontent] at hprefix
    exact absurd hprefix (by decide)

end Chunk

end SourceIndex
