import Mathlib.Data.List.Flatten
import SourceIndex.Proofs.Block.Precedence
import SourceIndex.Proofs.Chunk.Boundaries
import SourceIndex.Proofs.Chunk.Survivors
/-!
# Pieces that repeat

The pieces of an overlong line have different offsets, so that each of them comes out of the sink
(`collected_lineDrafts`). They all stand on one line, though, and where blocks overlap only their lines and
their texts are compared: a piece that occurs in one in front of it is dropped, as if it lay inside that one
(`segmentsOn_of_overlong`). What is left of the line makes up the line only if no piece is such a repetition
(`segments_of_overlong`), and of a line that repeats one piece over and over a single piece is left
(`lost_repetition`).
-/

namespace SourceIndex

namespace Chunk

variable {trees : TreeSource} {p : ChunkPolicy} {s : Setting} {path content fileHash : String}
  {text line : List Char} {x : Stretch} {parts part whole : List (List Char)} {d d' : Draft} {i : Nat}

/-! ## Pieces that occur in no earlier one -/

/-- The pieces that occur in none of those in front of them, with their numbers. -/
def newPieces (pieces : List (List Char)) : List (List Char × Nat) :=
  pieces.zipIdx.filter fun x => !(pieces.take x.2).any (Text.occursIn x.1)

/-- They keep their order. -/
theorem pairwise_newPieces (pieces : List (List Char)) :
    (newPieces pieces).Pairwise fun x y => x.2 < y.2 := by
  have hnumbers : (pieces.zipIdx.map Prod.snd).Pairwise (· < ·) := by
    rw [List.zipIdx_map_snd]
    exact List.pairwise_lt_range'
  exact (List.pairwise_map.1 hnumbers).filter _

/-- All pieces are new if none of them occurs in one in front of it. -/
theorem newPieces_eq_iff : newPieces parts = parts.zipIdx ↔
    parts.Pairwise fun piece later => ¬later <:+: piece := by
  rw [newPieces, List.filter_eq_self, List.pairwise_iff_getElem]
  constructor
  · intro hnew i j hi hj hlt hin
    have hmem : (parts[j], j) ∈ parts.zipIdx := by
      rw [List.mk_mem_zipIdx_iff_getElem?]
      exact List.getElem?_eq_getElem hj
    have hnone := hnew _ hmem
    rw [Bool.not_eq_true', List.any_eq_false] at hnone
    refine hnone parts[i] ?_ (Text.occursIn_iff.2 hin)
    rw [List.mem_take_iff_getElem]
    exact ⟨i, by omega, rfl⟩
  · rintro hpairs ⟨piece, n⟩ hmem
    rw [List.mk_mem_zipIdx_iff_getElem?, List.getElem?_eq_some_iff] at hmem
    obtain ⟨hn, rfl⟩ := hmem
    rw [Bool.not_eq_true', List.any_eq_false]
    intro earlier hearlier hin
    obtain ⟨i, hi, rfl⟩ := List.mem_take_iff_getElem.1 hearlier
    exact hpairs i n (by omega) hn (by omega) (Text.occursIn_iff.1 hin)

/-- Some of several texts that are not empty, put together, are all of them put together only if none is
left out. -/
theorem eq_of_flatten_eq (h : part.Sublist whole) (hsome : ∀ piece ∈ whole, piece ≠ [])
    (hflatten : part.flatten = whole.flatten) : part = whole := by
  induction h with
  | slnil => rfl
  | @cons part whole piece hsub ih =>
    have hless := hsub.flatten.length_le
    have hpos := List.length_pos_iff.2 (hsome piece List.mem_cons_self)
    rw [hflatten, List.flatten_cons, List.length_append] at hless
    omega
  | @cons_cons part whole piece hsub ih =>
    rw [List.flatten_cons, List.flatten_cons, List.append_cancel_left_eq] at hflatten
    rw [ih (fun other hother => hsome other (List.mem_cons_of_mem piece hother)) hflatten]

/-- The new pieces make up the text if and only if all pieces are new. -/
theorem flatten_newPieces_iff (hsome : ∀ piece ∈ parts, piece ≠ []) :
    ((newPieces parts).map Prod.fst).flatten = parts.flatten ↔
      parts.Pairwise fun piece later => ¬later <:+: piece := by
  rw [← newPieces_eq_iff]
  have hsub : (newPieces parts).Sublist parts.zipIdx := List.filter_sublist
  constructor
  · intro hflatten
    have hmap := hsub.map Prod.fst
    rw [List.zipIdx_map_fst] at hmap
    have hlength := congrArg List.length (eq_of_flatten_eq hmap hsome hflatten)
    rw [List.length_map] at hlength
    exact hsub.eq_of_length (by rw [hlength, List.length_zipIdx])
  · intro hall
    rw [hall, List.zipIdx_map_fst]

/-! ## Drafts on the line -/

/-- A line that is too long is a stretch of its own. -/
theorem overlong_mem_cutLines (hline : (text.splitOn '\n')[i]? = some line)
    (long : p.effectiveMax < line.length) :
    ∃ l, l.text = line ∧ .overlong i l ∈ cutLines p 0 [] (linesOf text) := by
  have hget : ((linesOf text).map (·.text))[i]? = some line := by rwa [linesOf, map_text_measure]
  rw [List.getElem?_map, Option.map_eq_some_iff] at hget
  obtain ⟨l, hl, rfl⟩ := hget
  obtain ⟨x, hx, j, hj, hplace⟩ := (@tiles_cutLines p 0 [] (linesOf text)).exists_of_getElem? hl
  have hfits := fits_of_mem_cutLines (Nat.zero_le _) hx
  refine ⟨l, rfl, ?_⟩
  cases x with
  | run first lines =>
    -- a run that holds the line counts for at least as much
    exfalso
    have hchars := (counted_measure _).characters l (List.mem_of_getElem? hl)
    obtain ⟨before, behind, hlines⟩ := List.append_of_mem (List.mem_of_getElem? hj)
    simp only [Stretch.lines] at hlines
    have hsum : totalLength lines ≤ p.effectiveMax := hfits
    rw [hlines, totalLength_append] at hsum
    have htail : totalLength (l :: behind) = l.length + totalLength behind := rfl
    omega
  | overlong index l' =>
    obtain ⟨hj0, hl'⟩ : j = 0 ∧ l' = l := by
      cases j with
      | zero => exact ⟨rfl, Option.some_inj.1 hj⟩
      | succ j => cases hj
    obtain rfl : index = i := by
      simp only [Stretch.start] at hplace
      omega
    exact hl' ▸ hx

/-- A stretch of one line holds the line of the text at its place. -/
theorem getElem?_of_overlong_mem {l : Line} (hx : .overlong i l ∈ cutLines p 0 [] (linesOf text)) :
    (text.splitOn '\n')[i]? = some l.text := by
  obtain ⟨-, before, behind, hlines, hstart⟩ := (@tiles_cutLines p 0 [] (linesOf text)).exists_of_mem hx
  obtain rfl : i = 0 + before.length := hstart
  have hget : ((linesOf text).map (·.text))[0 + before.length]? = some l.text := by
    rw [show linesOf text = _ from hlines]
    simp [Stretch.lines]
  rwa [linesOf, map_text_measure] at hget

/-- A single line that is too long is the only stretch. -/
theorem cutLines_of_overlong (hfree : '\n' ∉ text) (long : p.effectiveMax < text.length) :
    cutLines p 0 [] (linesOf text) = [.overlong 0 ⟨text, text.length⟩] := by
  have hlines : linesOf text = [⟨text, text.length⟩] := by
    rw [linesOf, List.splitOn_eq_singleton hfree]
    rfl
  simp [hlines, cutLines, long]

/-- The drafts of a text that begin where a stretch does are those of the stretch. -/
theorem filter_startLine (hx : x ∈ cutLines p 0 [] (linesOf text)) :
    (lineDrafts p s text).filter (fun d => d.startLine == s.baseLine + x.start) = stretchDrafts p s x := by
  obtain ⟨before, behind, hcut⟩ := List.append_of_mem hx
  have hpairs := @pairwise_start_cutLines p 0 [] (linesOf text)
  rw [hcut, List.pairwise_append, List.pairwise_cons] at hpairs
  obtain ⟨-, ⟨hbehind, -⟩, hbefore⟩ := hpairs
  have hnone (ys : List Stretch) (hys : ∀ y ∈ ys, y.start ≠ x.start) :
      (ys.flatMap (stretchDrafts p s)).filter (fun d => d.startLine == s.baseLine + x.start) = [] := by
    rw [List.filter_eq_nil_iff]
    intro d hd hstart
    obtain ⟨y, hy, hd⟩ := List.mem_flatMap.1 hd
    rw [(lines_of_mem_stretchDrafts hd).2.1, beq_iff_eq] at hstart
    exact hys y hy (Nat.add_left_cancel hstart)
  have hall : (stretchDrafts p s x).filter (fun d => d.startLine == s.baseLine + x.start) =
      stretchDrafts p s x := by
    rw [List.filter_eq_self]
    intro d hd
    rw [(lines_of_mem_stretchDrafts hd).2.1, beq_self_eq_true]
  rw [lineDrafts, hcut, List.flatMap_append, List.flatMap_cons, List.filter_append, List.filter_append, hall,
    hnone before fun y hy => Nat.ne_of_lt (hbefore y hy x List.mem_cons_self),
    hnone behind fun y hy => Nat.ne_of_gt (hbehind y hy), List.nil_append, List.append_nil]

/-- The drafts of one text have different segment keys. -/
theorem eq_of_segmentKey_eq (h : d ∈ lineDrafts p s text) (h' : d' ∈ lineDrafts p s text)
    (hkey : segmentKey path d.startLine d.endLine d.offset d.content =
      segmentKey path d'.startLine d'.endLine d'.offset d'.content) : d = d' := by
  obtain ⟨x, hd, hd'⟩ := exists_stretch_of_startLine_eq h h' (segmentKey_lines hkey).1
  refine eq_of_mem_stretchDrafts hd hd' ?_
  cases x with
  | run first part =>
    rw [offset_of_mem_stretchDrafts_run hd, offset_of_mem_stretchDrafts_run hd']
  | overlong index l =>
    obtain ⟨⟨piece, n⟩, -, rfl⟩ := List.mem_map.1 hd
    obtain ⟨⟨piece', n'⟩, -, rfl⟩ := List.mem_map.1 hd'
    exact congrArg some (segmentKey_offset hkey)

/-- All drafts of a text come out of the sink. -/
theorem collected_lineDrafts (apart : Collisionless path (lineDrafts p s text)) :
    collected path fileHash (lineDrafts p s text) =
      (lineDrafts p s text).map (Draft.toBlock path fileHash) := by
  refine Sink.toBlocks_pushAll (nodup_lineDrafts.map_on ?_)
  intro d hd d' hd' hhash
  exact eq_of_segmentKey_eq hd hd' (apart d hd d' hd' hhash)

/-! ## Blocks on the line -/

/-- The blocks among some that are pieces of the line with a number. -/
def segmentsOn (n : Nat) (blocks : List Block) : List Block :=
  blocks.filter fun b => b.startLine == n && b.chunkSource == .lineSegment

/-- A file without a grammar is cut by lines. It is left alone if its language is not known or if it is shorter
than a block. -/
theorem parse_of_grammarless (grammarless : (Language.ofPath path).hasGrammar = false) :
    tryParse trees p path content fileHash = .ok (parse trees p path content fileHash) ∧
      ((Language.ofPath path).isIndexable = true ∧ p.minBlock ≤ content.toList.length →
        draftsOf trees p path content = lineDrafts p ⟨wholeFileType, [], 1⟩ content.toList) ∧
      (¬((Language.ofPath path).isIndexable = true ∧ p.minBlock ≤ content.toList.length) →
        parse trees p path content fileHash = []) := by
  refine ⟨tryParse_eq_of_treeKnown fun grammar => absurd grammar (by simp [grammarless]), ?_, ?_⟩
  · rintro ⟨indexable, hmin⟩
    rw [draftsOf, indexable, grammarless, wholeFileDrafts, if_neg (Nat.not_lt.2 hmin)]
    rfl
  · intro hunread
    have hnone : draftsOf trees p path content = [] := by
      unfold draftsOf wholeFileDrafts
      split
      · rfl
      · rename_i hindexable
        rw [Bool.not_eq_true', Bool.not_eq_false] at hindexable
        rw [grammarless, if_neg Bool.false_ne_true, if_pos]
        exact Nat.not_le.1 fun hmin => hunread ⟨hindexable, hmin⟩
    rw [List.eq_nil_iff_forall_not_mem]
    intro b hb
    obtain ⟨d, hd, -⟩ := exists_draft_of_mem_parse hb
    rw [hnone] at hd
    cases hd

/-- Blocks of pieces that stand at one place are kept if their pieces are new. -/
theorem keepUncontained_pieces {f : List Char × Nat → Block}
    (hcontains : ∀ x y, (f x).contains (f y) = Text.occursIn y.1 x.1) (pieces : List (List Char)) :
    Block.keepUncontained [] (pieces.zipIdx.map f) = (newPieces pieces).map f := by
  have hnumbers : (pieces.zipIdx.map f).zipIdx = pieces.zipIdx.map fun x => (f x, x.2) := by
    refine List.ext_getElem? fun n => ?_
    simp only [List.getElem?_zipIdx, List.getElem?_map, Option.map_map, Nat.zero_add]
    rfl
  have hearlier (x : List Char × Nat) : (((pieces.zipIdx.map f).take x.2).any fun b => b.contains (f x)) =
      (pieces.take x.2).any (Text.occursIn x.1) := by
    rw [← List.map_take, List.any_map]
    simp only [Function.comp_def, hcontains]
    rw [← List.zipIdx_map_fst 0 pieces, ← List.map_take, List.any_map, List.zipIdx_map_fst]
    rfl
  rw [Block.keepUncontained_eq, hnumbers, List.filter_map, List.map_map, newPieces]
  simp only [List.reverse_nil, List.nil_append, Function.comp_def, hearlier]

/-- Blocks on the line of a stretch of one line are drafts of this stretch. -/
theorem filter_segments {l : Line} (hx : .overlong i l ∈ cutLines p 0 [] (linesOf text)) :
    (lineDrafts p s text).filter (fun d => d.startLine == s.baseLine + i && d.chunkSource == .lineSegment) =
      stretchDrafts p s (.overlong i l) := by
  have hstart : (lineDrafts p s text).filter (fun d => d.startLine == s.baseLine + i) =
      stretchDrafts p s (.overlong i l) := filter_startLine hx
  have hsource : (stretchDrafts p s (.overlong i l)).filter (fun d => d.chunkSource == .lineSegment) =
      stretchDrafts p s (.overlong i l) := by
    rw [List.filter_eq_self]
    intro d hd
    rw [(of_mem_stretchDrafts_overlong hd).1, beq_self_eq_true]
  rw [← hsource, ← hstart, List.filter_filter]
  refine List.filter_congr fun d _ => ?_
  rw [Bool.and_comm]

/-- Of the pieces of a line those are left that occur in no earlier one. -/
theorem segmentsOn_of_overlong {l : Line} (apart : Collisionless path (lineDrafts p s text))
    (hx : .overlong i l ∈ cutLines p 0 [] (linesOf text)) :
    (segmentsOn (s.baseLine + i) (Block.deduplicate (collected path fileHash (lineDrafts p s text)))).map
        (fun b => (b.content.toList, b.lineOffset)) =
      (newPieces (pieces p.pieceWidth l.text)).map fun x => (x.1, some (x.2 * p.pieceWidth)) := by
  have hdraft {b : Block} (hb : b ∈ (lineDrafts p s text).map (Draft.toBlock path fileHash))
      (htest : (b.startLine == s.baseLine + i && b.chunkSource == .lineSegment) = true) :
      ∃ d ∈ stretchDrafts p s (.overlong i l), d.toBlock path fileHash = b := by
    obtain ⟨d, hd, rfl⟩ := List.mem_map.1 hb
    exact ⟨d, filter_segments hx ▸ List.mem_filter.2 ⟨hd, htest⟩, rfl⟩
  have hsegments : (lineDrafts p s text).filter ((fun b : Block => b.startLine == s.baseLine + i &&
      b.chunkSource == .lineSegment) ∘ Draft.toBlock path fileHash) = stretchDrafts p s (.overlong i l) :=
    filter_segments hx
  rw [collected_lineDrafts apart, segmentsOn, Block.filter_deduplicate, List.filter_map]
  · rw [hsegments, stretchDrafts, List.map_map, keepUncontained_pieces, List.map_map]
    · refine List.map_congr_left fun x _ => ?_
      exact Prod.ext String.toList_ofList rfl
    · intro x y
      simp [Block.contains, Draft.toBlock]
  · intro a ha b hb hta htb
    obtain ⟨d, hd, rfl⟩ := hdraft ha hta
    obtain ⟨d', hd', rfl⟩ := hdraft hb htb
    obtain ⟨hsource, -, hstart, hend⟩ := of_mem_stretchDrafts_overlong hd
    obtain ⟨hsource', -, hstart', hend'⟩ := of_mem_stretchDrafts_overlong hd'
    simp only [Block.place, Draft.toBlock, hsource, hstart, hend, hsource', hstart', hend']
  · intro a ha b hb hcontains htb
    obtain ⟨d', hd', rfl⟩ := hdraft hb htb
    obtain ⟨d, hd, rfl⟩ := List.mem_map.1 ha
    obtain ⟨-, -, hstart', hend'⟩ := of_mem_stretchDrafts_overlong hd'
    obtain ⟨-, hfirst, hlast, -⟩ := Block.contains_iff.1 hcontains
    -- a block that contains a piece holds its line, and is a piece of it itself
    have hmem := (@tiles_cutLines p 0 [] (linesOf text)).mem_of_spans hx hd (n := i) (Nat.le_refl i)
      (Nat.lt_succ_self i) ⟨by simpa [Draft.toBlock, hstart'] using hfirst,
        by simpa [Draft.toBlock, hend'] using hlast⟩
    obtain ⟨hsource, -, hstart, -⟩ := of_mem_stretchDrafts_overlong hmem
    simp [Draft.toBlock, hsource, hstart]

/-- Pieces that are left come in the order of their offsets. -/
theorem pairwise_lineOffset {segments : List Block}
    (h : segments.map (fun b => (b.content.toList, b.lineOffset)) =
      (newPieces parts).map fun x => (x.1, some (x.2 * p.pieceWidth))) :
    segments.Pairwise fun a b => a.lineOffset < b.lineOffset := by
  have hpairs : ((newPieces parts).map fun x => (x.1, some (x.2 * p.pieceWidth))).Pairwise
      fun x y => x.2 < y.2 := by
    rw [List.pairwise_map]
    refine (pairwise_newPieces parts).imp fun hlt => ?_
    exact Nat.mul_lt_mul_of_pos_right hlt pieceWidth_pos
  rw [← h, List.pairwise_map] at hpairs
  exact hpairs

/-- What is left of a line that is too long, in a file that has no grammar. The file has to be of a known
language and no shorter than a block. The pieces that are left then are those that occur in no earlier one, in
the order of their offsets, and they make up the line if and only if no piece occurs in an earlier one. -/
theorem segments_of_overlong (p : ChunkPolicy) (grammarless : (Language.ofPath path).hasGrammar = false)
    (apart : Collisionless path (draftsOf trees p path content))
    (hline : (content.toList.splitOn '\n')[i]? = some line) (long : p.effectiveMax < line.length) :
    ∃ blocks, tryParse trees p path content fileHash = .ok blocks ∧
      (segmentsOn (i + 1) blocks).Pairwise (fun a b => a.lineOffset < b.lineOffset) ∧
      ((Language.ofPath path).isIndexable = true → p.minBlock ≤ content.toList.length →
        (segmentsOn (i + 1) blocks).map (fun b => (b.content.toList, b.lineOffset)) =
          (newPieces (pieces p.pieceWidth line)).map fun x => (x.1, some (x.2 * p.pieceWidth))) ∧
      (((segmentsOn (i + 1) blocks).map fun b => b.content.toList).flatten = line ↔
        (Language.ofPath path).isIndexable = true ∧ p.minBlock ≤ content.toList.length ∧
          (pieces p.pieceWidth line).Pairwise fun piece later => ¬later <:+: piece) := by
  have hsome : ∀ piece ∈ pieces p.pieceWidth line, piece ≠ [] := by
    intro piece hpiece
    obtain ⟨k, hk⟩ := List.mem_iff_getElem?.1 hpiece
    exact (getElem?_pieces pieceWidth_pos hk).2
  obtain ⟨hok, hdrafts, hnone⟩ := @parse_of_grammarless trees p path content fileHash grammarless
  by_cases hread : (Language.ofPath path).isIndexable = true ∧ p.minBlock ≤ content.toList.length
  · have hdrafts := hdrafts hread
    obtain ⟨l, rfl, hx⟩ := overlong_mem_cutLines hline long
    have hleft := @segmentsOn_of_overlong p ⟨wholeFileType, [], 1⟩ path fileHash content.toList i l
      (hdrafts ▸ apart) hx
    rw [Nat.add_comm, ← hdrafts, ← @parse_eq trees] at hleft
    refine ⟨_, hok, pairwise_lineOffset hleft, fun _ _ => hleft, ?_⟩
    -- what is left is made up of the new pieces, and the line of all pieces
    have hcontents := congrArg (List.map Prod.fst) hleft
    rw [List.map_map, List.map_map] at hcontents
    have hjoined := flatten_newPieces_iff hsome
    rw [flatten_pieces] at hjoined
    rw [← hjoined, and_iff_right hread.1, and_iff_right hread.2]
    exact Eq.congr_left (congrArg List.flatten hcontents)
  · have hline : line ≠ [] := List.ne_nil_of_length_pos (Nat.lt_of_le_of_lt (Nat.zero_le _) long)
    refine ⟨_, hok, ?_, fun indexable hmin => absurd ⟨indexable, hmin⟩ hread, ?_⟩
    · rw [hnone hread]
      exact .nil
    · rw [hnone hread]
      exact iff_of_false (Ne.symm hline) fun h => hread ⟨h.1, h.2.1⟩

theorem ofPath_note : Language.ofPath "/w/a.md" = .markdown := by
  decide +kernel

/-- None of the pieces of the line repeats an earlier one: together they are the line. -/
theorem segments_of_overlong_few : ∃ blocks,
    tryParse (fun _ _ => none) narrow "/w/a.md" (String.ofList fewLines) "hash" = .ok blocks ∧
      ((segmentsOn 3 blocks).map fun b => b.content.toList).flatten = "thirteen long".toList := by
  have grammarless : (Language.ofPath "/w/a.md").hasGrammar = false := ofPath_note ▸ rfl
  have indexable : (Language.ofPath "/w/a.md").isIndexable = true := ofPath_note ▸ rfl
  have hlong : narrow.minBlock ≤ (String.ofList fewLines).toList.length := by decide +kernel
  have hdrafts := (@parse_of_grammarless (fun _ _ => none) narrow "/w/a.md" (String.ofList fewLines) "hash"
    grammarless).2.1 ⟨indexable, hlong⟩
  rw [String.toList_ofList, lineDrafts, cutLines_fewLines] at hdrafts
  have apart : Collisionless "/w/a.md"
      (draftsOf (fun _ _ => none) narrow "/w/a.md" (String.ofList fewLines)) := by
    rw [hdrafts]
    exact @collisionless_of_nodup "/w/a.md" "hash" _ (by decide +kernel)
  obtain ⟨blocks, hok, -, -, hjoined⟩ := @segments_of_overlong (fun _ _ => none) "/w/a.md"
    (String.ofList fewLines) "hash" "thirteen long".toList 2 narrow grammarless apart
    (by rw [String.toList_ofList]; decide +kernel) (by decide +kernel)
  have hpieces : pieces narrow.pieceWidth "thirteen long".toList = ["thirteen".toList, " long".toList] := by
    decide +kernel
  refine ⟨blocks, hok, hjoined.2 ⟨indexable, hlong, ?_⟩⟩
  rw [hpieces]
  decide +kernel

/-- A line that repeats one character. -/
def repetition : String := "zzzzzzzzzzzzzzzz"

/-- The line has two pieces, and one of them is lost: both stand on the one line, and they are the same. -/
theorem lost_repetition : (Language.ofPath "/w/a.md").hasGrammar = false ∧
    repetition.toList.splitOn '\n' = [repetition.toList] ∧ narrow.effectiveMax < repetition.toList.length ∧
    pieces narrow.pieceWidth repetition.toList = ["zzzzzzzz".toList, "zzzzzzzz".toList] ∧
    ∃ blocks, tryParse (fun _ _ => none) narrow "/w/a.md" repetition (contentHash repetition) = .ok blocks ∧
      (segmentsOn 1 blocks).map (fun b => (b.content.toList, b.lineOffset)) =
        [("zzzzzzzz".toList, some 0)] ∧
      ((segmentsOn 1 blocks).map fun b => b.content.toList).flatten ≠ repetition.toList := by
  have grammarless : (Language.ofPath "/w/a.md").hasGrammar = false := ofPath_note ▸ rfl
  have hlong : narrow.effectiveMax < repetition.toList.length := by decide +kernel
  have hpieces : pieces narrow.pieceWidth repetition.toList = ["zzzzzzzz".toList, "zzzzzzzz".toList] := by
    decide +kernel
  have hfree : '\n' ∉ repetition.toList := by decide
  have hcut := cutLines_of_overlong hfree hlong
  obtain ⟨hok, hdrafts, -⟩ := @parse_of_grammarless (fun _ _ => none) narrow "/w/a.md" repetition
    (contentHash repetition) grammarless
  have hdrafts := hdrafts ⟨ofPath_note ▸ rfl, by decide⟩
  have apart : Collisionless "/w/a.md" (lineDrafts narrow ⟨wholeFileType, [], 1⟩ repetition.toList) := by
    rw [lineDrafts, hcut]
    exact @collisionless_of_nodup "/w/a.md" "" _ (by decide +kernel)
  have hleft := @segmentsOn_of_overlong narrow ⟨wholeFileType, [], 1⟩ "/w/a.md" (contentHash repetition)
    repetition.toList 0 _ apart (by rw [hcut]; exact List.mem_singleton_self _)
  rw [← hdrafts, ← @parse_eq fun _ _ => none, hpieces] at hleft
  have hfirst := hleft.trans (show _ = [("zzzzzzzz".toList, some 0)] by decide +kernel)
  have hcontents := congrArg (List.map Prod.fst) hfirst
  rw [List.map_map] at hcontents
  refine ⟨grammarless, List.splitOn_eq_singleton hfree, hlong, hpieces, _, hok, hfirst, ?_⟩
  exact fun hjoined => absurd ((congrArg List.flatten hcontents).symm.trans hjoined) (by decide)

end Chunk

end SourceIndex
