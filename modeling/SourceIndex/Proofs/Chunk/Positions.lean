import SourceIndex.Proofs.Chunk.Drafts
import SourceIndex.Proofs.Chunk.Stretches
/-!
# Positions of blocks

The position of a block is what tells its point from the points of other blocks of the file: its lines and,
for a piece of an overlong line, its offset. The pieces of one text all have different positions
(`eq_of_mem_lineDrafts`), since the stretches of a text begin on different lines. Positions therefore meet
only where nodes of a syntax tree stand on the same lines: `nodup_position_iff` says that the blocks of a
file have different positions exactly if no two visited nodes share one.
-/

namespace SourceIndex

/-- The lines and the offset of a draft. -/
def Draft.position (d : Draft) : Nat × Nat × Option Nat :=
  (d.startLine, d.endLine, d.offset)

/-- The lines and the offset of a block. -/
def Block.position (b : Block) : Nat × Nat × Option Nat :=
  (b.startLine, b.endLine, b.lineOffset)

namespace Chunk

open Syntax

variable {trees : TreeSource} {p : ChunkPolicy} {source : Source} {path content fileHash : String}
  {x : Stretch} {s : Setting} {text : List Char} {c : Cursor}
  {d d' : Draft}

/-! ## Pieces of one text -/

/-- The pieces of an overlong line have different offsets. -/
theorem eq_of_mem_stretchDrafts (h : d ∈ stretchDrafts p s x) (h' : d' ∈ stretchDrafts p s x)
    (hoffset : d.offset = d'.offset) : d = d' := by
  cases x with
  | run first lines =>
    simp only [stretchDrafts] at h h'
    split at h
    · cases h
    · rename_i hlong
      rw [if_neg hlong] at h'
      exact (List.mem_singleton.1 h).trans (List.mem_singleton.1 h').symm
  | overlong index line =>
    obtain ⟨⟨piece, n⟩, hpiece, rfl⟩ := List.mem_map.1 h
    obtain ⟨⟨piece', n'⟩, hpiece', rfl⟩ := List.mem_map.1 h'
    have hn : n = n' := Nat.eq_of_mul_eq_mul_right pieceWidth_pos (Option.some_inj.1 hoffset)
    subst hn
    rw [List.mk_mem_zipIdx_iff_getElem?] at hpiece hpiece'
    rw [hpiece, Option.some_inj] at hpiece'
    rw [hpiece']

/-- Drafts of one text that begin on one line are drafts of one stretch. -/
theorem exists_stretch_of_startLine_eq (h : d ∈ lineDrafts p s text) (h' : d' ∈ lineDrafts p s text)
    (hstart : d.startLine = d'.startLine) : ∃ x, d ∈ stretchDrafts p s x ∧ d' ∈ stretchDrafts p s x := by
  obtain ⟨x, hx, hd⟩ := List.mem_flatMap.1 h
  obtain ⟨y, hy, hd'⟩ := List.mem_flatMap.1 h'
  rw [(lines_of_mem_stretchDrafts hd).2.1, (lines_of_mem_stretchDrafts hd').2.1] at hstart
  have heq : x.start = y.start := Nat.add_left_cancel hstart
  have hstarts : ((cutLines p 0 [] (linesOf text)).map Stretch.start).Nodup :=
    List.pairwise_map.2 (pairwise_start_cutLines.imp Nat.ne_of_lt)
  cases List.inj_on_of_nodup_map hstarts hx hy heq
  exact ⟨x, hd, hd'⟩

/-- The pieces of one text have different positions. -/
theorem eq_of_mem_lineDrafts (h : d ∈ lineDrafts p s text) (h' : d' ∈ lineDrafts p s text)
    (hposition : d.position = d'.position) : d = d' := by
  obtain ⟨hstart, -, hoffset⟩ : d.startLine = d'.startLine ∧ d.endLine = d'.endLine ∧
      d.offset = d'.offset := by simpa [Draft.position] using hposition
  obtain ⟨x, hd, hd'⟩ := exists_stretch_of_startLine_eq h h' hstart
  exact eq_of_mem_stretchDrafts hd hd' hoffset

/-- The drafts of one node have different positions. -/
theorem eq_of_mem_nodeDrafts (h : d ∈ nodeDrafts p source c) (h' : d' ∈ nodeDrafts p source c)
    (hposition : d.position = d'.position) : d = d' := by
  rcases mem_nodeDrafts.1 h with ⟨hfits, rfl⟩ | ⟨hsplits, -, h⟩ <;>
    rcases mem_nodeDrafts.1 h' with ⟨hfits', rfl⟩ | ⟨hsplits', -, h'⟩
  · rfl
  · exact absurd hfits.2 (Nat.not_le.2 hsplits'.2)
  · exact absurd hfits'.2 (Nat.not_le.2 hsplits.2)
  · exact eq_of_mem_lineDrafts h h' hposition

/-! ## Blocks of one file -/

/-- A node that is visited when a file with this tree is cut. -/
def Visited (p : ChunkPolicy) (path content : String) (root : Tree) (c : Cursor) : Prop :=
  Reached p (.ofText content.toList) (collect (Language.ofPath path) root) c

/-- No two visited nodes of a file give different blocks at one position. -/
def Unshared (trees : TreeSource) (p : ChunkPolicy) (path content fileHash : String) : Prop :=
  ∀ root, (Language.ofPath path).hasGrammar = true → trees (Language.ofPath path) content = some root →
    ∀ c c', Visited p path content root c → Visited p path content root c' → c ≠ c' →
      ∀ d ∈ nodeDrafts p (.ofText content.toList) c,
        ∀ d' ∈ nodeDrafts p (.ofText content.toList) c',
          d.toBlock path fileHash ∈ parse trees p path content fileHash →
            d'.toBlock path fileHash ∈ parse trees p path content fileHash →
              d.position = d'.position → d.toBlock path fileHash = d'.toBlock path fileHash

theorem eq_of_mem_wholeFileDrafts (h : d ∈ wholeFileDrafts p text) (h' : d' ∈ wholeFileDrafts p text)
    (hposition : d.position = d'.position) : d = d' := by
  unfold wholeFileDrafts at h h'
  split at h
  · cases h
  · rename_i hmin
    rw [if_neg hmin] at h'
    exact eq_of_mem_lineDrafts h h' hposition

/-- Drafts of a file at one position are one, or they come from two nodes of its tree. -/
theorem eq_or_exists_of_mem_draftsOf (h : d ∈ draftsOf trees p path content)
    (h' : d' ∈ draftsOf trees p path content) (hposition : d.position = d'.position) :
    d = d' ∨ ∃ root, (Language.ofPath path).hasGrammar = true ∧
      trees (Language.ofPath path) content = some root ∧
        ∃ c c', Visited p path content root c ∧ Visited p path content root c' ∧ c ≠ c' ∧
          d ∈ nodeDrafts p (.ofText content.toList) c ∧
            d' ∈ nodeDrafts p (.ofText content.toList) c' := by
  rcases @draftsOf_cases trees p path content with heq | heq | ⟨root, hgrammar, htree, heq⟩
  · rw [heq] at h
    cases h
  · rw [heq] at h h'
    exact Or.inl (eq_of_mem_wholeFileDrafts h h' hposition)
  · rw [heq] at h h'
    obtain ⟨c, hc, hd⟩ := mem_visit.1 h
    obtain ⟨c', hc', hd'⟩ := mem_visit.1 h'
    by_cases hsame : c = c'
    · exact Or.inl (eq_of_mem_nodeDrafts hd (hsame ▸ hd') hposition)
    · exact Or.inr ⟨root, hgrammar, htree, c, c', hc, hc', hsame, hd, hd'⟩

/-- The blocks of a file have different positions if and only if no two visited nodes share one. -/
theorem nodup_position_iff :
    ((parse trees p path content fileHash).map Block.position).Nodup ↔
      Unshared trees p path content fileHash := by
  rw [List.nodup_map_iff_inj_on nodup_parse]
  constructor
  · intro h root _ _ c c' _ _ _ d _ d' _ hd hd' hposition
    exact h _ hd _ hd' hposition
  · intro h b hb b' hb' hposition
    obtain ⟨d, hd, rfl⟩ := exists_draft_of_mem_parse hb
    obtain ⟨d', hd', rfl⟩ := exists_draft_of_mem_parse hb'
    rcases eq_or_exists_of_mem_draftsOf hd hd' hposition with
      rfl | ⟨root, hgrammar, htree, c, c', hc, hc', hne, hd, hd'⟩
    · rfl
    · exact h root hgrammar htree c c' hc hc' hne d hd d' hd' hb hb' hposition

/-! ### Two definitions on one line -/

def firstFunction : String := "fn first() {}"

def secondFunction : String := "fn second() {}"

/-- Both functions on one line. -/
def oneLine : String := firstFunction ++ " " ++ secondFunction

/-- The tree of the two functions on one line. -/
def oneLineTree : Tree :=
  .node ⟨"source_file", true, 0, 28, none⟩
    [.node ⟨"function_item", true, 0, 13, none⟩ [], .node ⟨"function_item", true, 14, 28, none⟩ []]

/-- The blocks of two functions on one line have one position. -/
theorem not_nodup_position_oneLine :
    ¬((parse (fun _ _ => some oneLineTree) { minBlock := 10 } "/w/a.rs" oneLine
      (contentHash oneLine)).map Block.position).Nodup := by
  have hcut : (collected "/w/a.rs" (contentHash oneLine)
        (draftsOf (fun _ _ => some oneLineTree) { minBlock := 10 } "/w/a.rs" oneLine)).map
          (fun b => (b.position, b.content)) =
      [((1, 1, none), firstFunction), ((1, 1, none), secondFunction)] := by
    decide +kernel
  rw [parse_eq]
  generalize collected "/w/a.rs" _ _ = blocks at hcut
  obtain ⟨b, rest, rfl, hb, hrest⟩ := List.map_eq_cons_iff.1 hcut
  obtain ⟨b', rest, rfl, hb', hnil⟩ := List.map_eq_cons_iff.1 hrest
  cases List.map_eq_nil_iff.1 hnil
  obtain ⟨hposition, hcontent⟩ := Prod.mk.inj hb
  obtain ⟨hposition', hcontent'⟩ := Prod.mk.inj hb'
  have hout : Text.occursIn firstFunction.toList secondFunction.toList = false := by decide +kernel
  have hout' : Text.occursIn secondFunction.toList firstFunction.toList = false := by decide +kernel
  have hpruned := Block.pruned_deduplicate [b, b']
  have hmem : b ∈ Block.deduplicate [b, b'] := by
    refine hpruned.mem_of_apart List.mem_cons_self fun winner hwinner hcontains => ?_
    refine (List.mem_pair.1 hwinner).resolve_right ?_
    rintro rfl
    rw [Block.contains, hcontent, hcontent', hout, Bool.and_false] at hcontains
    cases hcontains
  have hmem' : b' ∈ Block.deduplicate [b, b'] := by
    refine hpruned.mem_of_apart (List.mem_pair.2 (Or.inr rfl)) fun winner hwinner hcontains => ?_
    refine (List.mem_pair.1 hwinner).resolve_left ?_
    rintro rfl
    rw [Block.contains, hcontent, hcontent', hout', Bool.and_false] at hcontains
    cases hcontains
  intro hnodup
  have heq := List.inj_on_of_nodup_map hnodup hmem hmem' (hposition.trans hposition'.symm)
  rw [heq, hcontent'] at hcontent
  exact absurd hcontent (by decide)

end Chunk

end SourceIndex
