import SourceIndex.Proofs.Chunk.Survivors
/-!
# Sizes of blocks

A block is a node that fits the policy, a run of lines, or a piece of an overlong line. A run counts its
breaks, so that its text is no longer than the lines that were gathered for it, wherever its end was moved to
(`fits_of_mem_cutLines`), and only a run that is long enough becomes a block. Pieces are held to their width
alone. `sized_of_treeKnown` puts these bounds together for the blocks of a file.
-/

namespace SourceIndex

variable {trees : Chunk.TreeSource} {p : ChunkPolicy} {path content fileHash : String}

/-- The bounds on the content of a block: those of the policy, or the width of pieces. -/
def Block.Sized (p : ChunkPolicy) (b : Block) : Prop :=
  match b.chunkSource with
  | .grammar | .fallback =>
    p.minBlock ≤ Text.charCount b.content ∧ Text.charCount b.content ≤ p.effectiveMax
  | .lineSegment => Text.charCount b.content ≤ max 1 p.maxBlock ∧ '\n' ∉ b.content.toList

namespace Chunk

open Syntax

variable {source : Source} {setting : Setting} {text : List Char} {x : Stretch} {c : Cursor} {d : Draft}

/-- The bounds on a draft are those on its block. -/
def Sized (p : ChunkPolicy) (d : Draft) : Prop :=
  (d.toBlock "" "").Sized p

theorem sized_of_mem_stretchDrafts (hx : x ∈ cutLines p 0 [] (linesOf text))
    (h : d ∈ stretchDrafts p setting x) : Sized p d := by
  have hsub : x.lines.Sublist (linesOf text) := tiles_cutLines.sublist_of_mem hx
  have hfits := fits_of_mem_cutLines (Nat.zero_le _) hx
  cases x with
  | run first part =>
    obtain ⟨hsource, hmin, hcontent, -⟩ := of_mem_stretchDrafts_run h
    have hjoined := ((counted_measure _).sublist hsub).length_intercalate_le
    have hmax : totalLength part ≤ p.effectiveMax := hfits
    simp only [Sized, Block.Sized, Draft.toBlock, hsource, Text.charCount]
    refine ⟨hmin, ?_⟩
    rw [hcontent]
    exact Nat.le_trans hjoined hmax
  | overlong index line =>
    obtain ⟨hsource, hpiece, -⟩ := of_mem_stretchDrafts_overlong h
    have hline : line ∈ linesOf text := hsub.subset List.mem_cons_self
    have hwidth := length_le_of_mem_pieces hpiece
    simp only [Sized, Block.Sized, Draft.toBlock, hsource, Text.charCount]
    constructor
    · rw [ChunkPolicy.pieceWidth] at hwidth
      omega
    · intro hbreak
      exact newline_notMem_of_mem_linesOf hline ((infix_of_mem_pieces hpiece).subset hbreak)

theorem sized_of_mem_lineDrafts (h : d ∈ lineDrafts p setting text) : Sized p d := by
  obtain ⟨x, hx, hd⟩ := List.mem_flatMap.1 h
  exact sized_of_mem_stretchDrafts hx hd

theorem sized_of_mem_nodeDrafts (h : d ∈ nodeDrafts p source c) : Sized p d := by
  rcases mem_nodeDrafts.1 h with ⟨hfits, rfl⟩ | ⟨-, -, hd⟩
  · simpa [Sized, Block.Sized, Draft.toBlock, nodeDraft, Text.charCount, Fits] using hfits
  · exact sized_of_mem_lineDrafts hd

theorem sized_of_mem_draftsOf (h : d ∈ draftsOf trees p path content) : Sized p d := by
  rcases mem_draftsOf_cases h with hd | ⟨root, c, -, -, hd⟩
  · unfold wholeFileDrafts at hd
    split at hd
    · cases hd
    · exact sized_of_mem_lineDrafts hd
  · exact sized_of_mem_nodeDrafts hd

/-- Every block of a file keeps within the bounds for blocks of its source. -/
theorem sized_of_treeKnown (known : TreeKnown trees path content) :
    ∃ blocks, tryParse trees p path content fileHash = .ok blocks ∧ ∀ b ∈ blocks, b.Sized p := by
  refine ⟨_, tryParse_eq_of_treeKnown known, ?_⟩
  intro b hb
  obtain ⟨d, hd, rfl⟩ := exists_draft_of_mem_parse hb
  exact sized_of_mem_draftsOf hd

theorem sized_module : ∃ blocks,
    tryParse (fun _ _ => some moduleTree) shortBlocks "/w/m.rs" moduleText (contentHash moduleText) =
      .ok blocks ∧
    ∀ b ∈ blocks, b.Sized shortBlocks :=
  sized_of_treeKnown fun _ => ⟨moduleTree, rfl⟩

end Chunk

end SourceIndex
