import SourceIndex.Proofs.Chunk.Survivors
/-!
# Blocks of a file inside one another

The blocks of a file are what is left of the blocks of its drafts (`Block.Pruned`), so that a block is left
beside one that lies inside it only if the inner one ranks first. In a file that is taken as a whole this does
not happen: stretches stand on lines of their own, and of the pieces of one line a later one is never longer
(`pairwise_firstWins_collected`). Along the definitions of a syntax tree it does happen, since the children of
an overlong node come behind all definitions: a function is cut before the body that encloses it
(`function_beside_body`).
-/

namespace SourceIndex

variable {a b : Block}

/-- Blocks on different lines do not contain each other. -/
theorem Block.firstWins_of_apart (ha : a.startLine ≤ a.endLine) (hb : b.startLine ≤ b.endLine)
    (hapart : a.endLine < b.startLine) : Block.FirstWins a b := by
  constructor
  · intro h
    obtain ⟨-, hle, -⟩ := Block.contains_iff.1 h
    omega
  · intro h
    obtain ⟨-, -, hle, -⟩ := Block.contains_iff.1 h
    omega

/-- A block contains one at its place that is no shorter only if both have the same content. -/
theorem Block.firstWins_of_not_longer (hpath : a.filePath = b.filePath) (hstart : a.startLine = b.startLine)
    (hend : a.endLine = b.endLine) (hsource : a.chunkSource = b.chunkSource)
    (hlength : b.content.toList.length ≤ a.content.toList.length) : Block.FirstWins a b := by
  constructor
  · intro h
    obtain ⟨-, -, -, hinfix⟩ := Block.contains_iff.1 h
    have hsame := hinfix.eq_of_length (Nat.le_antisymm hinfix.length_le hlength)
    exact Block.contains_iff.2 ⟨hpath, Nat.le_of_eq hstart, Nat.le_of_eq hend.symm,
      hsame ▸ List.infix_refl _⟩
  · intro _
    exact hsource

namespace Chunk

open Syntax

variable {trees : TreeSource} {p : ChunkPolicy} {path content fileHash : String} {text : List Char}
  {setting : Setting} {x : Stretch} {drafts : List Draft} {d d' : Draft}

/-! ## Files taken as a whole -/

/-- Of the drafts of a stretch an earlier one takes precedence. -/
theorem pairwise_firstWins_stretchDrafts : (stretchDrafts p setting x).Pairwise fun d d' =>
    Block.FirstWins (d.toBlock path fileHash) (d'.toBlock path fileHash) := by
  cases x with
  | run first part =>
    rw [stretchDrafts]
    split
    · exact .nil
    · exact List.pairwise_singleton ..
  | overlong index line =>
    have hpieces := @pairwise_length_pieces p.pieceWidth line.text
    rw [← List.zipIdx_map_fst 0 (pieces p.pieceWidth line.text), List.pairwise_map] at hpieces
    rw [stretchDrafts, List.pairwise_map]
    refine hpieces.imp ?_
    intro piece later hlength
    exact Block.firstWins_of_not_longer rfl rfl rfl rfl (by simpa [Draft.toBlock] using hlength)

/-- Of the drafts of one text an earlier one takes precedence. -/
theorem pairwise_firstWins_lineDrafts : (lineDrafts p setting text).Pairwise fun d d' =>
    Block.FirstWins (d.toBlock path fileHash) (d'.toBlock path fileHash) := by
  refine List.pairwise_flatMap.2 ⟨fun x _ => pairwise_firstWins_stretchDrafts, ?_⟩
  refine (@tiles_cutLines p 0 [] (linesOf text)).pairwise.imp ?_
  intro x y hapart d hd d' hd'
  obtain ⟨hlines, hstart, hend⟩ := lines_of_mem_stretchDrafts hd
  obtain ⟨hlines', hstart', hend'⟩ := lines_of_mem_stretchDrafts hd'
  have hpos := List.length_pos_iff.2 hlines
  have hpos' := List.length_pos_iff.2 hlines'
  apply Block.firstWins_of_apart
  · show d.startLine ≤ d.endLine
    omega
  · show d'.startLine ≤ d'.endLine
    omega
  · show d.endLine < d'.startLine
    omega

/-- A file is taken as a whole if there are no definitions in its syntax tree, or no such tree. -/
def TakenWhole (trees : TreeSource) (path content : String) : Prop :=
  (Language.ofPath path).hasGrammar = true →
    ∀ root, trees (Language.ofPath path) content = some root → collect (Language.ofPath path) root = []

/-- The drafts of a file that is taken as a whole are those of its text. -/
theorem draftsOf_of_takenWhole (whole : TakenWhole trees path content) :
    draftsOf trees p path content = [] ∨
      draftsOf trees p path content = wholeFileDrafts p content.toList := by
  rcases @draftsOf_cases trees p path content with heq | heq | ⟨root, grammar, htree, heq⟩
  · exact Or.inl heq
  · exact Or.inr heq
  · rw [whole grammar root htree, visit] at heq
    exact Or.inl heq

/-- In a file that is taken as a whole an earlier block takes precedence. -/
theorem pairwise_firstWins_collected (whole : TakenWhole trees path content) :
    (collected path fileHash (draftsOf trees p path content)).Pairwise Block.FirstWins := by
  refine List.Pairwise.sublist sublist_collected (List.pairwise_map.2 ?_)
  rcases @draftsOf_of_takenWhole trees p path content whole with heq | heq
  · rw [heq]
    exact .nil
  · rw [heq, wholeFileDrafts]
    split
    · exact .nil
    · exact pairwise_firstWins_lineDrafts

/-! ## What is left of a file -/

/-- What is left of any blocks, and of those of a file: a block is left out if and only if one that is left
ranks before it and contains it, so that an inner block is left beside an outer one only if it ranks first. In
a file that is taken as a whole no block lies inside another one. -/
theorem pruned_of_treeKnown (known : TreeKnown trees path content) :
    (∀ blocks, Block.Pruned blocks (Block.deduplicate blocks) ∧
      ∀ a ∈ Block.deduplicate blocks, ∀ b ∈ Block.deduplicate blocks, a ≠ b → a.contains b = true →
        Block.RanksBefore blocks b a) ∧
    ∃ out, tryParse trees p path content fileHash = .ok out ∧
      Block.Pruned (collected path fileHash (draftsOf trees p path content)) out ∧
      (∀ a ∈ out, ∀ b ∈ out, a ≠ b → a.contains b = true →
        Block.RanksBefore (collected path fileHash (draftsOf trees p path content)) b a) ∧
      (TakenWhole trees path content → ∀ a ∈ out, ∀ b ∈ out, a ≠ b → a.contains b = false) := by
  have hpruned := Block.pruned_deduplicate (collected path fileHash (draftsOf trees p path content))
  rw [← parse_eq] at hpruned
  refine ⟨?_, _, tryParse_eq_of_treeKnown known, hpruned, ?_, ?_⟩
  · intro blocks
    have h := Block.pruned_deduplicate blocks
    exact ⟨h, fun a ha b hb => h.ranksBefore ha hb⟩
  · intro a ha b hb
    exact hpruned.ranksBefore ha hb
  · intro whole a ha b hb
    exact hpruned.uncontained (pairwise_firstWins_collected whole) ha hb

/-- As a note the text of the module is taken as a whole, and none of its blocks lies inside another one. -/
theorem pruned_note : ∃ out,
    tryParse (fun _ _ => none) shortBlocks "/w/m.md" moduleText (contentHash moduleText) = .ok out ∧
    ∀ a ∈ out, ∀ b ∈ out, a ≠ b → a.contains b = false := by
  have hplain : (Language.ofPath "/w/m.md").hasGrammar ≠ true := by decide +kernel
  obtain ⟨-, out, hout, -, -, huncontained⟩ := @pruned_of_treeKnown (fun _ _ => none) shortBlocks "/w/m.md"
    moduleText (contentHash moduleText) fun h => absurd h hplain
  exact ⟨out, hout, huncontained fun h => absurd h hplain⟩

/-! ### A function beside the body around it -/

/-- The function of the module with all of its nodes. -/
def functionWithParts : Tree :=
  .node ⟨"function_item", true, 8, 21, none⟩
    [.node ⟨"fn", false, 8, 10, none⟩ [],
      .node ⟨"identifier", true, 11, 16, some "name"⟩ [],
      .node ⟨"parameters", true, 16, 18, none⟩
        [.node ⟨"(", false, 16, 17, none⟩ [], .node ⟨")", false, 17, 18, none⟩ []],
      .node ⟨"block", true, 19, 21, none⟩
        [.node ⟨"\x7b", false, 19, 20, none⟩ [], .node ⟨"\x7d", false, 20, 21, none⟩ []]]

/-- The tree of the module with all of its nodes. -/
def moduleWithBody : Tree :=
  .node ⟨"source_file", true, 0, 23, none⟩
    [.node ⟨"mod_item", true, 0, 23, none⟩
      [.node ⟨"mod", false, 0, 3, none⟩ [],
        .node ⟨"identifier", true, 4, 5, some "name"⟩ [],
        .node ⟨"declaration_list", true, 6, 23, none⟩
          [.node ⟨"\x7b", false, 6, 7, none⟩ [], functionWithParts,
            .node ⟨"\x7d", false, 22, 23, none⟩ []]]]

/-- The text of the body of the module. -/
def bodyText : String := "\x7b " ++ firstFunction ++ " \x7d"

/-- The module is too long. Its function is a definition and is cut first, then comes its body, which fits
too: both blocks are left, one inside the other. -/
theorem function_beside_body : ∃ out,
    tryParse (fun _ _ => some moduleWithBody) shortBlocks "/w/m.rs" moduleText (contentHash moduleText) =
      .ok out ∧
    out = Block.deduplicate (collected "/w/m.rs" (contentHash moduleText)
      (draftsOf (fun _ _ => some moduleWithBody) shortBlocks "/w/m.rs" moduleText)) ∧
    ∃ outer ∈ out, ∃ inner ∈ out, outer ≠ inner ∧ outer.contains inner = true := by
  have hcut : (collected "/w/m.rs" (contentHash moduleText)
        (draftsOf (fun _ _ => some moduleWithBody) shortBlocks "/w/m.rs" moduleText)).map
          (fun b => ((b.filePath, b.chunkSource), b.position, b.content)) =
      [(("/w/m.rs", .grammar), (1, 1, none), firstFunction),
        (("/w/m.rs", .grammar), (1, 1, none), bodyText)] := by
    decide +kernel
  refine ⟨_, tryParse_eq_of_treeKnown fun _ => ⟨_, rfl⟩, parse_eq, ?_⟩
  rw [parse_eq]
  generalize collected "/w/m.rs" _ _ = blocks at hcut
  have hpruned := Block.pruned_deduplicate blocks
  obtain ⟨inner, rest, rfl, hinner, hrest⟩ := List.map_eq_cons_iff.1 hcut
  obtain ⟨outer, rest, rfl, houter, hnil⟩ := List.map_eq_cons_iff.1 hrest
  cases List.map_eq_nil_iff.1 hnil
  simp only [Block.position, Prod.mk.injEq] at hinner houter
  obtain ⟨⟨hpath, hsource⟩, ⟨hstart, hend, -⟩, hcontent⟩ := hinner
  obtain ⟨⟨hpath', hsource'⟩, ⟨hstart', hend', -⟩, hcontent'⟩ := houter
  have hin : outer.contains inner = true := by
    rw [Block.contains, hpath, hpath', hstart, hstart', hend, hend', hcontent, hcontent']
    decide +kernel
  have hnot : inner.contains outer = false := by
    rw [Block.contains, hpath, hpath', hstart, hstart', hend, hend', hcontent, hcontent']
    decide +kernel
  have hne : outer ≠ inner := by
    rintro rfl
    rw [hin] at hnot
    cases hnot
  refine ⟨outer, ?_, inner, ?_, hne, hin⟩
  · -- nothing contains the body
    refine hpruned.mem_of_ranksBefore (by simp) ?_
    intro a ha hother hcontains
    rcases List.mem_pair.1 ha with rfl | rfl
    · rw [hnot] at hcontains
      cases hcontains
    · exact absurd rfl hother
  · -- the function came before the body
    refine hpruned.mem_of_ranksBefore (by simp) ?_
    intro a ha hother _
    rcases List.mem_pair.1 ha with rfl | rfl
    · exact absurd rfl hother
    · refine Or.inr ⟨by rw [hsource, hsource'], ?_⟩
      rw [List.idxOf_cons_self, List.idxOf_cons_ne _ (Ne.symm hne)]
      exact Nat.succ_pos _

end Chunk

end SourceIndex
