import Mathlib.Logic.Function.Iterate
import SourceIndex.Proofs.Chunk.Survivors
/-!
# The frontier of a syntax tree

A file is cut at the nodes that are visited and fit the policy. The queue of nodes runs empty, since a turn
leaves fewer nodes in it and below it (`exists_turns`). The blocks that come out before overlapping ones are
dropped are those of the visited nodes that fit, together with those of overlong nodes without children
(`Frontier`). A node may be visited more than once, as a definition and as a child of one, and may share its
lines and text with other nodes. There is then one block for all of them, and none is missing as long as
segment hashes do not collide (`frontier_of_hashesApart`). Nor is a definition that fits lost when overlapping
blocks are dropped (`exists_frontier`).
-/

namespace SourceIndex.Chunk

open Syntax

variable {trees : TreeSource} {p : ChunkPolicy} {source : Source} {path content fileHash : String}
  {queue definitions : List Cursor} {drafts : List Draft} {setting : Setting} {text : List Char}
  {root : Tree} {c : Cursor} {d : Draft} {b : Block}

/-! ## Turns of the queue -/

/-- One turn: the node in front gives its drafts and makes room for its children. -/
def turn (p : ChunkPolicy) (source : Source) : List Cursor × List Draft → List Cursor × List Draft
  | ([], drafts) => ([], drafts)
  | (c :: rest, drafts) => (rest ++ joining p source c, drafts ++ nodeDrafts p source c)

/-- The queue is empty after no more turns than there are nodes in and below it. -/
theorem exists_turns : ∃ n ≤ Cursor.totalSize queue,
    (turn p source)^[n] (queue, drafts) = ([], drafts ++ visit p source queue) := by
  induction queue using queue_induction p source generalizing drafts with
  | nil => exact ⟨0, Nat.zero_le _, by rw [visit, List.append_nil]; rfl⟩
  | cons c rest ih =>
    obtain ⟨n, hn, hturns⟩ := @ih (drafts ++ nodeDrafts p source c)
    have hless := @totalSize_joining_lt p source rest c
    refine ⟨n + 1, by omega, ?_⟩
    rw [Function.iterate_succ_apply, turn, hturns, visit_cons, List.append_assoc]

/-! ## Blocks of visited nodes -/

/-- A block stands for a node: it has its lines and its text. -/
structure StandsFor (source : Source) (c : Cursor) (b : Block) : Prop where
  first : b.startLine = source.lineOf c.tree.label.start
  last : b.endLine = source.lineOf c.tree.label.stop
  content : b.content.toList = c.tree.text source

/-- The blocks that are cut along definitions: what is cut as a node of the tree is a visited node that fits,
each such node has a block that stands for it, and the other blocks are pieces of visited nodes that are too
long and have no children. No two of them have one segment hash. -/
structure Frontier (p : ChunkPolicy) (source : Source) (path fileHash : String) (definitions : List Cursor)
    (emitted : List Block) : Prop where
  grammar : ∀ b ∈ emitted, b.chunkSource = .grammar → ∃ c, Reached p source definitions c ∧
    Fits p source c ∧ b = (nodeDraft source c).toBlock path fileHash
  covered : ∀ c, Reached p source definitions c → Fits p source c → ∃ b ∈ emitted, StandsFor source c b
  pieces : ∀ b ∈ emitted, b.chunkSource ≠ .grammar → ∃ c, Reached p source definitions c ∧
    c.tree.children = [] ∧ p.effectiveMax < (c.tree.text source).length ∧
      ∃ d ∈ leafDrafts p source c, b = d.toBlock path fileHash
  distinct : (emitted.map (·.segmentHash)).Nodup

/-- Drafts of one segment hash have the same lines and text. -/
def HashesApart (path : String) (drafts : List Draft) : Prop :=
  ∀ d ∈ drafts, ∀ d' ∈ drafts,
    segmentHash path d.startLine d.endLine d.offset d.content =
        segmentHash path d'.startLine d'.endLine d'.offset d'.content →
      d.startLine = d'.startLine ∧ d.endLine = d'.endLine ∧ d.content = d'.content

/-- A draft of which the hash is there already has left a block with its lines and text. -/
theorem exists_mem_collected (apart : HashesApart path drafts) (h : d ∈ drafts) :
    ∃ b ∈ collected path fileHash drafts,
      b.startLine = d.startLine ∧ b.endLine = d.endLine ∧ b.content = d.content := by
  obtain ⟨d', hd', hb, hhash⟩ := @exists_segmentHash_eq path fileHash d drafts h
  exact ⟨_, hb, apart d' hd' d h hhash⟩

/-- Lines and their pieces are not cut as nodes. -/
theorem chunkSource_ne_of_mem_lineDrafts (h : d ∈ lineDrafts p setting text) : d.chunkSource ≠ .grammar := by
  obtain ⟨x, -, hd⟩ := List.mem_flatMap.1 h
  cases x with
  | run first part =>
    rw [(of_mem_stretchDrafts_run hd).1]
    nofun
  | overlong index line =>
    rw [(of_mem_stretchDrafts_overlong hd).1]
    nofun

/-- A draft of a queue is that of a visited node that fits, or a piece of an overlong one. -/
theorem mem_visit_cases (h : d ∈ visit p source queue) : ∃ c, Reached p source queue c ∧
    (Fits p source c ∧ d = nodeDraft source c ∨
      d.chunkSource ≠ .grammar ∧ c.tree.children = [] ∧ p.effectiveMax < (c.tree.text source).length ∧
        d ∈ leafDrafts p source c) := by
  obtain ⟨c, hc, hd⟩ := mem_visit.1 h
  refine ⟨c, hc, (mem_nodeDrafts.1 hd).imp_right ?_⟩
  rintro ⟨hsplits, hleaf, hpiece⟩
  exact ⟨chunkSource_ne_of_mem_lineDrafts hpiece, hleaf, hsplits.2, hpiece⟩

/-- The blocks of a queue are those of its frontier. -/
theorem frontier_of_hashesApart (apart : HashesApart path (visit p source queue)) :
    Frontier p source path fileHash queue (collected path fileHash (visit p source queue)) where
  grammar b hb hsource := by
    obtain ⟨d, hd, rfl⟩ := mem_collected hb
    obtain ⟨c, hc, ⟨hfits, rfl⟩ | ⟨hother, -⟩⟩ := mem_visit_cases hd
    · exact ⟨c, hc, hfits, rfl⟩
    · exact absurd hsource hother
  covered c hc hfits := by
    have hd : nodeDraft source c ∈ visit p source queue :=
      mem_visit.2 ⟨c, hc, mem_nodeDrafts.2 (Or.inl ⟨hfits, rfl⟩)⟩
    obtain ⟨b, hb, hstart, hend, hcontent⟩ := exists_mem_collected apart hd
    exact ⟨b, hb, hstart, hend, by rw [hcontent]; exact String.toList_ofList⟩
  pieces b hb hsource := by
    obtain ⟨d, hd, rfl⟩ := mem_collected hb
    obtain ⟨c, hc, ⟨-, rfl⟩ | ⟨-, hleaf, hlong, hpiece⟩⟩ := mem_visit_cases hd
    · exact absurd rfl hsource
    · exact ⟨c, hc, hleaf, hlong, d, hpiece, rfl⟩
  distinct := nodup_collected

/-- A block that stands for a node and bears the path contains the block of the node. -/
theorem StandsFor.contains (h : StandsFor source c b) (hpath : b.filePath = path) :
    b.contains ((nodeDraft source c).toBlock path fileHash) = true := by
  refine Block.contains_iff.2 ⟨hpath, Nat.le_of_eq h.first, Nat.le_of_eq h.last.symm, ?_⟩
  rw [h.content]
  exact (String.toList_ofList (l := c.tree.text source)).symm ▸ List.infix_refl _

theorem filePath_of_mem_collected (h : b ∈ collected path fileHash drafts) : b.filePath = path := by
  obtain ⟨d, -, rfl⟩ := mem_collected h
  rfl

/-- A visited node that fits lies inside a block that is left. -/
theorem Frontier.exists_contains {emitted : List Block}
    (h : Frontier p source path fileHash definitions emitted) (hpath : ∀ b ∈ emitted, b.filePath = path)
    (hc : Reached p source definitions c) (hfits : Fits p source c) :
    ∃ b ∈ Block.deduplicate emitted, b.contains ((nodeDraft source c).toBlock path fileHash) = true := by
  obtain ⟨b, hb, hstands⟩ := h.covered c hc hfits
  have hinner := @StandsFor.contains _ _ fileHash _ _ hstands (hpath b hb)
  obtain ⟨winner, hwinner, hcontains⟩ := Block.exists_contains_of_mem hb
  exact ⟨winner, hwinner, Block.contains_trans hcontains hinner⟩

/-- A file with definitions is cut along the frontier of its syntax tree: the queue runs empty, what comes
out of it are the blocks of the frontier, and each definition that fits lies inside a block of the file. -/
theorem exists_frontier (grammar : (Language.ofPath path).hasGrammar = true)
    (tree : trees (Language.ofPath path) content = some root)
    (definitions : definitionsOf (Language.ofPath path) root ≠ [])
    (apart : HashesApart path (draftsOf trees p path content)) :
    ∃ drafts, (∃ n ≤ Cursor.totalSize (definitionsOf (Language.ofPath path) root),
        (turn p (.ofText content.toList))^[n] (definitionsOf (Language.ofPath path) root, []) =
          ([], drafts)) ∧
      tryParse trees p path content fileHash =
        .ok (Block.deduplicate (collected path fileHash drafts)) ∧
      Frontier p (.ofText content.toList) path fileHash (definitionsOf (Language.ofPath path) root)
        (collected path fileHash drafts) ∧
      ∀ c ∈ definitionsOf (Language.ofPath path) root, Fits p (.ofText content.toList) c →
        ∃ b ∈ Block.deduplicate (collected path fileHash drafts),
          b.contains ((nodeDraft (.ofText content.toList) c).toBlock path fileHash) = true := by
  have hdrafts : draftsOf trees p path content =
      visit p (.ofText content.toList) (definitionsOf (Language.ofPath path) root) := by
    rw [draftsOf_eq grammar tree, grammarDrafts, collect_eq, if_neg (by simpa using definitions)]
  have hblocks := @tryParse_eq trees p path content fileHash root tree
  rw [parse_eq, hdrafts] at hblocks
  rw [hdrafts] at apart
  have hfrontier := @frontier_of_hashesApart p (.ofText content.toList) path fileHash _ apart
  refine ⟨_, exists_turns, hblocks, hfrontier, ?_⟩
  intro c hc hfits
  exact hfrontier.exists_contains (fun b => filePath_of_mem_collected) (.definition hc) hfits

/-- The module is too long and its function fits: the function lies inside a block of the file. -/
theorem exists_frontier_module : ∃ blocks,
    tryParse (fun _ _ => some moduleTree) shortBlocks "/w/m.rs" moduleText (contentHash moduleText) =
      .ok blocks ∧
    ∃ b ∈ blocks, b.contains ((nodeDraft (.ofText moduleText.toList)
      ⟨functionNode, [moduleNode, moduleTree]⟩).toBlock "/w/m.rs" (contentHash moduleText)) = true := by
  have hsame : ∀ d ∈ draftsOf (fun _ _ => some moduleTree) shortBlocks "/w/m.rs" moduleText,
      ∀ d' ∈ draftsOf (fun _ _ => some moduleTree) shortBlocks "/w/m.rs" moduleText,
        d.startLine = d'.startLine ∧ d.endLine = d'.endLine ∧ d.content = d'.content := by
    decide +kernel
  have hmem : ⟨functionNode, [moduleNode, moduleTree]⟩ ∈
      definitionsOf (Language.ofPath "/w/m.rs") moduleTree := by
    rw [definitionsOf_moduleTree]
    exact List.mem_cons_of_mem _ List.mem_cons_self
  obtain ⟨drafts, -, hblocks, -, hcontains⟩ := @exists_frontier (fun _ _ => some moduleTree) shortBlocks
    "/w/m.rs" moduleText (contentHash moduleText) moduleTree (by decide +kernel) rfl
    (List.ne_nil_of_mem hmem) fun d hd d' hd' _ => hsame d hd d' hd'
  exact ⟨_, hblocks, hcontains _ hmem ⟨by decide +kernel, by decide +kernel⟩⟩

end SourceIndex.Chunk
