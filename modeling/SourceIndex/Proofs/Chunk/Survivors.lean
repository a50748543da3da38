import SourceIndex.Proofs.Chunk.Positions
import SourceIndex.Proofs.Point.Key
import SourceIndex.Proofs.Syntax.Definitions
/-!
# Definitions that survive cutting

A definition that is too long is replaced by its children, and these may again be split or dropped.
`Survives` says recursively when something of a node is left, and `exists_overlaps_of_survives` that a
definition of which something is left has a block on its lines. Conversely all blocks stand on the lines
of surviving definitions, so that a file whose definitions do not survive comes out empty: an overlong
definition can be lost if all of its parts are short.
-/

namespace SourceIndex.Chunk

open Syntax

variable {trees : TreeSource} {p : ChunkPolicy} {source : Source} {path content fileHash : String}
  {queue : List Cursor} {root : Tree} {c x : Cursor} {d : Draft} {b : Block} {s : Setting}
  {text : List Char}

/-- Something of a node is left: it fits the policy, or it is too long and is cut by lines that are not all
too short, or one of its children survives. -/
inductive Survives (p : ChunkPolicy) (source : Source) : Cursor → Prop where
  | fits {c : Cursor} (long : p.minBlock ≤ (c.tree.text source).length)
      (short : (c.tree.text source).length ≤ p.effectiveMax) : Survives p source c
  | cut {c : Cursor} (splits : Splits p source c) (leaf : c.tree.children = [])
      (drafts : leafDrafts p source c ≠ []) : Survives p source c
  | child {c d : Cursor} (splits : Splits p source c) (mem : d ∈ c.children)
      (survives : Survives p source d) : Survives p source c

/-! ## Nodes with drafts -/

/-- A node with drafts survives. -/
theorem survives_of_mem_nodeDrafts (h : d ∈ nodeDrafts p source c) : Survives p source c := by
  rcases mem_nodeDrafts.1 h with ⟨hfits, -⟩ | ⟨hsplits, hleaf, hd⟩
  · exact .fits hfits.1 hfits.2
  · exact .cut hsplits hleaf (List.ne_nil_of_mem hd)

/-- What is visited on account of a child is visited on account of the node, if this splits. -/
theorem Splits.reached {d : Cursor} (splits : Splits p source c) (mem : d ∈ c.children)
    (h : Reached p source [d] x) : Reached p source [c] x :=
  reached_cons.2 (Or.inr (Or.inl ⟨splits, reached_iff.2 ⟨d, mem, h⟩⟩))

/-- A node survives if and only if some node that is visited on account of it has drafts. -/
theorem survives_iff : Survives p source c ↔
    ∃ x d, Reached p source [c] x ∧ d ∈ nodeDrafts p source x := by
  constructor
  · intro h
    induction h with
    | @fits c long short =>
      exact ⟨c, nodeDraft source c, .definition List.mem_cons_self,
        mem_nodeDrafts.2 (Or.inl ⟨⟨long, short⟩, rfl⟩)⟩
    | @cut c splits leaf drafts =>
      obtain ⟨d, hd⟩ := List.exists_mem_of_ne_nil _ drafts
      exact ⟨c, d, .definition List.mem_cons_self, mem_nodeDrafts.2 (Or.inr ⟨splits, leaf, hd⟩)⟩
    | child splits mem _ ih =>
      obtain ⟨x, d, hx, hd⟩ := ih
      exact ⟨x, d, splits.reached mem hx, hd⟩
  · rintro ⟨x, d, hx, hd⟩
    have up : ∀ {y}, Reached p source [c] y → Survives p source y → Survives p source c := by
      intro y hy
      induction hy with
      | definition hc => exact fun h => List.mem_singleton.1 hc ▸ h
      | child _ hmin hmax mem ih => exact fun h => ih (.child ⟨hmin, hmax⟩ mem h)
    exact up hx (survives_of_mem_nodeDrafts hd)

/-! ## Lines of drafts -/

/-- A range of lines meets the lines of a node. -/
def Meets (source : Source) (c : Cursor) (startLine endLine : Nat) : Prop :=
  startLine ≤ source.lineOf c.tree.label.stop ∧ source.lineOf c.tree.label.start ≤ endLine

/-- The range of a node that is visited on account of another one lies within that one's. -/
theorem proper_of_reached (proper : c.tree.Proper source) (h : Reached p source [c] x) :
    x.tree.Proper source ∧ c.tree.label.start ≤ x.tree.label.start ∧
      x.tree.label.stop ≤ c.tree.label.stop := by
  induction h with
  | definition hx =>
    rw [List.mem_singleton.1 hx]
    exact ⟨proper, Nat.le_refl _, Nat.le_refl _⟩
  | child _ _ _ hd ih =>
    obtain ⟨hproper, hstart, hstop⟩ := ih
    obtain ⟨hchild, hstart', hstop'⟩ := hproper.child hd
    exact ⟨hchild, Nat.le_trans hstart hstart', Nat.le_trans hstop' hstop⟩

/-- Pieces of a text stand on its lines. -/
theorem lines_of_mem_lineDrafts (h : d ∈ lineDrafts p s text) :
    s.baseLine ≤ d.endLine ∧ d.startLine ≤ s.baseLine + text.count '\n' := by
  obtain ⟨stretch, hstretch, hd⟩ := List.mem_flatMap.1 h
  obtain ⟨-, hstart⟩ := start_of_mem_cutLines hstretch
  obtain ⟨hlines, hline, hend⟩ := lines_of_mem_stretchDrafts hd
  have hpos := List.length_pos_iff.2 hlines
  rw [length_linesOf, List.length_nil] at hstart
  omega

/-- The drafts of a node stand on its lines. -/
theorem meets_of_mem_nodeDrafts (proper : c.tree.Proper source) (h : d ∈ nodeDrafts p source c) :
    Meets source c d.startLine d.endLine := by
  have hlines : source.lineOf c.tree.label.start ≤ source.lineOf c.tree.label.stop :=
    Source.lineOf_mono proper.range
  rcases mem_nodeDrafts.1 h with ⟨-, rfl⟩ | ⟨-, -, hd⟩
  · exact ⟨hlines, hlines⟩
  · obtain ⟨hend, hstart⟩ := lines_of_mem_lineDrafts hd
    have hbreaks := Source.lineOf_add_count_le proper.boundary proper.range
    exact ⟨Nat.le_trans hstart hbreaks, hend⟩

/-- What is cut from a node, its descendants included, stands on its lines. -/
theorem meets_of_reached (proper : c.tree.Proper source) (hx : Reached p source [c] x)
    (h : d ∈ nodeDrafts p source x) : Meets source c d.startLine d.endLine := by
  obtain ⟨hproper, hstart, hstop⟩ := proper_of_reached proper hx
  obtain ⟨hle, hge⟩ := meets_of_mem_nodeDrafts hproper h
  exact ⟨Nat.le_trans hle (Source.lineOf_mono hstop),
    Nat.le_trans (Source.lineOf_mono hstart) hge⟩

/-! ## Blocks of surviving definitions -/

/-- No two drafts of a file have one segment hash for different segment keys. -/
def Collisionless (path : String) (drafts : List Draft) : Prop :=
  ∀ d ∈ drafts, ∀ d' ∈ drafts,
    segmentHash path d.startLine d.endLine d.offset d.content =
        segmentHash path d'.startLine d'.endLine d'.offset d'.content →
      segmentKey path d.startLine d.endLine d.offset d.content =
        segmentKey path d'.startLine d'.endLine d'.offset d'.content

/-- Drafts with different segment hashes have none in common for different segment keys. -/
theorem collisionless_of_nodup {drafts : List Draft}
    (h : (drafts.map fun d => (d.toBlock path fileHash).segmentHash).Nodup) : Collisionless path drafts := by
  intro d hd d' hd' hhash
  rw [List.inj_on_of_nodup_map h hd hd' hhash]

/-- The lines of each draft of a file lie within those of a block of the file. -/
theorem exists_block_of_mem_draftsOf (apart : Collisionless path (draftsOf trees p path content))
    (h : d ∈ draftsOf trees p path content) :
    ∃ b ∈ parse trees p path content fileHash, b.startLine ≤ d.startLine ∧ d.endLine ≤ b.endLine := by
  obtain ⟨d', hd', hb, hhash⟩ := @exists_segmentHash_eq path fileHash d _ h
  obtain ⟨hstart, hend⟩ := segmentKey_lines (apart d' hd' d h hhash)
  obtain ⟨winner, hwinner, hcontains⟩ := Block.exists_contains_of_mem hb
  obtain ⟨-, hfirst, hlast, -⟩ := Block.contains_iff.1 hcontains
  rw [parse_eq, ← hstart, ← hend]
  exact ⟨winner, hwinner, hfirst, hlast⟩

section
variable (grammar : (Language.ofPath path).hasGrammar = true)
  (tree : trees (Language.ofPath path) content = some root)
  (proper : root.Proper (.ofText content.toList))
include grammar tree proper

/-- A definition that survives has a block on its lines. -/
theorem exists_block_of_survives (apart : Collisionless path (draftsOf trees p path content))
    (hc : c ∈ collect (Language.ofPath path) root)
    (hsurvives : Survives p (.ofText content.toList) c) :
    ∃ b ∈ parse trees p path content fileHash,
      Meets (.ofText content.toList) c b.startLine b.endLine := by
  obtain ⟨x, d, hx, hd⟩ := survives_iff.1 hsurvives
  have hmem := (mem_draftsOf grammar tree (List.ne_nil_of_mem hc)).2 ⟨c, hc, x, hx, hd⟩
  obtain ⟨b, hb, hstart, hend⟩ := exists_block_of_mem_draftsOf apart hmem
  obtain ⟨hle, hge⟩ := meets_of_reached (proper_of_mem_collect proper hc) hx hd
  exact ⟨b, hb, Nat.le_trans hstart hle, Nat.le_trans hge hend⟩

/-- A block of a file with definitions stands on the lines of one that survives. -/
theorem exists_survivor_of_mem_parse (definitions : collect (Language.ofPath path) root ≠ [])
    (hb : b ∈ parse trees p path content fileHash) :
    ∃ c ∈ collect (Language.ofPath path) root, Survives p (.ofText content.toList) c ∧
      Meets (.ofText content.toList) c b.startLine b.endLine := by
  obtain ⟨d, hd, rfl⟩ := exists_draft_of_mem_parse hb
  obtain ⟨c, hc, x, hx, hd⟩ := (mem_draftsOf grammar tree definitions).1 hd
  exact ⟨c, hc, survives_iff.2 ⟨x, d, hx, hd⟩,
    meets_of_reached (proper_of_mem_collect proper hc) hx hd⟩

/-- The blocks of a file with a syntax tree: each definition that survives has a block on its lines, each
block stands on the lines of a definition that survives, and so there are none if and only if no
definition survives. -/
theorem exists_overlaps_of_survives (apart : Collisionless path (draftsOf trees p path content)) :
    ∃ blocks, tryParse trees p path content fileHash = .ok blocks ∧
      (∀ c ∈ collect (Language.ofPath path) root, Survives p (.ofText content.toList) c →
        ∃ b ∈ blocks, Meets (.ofText content.toList) c b.startLine b.endLine) ∧
      (collect (Language.ofPath path) root ≠ [] →
        (∀ b ∈ blocks, ∃ c ∈ collect (Language.ofPath path) root,
          Survives p (.ofText content.toList) c ∧
            Meets (.ofText content.toList) c b.startLine b.endLine) ∧
        (blocks = [] ↔ ∀ c ∈ collect (Language.ofPath path) root,
          ¬Survives p (.ofText content.toList) c)) := by
  refine ⟨_, tryParse_eq tree, fun c hc => exists_block_of_survives grammar tree proper apart hc,
    fun definitions => ⟨fun b hb => exists_survivor_of_mem_parse grammar tree proper definitions hb, ?_⟩⟩
  constructor
  · intro hnone c hc hsurvives
    obtain ⟨b, hb, -⟩ := exists_block_of_survives grammar tree proper apart hc hsurvives
    rw [hnone] at hb
    cases hb
  · intro hnone
    rw [List.eq_nil_iff_forall_not_mem]
    intro b hb
    obtain ⟨c, hc, hsurvives, -⟩ :=
      exists_survivor_of_mem_parse grammar tree proper definitions hb
    exact hnone c hc hsurvives

end

/-! ### A module that is too long, and a text that is lost -/

/-- A module with one function in it. -/
def moduleText : String := "mod m { fn first() {} }"

def functionNode : Tree := .node ⟨"function_item", true, 8, 21, none⟩ []

def moduleNode : Tree := .node ⟨"mod_item", true, 0, 23, none⟩ [functionNode]

def moduleTree : Tree := .node ⟨"source_file", true, 0, 23, none⟩ [moduleNode]

/-- Blocks of 10 to 17 characters. -/
def shortBlocks : ChunkPolicy := { minBlock := 10, maxBlock := 15 }

theorem boundary_moduleText {n : Nat} (h : byteLength (moduleText.toList.take n) = n) :
    Source.IsBoundary (.ofText moduleText.toList) n :=
  ⟨_, _, (List.take_append_drop n moduleText.toList).symm, h⟩

theorem moduleTree_proper : moduleTree.Proper (.ofText moduleText.toList) := by
  have hfunction : functionNode.Proper (.ofText moduleText.toList) :=
    .node (boundary_moduleText (by decide)) (by decide) nofun nofun
  have hmodule : moduleNode.Proper (.ofText moduleText.toList) :=
    .node (boundary_moduleText (by decide)) (by decide) (by simp [functionNode, Tree.label])
      (List.forall_mem_singleton.2 hfunction)
  exact .node (boundary_moduleText (by decide)) (by decide) (by simp [moduleNode, Tree.label])
    (List.forall_mem_singleton.2 hmodule)

theorem survives_moduleNode :
    Survives shortBlocks (.ofText moduleText.toList) ⟨moduleNode, [moduleTree]⟩ :=
  .child ⟨by decide +kernel, by decide +kernel⟩ List.mem_cons_self
    (.fits (by decide +kernel) (by decide +kernel))

/-- The module and its function are the definitions of the tree. -/
theorem definitionsOf_moduleTree : definitionsOf (Language.ofPath "/w/m.rs") moduleTree =
    [⟨moduleNode, [moduleTree]⟩, ⟨functionNode, [moduleNode, moduleTree]⟩] := by
  have hnodes : (Cursor.ofRoot moduleTree).preorder = [⟨moduleTree, []⟩, ⟨moduleNode, [moduleTree]⟩,
    ⟨functionNode, [moduleNode, moduleTree]⟩] := rfl
  rw [definitionsOf, hnodes]
  have hroot : isDefinition (Language.ofPath "/w/m.rs") ⟨moduleTree, []⟩ = false := by decide +kernel
  have hmodule : isDefinition (Language.ofPath "/w/m.rs") ⟨moduleNode, [moduleTree]⟩ = true := by
    decide +kernel
  have hfunction : isDefinition (Language.ofPath "/w/m.rs") ⟨functionNode, [moduleNode, moduleTree]⟩ =
      true := by decide +kernel
  simp [hroot, hmodule, hfunction]

/-- The module is too long and its function is not: the file has blocks on the lines of the module. -/
theorem exists_overlaps_moduleNode : ∃ blocks,
    tryParse (fun _ _ => some moduleTree) shortBlocks "/w/m.rs" moduleText (contentHash moduleText) =
      .ok blocks ∧
    ∃ b ∈ blocks, Meets (.ofText moduleText.toList) ⟨moduleNode, [moduleTree]⟩ b.startLine
      b.endLine := by
  have hkeys : ∀ d ∈ draftsOf (fun _ _ => some moduleTree) shortBlocks "/w/m.rs" moduleText,
      ∀ d' ∈ draftsOf (fun _ _ => some moduleTree) shortBlocks "/w/m.rs" moduleText,
        segmentKey "/w/m.rs" d.startLine d.endLine d.offset d.content =
          segmentKey "/w/m.rs" d'.startLine d'.endLine d'.offset d'.content := by
    decide +kernel
  obtain ⟨blocks, hblocks, hsurvivor, -⟩ := @exists_overlaps_of_survives (fun _ _ => some moduleTree)
    shortBlocks "/w/m.rs" moduleText (contentHash moduleText) moduleTree (by decide +kernel) rfl
    moduleTree_proper fun d hd d' hd' _ => hkeys d hd d' hd'
  have hmem : ⟨moduleNode, [moduleTree]⟩ ∈ collect (Language.ofPath "/w/m.rs") moduleTree := by
    rw [collect_eq, definitionsOf_moduleTree]
    exact List.mem_cons_self
  exact ⟨blocks, hblocks, hsurvivor _ hmem survives_moduleNode⟩

/-- A text of 48 characters that is one definition. -/
def greetings : String := "static GREETINGS: &str = \"hello there, general\";"

/-- The tree of the definition: all of its parts are short. -/
def greetingsTree : Tree :=
  .node ⟨"source_file", true, 0, 48, none⟩
    [.node ⟨"static_item", true, 0, 48, none⟩
      [.node ⟨"static", false, 0, 6, none⟩ [],
        .node ⟨"identifier", true, 7, 16, some "name"⟩ [],
        .node ⟨":", false, 16, 17, none⟩ [],
        .node ⟨"reference_type", true, 18, 22, some "type"⟩ [],
        .node ⟨"=", false, 23, 24, none⟩ [],
        .node ⟨"string_literal", true, 25, 47, some "value"⟩ [],
        .node ⟨";", false, 47, 48, none⟩ []]]

/-- A definition that is longer than the lower limit and comes out as nothing. -/
theorem tryParse_greetings :
    (tryParse (fun _ _ => some greetingsTree) { minBlock := 30, maxBlock := 40 } "/w/kinds.rs" greetings
      (contentHash greetings)).toOption = some [] ∧
    ∃ c ∈ collect (Language.ofPath "/w/kinds.rs") greetingsTree,
      30 ≤ (c.tree.text (.ofText greetings.toList)).length := by
  decide +kernel

end SourceIndex.Chunk
