import SourceIndex.Proofs.Chunk.Survivors
/-!
# Places of blocks

A block is a contiguous part of its file, and its line numbers are those of the place at which it stands.
The numbers come from three sources: the lines of a node, the line of a node and the index of a line in it,
and the line of an overlong line. `Draft.StandsIn` is what they have in common: a draft is a part of a text,
and its lines are told by the breaks in front of it and in it. It passes from the text of a node to the text
of the file (`Draft.StandsIn.within`), so that lines and their pieces need to be placed in their own text
only (`standsIn_of_mem_lineDrafts`). `placed_of_treeKnown` says it of the blocks of a file.
-/

namespace SourceIndex

/-- A block stands where it says: it is the part of the text between two offsets, its lines are told by the
breaks in front of these, and they are lines of the text. -/
structure Block.Placed (text : List Char) (b : Block) : Prop where
  first : 1 ≤ b.startLine
  ordered : b.startLine ≤ b.endLine
  last : b.endLine ≤ (Chunk.linesOf text).length
  offsets : ∃ start stop, start ≤ stop ∧ stop ≤ text.length ∧
    b.content.toList = (text.take stop).drop start ∧
      (text.take start).count '\n' = b.startLine - 1 ∧ (text.take stop).count '\n' = b.endLine - 1
  breaks : b.content.toList.count '\n' = b.endLine - b.startLine

/-- A draft is a part of a text whose first line has the number `base`, and bears the numbers of the lines
on which it begins and ends. -/
def Draft.StandsIn (text : List Char) (base : Nat) (d : Draft) : Prop :=
  ∃ front back, text = front ++ d.content.toList ++ back ∧
    d.startLine = base + front.count '\n' ∧ d.endLine = d.startLine + d.content.toList.count '\n'

/-- What stands in a part of a text stands in the text. -/
theorem Draft.StandsIn.within {text part front back : List Char} {base : Nat} {d : Draft}
    (h : d.StandsIn part (base + front.count '\n')) (htext : text = front ++ part ++ back) :
    d.StandsIn text base := by
  obtain ⟨before, behind, rfl, hstart, hend⟩ := h
  refine ⟨front ++ before, behind ++ back, by simp only [htext, List.append_assoc], ?_, hend⟩
  rw [hstart, List.count_append, Nat.add_assoc]

namespace Chunk

open Syntax

variable {trees : TreeSource} {p : ChunkPolicy} {source : Source} {path content fileHash : String}
  {text : List Char} {setting : Setting} {x : Stretch} {c : Cursor} {d : Draft}

/-- The lines of a stretch are a part of the text that was cut, behind as many breaks as there are lines in
front of them. -/
theorem exists_front_of_mem_cutLines (hx : x ∈ cutLines p 0 [] (linesOf text)) : ∃ front back,
    text = front ++ List.intercalate ['\n'] (x.lines.map (·.text)) ++ back ∧ front.count '\n' = x.start := by
  obtain ⟨hlines, before, behind, hcut, hplace⟩ := tiles_cutLines.exists_of_mem hx
  rw [List.nil_append] at hcut
  have hfree : ∀ l ∈ before.map (·.text), '\n' ∉ l := by
    intro l hl
    obtain ⟨line, hline, rfl⟩ := List.mem_map.1 hl
    have hmem : line ∈ linesOf text := by
      rw [hcut]
      exact List.mem_append_left _ (List.mem_append_left _ hline)
    exact newline_notMem_of_mem_linesOf hmem
  have hsome : x.lines.map (·.text) ≠ [] := by simpa using hlines
  obtain ⟨front, back, htext, hfront⟩ := @exists_intercalate_eq _ _ (behind.map (·.text)) hsome hfree
  rw [← List.map_append, ← List.map_append, ← hcut, intercalate_linesOf] at htext
  rw [List.length_map] at hfront
  exact ⟨front, back, htext, by omega⟩

/-- The draft of a stretch stands in the text that was cut. -/
theorem standsIn_of_mem_stretchDrafts (hx : x ∈ cutLines p 0 [] (linesOf text))
    (h : d ∈ stretchDrafts p setting x) : d.StandsIn text setting.baseLine := by
  obtain ⟨front, back, htext, hfront⟩ := exists_front_of_mem_cutLines hx
  have hfree : ∀ line ∈ x.lines, '\n' ∉ line.text := fun line hline =>
    newline_notMem_of_mem_linesOf ((tiles_cutLines.sublist_of_mem hx).subset hline)
  obtain ⟨-, hstart, hend⟩ := lines_of_mem_stretchDrafts h
  cases x with
  | run first run =>
    obtain ⟨-, -, hcontent, hrun, -⟩ := of_mem_stretchDrafts_run h
    have hbreaks := @count_intercalate (run.map (·.text)) (by simpa using hrun)
      (by simpa [Stretch.lines] using hfree)
    rw [List.length_map, ← hcontent] at hbreaks
    refine ⟨front, back, by rw [htext, hcontent]; rfl, by rw [hstart, hfront], ?_⟩
    simp only [Stretch.lines] at hend
    omega
  | overlong index line =>
    obtain ⟨-, hpiece, -, hsame⟩ := of_mem_stretchDrafts_overlong h
    obtain ⟨head, tail, hline⟩ := infix_of_mem_pieces hpiece
    have hnone : line.text.count '\n' = 0 := List.count_eq_zero.2 (hfree line (by simp [Stretch.lines]))
    rw [← hline, List.count_append, List.count_append] at hnone
    refine ⟨front ++ head, tail ++ back, ?_, ?_, ?_⟩
    · rw [htext]
      simp [Stretch.lines, ← hline]
    · rw [List.count_append, hstart, hfront]
      omega
    · simp only [Stretch.lines, List.length_singleton] at hend
      omega

theorem standsIn_of_mem_lineDrafts (h : d ∈ lineDrafts p setting text) :
    d.StandsIn text setting.baseLine := by
  obtain ⟨x, hx, hd⟩ := List.mem_flatMap.1 h
  exact standsIn_of_mem_stretchDrafts hx hd

/-- The drafts of a node stand in the file. -/
theorem standsIn_of_mem_nodeDrafts (aligned : c.tree.Aligned source) (h : d ∈ nodeDrafts p source c) :
    d.StandsIn source.text 1 := by
  obtain ⟨front, back, htext, hstart, hstop, -⟩ := aligned.exists_text
  rw [List.count_append] at hstop
  rcases mem_nodeDrafts.1 h with ⟨-, rfl⟩ | ⟨-, -, hd⟩
  · refine ⟨front, back, ?_, ?_, ?_⟩
    · simpa [nodeDraft] using htext
    · simp only [nodeDraft, hstart]
      omega
    · simp only [nodeDraft, hstart, hstop, String.toList_ofList]
      omega
  · have hplace := standsIn_of_mem_lineDrafts hd
    simp only [hstart, Nat.add_comm _ 1] at hplace
    exact hplace.within htext

theorem standsIn_of_mem_draftsOf
    (aligned : ∀ root, trees (Language.ofPath path) content = some root →
      root.Aligned (.ofText content.toList))
    (h : d ∈ draftsOf trees p path content) : d.StandsIn content.toList 1 := by
  rcases mem_draftsOf_cases h with hd | ⟨root, c, htree, hc, hd⟩
  · unfold wholeFileDrafts at hd
    split at hd
    · cases hd
    · exact standsIn_of_mem_lineDrafts hd
  · have hnode : c.tree.Aligned (.ofText content.toList) :=
      hereditary_of_reached Tree.Aligned.hereditary
        (fun x hx => Tree.Aligned.hereditary.of_mem_collect (aligned root htree) hx) hc
    exact standsIn_of_mem_nodeDrafts hnode hd

/-- A draft that stands in a file gives a block that is placed. -/
theorem placed_of_standsIn (h : d.StandsIn text 1) : (d.toBlock path fileHash).Placed text := by
  obtain ⟨front, back, rfl, hstart, hend⟩ := h
  have hlines := length_linesOf (front ++ d.content.toList ++ back)
  rw [List.count_append, List.count_append] at hlines
  have htake : (front ++ d.content.toList ++ back).take (front.length + d.content.toList.length) =
      front ++ d.content.toList := List.take_left' List.length_append
  refine
    { first := ?_, ordered := ?_, last := ?_, breaks := ?_
      offsets := ⟨front.length, front.length + d.content.toList.length, Nat.le_add_right .., ?_, ?_, ?_, ?_⟩ }
  · show 1 ≤ d.startLine
    omega
  · show d.startLine ≤ d.endLine
    omega
  · show d.endLine ≤ _
    omega
  · simp only [List.length_append]
    omega
  · rw [htake, List.drop_left]
    rfl
  · rw [List.append_assoc, List.take_left]
    show front.count '\n' = d.startLine - 1
    omega
  · rw [htake, List.count_append]
    show _ = d.endLine - 1
    omega
  · show d.content.toList.count '\n' = d.endLine - d.startLine
    omega

/-- Every block of a file stands where it says, if the ranges in its syntax tree are aligned. -/
theorem placed_of_treeKnown (known : TreeKnown trees path content)
    (aligned : ∀ root, trees (Language.ofPath path) content = some root →
      root.Aligned (.ofText content.toList)) :
    ∃ blocks, tryParse trees p path content fileHash = .ok blocks ∧
      ∀ b ∈ blocks, b.Placed content.toList := by
  refine ⟨_, tryParse_eq_of_treeKnown known, ?_⟩
  intro b hb
  obtain ⟨d, hd, rfl⟩ := exists_draft_of_mem_parse hb
  exact placed_of_standsIn (standsIn_of_mem_draftsOf aligned hd)

theorem placed_module : ∃ blocks,
    tryParse (fun _ _ => some moduleTree) shortBlocks "/w/m.rs" moduleText (contentHash moduleText) =
      .ok blocks ∧
    ∀ b ∈ blocks, b.Placed moduleText.toList := by
  have hfunction : functionNode.Aligned (.ofText moduleText.toList) :=
    .node (boundary_moduleText (by decide)) (boundary_moduleText (by decide)) (by decide) nofun
  have hmodule : moduleNode.Aligned (.ofText moduleText.toList) :=
    .node (boundary_moduleText (by decide)) (boundary_moduleText (by decide)) (by decide)
      (List.forall_mem_singleton.2 hfunction)
  have htree : moduleTree.Aligned (.ofText moduleText.toList) :=
    .node (boundary_moduleText (by decide)) (boundary_moduleText (by decide)) (by decide)
      (List.forall_mem_singleton.2 hmodule)
  exact placed_of_treeKnown (fun _ => ⟨moduleTree, rfl⟩) fun _ hroot => Option.some.inj hroot ▸ htree

end Chunk

end SourceIndex
