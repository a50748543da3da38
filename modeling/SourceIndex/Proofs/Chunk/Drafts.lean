import SourceIndex.Chunk.Parse
import SourceIndex.Proofs.Block.Containment
import SourceIndex.Proofs.Syntax.Lines
/-!
# The drafts of a file

`draftsOf` are the drafts that a file is cut into before some of them are dropped, and `parse_eq` says that
its blocks are those that are kept of them. With a syntax tree the drafts are those of the visited nodes,
whatever the order in which these were queued (`mem_visit`).
-/

namespace SourceIndex.Chunk

open Syntax

variable {trees : TreeSource} {p : ChunkPolicy} {source : Source} {path content fileHash : String}
  {queue queue' : List Cursor} {root : Tree} {c x : Cursor} {d : Draft} {b : Block}

/-! ## Visited nodes -/

/-- A node that makes room for its children, if it has any. -/
def Splits (p : ChunkPolicy) (source : Source) (c : Cursor) : Prop :=
  p.minBlock ≤ (c.tree.text source).length ∧ p.effectiveMax < (c.tree.text source).length

/-- A node that becomes a block. -/
def Fits (p : ChunkPolicy) (source : Source) (c : Cursor) : Prop :=
  p.minBlock ≤ (c.tree.text source).length ∧ (c.tree.text source).length ≤ p.effectiveMax

/-- The drafts of one visited node, without those of its children. -/
def nodeDrafts (p : ChunkPolicy) (source : Source) (c : Cursor) : List Draft :=
  if (c.tree.text source).length < p.minBlock then []
  else if p.effectiveMax < (c.tree.text source).length then
    if c.tree.children.isEmpty then leafDrafts p source c else []
  else [nodeDraft source c]

/-- A node gives drafts if it fits the policy, or if it is childless and too long. -/
theorem mem_nodeDrafts : d ∈ nodeDrafts p source c ↔ Fits p source c ∧ d = nodeDraft source c ∨
    Splits p source c ∧ c.tree.children = [] ∧ d ∈ leafDrafts p source c := by
  unfold nodeDrafts Fits Splits
  split
  · rename_i hshort
    simp [Nat.not_le.2 hshort]
  · rename_i hmin
    rw [Nat.not_lt] at hmin
    split
    · rename_i hlong
      simp [hmin, hlong, Nat.not_le.2 hlong]
    · rename_i hfits
      simp [hmin, hfits, Nat.not_lt.1 hfits]

theorem Reached.mono (h : Reached p source queue x) (hsub : queue ⊆ queue') :
    Reached p source queue' x := by
  induction h with
  | definition hc => exact .definition (hsub hc)
  | child _ hmin hmax hd ih => exact .child ih hmin hmax hd

theorem reached_nil : ¬Reached p source [] x := by
  intro h
  induction h with
  | definition hc => cases hc
  | child _ _ _ _ ih => exact ih

theorem reached_append : Reached p source (queue ++ queue') x ↔
    Reached p source queue x ∨ Reached p source queue' x := by
  constructor
  · intro h
    induction h with
    | definition hc =>
      exact (List.mem_append.1 hc).imp .definition .definition
    | child _ hmin hmax hd ih =>
      exact ih.imp (fun h => .child h hmin hmax hd) fun h => .child h hmin hmax hd
  · rintro (h | h)
    · exact h.mono (List.subset_append_left ..)
    · exact h.mono (List.subset_append_right ..)

/-- A node is visited on account of the first one in the queue, or without it. -/
theorem reached_cons : Reached p source (c :: queue) x ↔
    x = c ∨ Splits p source c ∧ Reached p source c.children x ∨ Reached p source queue x := by
  constructor
  · intro h
    induction h with
    | definition hc =>
      rcases List.mem_cons.1 hc with rfl | hc
      · exact Or.inl rfl
      · exact Or.inr (Or.inr (.definition hc))
    | child _ hmin hmax hd ih =>
      rcases ih with rfl | ⟨hsplits, h⟩ | h
      · exact Or.inr (Or.inl ⟨⟨hmin, hmax⟩, .definition hd⟩)
      · exact Or.inr (Or.inl ⟨hsplits, .child h hmin hmax hd⟩)
      · exact Or.inr (Or.inr (.child h hmin hmax hd))
  · rintro (rfl | ⟨⟨hmin, hmax⟩, h⟩ | h)
    · exact .definition List.mem_cons_self
    · induction h with
      | definition hd => exact .child (.definition List.mem_cons_self) hmin hmax hd
      | child _ hmin hmax hd ih => exact .child ih hmin hmax hd
    · exact h.mono (List.subset_cons_self ..)

/-- Each visited node is visited on account of one of the queue. -/
theorem reached_iff : Reached p source queue x ↔ ∃ c ∈ queue, Reached p source [c] x := by
  constructor
  · intro h
    induction h with
    | definition hc => exact ⟨_, hc, .definition List.mem_cons_self⟩
    | child _ hmin hmax hd ih =>
      obtain ⟨c, hc, h⟩ := ih
      exact ⟨c, hc, .child h hmin hmax hd⟩
  · rintro ⟨c, hc, h⟩
    exact h.mono fun y hy => List.mem_singleton.1 hy ▸ hc

/-- What holds of the nodes of a queue and passes to children holds of all visited nodes. -/
theorem hereditary_of_reached {P : Tree → Prop} (h : Tree.Hereditary P)
    (hqueue : ∀ c ∈ queue, P c.tree) (hx : Reached p source queue x) : P x.tree := by
  induction hx with
  | definition hc => exact hqueue _ hc
  | child _ _ _ hd ih => exact h.of_mem_children ih hd

/-! ## Working through a queue -/

instance : Decidable (Splits p source c) :=
  inferInstanceAs (Decidable (_ ∧ _))

/-- The nodes that join the queue when a node is taken from it. -/
def joining (p : ChunkPolicy) (source : Source) (c : Cursor) : List Cursor :=
  if Splits p source c then c.children else []

/-- Each turn leaves fewer nodes in and below the queue. -/
theorem totalSize_joining_lt :
    Cursor.totalSize (queue ++ joining p source c) < Cursor.totalSize (c :: queue) := by
  rw [Cursor.totalSize_append, Cursor.totalSize_cons, joining]
  split
  · have hchildren := c.totalSize_children_lt
    omega
  · have hnone : Cursor.totalSize [] = 0 := rfl
    have hpos := c.tree.size_eq
    omega

/-- What holds of the empty queue, and of a queue if it holds of what one turn makes of it, holds of every
queue. -/
theorem queue_induction {P : List Cursor → Prop} (p : ChunkPolicy) (source : Source) (nil : P [])
    (cons : ∀ c rest, P (rest ++ joining p source c) → P (c :: rest)) (queue : List Cursor) : P queue := by
  match queue with
  | [] => exact nil
  | c :: rest => exact cons c rest (queue_induction p source nil cons (rest ++ joining p source c))
termination_by Cursor.totalSize queue
decreasing_by exact totalSize_joining_lt

/-- The node in front gives its drafts, and what joins the queue joins it at the back. -/
theorem visit_cons : visit p source (c :: queue) =
    nodeDrafts p source c ++ visit p source (queue ++ joining p source c) := by
  rw [visit, nodeDrafts]
  split
  · rename_i hshort
    have hnot : ¬Splits p source c := fun h => Nat.not_le.2 hshort h.1
    rw [joining, if_neg hnot, List.append_nil, List.nil_append]
  · rename_i hmin
    split
    · rename_i hlong
      have hsplits : Splits p source c := ⟨Nat.not_lt.1 hmin, hlong⟩
      rw [joining, if_pos hsplits]
      split
      · rename_i hleaf
        rw [Cursor.children, List.isEmpty_iff.1 hleaf, List.map_nil, List.append_nil]
      · rw [List.nil_append]
    · rename_i hfits
      have hnot : ¬Splits p source c := fun h => hfits h.2
      rw [joining, if_neg hnot, List.append_nil, List.singleton_append]

/-- Nodes that are too short are passed over. -/
theorem visit_append_of_short (h : ∀ c ∈ queue, (c.tree.text source).length < p.minBlock) :
    visit p source (queue ++ queue') = visit p source queue' := by
  induction queue with
  | nil => rfl
  | cons c queue ih =>
    rw [List.cons_append, visit, if_pos (h c List.mem_cons_self)]
    exact ih fun d hd => h d (List.mem_cons_of_mem c hd)

/-- A node that is too long makes room for its children. -/
theorem visit_of_splits (h : Splits p source c) (hparent : c.tree.children ≠ []) :
    visit p source (c :: queue) = visit p source (queue ++ c.children) := by
  rw [visit_cons, nodeDrafts, if_neg (Nat.not_lt.2 h.1), if_pos h.2, if_neg (by simpa using hparent),
    joining, if_pos h, List.nil_append]

/-- A childless node that is too long is cut by lines. -/
theorem visit_of_leaf (h : Splits p source c) (hleaf : c.tree.children = []) :
    visit p source (c :: queue) = leafDrafts p source c ++ visit p source queue := by
  rw [visit_cons, nodeDrafts, if_neg (Nat.not_lt.2 h.1), if_pos h.2, if_pos (by simp [hleaf]),
    joining, if_pos h, Cursor.children, hleaf, List.map_nil, List.append_nil]

theorem reached_joining : Reached p source (joining p source c) x ↔
    Splits p source c ∧ Reached p source c.children x := by
  rw [joining]
  split
  · rename_i hsplits
    simp [hsplits]
  · rename_i hnot
    simp [hnot, reached_nil]

/-- The drafts of a queue are those of the nodes that are visited. -/
theorem mem_visit : d ∈ visit p source queue ↔
    ∃ c, Reached p source queue c ∧ d ∈ nodeDrafts p source c := by
  induction queue using queue_induction p source with
  | nil => simp [visit, reached_nil]
  | cons c rest ih =>
    rw [visit_cons, List.mem_append, ih]
    simp only [reached_append, reached_joining, reached_cons, or_and_right, exists_or, exists_eq_left]
    exact or_congr_right or_comm

/-! ## From drafts to blocks -/

/-- The drafts that a file is cut into; none if its language is not known or its tree is missing. -/
def draftsOf (trees : TreeSource) (p : ChunkPolicy) (path content : String) : List Draft :=
  if !(Language.ofPath path).isIndexable then []
  else if (Language.ofPath path).hasGrammar then
    match trees (Language.ofPath path) content with
    | some root => grammarDrafts p (Language.ofPath path) (.ofText content.toList) root
    | none => []
  else wholeFileDrafts p content.toList

/-- A file has no drafts, or is taken as a whole, or is cut along the definitions of its tree. -/
theorem draftsOf_cases : draftsOf trees p path content = [] ∨
    draftsOf trees p path content = wholeFileDrafts p content.toList ∨
    ∃ root, (Language.ofPath path).hasGrammar = true ∧
      trees (Language.ofPath path) content = some root ∧
      draftsOf trees p path content =
        visit p (.ofText content.toList) (collect (Language.ofPath path) root) := by
  unfold draftsOf
  split
  · exact Or.inl rfl
  · split
    · rename_i grammar
      cases htree : trees (Language.ofPath path) content with
      | none => exact Or.inl rfl
      | some root =>
        dsimp only [grammarDrafts]
        split
        · exact Or.inr (Or.inl rfl)
        · exact Or.inr (Or.inr ⟨root, grammar, rfl, rfl⟩)
    · exact Or.inr (Or.inl rfl)

/-- A draft of a file is one of the text as a whole or one of a visited node. -/
theorem mem_draftsOf_cases (h : d ∈ draftsOf trees p path content) :
    d ∈ wholeFileDrafts p content.toList ∨
      ∃ root c, trees (Language.ofPath path) content = some root ∧
        Reached p (.ofText content.toList) (collect (Language.ofPath path) root) c ∧
          d ∈ nodeDrafts p (.ofText content.toList) c := by
  rcases @draftsOf_cases trees p path content with heq | heq | ⟨root, -, htree, heq⟩
  · rw [heq] at h
    cases h
  · exact Or.inl (heq ▸ h)
  · rw [heq, mem_visit] at h
    obtain ⟨c, hc, hd⟩ := h
    exact Or.inr ⟨root, c, htree, hc, hd⟩

theorem draftsOf_eq (grammar : (Language.ofPath path).hasGrammar = true)
    (tree : trees (Language.ofPath path) content = some root) :
    draftsOf trees p path content =
      grammarDrafts p (Language.ofPath path) (.ofText content.toList) root := by
  have indexable : (Language.ofPath path).isIndexable = true := by
    generalize Language.ofPath path = language at grammar
    cases language <;> first | rfl | cases grammar
  rw [draftsOf, indexable, Bool.not_true, if_neg Bool.false_ne_true, if_pos grammar, tree]

/-- The drafts of a file with definitions are those of the visited nodes. -/
theorem mem_draftsOf (grammar : (Language.ofPath path).hasGrammar = true)
    (tree : trees (Language.ofPath path) content = some root)
    (definitions : collect (Language.ofPath path) root ≠ []) :
    d ∈ draftsOf trees p path content ↔ ∃ c ∈ collect (Language.ofPath path) root, ∃ x,
      Reached p (.ofText content.toList) [c] x ∧
        d ∈ nodeDrafts p (.ofText content.toList) x := by
  rw [draftsOf_eq grammar tree, grammarDrafts, if_neg (by simpa using definitions), mem_visit]
  constructor
  · rintro ⟨x, hx, hd⟩
    obtain ⟨c, hc, hx⟩ := reached_iff.1 hx
    exact ⟨c, hc, x, hx, hd⟩
  · rintro ⟨c, hc, x, hx, hd⟩
    exact ⟨x, reached_iff.2 ⟨c, hc, hx⟩, hd⟩

/-- The blocks of drafts before overlapping ones are dropped. -/
def collected (path fileHash : String) (drafts : List Draft) : List Block :=
  (Sink.pushAll { filePath := path, fileHash := fileHash } drafts).toBlocks

/-- The blocks of a file are what is kept of its drafts. -/
theorem parse_eq : parse trees p path content fileHash =
    Block.deduplicate (collected path fileHash (draftsOf trees p path content)) := by
  have hnil : Block.deduplicate (collected path fileHash []) = [] := by
    unfold Block.deduplicate collected
    rw [show (Sink.pushAll { filePath := path, fileHash := fileHash } []).toBlocks = [] from rfl,
      List.mergeSort_nil, Block.keepUncontained, List.reverse_nil, List.mergeSort_nil]
  unfold parse tryParse draftsOf
  dsimp only
  split
  · exact hnil.symm
  · split
    · cases trees (Language.ofPath path) content with
      | some root => rfl
      | none => exact hnil.symm
    · rfl

theorem mem_collected {drafts : List Draft} (h : b ∈ collected path fileHash drafts) :
    ∃ d ∈ drafts, b = d.toBlock path fileHash :=
  (Sink.mem_collected_pushAll (List.mem_reverse.1 h)).resolve_left nofun

/-- A draft has left a block, or one of its segment hash has. -/
theorem exists_segmentHash_eq {drafts : List Draft} (h : d ∈ drafts) :
    ∃ d' ∈ drafts, d'.toBlock path fileHash ∈ collected path fileHash drafts ∧
      segmentHash path d'.startLine d'.endLine d'.offset d'.content =
        segmentHash path d.startLine d.endLine d.offset d.content := by
  obtain ⟨b, hb, hhash⟩ := (@Sink.exists_mem_collected_pushAll
    { filePath := path, fileHash := fileHash } drafts).2 d h
  obtain ⟨d', hd', rfl⟩ := mem_collected (List.mem_reverse.2 hb)
  exact ⟨d', hd', List.mem_reverse.2 hb, hhash⟩

/-- The blocks of drafts come in the order of these. -/
theorem sublist_collected {drafts : List Draft} :
    (collected path fileHash drafts).Sublist (drafts.map (Draft.toBlock path fileHash)) :=
  @Sink.sublist_pushAll { filePath := path, fileHash := fileHash } drafts

/-- The blocks of drafts have different segment hashes. -/
theorem nodup_collected {drafts : List Draft} :
    ((collected path fileHash drafts).map (·.segmentHash)).Nodup := by
  have h := @Sink.nodup_collected_pushAll { filePath := path, fileHash := fileHash } drafts
    List.nodup_nil
  rw [collected, Sink.toBlocks, List.map_reverse]
  exact List.nodup_reverse.2 h

/-- Every block of a parsed file is the block of a draft of that file. -/
theorem exists_draft_of_mem_parse (h : b ∈ parse trees p path content fileHash) :
    ∃ d ∈ draftsOf trees p path content, b = d.toBlock path fileHash := by
  rw [parse_eq] at h
  exact mem_collected (Block.mem_of_mem_deduplicate h)

/-- No block comes out twice. -/
theorem nodup_parse : (parse trees p path content fileHash).Nodup := by
  rw [parse_eq]
  exact (Block.pruned_deduplicate _).nodup

/-- The blocks of a file bear its path. -/
theorem filePath_of_mem_parse (h : b ∈ parse trees p path content fileHash) : b.filePath = path := by
  obtain ⟨d, -, rfl⟩ := exists_draft_of_mem_parse h
  rfl

/-- The blocks of a file bear the hash of the content that they were cut from. -/
theorem fileHash_of_mem_parse (h : b ∈ parse trees p path content fileHash) :
    b.fileHash = fileHash := by
  obtain ⟨d, -, rfl⟩ := exists_draft_of_mem_parse h
  rfl

/-- The syntax tree of a file is known, if its language has a grammar. -/
def TreeKnown (trees : TreeSource) (path content : String) : Prop :=
  (Language.ofPath path).hasGrammar = true → ∃ root, trees (Language.ofPath path) content = some root

/-- Only an unknown syntax tree keeps a file from being cut. -/
theorem tryParse_eq_of_treeKnown (known : TreeKnown trees path content) :
    tryParse trees p path content fileHash = .ok (parse trees p path content fileHash) := by
  have hok : ∃ blocks, tryParse trees p path content fileHash = .ok blocks := by
    unfold tryParse
    dsimp only
    split
    · exact ⟨_, rfl⟩
    · split
      · rename_i grammar
        obtain ⟨root, tree⟩ := known grammar
        rw [tree]
        exact ⟨_, rfl⟩
      · exact ⟨_, rfl⟩
  obtain ⟨blocks, hblocks⟩ := hok
  rw [parse, hblocks]
  rfl

/-- A file with a syntax tree can always be cut. -/
theorem tryParse_eq (tree : trees (Language.ofPath path) content = some root) :
    tryParse trees p path content fileHash = .ok (parse trees p path content fileHash) :=
  tryParse_eq_of_treeKnown fun _ => ⟨root, tree⟩

end SourceIndex.Chunk
