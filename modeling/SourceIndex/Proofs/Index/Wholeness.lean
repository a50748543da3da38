import SourceIndex.Proofs.Index.Concurrency
/-!
# Whole files in batches

Files are put into the buffer whole, and the buffer is only ever taken out whole. So however files
and batches take turns, the submitted batches hold every block that was found once
(`perm_flatten_submitted`), and the blocks of a file stand side by side in one of them
(`exists_batch`).
-/

namespace SourceIndex

open Program (Exchange Thread)

namespace Scan

variable {s : Services} {f : ParsedFile}

theorem Parses.filePath (h : Parses s f) : ∀ item ∈ f.items, item.block.filePath = f.path := by
  intro item hitem
  obtain ⟨block, hblock, rfl⟩ := List.mem_map.1 hitem
  obtain ⟨text, -, hblocks⟩ := h
  rw [hblocks] at hblock
  exact Chunk.filePath_of_mem_parse hblock

theorem Parses.fileHash (h : Parses s f) : ∀ item ∈ f.items, item.block.fileHash = f.hash := by
  intro item hitem
  obtain ⟨block, hblock, rfl⟩ := List.mem_map.1 hitem
  obtain ⟨text, hhash, hblocks⟩ := h
  rw [hblocks] at hblock
  rw [hhash]
  exact Chunk.fileHash_of_mem_parse hblock

/-- Files without blocks have no items. -/
theorem flatten_items (files : List ParsedFile) :
    ((files.filter ParsedFile.hasBlocks).map ParsedFile.items).flatten =
      files.flatMap ParsedFile.items := by
  induction files with
  | nil => rfl
  | cons f files ih =>
    rw [List.flatMap_cons, ← ih, List.filter_cons]
    split
    · rfl
    · rename_i hnone
      have hnil : f.items = [] := by simpa [ParsedFile.hasBlocks, ParsedFile.items] using hnone
      rw [hnil, List.nil_append]

/-- The lists have no items of the same file. -/
def Apart (xs ys : List PendingBlock) : Prop :=
  ∀ x ∈ xs, ∀ y ∈ ys, x.block.filePath ≠ y.block.filePath

theorem Apart.symm {xs ys : List PendingBlock} (h : Apart xs ys) : Apart ys xs :=
  fun y hy x hx => (h x hx y hy).symm

theorem Apart.flatten {xs ys : List (List PendingBlock)} (h : ∀ x ∈ xs, ∀ y ∈ ys, Apart x y) :
    Apart xs.flatten ys.flatten := by
  intro x hx y hy
  obtain ⟨first, hfirst, hx⟩ := List.mem_flatten.1 hx
  obtain ⟨second, hsecond, hy⟩ := List.mem_flatten.1 hy
  exact h first hfirst second hsecond x hx y hy

end Scan

namespace ConcurrentScan

open Scan

variable {s : Services} {mode : ScanMode} {before after : Hashes} {result : ScanResult}
  {run : ConcurrentScan s mode before result after} {f g : ParsedFile}

/-- Two files that were found are not of one path. -/
theorem found_inj (hf : f ∈ run.found) (hg : g ∈ run.found) (h : f.path = g.path) : f = g :=
  List.inj_on_of_nodup_map run.found_nodup hf hg h

theorem filePath_of_found (hf : f ∈ run.found) {item : PendingBlock} (hitem : item ∈ f.items) :
    item.block.filePath = f.path :=
  (parses_of_found hf).filePath item hitem

variable (run) in
/-- What is put into the buffer is of a file of its own. -/
theorem pairwise_gathered : ((sharedLog run.log).filterMap gathered).Pairwise Apart := by
  refine run.perm_gathered.symm.pairwise (List.pairwise_map.2 ?_) Apart.symm
  refine ((List.pairwise_map.1 run.found_nodup).filter _).imp_of_mem fun hf hg hne => ?_
  intro x hx y hy
  rw [filePath_of_found (List.mem_filter.1 hf).1 hx, filePath_of_found (List.mem_filter.1 hg).1 hy]
  exact hne

variable (run) in
/-- Two batches have no file in common. -/
theorem pairwise_submitted : run.submitted.Pairwise Apart := by
  obtain ⟨groups, hgathered, htaken⟩ := run.exists_groups
  have hpairwise := run.pairwise_gathered
  rw [hgathered, List.pairwise_flatten] at hpairwise
  refine run.perm_submitted.symm.pairwise ?_ Apart.symm
  rw [htaken, List.pairwise_map]
  exact hpairwise.2.imp Apart.flatten

variable (run) in
/-- The submitted batches hold the blocks that were found, each once. -/
theorem perm_flatten_submitted : run.submitted.flatten.Perm (run.found.flatMap ParsedFile.items) := by
  obtain ⟨groups, hgathered, htaken⟩ := run.exists_groups
  have hbatches : run.submitted.flatten.Perm ((sharedLog run.log).filterMap gathered).flatten := by
    rw [hgathered, List.flatten_flatten, ← htaken]
    exact run.perm_submitted.flatten
  exact (hbatches.trans run.perm_gathered.flatten).trans (.of_eq (flatten_items _))

/-- An item of a batch is a block of a file that was found. -/
theorem exists_found_of_item {batch : List PendingBlock} {item : PendingBlock}
    (hbatch : batch ∈ run.submitted) (hitem : item ∈ batch) : ∃ f ∈ run.found, item ∈ f.items :=
  List.mem_flatMap.1 (run.perm_flatten_submitted.mem_iff.1 (List.mem_flatten.2 ⟨batch, hbatch, hitem⟩))

/-- The blocks of a file stand side by side in one batch, and no other batch has any of them. -/
theorem exists_batch (hf : f ∈ run.found) (hblocks : f.blocks ≠ []) :
    ∃ first batch last front rest, run.submitted = first ++ batch :: last ∧
      batch = front ++ f.items ++ rest ∧
      (∀ item ∈ front ++ rest, item.block.filePath ≠ f.path) ∧
      ∀ other ∈ first ++ last, ∀ item ∈ other, item.block.filePath ≠ f.path := by
  obtain ⟨groups, hgathered, htaken⟩ := run.exists_groups
  have hpairwise := run.pairwise_gathered
  rw [hgathered, List.pairwise_flatten] at hpairwise
  have hsome : ∃ item, item ∈ f.items :=
    List.exists_mem_of_ne_nil _ (by simpa [ParsedFile.items] using hblocks)
  obtain ⟨one, hone⟩ := hsome
  have hmem : f.items ∈ groups.flatten := by
    rw [← hgathered]
    refine run.perm_gathered.mem_iff.2 (List.mem_map_of_mem (List.mem_filter.2 ⟨hf, ?_⟩))
    simpa [ParsedFile.hasBlocks] using hblocks
  obtain ⟨group, hgroup, hin⟩ := List.mem_flatten.1 hmem
  obtain ⟨front, rest, rfl⟩ := List.append_of_mem hin
  have hbatch : (front ++ f.items :: rest).flatten ∈ run.submitted :=
    run.perm_submitted.mem_iff.2 (htaken ▸ List.mem_map_of_mem hgroup)
  obtain ⟨first, last, hsubmitted⟩ := List.append_of_mem hbatch
  have hone' : one ∈ (front ++ f.items :: rest).flatten :=
    List.mem_flatten.2 ⟨f.items, hin, hone⟩
  have hpath := filePath_of_found hf hone
  refine ⟨first, _, last, front.flatten, rest.flatten, hsubmitted, ?_, ?_, ?_⟩
  · rw [List.flatten_append, List.flatten_cons, List.append_assoc]
  · have hpair := hpairwise.1 _ hgroup
    rw [List.pairwise_append, List.pairwise_cons] at hpair
    intro item hitem
    rw [← hpath]
    rcases List.mem_append.1 hitem with hitem | hitem
    · obtain ⟨items, hitems, hitem⟩ := List.mem_flatten.1 hitem
      exact hpair.2.2 items hitems f.items List.mem_cons_self item hitem one hone
    · obtain ⟨items, hitems, hitem⟩ := List.mem_flatten.1 hitem
      exact (hpair.2.1.1 items hitems).symm item hitem one hone
  · have hpair := run.pairwise_submitted
    rw [hsubmitted, List.pairwise_append, List.pairwise_cons] at hpair
    intro other hother item hitem
    rw [← hpath]
    rcases List.mem_append.1 hother with hother | hother
    · exact hpair.2.2 other hother _ List.mem_cons_self item hitem one hone'
    · exact (hpair.2.1.1 other hother).symm item hitem one hone'

end ConcurrentScan

end SourceIndex
