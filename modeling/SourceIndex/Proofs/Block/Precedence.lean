import Mathlib.Data.List.Perm.Subperm
import Mathlib.Data.Prod.Lex
import SourceIndex.Proofs.Block.Containment
/-!
# Precedence among overlapping blocks

Blocks are sorted twice, by precedence before the contained ones are dropped and into file order behind it,
and both sorts are stable. What is left is therefore in file order, and blocks that stand at one place in it
are in the order in which they came (`sublist_filter_place`). That a block is left out only for one that ranks
before it says twice that precedence is respected: no block is lost to one of a lower precedence, and none
survives beside one of a higher precedence that contains it (`covered_by_precedence`). Blocks at one place that
no other block contains are dropped on account of one another only (`filter_deduplicate`), and of these each
goes that lies inside one in front of it (`keepUncontained_eq`).
-/

namespace SourceIndex.Block

variable {a b : Block} {kept blocks : List Block}

/-! ## File order -/

/-- The place of a block in file order: its first line, its last line, the rank of its source. -/
def place (b : Block) : Nat ×ₗ Nat ×ₗ Nat :=
  toLex (b.startLine, toLex (b.endLine, b.chunkSource.rank))

theorem positionLe_iff : positionLe a b = true ↔ a.place ≤ b.place := by
  simp only [place, Prod.Lex.toLex_le_toLex]
  unfold positionLe rankLe
  split
  · rename_i hstart
    have hstart : a.startLine ≠ b.startLine := by simpa using hstart
    simp [hstart]
  · rename_i hstart
    have hstart : a.startLine = b.startLine := by simpa using hstart
    split
    · rename_i hend
      have hend : a.endLine ≠ b.endLine := by simpa using hend
      simp [hstart, hend]
    · rename_i hend
      have hend : a.endLine = b.endLine := by simpa using hend
      simp [hstart, hend]

theorem positionLe_trans (a b c : Block) (hab : positionLe a b = true) (hbc : positionLe b c = true) :
    positionLe a c = true := by
  rw [positionLe_iff] at *
  exact hab.trans hbc

theorem positionLe_total (a b : Block) : (positionLe a b || positionLe b a) = true := by
  rw [Bool.or_eq_true, positionLe_iff, positionLe_iff]
  exact le_total _ _

/-! ## What is kept -/

/-- What is kept comes in the order in which it was gone through. -/
theorem sublist_keepUncontained : (keepUncontained kept blocks).Sublist (kept.reverse ++ blocks) := by
  induction blocks generalizing kept with
  | nil => simp [keepUncontained]
  | cons c rest ih =>
    rw [keepUncontained]
    split
    · refine ih.trans ?_
      exact (List.sublist_cons_self c rest).append_left _
    · simpa using @ih (c :: kept)

/-- Of blocks that are kept, those that pass a test are kept without the others as well, if a block that
contains one of them passes too. -/
theorem filter_keepUncontained {test : Block → Bool}
    (hclosed : ∀ a ∈ kept ++ blocks, ∀ b ∈ blocks, a.contains b = true → test b = true → test a = true) :
    (keepUncontained kept blocks).filter test = keepUncontained (kept.filter test) (blocks.filter test) := by
  induction blocks generalizing kept with
  | nil => rw [keepUncontained, List.filter_nil, keepUncontained, List.filter_reverse]
  | cons c rest ih =>
    have hkept : ∀ a ∈ kept ++ rest, ∀ b ∈ rest, a.contains b = true → test b = true → test a = true := by
      intro a ha b hb
      refine hclosed a ?_ b (List.mem_cons_of_mem c hb)
      exact (List.mem_append.1 ha).elim (List.mem_append_left _)
        fun ha => List.mem_append_right _ (List.mem_cons_of_mem c ha)
    have hmore : ∀ a ∈ c :: kept ++ rest, ∀ b ∈ rest, a.contains b = true → test b = true → test a = true := by
      intro a ha b hb
      rw [List.cons_append, ← List.perm_middle.mem_iff] at ha
      exact hclosed a ha b (List.mem_cons_of_mem c hb)
    rw [keepUncontained]
    by_cases htest : test c = true
    · have hsame : ((kept.filter test).any fun winner => winner.contains c) =
          kept.any fun winner => winner.contains c := by
        rw [List.any_filter, Bool.eq_iff_iff, List.any_eq_true, List.any_eq_true]
        refine exists_congr fun a => and_congr_right fun ha => ?_
        rw [Bool.and_eq_true, and_iff_right_iff_imp]
        intro hcontains
        exact hclosed a (List.mem_append_left _ ha) c List.mem_cons_self hcontains htest
      rw [List.filter_cons_of_pos htest, keepUncontained, hsame]
      split
      · exact ih hkept
      · rw [ih hmore, List.filter_cons_of_pos htest]
    · rw [List.filter_cons_of_neg htest]
      split
      · exact ih hkept
      · rw [ih hmore, List.filter_cons_of_neg htest]

/-- Blocks are kept if no block in front of them contains them, be it kept or not. -/
theorem keepUncontained_eq (kept blocks : List Block) : keepUncontained kept blocks = kept.reverse ++
    (blocks.zipIdx.filter fun x => !(kept ++ blocks.take x.2).any fun a => a.contains x.1).map Prod.fst := by
  induction blocks generalizing kept with
  | nil => simp [keepUncontained]
  | cons c rest ih =>
    have hnumbers : (c :: rest).zipIdx = (c, 0) :: rest.zipIdx.map fun x => (x.1, x.2 + 1) := by
      rw [List.zipIdx_cons, List.zipIdx_succ]
    rw [keepUncontained, hnumbers, List.filter_cons, List.filter_map, Function.comp_def]
    simp only [List.take_zero, List.append_nil, List.take_succ_cons]
    split
    · rename_i hany
      -- what `c` contains lies inside the block that contains `c`
      have hskip (x : Block) (n : Nat) : ((kept ++ c :: rest.take n).any fun a => a.contains x) =
          (kept ++ rest.take n).any fun a => a.contains x := by
        obtain ⟨winner, hwinner, hcovers⟩ := List.any_eq_true.1 hany
        rw [List.any_append, List.any_append, List.any_cons, Bool.eq_iff_iff]
        simp only [Bool.or_eq_true]
        have hc : c.contains x = true → (kept.any fun a => a.contains x) = true := fun hx =>
          List.any_eq_true.2 ⟨winner, hwinner, contains_trans hcovers hx⟩
        tauto
      rw [if_neg (by simp [hany]), List.map_map]
      simp only [hskip]
      exact ih kept
    · rename_i hnone
      have hfront (x : Block) (n : Nat) : ((kept ++ c :: rest.take n).any fun a => a.contains x) =
          (c :: kept ++ rest.take n).any fun a => a.contains x := by
        exact List.perm_middle.any_eq
      rw [if_pos (by simpa using hnone), ih, List.map_cons, List.map_map, List.reverse_cons,
        List.append_assoc, List.singleton_append]
      simp only [hfront]
      rfl

/-! ## What is left -/

/-- Only blocks that were there are left, none more often than it was there. -/
theorem subperm_deduplicate (blocks : List Block) : (deduplicate blocks).Subperm blocks := by
  have hkept := (@sublist_keepUncontained [] (blocks.mergeSort rankLe)).subperm
  have hranked := hkept.trans (List.mergeSort_perm blocks rankLe).subperm
  exact (List.mergeSort_perm _ positionLe).subperm.trans hranked

/-- What is left is in file order. -/
theorem pairwise_place_deduplicate (blocks : List Block) :
    (deduplicate blocks).Pairwise fun a b => a.place ≤ b.place := by
  refine (List.pairwise_mergeSort positionLe_trans positionLe_total _).imp ?_
  intro a b hle
  exact positionLe_iff.1 hle

/-- Sorting leaves blocks at one place as they were. -/
theorem filter_sorts {test : Block → Bool}
    (hplace : ∀ a ∈ blocks, ∀ b ∈ blocks, test a = true → test b = true → a.place = b.place) :
    (deduplicate blocks).filter test = (keepUncontained [] (blocks.mergeSort rankLe)).filter test ∧
      (blocks.mergeSort rankLe).filter test = blocks.filter test := by
  constructor
  · refine filter_mergeSort positionLe_trans positionLe_total ?_
    intro a ha b hb hta htb
    rw [← mem_deduplicate] at ha hb
    rw [positionLe_iff, hplace a (mem_of_mem_deduplicate ha) b (mem_of_mem_deduplicate hb) hta htb]
  · refine filter_mergeSort rankLe_trans rankLe_total ?_
    intro a ha b hb hta htb
    have hsame : a.chunkSource.rank = b.chunkSource.rank := congrArg (·.2.2) (hplace a ha b hb hta htb)
    simp [rankLe, hsame]

/-- Blocks that are left at one place are in the order in which they came. -/
theorem sublist_filter_place (blocks : List Block) (place : Nat ×ₗ Nat ×ₗ Nat) :
    ((deduplicate blocks).filter (·.place = place)).Sublist (blocks.filter (·.place = place)) := by
  obtain ⟨hfile, hrank⟩ := @filter_sorts blocks (·.place = place) fun a _ b _ ha hb =>
    (of_decide_eq_true ha).trans (of_decide_eq_true hb).symm
  have hkept := (@sublist_keepUncontained [] (blocks.mergeSort rankLe)).filter (·.place = place)
  rw [List.reverse_nil, List.nil_append, hrank] at hkept
  rwa [hfile]

/-- Of blocks at one place, which none contains that stands elsewhere, those are left that are kept when
they are gone through in the order in which they came. -/
theorem filter_deduplicate {test : Block → Bool}
    (hplace : ∀ a ∈ blocks, ∀ b ∈ blocks, test a = true → test b = true → a.place = b.place)
    (hclosed : ∀ a ∈ blocks, ∀ b ∈ blocks, a.contains b = true → test b = true → test a = true) :
    (deduplicate blocks).filter test = keepUncontained [] (blocks.filter test) := by
  obtain ⟨hfile, hrank⟩ := filter_sorts hplace
  rw [hfile, filter_keepUncontained, List.filter_nil, hrank]
  intro a ha b hb
  exact hclosed a (List.mem_mergeSort.1 ha) b (List.mem_mergeSort.1 hb)

/-- Every block lies inside one that is left and that does not rank behind it. -/
theorem exists_contains_of_rank_le (hb : b ∈ blocks) : ∃ a ∈ deduplicate blocks,
    a.contains b = true ∧ a.chunkSource.rank ≤ b.chunkSource.rank := by
  have hpruned := pruned_deduplicate blocks
  by_cases hleft : b ∈ deduplicate blocks
  · exact ⟨b, hleft, contains_refl b, Nat.le_refl _⟩
  · have hlost : ¬∀ a ∈ deduplicate blocks, RanksBefore blocks a b → a.contains b = false :=
      fun hfree => hleft ((hpruned.mem_iff b).2 ⟨hb, hfree⟩)
    push Not at hlost
    obtain ⟨a, ha, hbefore, hcontains⟩ := hlost
    refine ⟨a, ha, by simpa using hcontains, ?_⟩
    unfold RanksBefore at hbefore
    omega

/-- No block is lost, and precedence is respected. What is left are blocks that were there, in file order,
and in the order in which they came where they stand at one place. Each block lies inside one that is left and
has at least its precedence, and no block that is left lies inside one of a higher precedence. -/
theorem covered_by_precedence (blocks : List Block) :
    (deduplicate blocks).Subperm blocks ∧
    (deduplicate blocks).Pairwise (fun a b => a.place ≤ b.place) ∧
    (∀ place, ((deduplicate blocks).filter (·.place = place)).Sublist (blocks.filter (·.place = place))) ∧
    (∀ b ∈ blocks, ∃ a ∈ deduplicate blocks,
      a.contains b = true ∧ a.chunkSource.rank ≤ b.chunkSource.rank) ∧
    ∀ a ∈ deduplicate blocks, ∀ b ∈ deduplicate blocks,
      a.chunkSource.rank < b.chunkSource.rank → a.contains b = false := by
  refine ⟨subperm_deduplicate blocks, pairwise_place_deduplicate blocks, sublist_filter_place blocks, ?_, ?_⟩
  · intro b hb
    exact exists_contains_of_rank_le hb
  · intro a ha b hb hrank
    exact (((pruned_deduplicate blocks).mem_iff b).1 hb).2 a ha (Or.inl hrank)

end SourceIndex.Block
