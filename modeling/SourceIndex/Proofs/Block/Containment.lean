import SourceIndex.Proofs.Block.Kept
/-!
# Blocks inside other blocks

Blocks are gone through in the order of their precedence, and one is dropped if a block that was kept before
contains it. `Pruned` says what is left without going through them (`pruned_deduplicate`): a block is left
out if and only if one that is left ranks before it and contains it. Containment by a block that ranks
behind drops nothing. A block can therefore be left beside one that lies inside it, and this happens only
where the inner one ranks first (`Pruned.ranksBefore`); where containment goes with the order in which the
blocks came, none that is left lies inside another one (`Pruned.uncontained`).
-/

namespace SourceIndex

/-- A text occurs in another one as a run of its characters. -/
theorem Text.occursIn_iff {needle hay : List Char} : Text.occursIn needle hay = true ↔ needle <:+: hay := by
  induction hay with
  | nil => simp [Text.occursIn]
  | cons c hay ih => simp [Text.occursIn, List.infix_cons_iff, ih]

namespace Block

variable {a b c : Block} {kept blocks out : List Block}

/-! ## Containment -/

theorem contains_iff : a.contains b = true ↔ a.filePath = b.filePath ∧ a.startLine ≤ b.startLine ∧
    b.endLine ≤ a.endLine ∧ b.content.toList <:+: a.content.toList := by
  simp [contains, Text.occursIn_iff, and_assoc]

theorem contains_refl (b : Block) : b.contains b = true :=
  contains_iff.2 ⟨rfl, Nat.le_refl _, Nat.le_refl _, List.infix_refl _⟩

theorem contains_trans (hab : a.contains b = true) (hbc : b.contains c = true) : a.contains c = true := by
  obtain ⟨hpath, hstart, hend, hinfix⟩ := contains_iff.1 hab
  obtain ⟨hpath', hstart', hend', hinfix'⟩ := contains_iff.1 hbc
  exact contains_iff.2 ⟨hpath.trans hpath', Nat.le_trans hstart hstart', Nat.le_trans hend' hend,
    hinfix'.trans hinfix⟩

/-! ## Order of precedence -/

/-- A block ranks before another one: its source takes precedence or, between blocks of one source, it came
first. -/
def RanksBefore (blocks : List Block) (a b : Block) : Prop :=
  a.chunkSource.rank < b.chunkSource.rank ∨
    a.chunkSource.rank = b.chunkSource.rank ∧ blocks.idxOf a < blocks.idxOf b

theorem rankLe_trans (a b c : Block) (hab : rankLe a b = true) (hbc : rankLe b c = true) :
    rankLe a c = true := by
  simp only [rankLe, decide_eq_true_eq] at *
  omega

theorem rankLe_total (a b : Block) : (rankLe a b || rankLe b a) = true := by
  simp only [rankLe, Bool.or_eq_true, decide_eq_true_eq]
  omega

theorem idxOf_ne (ha : a ∈ blocks) (hne : a ≠ b) : blocks.idxOf a ≠ blocks.idxOf b :=
  fun h => hne ((List.idxOf_inj ha).1 h)

/-- Of two different blocks one ranks before the other. -/
theorem ranksBefore_total (ha : a ∈ blocks) (hne : a ≠ b) :
    RanksBefore blocks a b ∨ RanksBefore blocks b a := by
  have hidx := idxOf_ne ha hne
  unfold RanksBefore
  omega

/-- What holds of blocks in their order holds of one that occurs first. -/
theorem rel_of_idxOf_lt {R : Block → Block → Prop} (h : blocks.Pairwise R) (hb : b ∈ blocks)
    (hlt : blocks.idxOf a < blocks.idxOf b) : R a b := by
  have hb' := List.idxOf_lt_length_of_mem hb
  have hrel := List.pairwise_iff_getElem.1 h _ _ (Nat.lt_trans hlt hb') hb' hlt
  rwa [List.getElem_idxOf, List.getElem_idxOf] at hrel

/-- Among the members that pass a test, the first occurrences stand as they do in the whole list. -/
theorem idxOf_filter_lt_iff {test : Block → Bool} (ha : test a = true) (hb : test b = true) :
    (blocks.filter test).idxOf a < (blocks.filter test).idxOf b ↔ blocks.idxOf a < blocks.idxOf b := by
  induction blocks with
  | nil => simp
  | cons c rest ih =>
    by_cases hc : test c = true
    · rw [List.filter_cons_of_pos hc]
      by_cases hca : c = a <;> by_cases hcb : c = b <;> simp_all
    · have hca : c ≠ a := fun h => hc (h ▸ ha)
      have hcb : c ≠ b := fun h => hc (h ▸ hb)
      rw [List.filter_cons_of_neg hc, ih, List.idxOf_cons_ne _ hca, List.idxOf_cons_ne _ hcb]
      exact Nat.succ_lt_succ_iff.symm

/-- Sorting keeps blocks as they were if they go before one another in the order that it makes. -/
theorem filter_mergeSort {le : Block → Block → Bool} {test : Block → Bool}
    (trans : ∀ a b c, le a b = true → le b c = true → le a c = true)
    (total : ∀ a b, (le a b || le b a) = true)
    (hequal : ∀ a ∈ blocks, ∀ b ∈ blocks, test a = true → test b = true → le a b = true) :
    (blocks.mergeSort le).filter test = blocks.filter test := by
  have hpairs : (blocks.filter test).Pairwise fun a b => le a b = true := by
    apply List.pairwise_of_forall_mem_list
    intro a ha b hb
    rw [List.mem_filter] at ha hb
    exact hequal a ha.1 b hb.1 ha.2 hb.2
  have hsub := (List.sublist_mergeSort trans total hpairs List.filter_sublist).filter test
  simp only [List.filter_filter, Bool.and_self] at hsub
  exact (hsub.eq_of_length ((List.mergeSort_perm blocks le).filter _).length_eq.symm).symm

/-- Sorting by precedence keeps the blocks of one source as they were. -/
theorem filter_mergeSort_rankLe (rank : Nat) :
    (blocks.mergeSort rankLe).filter (·.chunkSource.rank == rank) =
      blocks.filter (·.chunkSource.rank == rank) := by
  refine filter_mergeSort rankLe_trans rankLe_total ?_
  intro a _ b _ ha hb
  rw [beq_iff_eq] at ha hb
  simp [rankLe, ha, hb]

/-- What takes precedence by its source is gone through first. -/
theorem idxOf_mergeSort_lt_of_rank_lt (ha : a ∈ blocks) (hb : b ∈ blocks)
    (h : a.chunkSource.rank < b.chunkSource.rank) :
    (blocks.mergeSort rankLe).idxOf a < (blocks.mergeSort rankLe).idxOf b := by
  have hne : a ≠ b := by
    rintro rfl
    omega
  have hmem : a ∈ blocks.mergeSort rankLe := List.mem_mergeSort.2 ha
  have hidx := idxOf_ne hmem hne
  by_contra hnot
  have hle := rel_of_idxOf_lt (List.pairwise_mergeSort rankLe_trans rankLe_total blocks) hmem
    (show (blocks.mergeSort rankLe).idxOf b < _ by omega)
  simp only [rankLe, decide_eq_true_eq] at hle
  omega

/-- The order in which blocks are gone through is that of their ranks. -/
theorem idxOf_mergeSort_lt_iff (ha : a ∈ blocks) (hb : b ∈ blocks) :
    (blocks.mergeSort rankLe).idxOf a < (blocks.mergeSort rankLe).idxOf b ↔ RanksBefore blocks a b := by
  rcases Nat.lt_trichotomy a.chunkSource.rank b.chunkSource.rank with h | h | h
  · simp [RanksBefore, h, idxOf_mergeSort_lt_of_rank_lt ha hb h]
  · have hsorted := @idxOf_filter_lt_iff a b (blocks.mergeSort rankLe)
      (·.chunkSource.rank == b.chunkSource.rank) (beq_iff_eq.2 h) (beq_iff_eq.2 rfl)
    have hblocks := @idxOf_filter_lt_iff a b blocks
      (·.chunkSource.rank == b.chunkSource.rank) (beq_iff_eq.2 h) (beq_iff_eq.2 rfl)
    rw [filter_mergeSort_rankLe, hblocks] at hsorted
    simp [RanksBefore, h, hsorted]
  · have hback := idxOf_mergeSort_lt_of_rank_lt hb ha h
    unfold RanksBefore
    omega

/-! ## What is left -/

/-- `out` is what is left of `blocks`: no block is there twice, and a block is left out if and only if one
that is left ranks before it and contains it. -/
structure Pruned (blocks out : List Block) : Prop where
  nodup : out.Nodup
  mem_iff : ∀ b, b ∈ out ↔ b ∈ blocks ∧ ∀ a ∈ out, RanksBefore blocks a b → a.contains b = false

/-- Of two blocks that are left, an inner one ranks before the one that it lies inside. -/
theorem Pruned.ranksBefore (h : Pruned blocks out) (ha : a ∈ out) (hb : b ∈ out) (hne : a ≠ b)
    (hcontains : a.contains b = true) : RanksBefore blocks b a := by
  have hmem : a ∈ blocks := ((h.mem_iff a).1 ha).1
  refine (ranksBefore_total hmem hne).resolve_left ?_
  intro hbefore
  have hfalse := ((h.mem_iff b).1 hb).2 a ha hbefore
  rw [hcontains] at hfalse
  cases hfalse

/-- A block is left if it ranks before all that contain it. -/
theorem Pruned.mem_of_ranksBefore (h : Pruned blocks out) (hb : b ∈ blocks)
    (hfirst : ∀ a ∈ blocks, a ≠ b → a.contains b = true → RanksBefore blocks b a) : b ∈ out := by
  refine (h.mem_iff b).2 ⟨hb, ?_⟩
  intro a ha hbefore
  by_contra hcontains
  rw [Bool.not_eq_false] at hcontains
  have hne : a ≠ b := by
    rintro rfl
    unfold RanksBefore at hbefore
    omega
  have hback := hfirst a ((h.mem_iff a).1 ha).1 hne hcontains
  unfold RanksBefore at hbefore hback
  omega

/-- A block that lies inside no other one is left. -/
theorem Pruned.mem_of_apart (h : Pruned blocks out) (hb : b ∈ blocks)
    (hapart : ∀ a ∈ blocks, a.contains b = true → a = b) : b ∈ out :=
  h.mem_of_ranksBefore hb fun a ha hne hcontains => absurd (hapart a ha hcontains) hne

/-- Where one of two blocks contains the other, the one that came first takes precedence and contains the
other. -/
def FirstWins (a b : Block) : Prop :=
  (b.contains a = true → a.contains b = true) ∧ (a.contains b = true → a.chunkSource = b.chunkSource)

/-- Where containment goes with the order in which blocks came, none that is left lies inside another. -/
theorem Pruned.uncontained (h : Pruned blocks out) (hpairs : blocks.Pairwise FirstWins) (ha : a ∈ out)
    (hb : b ∈ out) (hne : a ≠ b) : a.contains b = false := by
  by_contra hcontains
  rw [Bool.not_eq_false] at hcontains
  have hbefore := h.ranksBefore ha hb hne hcontains
  obtain ⟨hmem, hfree⟩ := (h.mem_iff a).1 ha
  have hmem' := ((h.mem_iff b).1 hb).1
  rcases Nat.lt_or_gt_of_ne (idxOf_ne hmem hne) with hlt | hgt
  · have hsource := (rel_of_idxOf_lt hpairs hmem' hlt).2 hcontains
    unfold RanksBefore at hbefore
    rw [hsource] at hbefore
    omega
  · have hback := (rel_of_idxOf_lt hpairs hmem hgt).1 hcontains
    rw [hfree b hb hbefore] at hback
    cases hback

/-- What is kept is kept once. -/
theorem nodup_keep (h : kept.Nodup) : (keepUncontained kept blocks).Nodup := by
  induction blocks generalizing kept with
  | nil => exact List.nodup_reverse.2 h
  | cons c rest ih =>
    rw [keepUncontained]
    split
    · exact ih h
    · rename_i hnone
      refine ih (List.nodup_cons.2 ⟨fun hc => hnone ?_, h⟩)
      exact List.any_eq_true.2 ⟨c, hc, contains_refl c⟩

/-- A block that is not kept is contained in one that was kept before its turn came. -/
theorem mem_keepUncontained_or (h : b ∈ blocks) : b ∈ keepUncontained kept blocks ∨
    ∃ a ∈ keepUncontained kept blocks, a.contains b = true ∧
      (a ∈ kept ∨ blocks.idxOf a < blocks.idxOf b) := by
  induction blocks generalizing kept with
  | nil => cases h
  | cons c rest ih =>
    rw [keepUncontained]
    by_cases hbc : b = c
    · subst hbc
      split
      · rename_i hany
        obtain ⟨a, ha, hcontains⟩ := List.any_eq_true.1 hany
        exact Or.inr ⟨a, mem_keepUncontained_of_mem ha, hcontains, Or.inl ha⟩
      · exact Or.inl (mem_keepUncontained_of_mem List.mem_cons_self)
    · have hb : b ∈ rest := (List.mem_cons.1 h).resolve_left hbc
      -- behind `c` every place is moved by one, and `c` itself stands in front of `b`
      have hplace (a : Block) (ha : a = c ∨ rest.idxOf a < rest.idxOf b) :
          (c :: rest).idxOf a < (c :: rest).idxOf b := by
        rw [List.idxOf_cons_ne rest (Ne.symm hbc)]
        by_cases hac : a = c
        · simp [hac]
        · rw [List.idxOf_cons_ne rest (Ne.symm hac)]
          exact Nat.succ_lt_succ (ha.resolve_left hac)
      split
      · rcases @ih kept hb with hkeep | ⟨a, ha, hcontains, hbefore⟩
        · exact Or.inl hkeep
        · exact Or.inr ⟨a, ha, hcontains, hbefore.imp_right fun h => hplace a (Or.inr h)⟩
      · rcases @ih (c :: kept) hb with hkeep | ⟨a, ha, hcontains, hbefore⟩
        · exact Or.inl hkeep
        · refine Or.inr ⟨a, ha, hcontains, ?_⟩
          rcases hbefore with hmem | hlt
          · exact (List.mem_cons.1 hmem).symm.imp_right fun h => hplace a (Or.inl h)
          · exact Or.inr (hplace a (Or.inr hlt))

/-- What is kept behind `kept` lies inside none of these, and inside nothing that is kept before it. -/
theorem idxOf_le_of_contains (hb : b ∈ keepUncontained kept blocks) (hnew : b ∉ kept)
    (ha : a ∈ keepUncontained kept blocks) (hcontains : a.contains b = true) :
    a ∉ kept ∧ blocks.idxOf b ≤ blocks.idxOf a := by
  induction blocks generalizing kept b a with
  | nil => exact absurd (List.mem_reverse.1 hb) hnew
  | cons c rest ih =>
    rw [keepUncontained] at hb ha
    split at hb
    · rename_i hany
      rw [if_pos hany] at ha
      obtain ⟨winner, hwinner, hcovers⟩ := List.any_eq_true.1 hany
      obtain ⟨hnot, hle⟩ := ih hb hnew ha hcontains
      have hwinner' := @mem_keepUncontained_of_mem winner kept rest hwinner
      have hbc : c ≠ b := by
        rintro rfl
        exact (ih hb hnew hwinner' hcovers).1 hwinner
      have hac : c ≠ a := by
        rintro rfl
        exact (ih ha hnot hwinner' hcovers).1 hwinner
      rw [List.idxOf_cons_ne rest hbc, List.idxOf_cons_ne rest hac]
      exact ⟨hnot, Nat.succ_le_succ hle⟩
    · rename_i hnone
      rw [if_neg hnone] at ha
      by_cases hbc : c = b
      · subst hbc
        refine ⟨fun hmem => hnone (List.any_eq_true.2 ⟨a, hmem, hcontains⟩), ?_⟩
        simp
      · obtain ⟨hnot, hle⟩ := ih hb (by simp [hnew, Ne.symm hbc]) ha hcontains
        obtain ⟨hac, hkept⟩ := not_or.1 (mt List.mem_cons.2 hnot)
        rw [List.idxOf_cons_ne rest hbc, List.idxOf_cons_ne rest (Ne.symm hac)]
        exact ⟨hkept, Nat.succ_le_succ hle⟩

theorem mem_deduplicate : b ∈ deduplicate blocks ↔ b ∈ keepUncontained [] (blocks.mergeSort rankLe) :=
  List.mem_mergeSort

/-- Every block lies inside one that is left, be it itself. -/
theorem exists_contains_of_mem (h : b ∈ blocks) : ∃ a ∈ deduplicate blocks, a.contains b = true := by
  rcases @mem_keepUncontained_or b [] _ (List.mem_mergeSort.2 h) with hkept | ⟨a, ha, hcontains, -⟩
  · exact ⟨b, mem_deduplicate.2 hkept, contains_refl b⟩
  · exact ⟨a, mem_deduplicate.2 ha, hcontains⟩

theorem pruned_deduplicate (blocks : List Block) : Pruned blocks (deduplicate blocks) where
  nodup := List.nodup_mergeSort.2 (nodup_keep List.nodup_nil)
  mem_iff b := by
    constructor
    · intro hb
      refine ⟨mem_of_mem_deduplicate hb, ?_⟩
      intro a ha hbefore
      have hlt := (idxOf_mergeSort_lt_iff (mem_of_mem_deduplicate ha) (mem_of_mem_deduplicate hb)).2 hbefore
      by_contra hcontains
      rw [Bool.not_eq_false] at hcontains
      have hle := (idxOf_le_of_contains (mem_deduplicate.1 hb) List.not_mem_nil (mem_deduplicate.1 ha)
        hcontains).2
      omega
    · rintro ⟨hb, hfree⟩
      refine (mem_keepUncontained_or (List.mem_mergeSort.2 hb)).elim mem_deduplicate.2 ?_
      rintro ⟨a, ha, hcontains, hnone | hlt⟩
      · cases hnone
      · have hmem := mem_deduplicate.2 ha
        have hbefore := (idxOf_mergeSort_lt_iff (mem_of_mem_deduplicate hmem) hb).1 hlt
        rw [hfree a hmem hbefore] at hcontains
        cases hcontains

end Block

end SourceIndex
