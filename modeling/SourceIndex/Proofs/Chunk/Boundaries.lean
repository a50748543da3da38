import SourceIndex.Proofs.Chunk.Cuts
/-!
# Boundaries that are moved back

A run ends in front of a line that no longer fits. If too little text is left behind it, its end is moved back
to the latest line at which both parts are long enough (`movedBack_of_ne`), and the lines behind that one are
gathered again, together with what follows (`exists_gathered`). The part in front counts its last break, and
the block that is made of it does not have that break: where it counts just as much as a block has to have,
it is dropped, although the run as a whole would have become a block. `spanned_iff_of_moved` says when the
lines of a run are still in blocks, `lost_line` is a text of which a line is lost.
-/

namespace SourceIndex

/-- A draft holds the line with a number. -/
def Draft.Spans (d : Draft) (n : Nat) : Prop :=
  d.startLine ≤ n ∧ n ≤ d.endLine

namespace Chunk

variable {p : ChunkPolicy} {s : Setting} {text : List Char} {front run part rest back lines : List Line}
  {stretches : List Stretch} {x : Stretch} {first k n : Nat} {d : Draft}

/-! ## Lengths -/

/-- Lines of a text count for their joined text and, unless they are the last ones, for one break more. -/
theorem totalLength_eq (hsome : lines ≠ []) (htext : linesOf text = front ++ lines ++ back) :
    totalLength lines = (List.intercalate ['\n'] (lines.map (·.text))).length +
      if back = [] then 0 else 1 := by
  induction lines generalizing front with
  | nil => exact absurd rfl hsome
  | cons line rest ih =>
    have hget : (linesOf text)[front.length]? = some line := by simp [htext]
    have hlength := length_of_getElem?_measure hget
    rw [show measure (text.splitOn '\n') = linesOf text from rfl, htext] at hlength
    cases rest with
    | nil =>
      simp only [List.length_append, List.length_singleton] at hlength
      by_cases hback : back = []
      · simp [hback, totalLength, hlength]
      · have hpos := List.length_pos_iff.2 hback
        simp [hback, totalLength, hlength]
    | cons next rest =>
      have hrest := @ih (front ++ [line]) (List.cons_ne_nil next rest) (by simp [htext])
      have hcounts : line.length = line.text.length + 1 := by
        rw [hlength, if_pos (by simp only [List.length_append, List.length_cons]; omega)]
      have hjoin : List.intercalate ['\n'] ((line :: next :: rest).map (·.text)) =
          line.text ++ ['\n'] ++ List.intercalate ['\n'] ((next :: rest).map (·.text)) :=
        List.intercalate_cons_cons
      rw [hjoin, List.length_append, List.length_append, List.length_singleton]
      show line.length + totalLength (next :: rest) = _
      omega

/-- Lines with another one behind them count for something. -/
theorem totalLength_pos (hsome : lines ≠ []) (hmore : back ≠ [])
    (htext : linesOf text = front ++ lines ++ back) : 0 < totalLength lines := by
  rw [totalLength_eq hsome htext, if_neg hmore]
  exact Nat.succ_pos _

theorem totalLength_take_add_drop (lines : List Line) (k : Nat) :
    totalLength (lines.take k) + totalLength (lines.drop k) = totalLength lines := by
  rw [← totalLength_append, List.take_append_drop]

/-! ## Where a run is split -/

/-- The end of a run is moved back behind its first `k` lines: these are long enough and what follows them is,
while what follows the run is too short, and so would be what follows any later line. -/
structure MovedBack (p : ChunkPolicy) (run rest : List Line) (k : Nat) : Prop where
  pos : 0 < k
  inside : k < run.length
  head : p.minBlock ≤ totalLength (run.take k)
  tail : p.minRemainder ≤ totalLength (run.drop k) + totalLength rest
  short : totalLength rest < p.minRemainder
  latest : ∀ j, k < j → j < run.length → totalLength (run.drop j) + totalLength rest < p.minRemainder

/-- A longer part in front counts for no less. -/
theorem totalLength_take_le {j : Nat} (h : k ≤ j) : totalLength (run.take k) ≤ totalLength (run.take j) := by
  have hsplit := totalLength_take_add_drop (run.take j) k
  rw [List.take_take, Nat.min_eq_left h] at hsplit
  omega

/-- A run that is not split behind its last line is split where its end is moved back to. -/
theorem movedBack_of_ne (h : splitPoint p run rest ≠ run.length) :
    MovedBack p run rest (splitPoint p run rest) := by
  unfold splitPoint at h ⊢
  dsimp only at h ⊢
  split at h
  · exact absurd rfl h
  · rename_i hshort
    rw [if_neg hshort]
    simp only [Bool.or_eq_true, decide_eq_true_eq, not_or, Nat.not_lt, Nat.not_le] at hshort
    generalize hfound : List.find? _ _ = found at h ⊢
    cases found with
    | none => exact absurd rfl h
    | some k =>
      obtain ⟨hfits, later, earlier, hcuts, hnone⟩ := List.find?_eq_some_iff_append.1 hfound
      simp only [Bool.and_eq_true, decide_eq_true_eq] at hfits
      have hmem := List.mem_of_find?_eq_some hfound
      simp only [List.mem_map, List.mem_reverse, List.mem_range] at hmem
      obtain ⟨i, hi, rfl⟩ := hmem
      refine ⟨Nat.succ_pos i, ?_, hfits.1, hfits.2, hshort.1.2, ?_⟩
      · show i + 1 < run.length
        omega
      · intro j hij hj
        have hij : i + 1 < j := hij
        -- the cuts are tried from the last one on, so a later one was tried before and did not fit
        have hlater : j ∈ later := by
          have hj' : j ∈ (List.range (run.length - 1)).reverse.map (· + 1) := by
            simp only [List.mem_map, List.mem_reverse, List.mem_range]
            exact ⟨j - 1, by omega, by omega⟩
          have hsorted : ((List.range (run.length - 1)).reverse.map (· + 1)).Pairwise (· > ·) := by
            rw [List.pairwise_map, List.pairwise_reverse]
            exact List.pairwise_lt_range.imp fun h => Nat.succ_lt_succ h
          rw [hcuts] at hj' hsorted
          rcases List.mem_append.1 hj' with hj' | hj'
          · exact hj'
          · have hbehind := (List.pairwise_append.1 hsorted).2.1
            rcases List.mem_cons.1 hj' with rfl | hj'
            · exact absurd hij (Nat.lt_irrefl _)
            · have hless := (List.pairwise_cons.1 hbehind).1 j hj'
              omega
        have hunfit := hnone j hlater
        simp only [Bool.not_eq_true', Bool.and_eq_false_iff, decide_eq_false_iff_not, Nat.not_le] at hunfit
        refine hunfit.resolve_left ?_
        exact Nat.not_lt.2 (Nat.le_trans hfits.1 (totalLength_take_le (Nat.le_of_lt hij)))

/-- A run is not split where all that follows its first line is too short. -/
theorem splitPoint_eq_length (h : totalLength (run.drop 1) + totalLength rest < p.minRemainder) :
    splitPoint p run rest = run.length := by
  by_contra hne
  have hmoved := movedBack_of_ne hne
  have htail := hmoved.tail
  have hpos := hmoved.pos
  have hless := totalLength_take_add_drop (run.drop 1) (splitPoint p run rest - 1)
  rw [List.drop_drop, Nat.add_sub_cancel' hpos] at hless
  omega

/-! ## What is gathered again -/

/-- Lines that fit together are gathered one after the other. -/
theorem cutLines_append (hfits : totalLength (run ++ part) ≤ p.effectiveMax) :
    cutLines p first run (part ++ rest) = cutLines p first (run ++ part) rest := by
  induction part generalizing run with
  | nil => rw [List.nil_append, List.append_nil]
  | cons line part ih =>
    have hsum := totalLength_append run (line :: part)
    have hline : totalLength (line :: part) = line.length + totalLength part := rfl
    have hshort : ¬p.effectiveMax < line.length := by omega
    have hroom : ¬(0 < totalLength run && p.effectiveMax < totalLength run + line.length) := by
      simp only [Bool.and_eq_true, decide_eq_true_eq]
      omega
    rw [List.append_cons] at hfits ⊢
    rw [List.cons_append, cutLines.eq_def]
    dsimp only
    rw [if_neg hshort, if_neg hroom, ih hfits]

/-- A run becomes a stretch with the lines that are gathered behind it, up to one that does not fit, if all
that follows its first line is too short for another split. -/
theorem exists_gathered (hsome : run ≠ [])
    (hsmall : totalLength (run.drop 1) + totalLength rest < p.minRemainder) :
    ∃ more back later, rest = more ++ back ∧
      cutLines p first run rest = .run first (run ++ more) :: later ∧
      (back = [] ∨ p.effectiveMax < totalLength (run ++ more) + totalLength back) := by
  induction rest generalizing run with
  | nil =>
    refine ⟨[], [], [], rfl, ?_, Or.inl rfl⟩
    rw [cutLines.eq_def]
    dsimp only
    rw [if_neg (by simpa using hsome), List.append_nil]
  | cons line rest ih =>
    have hrest : totalLength (line :: rest) = line.length + totalLength rest := rfl
    rw [cutLines.eq_def]
    dsimp only
    split
    · rename_i hlong
      rw [if_neg (by simpa using hsome)]
      refine ⟨[], line :: rest, _, rfl, by rw [List.append_nil], Or.inr ?_⟩
      omega
    · split
      · rename_i hfull
        simp only [Bool.and_eq_true, decide_eq_true_eq] at hfull
        obtain ⟨r, rs, rfl⟩ := List.exists_cons_of_ne_nil hsome
        have hwhole : splitCount p (r :: rs) (line :: rest) = (r :: rs).length := by
          rw [splitCount, splitPoint_eq_length hsmall]
          exact Nat.max_eq_right (Nat.succ_pos _)
        dsimp only
        rw [hwhole, List.take_length]
        refine ⟨[], line :: rest, _, rfl, by rw [List.append_nil], Or.inr ?_⟩
        rw [List.append_nil]
        omega
      · have hdrop : (run ++ [line]).drop 1 = run.drop 1 ++ [line] :=
          List.drop_append_of_le_length (List.length_pos_iff.2 hsome)
        have hline : totalLength [line] = line.length := rfl
        obtain ⟨more, back, later, rfl, hcut, hover⟩ := @ih (run ++ [line]) (by simp) (by
          rw [hdrop, totalLength_append]
          omega)
        rw [← List.append_cons] at hcut hover
        exact ⟨line :: more, back, later, rfl, hcut, hover⟩

/-! ## Blocks on the lines of a run -/

/-- A run whose lines count for something becomes a block unless its text is too short. -/
theorem stretchDrafts_run_eq_nil_iff (hpos : 0 < totalLength part) :
    stretchDrafts p s (.run first part) = [] ↔
      (List.intercalate ['\n'] (part.map (·.text))).length < p.minBlock := by
  unfold stretchDrafts
  dsimp only
  split
  · rename_i hshort
    simp only [Bool.or_eq_true, beq_iff_eq, decide_eq_true_eq] at hshort
    exact iff_of_true rfl (hshort.resolve_left (Nat.ne_of_gt hpos))
  · rename_i hlong
    simp only [Bool.or_eq_true, beq_iff_eq, decide_eq_true_eq, not_or] at hlong
    exact iff_of_false (List.cons_ne_nil _ _) hlong.2

/-- A draft that holds a line of a stretch is one of this stretch. -/
theorem Tiles.mem_of_spans {whole : List Line} (h : Tiles first whole stretches) (hx : x ∈ stretches)
    (hd : d ∈ stretches.flatMap (stretchDrafts p s)) (hfirst : x.start ≤ n)
    (hlast : n < x.start + x.lines.length) (hspans : d.Spans (s.baseLine + n)) : d ∈ stretchDrafts p s x := by
  obtain ⟨y, hy, hd⟩ := List.mem_flatMap.1 hd
  obtain ⟨-, hstart, hend⟩ := lines_of_mem_stretchDrafts hd
  unfold Draft.Spans at hspans
  have hsame : x = y := h.eq_of_overlap hx hy (by omega) (by omega)
  exact hsame ▸ hd

/-! ## Lines that are lost -/

section
variable {next : Line} (htext : linesOf text = front ++ run ++ next :: rest)

/-- A run whose end is moved back is cut in two: the lines in front of the boundary, and the ones behind it
together with some of those that follow. If a line does not join these, it is since it no longer fits. -/
theorem exists_cutLines_of_movedBack (hgathered : totalLength run ≤ p.effectiveMax)
    (hfits : next.length ≤ p.effectiveMax) (hfull : p.effectiveMax < totalLength run + next.length)
    (hsplit : splitPoint p run (next :: rest) = k) (hmoved : MovedBack p run (next :: rest) k) :
    ∃ more back later, next :: rest = more ++ back ∧
      cutLines p first run (next :: rest) =
        .run first (run.take k) :: .run (first + k) (run.drop k ++ more) :: later ∧
      (back = [] ∨ p.effectiveMax < totalLength (run.drop k ++ more) + totalLength back) := by
  have hsome : run.drop k ≠ [] := by simpa using hmoved.inside
  have hsmall : totalLength ((run.drop k).drop 1) + totalLength (next :: rest) < p.minRemainder := by
    rw [List.drop_drop]
    by_cases hlast : k + 1 < run.length
    · exact hmoved.latest (k + 1) (Nat.lt_succ_self k) hlast
    · rw [List.drop_of_length_le (Nat.not_lt.1 hlast), show totalLength [] = 0 from rfl, Nat.zero_add]
      exact hmoved.short
  obtain ⟨more, back, later, hrest, hcut, hover⟩ := @exists_gathered p _ _ (first + k) hsome hsmall
  have hagain := @cutLines_append p [] (run.drop k) (next :: rest) (first + k) (by
    have hparts := totalLength_take_add_drop run k
    rw [List.nil_append]
    omega)
  rw [List.nil_append, hcut] at hagain
  refine ⟨more, back, later, hrest, ?_, hover⟩
  have hpos : 0 < totalLength run := by omega
  have hcount : splitCount p run (next :: rest) = k := by
    rw [splitCount, hsplit]
    exact Nat.max_eq_right hmoved.pos
  obtain ⟨r, rs, rfl⟩ := List.exists_cons_of_length_pos (Nat.lt_of_le_of_lt (Nat.zero_le k) hmoved.inside)
  rw [cutLines.eq_def]
  dsimp only
  rw [if_neg (Nat.not_lt.2 hfits), if_pos (by simp [hpos, hfull]), hcount, hagain]

include htext

/-- The lines of a text with a run among them that is cut behind `k` lines. -/
theorem linesOf_eq_cut (k : Nat) : linesOf text = front ++ run.take k ++ (run.drop k ++ next :: rest) := by
  rw [htext, List.append_assoc front, List.append_assoc front, ← List.append_assoc (run.take k),
    List.take_append_drop]

/-- The block of the lines in front of the boundary lacks the last break that they count for. -/
theorem head_eq_nil_iff (hmoved : MovedBack p run (next :: rest) k) :
    stretchDrafts p s (.run first (run.take k)) = [] ↔ totalLength (run.take k) = p.minBlock := by
  have hsome : run.take k ≠ [] := by
    have hpos := hmoved.pos
    have hinside := hmoved.inside
    rw [← List.length_pos_iff, List.length_take]
    omega
  have hlength := totalLength_eq hsome (linesOf_eq_cut htext k)
  rw [if_neg (by simp)] at hlength
  have hhead := hmoved.head
  rw [stretchDrafts_run_eq_nil_iff (by omega)]
  omega

/-- Ended behind its last line, a run becomes one block. -/
theorem exists_whole (hmoved : MovedBack p run (next :: rest) k) :
    ∃ d, stretchDrafts p s (.run first run) = [d] := by
  have hinside := hmoved.inside
  have hsome : run ≠ [] := List.ne_nil_of_length_pos (Nat.lt_of_le_of_lt (Nat.zero_le k) hinside)
  have hlength := totalLength_eq hsome htext
  rw [if_neg (List.cons_ne_nil next rest)] at hlength
  have hbehind : 0 < totalLength (run.drop k) := by
    refine @totalLength_pos text (front ++ run.take k) (next :: rest) _ (by simpa using hinside)
      (List.cons_ne_nil next rest) ?_
    rw [linesOf_eq_cut htext k, ← List.append_assoc]
  have hparts := totalLength_take_add_drop run k
  have hhead := hmoved.head
  have hkept : stretchDrafts p s (.run first run) ≠ [] := by
    rw [Ne, stretchDrafts_run_eq_nil_iff (by omega)]
    omega
  unfold stretchDrafts at hkept ⊢
  dsimp only at hkept ⊢
  split at hkept
  · exact absurd rfl hkept
  · rename_i hlong
    rw [if_neg hlong]
    exact ⟨_, rfl⟩

/-- What is gathered behind the boundary is long enough for a block where the smallest tail is, and where a
run that is ended by a short line is. -/
theorem minBlock_le_gathered {more : List Line} (hmoved : MovedBack p run (next :: rest) k)
    (hrest : next :: rest = more ++ back)
    (hover : back = [] ∨ p.effectiveMax < totalLength (run.drop k ++ more) + totalLength back)
    (hremainder : p.minBlock ≤ p.minRemainder) (hroom : p.minBlock + p.minRemainder ≤ p.effectiveMax + 1) :
    p.minBlock ≤ (List.intercalate ['\n'] ((run.drop k ++ more).map (·.text))).length := by
  have hsome : run.drop k ++ more ≠ [] :=
    List.append_ne_nil_of_left_ne_nil (by simpa using hmoved.inside) more
  have hcut : linesOf text = front ++ run.take k ++ (run.drop k ++ more) ++ back := by
    rw [linesOf_eq_cut htext k, hrest]
    simp only [List.append_assoc]
  have hlength := totalLength_eq hsome hcut
  have htail := hmoved.tail
  have hshort := hmoved.short
  rw [hrest, totalLength_append] at htail hshort
  have hsum := totalLength_append (run.drop k) more
  rcases hover with rfl | hover
  · rw [if_pos rfl] at hlength
    have hnone : totalLength [] = 0 := rfl
    omega
  · split at hlength
    · rename_i hback
      rw [hback] at htail hover
      have hnone : totalLength [] = 0 := rfl
      omega
    · omega

end

/-- All lines of a run that is cut in two are in blocks if and only if both parts become blocks. -/
theorem spanned_iff {whole more : List Line} {later : List Stretch} (hpos : 0 < k) (hinside : k < run.length)
    (h : Tiles first whole (.run first (run.take k) :: .run (first + k) (run.drop k ++ more) :: later)) :
    (∀ n, first ≤ n → n < first + run.length → ∃ d ∈ (Stretch.run first (run.take k) ::
        .run (first + k) (run.drop k ++ more) :: later).flatMap (stretchDrafts p s), d.Spans (s.baseLine + n)) ↔
      stretchDrafts p s (.run first (run.take k)) ≠ [] ∧
        stretchDrafts p s (.run (first + k) (run.drop k ++ more)) ≠ [] := by
  have htaken : (run.take k).length = k := by
    rw [List.length_take]
    omega
  have hdropped : (run.drop k ++ more).length = run.length - k + more.length := by simp
  constructor
  · intro hall
    constructor
    · obtain ⟨d, hd, hspans⟩ := hall first (Nat.le_refl _) (by omega)
      have hmem := h.mem_of_spans List.mem_cons_self hd (Nat.le_refl first)
        (by simp only [Stretch.start, Stretch.lines]; omega) hspans
      exact List.ne_nil_of_mem hmem
    · obtain ⟨d, hd, hspans⟩ := hall (first + k) (Nat.le_add_right ..) (by omega)
      have hmem := h.mem_of_spans (List.mem_cons_of_mem _ List.mem_cons_self) hd (Nat.le_refl (first + k))
        (by simp only [Stretch.start, Stretch.lines]; omega) hspans
      exact List.ne_nil_of_mem hmem
  · rintro ⟨hhead, htail⟩ n hfirst hlast
    obtain ⟨d, hd⟩ := List.exists_mem_of_ne_nil _ hhead
    obtain ⟨d', hd'⟩ := List.exists_mem_of_ne_nil _ htail
    obtain ⟨-, hstart, hend⟩ := lines_of_mem_stretchDrafts hd
    obtain ⟨-, hstart', hend'⟩ := lines_of_mem_stretchDrafts hd'
    simp only [Stretch.start, Stretch.lines] at hstart hend hstart' hend'
    by_cases hside : n < first + k
    · refine ⟨d, List.mem_flatMap.2 ⟨_, List.mem_cons_self, hd⟩, ?_⟩
      unfold Draft.Spans
      omega
    · refine ⟨d', List.mem_flatMap.2 ⟨_, List.mem_cons_of_mem _ List.mem_cons_self, hd'⟩, ?_⟩
      unfold Draft.Spans
      omega

/-- What becomes of a run whose end is moved back, at any place of any text at which a line does not fit. Ended
behind its last line the run would be one block. Of the two parts that it is cut into, the first one is dropped
if and only if it counts for just the minimum. All lines of the run are still in blocks if and only if this is
not so and the part that is gathered again is long enough, which it is under limits that leave room for it. -/
theorem spanned_iff_of_moved (p : ChunkPolicy) (s : Setting) (first : Nat) {next : Line}
    (lines : linesOf text = front ++ run ++ next :: rest) (gathered : totalLength run ≤ p.effectiveMax)
    (fits : next.length ≤ p.effectiveMax) (full : p.effectiveMax < totalLength run + next.length)
    (split : splitPoint p run (next :: rest) = k) (moved : k ≠ run.length) :
    0 < k ∧ k < run.length ∧ ∃ more later,
      cutLines p first run (next :: rest) =
        .run first (run.take k) :: .run (first + k) (run.drop k ++ more) :: later ∧
      (∃ d, stretchDrafts p s (.run first run) = [d]) ∧
      (stretchDrafts p s (.run first (run.take k)) = [] ↔ totalLength (run.take k) = p.minBlock) ∧
      ((∀ n, first ≤ n → n < first + run.length →
          ∃ d ∈ (cutLines p first run (next :: rest)).flatMap (stretchDrafts p s),
            d.Spans (s.baseLine + n)) ↔
        totalLength (run.take k) ≠ p.minBlock ∧
          p.minBlock ≤ (List.intercalate ['\n'] ((run.drop k ++ more).map (·.text))).length) ∧
      (p.minBlock ≤ p.minRemainder → p.minBlock + p.minRemainder ≤ p.effectiveMax + 1 →
        p.minBlock ≤ (List.intercalate ['\n'] ((run.drop k ++ more).map (·.text))).length) := by
  have hmoved : MovedBack p run (next :: rest) k := split ▸ movedBack_of_ne (split.symm ▸ moved)
  obtain ⟨more, back, later, hrest, hcut, hover⟩ :=
    @exists_cutLines_of_movedBack p run rest first k next gathered fits full split hmoved
  have hdropped : 0 < totalLength (run.drop k ++ more) := by
    rw [totalLength_append]
    refine Nat.add_pos_left (@totalLength_pos text (front ++ run.take k) (next :: rest) _
      (by simpa using hmoved.inside) (List.cons_ne_nil next rest) ?_) _
    rw [linesOf_eq_cut lines k, ← List.append_assoc]
  have hhead : stretchDrafts p s (.run first (run.take k)) = [] ↔ _ := head_eq_nil_iff lines hmoved
  have htiles := @tiles_cutLines p first run (next :: rest)
  rw [hcut] at htiles
  refine ⟨hmoved.pos, hmoved.inside, more, later, hcut, exists_whole lines hmoved, hhead, ?_, ?_⟩
  · rw [hcut, spanned_iff hmoved.pos hmoved.inside htiles, Ne, hhead, Ne,
      stretchDrafts_run_eq_nil_iff hdropped, Nat.not_lt]
  · exact minBlock_le_gathered lines hmoved hrest hover

/-- Blocks of 3 to 9 characters, and tails of no fewer than 5. -/
def tight : ChunkPolicy where
  minBlock := 3
  maxBlock := 8
  minRemainder := 5

theorem effectiveMax_tight : tight.effectiveMax = 9 := by
  decide +kernel

/-- The tail is too short, and the second line joins it: all lines are in blocks. -/
theorem spanned_iff_of_moved_joined :
    splitPoint tight [⟨"abc".toList, 4⟩, ⟨"defg".toList, 5⟩] [⟨"xyz".toList, 3⟩] = 1 ∧
    ∀ n, 0 ≤ n → n < 2 →
      ∃ d ∈ (cutLines tight 0 [⟨"abc".toList, 4⟩, ⟨"defg".toList, 5⟩] [⟨"xyz".toList, 3⟩]).flatMap
        (stretchDrafts tight ⟨wholeFileType, [], 1⟩), d.Spans (1 + n) := by
  have hsplit : splitPoint tight [⟨"abc".toList, 4⟩, ⟨"defg".toList, 5⟩] [⟨"xyz".toList, 3⟩] = 1 := by decide
  obtain ⟨-, -, more, later, -, -, -, hall, hroom⟩ := @spanned_iff_of_moved "abc\ndefg\nxyz".toList [] _ _ _
    tight ⟨wholeFileType, [], 1⟩ 0 _ (by decide +kernel) (by rw [effectiveMax_tight]; decide)
    (by rw [effectiveMax_tight]; decide) (by rw [effectiveMax_tight]; decide) hsplit (by decide)
  refine ⟨hsplit, hall.2 ⟨by decide, hroom (by decide) ?_⟩⟩
  rw [effectiveMax_tight]
  decide

/-- Two lines that fit together and a third one that does not fit. -/
def lostText : List Char :=
  "ab\ncdefg\nxyz".toList

/-- The end of the run is moved back behind its first line, which counts its break and is too short without:
the line is in no block, although the run as a whole would have become one. -/
theorem lost_line :
    linesOf lostText = [⟨"ab".toList, 3⟩, ⟨"cdefg".toList, 6⟩, ⟨"xyz".toList, 3⟩] ∧
    splitPoint tight [⟨"ab".toList, 3⟩, ⟨"cdefg".toList, 6⟩] [⟨"xyz".toList, 3⟩] = 1 ∧
    (stretchDrafts tight ⟨wholeFileType, [], 1⟩ (.run 0 [⟨"ab".toList, 3⟩, ⟨"cdefg".toList, 6⟩])).map
      (·.content) = ["ab\ncdefg"] ∧
    (lineDrafts tight ⟨wholeFileType, [], 1⟩ lostText).map (fun d => (d.startLine, d.endLine, d.content)) =
      [(2, 3, "cdefg\nxyz")] := by
  have hlines : linesOf lostText =
      [⟨"ab".toList, 3⟩, ⟨"cdefg".toList, 6⟩, ⟨"xyz".toList, 3⟩] := by decide +kernel
  have hcut : cutLines tight 0 [] (linesOf lostText) =
      [.run 0 [⟨"ab".toList, 3⟩], .run 1 [⟨"cdefg".toList, 6⟩, ⟨"xyz".toList, 3⟩]] := by
    have hsplit : splitCount tight [⟨['a', 'b'], 3⟩, ⟨['c', 'd', 'e', 'f', 'g'], 6⟩]
        [⟨['x', 'y', 'z'], 3⟩] = 1 := by decide
    rw [hlines]
    simp [cutLines, effectiveMax_tight, totalLength, hsplit]
  refine ⟨hlines, by decide, by decide +kernel, ?_⟩
  rw [lineDrafts, hcut]
  decide +kernel

end Chunk

end SourceIndex
