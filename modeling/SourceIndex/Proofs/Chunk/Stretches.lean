import Mathlib.Data.List.Pairwise
import SourceIndex.Chunk.Lines
/-!
# Stretches of lines

`cutLines` cuts lines into stretches without a gap and without an overlap (`tiles_cutLines`), so that each
stretch stands at the place of the lines it holds (`Tiles.exists_of_mem`), ends before the next one begins
(`Tiles.pairwise`), and each line is in one of them (`Tiles.exists_of_getElem?`). Moving the end of a run
back never makes a run too long: those that come out fit the policy, and a line on its own does not
(`fits_of_mem_cutLines`). An overlong line is cut into pieces of one width, of which only the last may be
shorter (`pairwise_length_pieces`).

`of_mem_stretchDrafts_run` and `of_mem_stretchDrafts_overlong` say what the drafts of a stretch are; later
modules rest on them and on the lines of drafts (`lines_of_mem_stretchDrafts`).
-/

namespace SourceIndex.Chunk

variable {p : ChunkPolicy} {first width : Nat} {run rest whole : List Line} {line : Line}
  {stretches : List Stretch} {x : Stretch} {setting : Setting} {d : Draft} {index : Nat}
  {text s piece : List Char} {ls xs ys front seg back : List (List Char)}

/-! ## Lines of a text -/

theorem map_text_measure (ls : List (List Char)) : (measure ls).map (·.text) = ls := by
  fun_induction measure ls with
  | case1 => rfl
  | case2 l => rfl
  | case3 l ls hmore ih => rw [List.map_cons, ih]

/-- The lines of a text, joined by breaks, are the text. -/
theorem intercalate_linesOf (text : List Char) :
    List.intercalate ['\n'] ((linesOf text).map (·.text)) = text := by
  rw [linesOf, map_text_measure, List.intercalate_splitOn]

theorem newline_notMem_of_mem_splitOn (h : s ∈ text.splitOn '\n') : '\n' ∉ s := by
  induction text generalizing s with
  | nil => simp_all
  | cons c text ih =>
    rw [List.splitOn_cons_eq_if_modifyHead] at h
    split at h
    · rcases List.mem_cons.1 h with rfl | h
      · exact List.not_mem_nil
      · exact ih h
    · rename_i hc
      cases hsplit : text.splitOn '\n' with
      | nil => simp [hsplit] at h
      | cons l ls =>
        rw [hsplit, List.modifyHead_cons] at h
        rw [hsplit] at ih
        rcases List.mem_cons.1 h with rfl | h
        · have hc : '\n' ≠ c := fun heq => hc (by simp [← heq])
          simpa [hc] using ih List.mem_cons_self
        · exact ih (List.mem_cons_of_mem l h)

/-- No line of a text holds a break. -/
theorem newline_notMem_of_mem_linesOf (h : line ∈ linesOf text) : '\n' ∉ line.text := by
  have hmem : line.text ∈ (measure (text.splitOn '\n')).map (·.text) := List.mem_map_of_mem h
  rw [map_text_measure] at hmem
  exact newline_notMem_of_mem_splitOn hmem

/-- A line that is followed by another one counts its break, and every line counts its characters. -/
structure Counted (lines : List Line) : Prop where
  breaks : lines.Pairwise fun line _ => line.text.length < line.length
  characters : ∀ line ∈ lines, line.text.length ≤ line.length

theorem counted_measure (ls : List (List Char)) : Counted (measure ls) := by
  fun_induction measure ls with
  | case1 => exact ⟨.nil, nofun⟩
  | case2 l => exact ⟨List.pairwise_singleton .., by simp⟩
  | case3 l ls hmore ih =>
    refine ⟨.cons (fun _ _ => Nat.lt_succ_self _) ih.breaks, ?_⟩
    intro line hline
    rcases List.mem_cons.1 hline with rfl | hline
    · exact Nat.le_succ _
    · exact ih.characters line hline

theorem Counted.sublist {part : List Line} (h : Counted whole) (hsub : part.Sublist whole) :
    Counted part :=
  ⟨h.breaks.sublist hsub, fun line hline => h.characters line (hsub.subset hline)⟩

/-- The text of lines is no longer than they count for. -/
theorem Counted.length_intercalate_le (h : Counted whole) :
    (List.intercalate ['\n'] (whole.map (·.text))).length ≤ totalLength whole := by
  induction whole with
  | nil => simp
  | cons line rest ih =>
    have hrest := ih (h.sublist (List.sublist_cons_self line rest))
    cases rest with
    | nil => simpa [totalLength] using h.characters line List.mem_cons_self
    | cons next rest =>
      have hbreak := (List.pairwise_cons.1 h.breaks).1 next List.mem_cons_self
      have hjoin : List.intercalate ['\n'] ((line :: next :: rest).map (·.text)) =
          line.text ++ ['\n'] ++ List.intercalate ['\n'] ((next :: rest).map (·.text)) :=
        List.intercalate_cons_cons
      rw [hjoin, List.length_append, List.length_append, List.length_singleton]
      show _ ≤ line.length + totalLength (next :: rest)
      omega

/-! ## Joined lines -/

theorem intercalate_append {sep : List Char} (hxs : xs ≠ []) (hys : ys ≠ []) :
    List.intercalate sep (xs ++ ys) = List.intercalate sep xs ++ sep ++ List.intercalate sep ys := by
  induction xs with
  | nil => exact absurd rfl hxs
  | cons x xs ih =>
    cases xs with
    | nil => rw [List.singleton_append, List.intercalate_cons_of_ne_nil hys, List.intercalate_singleton]
    | cons next xs =>
      rw [List.cons_append, List.intercalate_cons_of_ne_nil (by simp), ih (List.cons_ne_nil next xs),
        List.intercalate_cons_cons]
      simp only [List.append_assoc]

/-- Joined lines have one break less than there are lines. -/
theorem count_intercalate (hxs : xs ≠ []) (hfree : ∀ x ∈ xs, '\n' ∉ x) :
    (List.intercalate ['\n'] xs).count '\n' + 1 = xs.length := by
  induction xs with
  | nil => exact absurd rfl hxs
  | cons x xs ih =>
    have hx : x.count '\n' = 0 := List.count_eq_zero.2 (hfree x List.mem_cons_self)
    cases xs with
    | nil => simp [hx]
    | cons next xs =>
      have hrest := ih (List.cons_ne_nil next xs) fun y hy => hfree y (List.mem_cons_of_mem x hy)
      rw [List.intercalate_cons_cons, List.count_append, List.count_append, hx, List.length_cons, ← hrest]
      simp [Nat.add_comm]

/-- A text has one line more than it has breaks. -/
theorem length_linesOf (text : List Char) : (linesOf text).length = text.count '\n' + 1 := by
  have hsome : (linesOf text).map (·.text) ≠ [] := by simp [linesOf, map_text_measure]
  have hjoin := count_intercalate hsome fun l hl => by
    obtain ⟨line, hline, rfl⟩ := List.mem_map.1 hl
    exact newline_notMem_of_mem_linesOf hline
  rw [intercalate_linesOf, List.length_map] at hjoin
  exact hjoin.symm

/-- Some of the lines of a text are a part of it, in front of which stand as many breaks as lines. -/
theorem exists_intercalate_eq (hseg : seg ≠ []) (hfree : ∀ l ∈ front, '\n' ∉ l) :
    ∃ pre post, List.intercalate ['\n'] (front ++ seg ++ back) =
      pre ++ List.intercalate ['\n'] seg ++ post ∧ pre.count '\n' = front.length := by
  have hbehind : ∃ post, List.intercalate ['\n'] (seg ++ back) = List.intercalate ['\n'] seg ++ post := by
    by_cases hback : back = []
    · exact ⟨[], by simp [hback]⟩
    · exact ⟨['\n'] ++ List.intercalate ['\n'] back, by
        rw [intercalate_append hseg hback, List.append_assoc]⟩
  obtain ⟨post, hpost⟩ := hbehind
  by_cases hfront : front = []
  · exact ⟨[], post, by simp [hfront, hpost], by simp [hfront]⟩
  · refine ⟨List.intercalate ['\n'] front ++ ['\n'], post, ?_, ?_⟩
    · rw [List.append_assoc, intercalate_append hfront (by simp [hseg]), hpost, List.append_assoc]
      simp only [List.append_assoc]
    · rw [List.count_append, ← count_intercalate hfront hfree]
      simp

/-! ## Cover -/

/-- The index of the line on which a stretch begins. -/
def Stretch.start : Stretch → Nat
  | .run first _ => first
  | .overlong index _ => index

/-- The lines of a stretch. -/
def Stretch.lines : Stretch → List Line
  | .run _ lines => lines
  | .overlong _ line => [line]

/-- Stretches follow one another without a gap from the line with index `first` on, and hold the given
lines. -/
inductive Tiles : Nat → List Line → List Stretch → Prop where
  | nil {first : Nat} : Tiles first [] []
  | cons {x : Stretch} {rest : List Line} {stretches : List Stretch} (some : x.lines ≠ [])
      (tail : Tiles (x.start + x.lines.length) rest stretches) :
      Tiles x.start (x.lines ++ rest) (x :: stretches)

/-- A run is split behind one of its lines. -/
theorem splitCount_le (h : run ≠ []) : splitCount p run rest ≤ run.length := by
  refine Nat.max_le.2 ⟨List.length_pos_iff.2 h, ?_⟩
  unfold splitPoint
  dsimp only
  split
  · exact Nat.le_refl _
  · generalize hfound : List.find? _ _ = found
    cases found with
    | none => exact Nat.le_refl _
    | some k =>
      have hk := List.mem_of_find?_eq_some hfound
      simp only [List.mem_map, List.mem_reverse, List.mem_range] at hk
      obtain ⟨j, hj, rfl⟩ := hk
      show j + 1 ≤ run.length
      omega

theorem Tiles.cons_run {part : List Line} (some : part ≠ [])
    (tail : Tiles (first + part.length) rest stretches) :
    Tiles first (part ++ rest) (.run first part :: stretches) :=
  Tiles.cons (x := .run first part) some tail

theorem Tiles.cons_overlong (tail : Tiles (first + 1) rest stretches) :
    Tiles first (line :: rest) (.overlong first line :: stretches) :=
  Tiles.cons (x := .overlong first line) (List.cons_ne_nil line []) tail

/-- Cutting loses no line and takes none twice. -/
theorem tiles_cutLines : Tiles first (run ++ rest) (cutLines p first run rest) := by
  fun_induction cutLines p first run rest with
  | case1 first run hempty =>
    rw [List.isEmpty_iff.1 hempty]
    exact .nil
  | case2 first run hempty => exact .cons_run (by simpa using hempty) .nil
  | case3 first run line rest hlong after hempty ih =>
    cases List.isEmpty_iff.1 hempty
    exact .cons_overlong ih
  | case4 first run line rest hlong after hempty ih =>
    exact .cons_run (by simpa using hempty) (.cons_overlong ih)
  | case5 first line rest hshort hfull ih => exact ih
  | case6 first line rest hshort r rs k hfull ih =>
    have hk : k ≤ (r :: rs).length := splitCount_le (List.cons_ne_nil r rs)
    have hpos : 1 ≤ k := Nat.le_max_left ..
    have htaken : ((r :: rs).take k).length = k := by rw [List.length_take, Nat.min_eq_left hk]
    have hsome : (r :: rs).take k ≠ [] := by
      intro hnil
      rw [hnil, List.length_nil] at htaken
      omega
    rw [← htaken] at ih
    have hcut := Tiles.cons_run hsome ih
    rwa [htaken, List.nil_append, ← List.append_assoc, List.take_append_drop] at hcut
  | case7 first run line rest hshort hroom ih => rwa [List.append_assoc] at ih

/-- A stretch holds some of the lines and begins where these begin. -/
theorem Tiles.exists_of_mem (h : Tiles first whole stretches) (hx : x ∈ stretches) :
    x.lines ≠ [] ∧ ∃ front back, whole = front ++ x.lines ++ back ∧ x.start = first + front.length := by
  induction h with
  | nil => cases hx
  | @cons y rest stretches hsome tail ih =>
    rcases List.mem_cons.1 hx with rfl | hx
    · exact ⟨hsome, [], rest, by simp⟩
    · obtain ⟨hlines, front, back, rfl, hstart⟩ := ih hx
      refine ⟨hlines, y.lines ++ front, back, by simp only [List.append_assoc], ?_⟩
      rw [hstart, List.length_append, Nat.add_assoc]

theorem Tiles.sublist_of_mem (h : Tiles first whole stretches) (hx : x ∈ stretches) :
    x.lines.Sublist whole := by
  obtain ⟨-, front, back, rfl, -⟩ := h.exists_of_mem hx
  rw [List.append_assoc]
  exact (List.sublist_append_left x.lines back).trans (List.sublist_append_right front _)

/-- Each stretch ends before the next one begins. -/
theorem Tiles.pairwise (h : Tiles first whole stretches) :
    stretches.Pairwise fun x y => x.start + x.lines.length ≤ y.start := by
  induction h with
  | nil => exact .nil
  | cons hsome tail ih =>
    refine .cons ?_ ih
    intro y hy
    obtain ⟨-, front, back, -, hstart⟩ := tail.exists_of_mem hy
    omega

/-- Of two stretches one ends before the other begins. -/
def Stretch.Apart (x y : Stretch) : Prop :=
  x.start + x.lines.length ≤ y.start ∨ y.start + y.lines.length ≤ x.start

instance : Std.Symm Stretch.Apart :=
  ⟨fun _ _ => Or.symm⟩

/-- Stretches that have a line in common are one. -/
theorem Tiles.eq_of_overlap {y : Stretch} (h : Tiles first whole stretches) (hx : x ∈ stretches)
    (hy : y ∈ stretches) (hxy : x.start < y.start + y.lines.length) (hyx : y.start < x.start + x.lines.length) :
    x = y := by
  by_contra hne
  have hapart : stretches.Pairwise Stretch.Apart := h.pairwise.imp Or.inl
  exact (hapart.forall hx hy hne).elim (Nat.not_le.2 hyx) (Nat.not_le.2 hxy)

/-- Each line is in a stretch. -/
theorem Tiles.exists_of_getElem? (h : Tiles first whole stretches) {i : Nat} (hline : whole[i]? = some line) :
    ∃ x ∈ stretches, ∃ j, x.lines[j]? = some line ∧ x.start + j = first + i := by
  induction h generalizing i with
  | nil => cases hline
  | @cons y rest stretches hsome tail ih =>
    rw [List.getElem?_append] at hline
    split at hline
    · exact ⟨y, List.mem_cons_self, i, hline, rfl⟩
    · rename_i hbehind
      obtain ⟨x, hx, j, hj, hplace⟩ := ih hline
      refine ⟨x, List.mem_cons_of_mem y hx, j, hj, ?_⟩
      omega

/-- A stretch begins on one of the lines that were to be cut. -/
theorem start_of_mem_cutLines (h : x ∈ cutLines p first run rest) :
    first ≤ x.start ∧ x.start < first + (run.length + rest.length) := by
  obtain ⟨hlines, front, back, heq, hstart⟩ := tiles_cutLines.exists_of_mem h
  have hlength := congrArg List.length heq
  have hpos := List.length_pos_iff.2 hlines
  simp only [List.length_append] at hlength
  omega

/-- Each stretch begins behind the one before it. -/
theorem pairwise_start_cutLines :
    (cutLines p first run rest).Pairwise fun x y => x.start < y.start := by
  refine (@tiles_cutLines p first run rest).pairwise.imp_of_mem ?_
  intro x y hx _ hle
  have hpos := List.length_pos_iff.2 (tiles_cutLines.exists_of_mem hx).1
  omega

/-! ## Length -/

/-- A run fits the policy, and a line that stands alone because of its length does not. -/
def Stretch.Fits (p : ChunkPolicy) : Stretch → Prop
  | .run _ lines => totalLength lines ≤ p.effectiveMax
  | .overlong _ line => p.effectiveMax < line.length

theorem totalLength_append (xs ys : List Line) :
    totalLength (xs ++ ys) = totalLength xs + totalLength ys := by
  induction xs with
  | nil => simp [totalLength]
  | cons x xs ih =>
    simp only [totalLength, List.cons_append, List.foldr_cons] at *
    omega

/-- What a run is cut into fits the policy if the lines gathered so far do. -/
theorem fits_of_mem_cutLines (hrun : totalLength run ≤ p.effectiveMax)
    (h : x ∈ cutLines p first run rest) : x.Fits p := by
  have hnone : totalLength [] ≤ p.effectiveMax := Nat.zero_le _
  fun_induction cutLines p first run rest with
  | case1 first run hempty => cases h
  | case2 first run hempty =>
    cases List.mem_singleton.1 h
    exact hrun
  | case3 first run line rest hlong after hempty ih =>
    rcases List.mem_cons.1 h with rfl | h
    · exact hlong
    · exact ih hnone h
  | case4 first run line rest hlong after hempty ih =>
    rcases List.mem_cons.1 h with rfl | h
    · exact hrun
    · rcases List.mem_cons.1 h with rfl | h
      · exact hlong
      · exact ih hnone h
  | case5 first line rest hshort hfull ih =>
    refine ih ?_ h
    simpa [totalLength] using hshort
  | case6 first line rest hshort r rs k hfull ih =>
    rcases List.mem_cons.1 h with rfl | h
    · have hsplit := totalLength_append ((r :: rs).take k) ((r :: rs).drop k)
      rw [List.take_append_drop] at hsplit
      show totalLength ((r :: rs).take k) ≤ p.effectiveMax
      omega
    · exact ih hnone h
  | case7 first run line rest hshort hroom ih =>
    refine ih ?_ h
    have hline : totalLength [line] = line.length := rfl
    simp only [Bool.and_eq_true, decide_eq_true_eq] at hroom
    rw [totalLength_append, hline]
    omega

/-! ## Pieces of an overlong line -/

theorem pieceWidth_pos : 0 < p.pieceWidth :=
  Nat.lt_of_lt_of_le Nat.one_pos (Nat.le_max_right ..)

theorem flatten_pieces (width : Nat) (s : List Char) : (pieces width s).flatten = s := by
  fun_induction pieces width s with
  | case1 => rfl
  | case2 c s ih => rw [List.flatten_cons, ih, List.cons_append, List.take_append_drop]

theorem infix_of_mem_pieces (h : piece ∈ pieces width s) : piece <:+: s := by
  obtain ⟨before, behind, heq⟩ := List.append_of_mem h
  refine ⟨before.flatten, behind.flatten, ?_⟩
  rw [← flatten_pieces width s, heq]
  simp only [List.flatten_append, List.flatten_cons, List.append_assoc]

theorem length_le_of_mem_pieces (h : piece ∈ pieces width s) : piece.length ≤ width - 1 + 1 := by
  fun_induction pieces width s with
  | case1 => cases h
  | case2 c s ih =>
    rcases List.mem_cons.1 h with rfl | h
    · simp only [List.length_cons, List.length_take]
      omega
    · exact ih h

/-- No piece is longer than one before it. -/
theorem pairwise_length_pieces :
    (pieces width s).Pairwise fun piece later => later.length ≤ piece.length := by
  fun_induction pieces width s with
  | case1 => exact .nil
  | case2 c s ih =>
    refine .cons ?_ ih
    intro later hlater
    have hlong := length_le_of_mem_pieces hlater
    have hshort := (infix_of_mem_pieces hlater).length_le
    simp only [List.length_cons, List.length_take, List.length_drop] at *
    omega

/-! ## Drafts of a stretch -/

/-- The draft of a run holds its lines. -/
theorem of_mem_stretchDrafts_run {part : List Line} (h : d ∈ stretchDrafts p setting (.run first part)) :
    d.chunkSource = .fallback ∧ p.minBlock ≤ d.content.toList.length ∧
      d.content.toList = List.intercalate ['\n'] (part.map (·.text)) ∧ part ≠ [] ∧
      d.startLine = setting.baseLine + first ∧ d.endLine + 1 = setting.baseLine + first + part.length := by
  simp only [stretchDrafts] at h
  split at h
  · cases h
  · rename_i hlong
    simp only [Bool.or_eq_true, beq_iff_eq, decide_eq_true_eq, not_or, Nat.not_lt] at hlong
    obtain ⟨hsome, hmin⟩ := hlong
    have hpart : part ≠ [] := by
      rintro rfl
      exact hsome rfl
    have hpos := List.length_pos_iff.2 hpart
    cases List.mem_singleton.1 h
    refine ⟨rfl, by simpa using hmin, String.toList_ofList, hpart, rfl, ?_⟩
    show setting.baseLine + first + part.length - 1 + 1 = _
    omega

/-- The draft of a run has no offset. -/
theorem offset_of_mem_stretchDrafts_run {part : List Line}
    (h : d ∈ stretchDrafts p setting (.run first part)) : d.offset = none := by
  simp only [stretchDrafts] at h
  split at h
  · cases h
  · rw [List.mem_singleton.1 h]

/-- Each draft of an overlong line holds one of its pieces. -/
theorem of_mem_stretchDrafts_overlong (h : d ∈ stretchDrafts p setting (.overlong index line)) :
    d.chunkSource = .lineSegment ∧ d.content.toList ∈ pieces p.pieceWidth line.text ∧
      d.startLine = setting.baseLine + index ∧ d.endLine = setting.baseLine + index := by
  obtain ⟨⟨piece, n⟩, hpiece, rfl⟩ := List.mem_map.1 h
  exact ⟨rfl, by simpa using List.fst_mem_of_mem_zipIdx hpiece, rfl, rfl⟩

/-- A draft bears the numbers of the first and the last line of its stretch. -/
theorem lines_of_mem_stretchDrafts (h : d ∈ stretchDrafts p setting x) :
    x.lines ≠ [] ∧ d.startLine = setting.baseLine + x.start ∧
      d.endLine + 1 = setting.baseLine + x.start + x.lines.length := by
  cases x with
  | run first part =>
    obtain ⟨-, -, -, hpart, hstart, hend⟩ := of_mem_stretchDrafts_run h
    exact ⟨hpart, hstart, hend⟩
  | overlong index line =>
    obtain ⟨-, -, hstart, hend⟩ := of_mem_stretchDrafts_overlong h
    exact ⟨List.cons_ne_nil line [], hstart, by rw [hend]; rfl⟩

end SourceIndex.Chunk
