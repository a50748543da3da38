import SourceIndex.Proofs.Chunk.Positions
/-!
# Cutting by lines loses nothing

The stretches that a text is cut into follow one another without a gap, and hold its lines (`tiles_cutLines`).
`Stretch.Emits` says what blocks a stretch becomes: a run one block with its lines, unless it is too short or
nothing but the empty line behind the last break, and an overlong line its pieces, which make up the line.
`cuts_without_loss` puts these together for the blocks that come out of a text. That none of them is
dropped as a duplicate rests on the drafts being different from one another (`nodup_lineDrafts`).
-/

namespace SourceIndex

namespace Sink

/-- If all segment hashes are different, no draft is left out. -/
theorem toBlocks_pushAll {path fileHash : String} {drafts : List Draft}
    (h : (drafts.map fun d => (d.toBlock path fileHash).segmentHash).Nodup) :
    (pushAll { filePath := path, fileHash := fileHash } drafts).toBlocks =
      drafts.map (Draft.toBlock path fileHash) := by
  have go : ∀ (s : Sink), s.filePath = path → s.fileHash = fileHash →
      (∀ b ∈ s.collected, ∀ d ∈ drafts, b.segmentHash ≠ (d.toBlock path fileHash).segmentHash) →
      (s.pushAll drafts).toBlocks = s.toBlocks ++ drafts.map (Draft.toBlock path fileHash) := by
    induction drafts with
    | nil => exact fun s _ _ _ => (List.append_nil _).symm
    | cons d drafts ih =>
      intro s hpath hhash hnew
      obtain ⟨hfirst, hrest⟩ := List.nodup_cons.1 h
      have hnone : (s.collected.any fun b =>
          b.segmentHash == (d.toBlock s.filePath s.fileHash).segmentHash) = false := by
        rw [List.any_eq_false, hpath, hhash]
        exact fun b hb heq => hnew b hb d List.mem_cons_self (beq_iff_eq.1 heq)
      have hpush : (s.push d).1 = { s with collected := d.toBlock path fileHash :: s.collected } := by
        unfold push
        dsimp only
        rw [hnone, hpath, hhash]
        rfl
      have hall := ih hrest (s.push d).1 (hpush ▸ hpath) (hpush ▸ hhash) fun b hb e he => by
        rw [hpush] at hb
        rcases List.mem_cons.1 hb with rfl | hb
        · exact fun heq => hfirst (List.mem_map.2 ⟨e, he, heq.symm⟩)
        · exact hnew b hb e (List.mem_cons_of_mem d he)
      refine hall.trans ?_
      rw [hpush, toBlocks, toBlocks, List.reverse_cons, List.map_cons, List.append_assoc,
        List.singleton_append]
  exact go _ rfl rfl fun b hb => absurd hb List.not_mem_nil

end Sink

namespace Chunk

variable {p : ChunkPolicy} {s : Setting} {text piece chars : List Char} {x : Stretch} {lines : List Line}
  {width i k first index count : Nat} {line : Line} {path fileHash : String} {ls : List (List Char)}

/-! ## Lines -/

/-- A line counts its characters and, unless it is the last one, its break. -/
theorem length_of_getElem?_measure (h : (measure ls)[i]? = some line) :
    line.length = line.text.length + if i + 1 < (measure ls).length then 1 else 0 := by
  fun_induction measure ls generalizing i with
  | case1 => cases h
  | case2 l =>
    cases i with
    | zero =>
      cases h
      rfl
    | succ i => cases h
  | case3 l ls hmore ih =>
    cases i with
    | zero =>
      cases h
      have hpos : 0 < (measure ls).length := by
        rw [← List.length_map (·.text), map_text_measure, List.length_pos_iff]
        exact hmore
      rw [List.length_cons, if_pos (by omega)]
    | succ i =>
      rw [List.getElem?_cons_succ] at h
      rw [ih h, List.length_cons]
      simp only [Nat.add_lt_add_iff_right]

/-- Lines that count for nothing are one empty line, the last one. -/
theorem totalLength_eq_zero_iff {front back : List Line} (hsome : lines ≠ [])
    (h : linesOf text = front ++ lines ++ back) :
    totalLength lines = 0 ↔ lines.map (·.text) = [[]] ∧ front.length + 1 = (linesOf text).length := by
  have hcounted : Counted (linesOf text) := counted_measure _
  rw [h, List.append_assoc] at hcounted
  have hbehind := hcounted.sublist (List.sublist_append_right front (lines ++ back))
  obtain ⟨line, rest, rfl⟩ := List.exists_cons_of_ne_nil hsome
  have hfirst := hbehind.characters line List.mem_cons_self
  constructor
  · intro hzero
    have hline : line.length = 0 := Nat.eq_zero_of_add_eq_zero_right hzero
    -- a line with another one behind it counts its break
    have hlast : rest ++ back = [] := by
      by_contra hmore
      obtain ⟨next, more, hnext⟩ := List.exists_cons_of_ne_nil hmore
      have hmem : next ∈ rest ++ back := by
        rw [hnext]
        exact List.mem_cons_self
      have hbreak := (List.pairwise_cons.1 hbehind.breaks).1 next hmem
      omega
    obtain ⟨rfl, rfl⟩ := List.append_eq_nil_iff.1 hlast
    have htext : line.text = [] := List.length_eq_zero_iff.1 (by omega)
    simp [h, htext]
  · rintro ⟨htexts, hcount⟩
    obtain ⟨htext, hrest⟩ : line.text = [] ∧ _ := List.cons_eq_cons.1 htexts
    cases List.map_eq_nil_iff.1 hrest
    have hget : (linesOf text)[front.length]? = some line := by simp [h]
    have hlength := length_of_getElem?_measure hget
    rw [show (measure (text.splitOn '\n')).length = front.length + 1 from hcount.symm, htext,
      if_neg (Nat.lt_irrefl _)] at hlength
    simp [totalLength, hlength]

/-! ## Pieces -/

theorem getElem?_pieces (hwidth : 0 < width) (h : (pieces width chars)[k]? = some piece) :
    piece = (chars.drop (k * width)).take width ∧ piece ≠ [] := by
  fun_induction pieces width chars generalizing k with
  | case1 => cases h
  | case2 c chars ih =>
    obtain ⟨width, rfl⟩ := Nat.exists_eq_succ_of_ne_zero (Nat.ne_of_gt hwidth)
    cases k with
    | zero =>
      cases h
      rw [Nat.zero_mul]
      exact ⟨rfl, List.cons_ne_nil _ _⟩
    | succ k =>
      rw [List.getElem?_cons_succ] at h
      obtain ⟨rfl, hne⟩ := ih h
      refine ⟨?_, hne⟩
      have hplace : (k + 1) * width.succ = width.succ - 1 + k * width.succ + 1 := by
        rw [Nat.succ_mul]
        omega
      rw [List.drop_drop, hplace, List.drop_succ_cons]

/-! ## Drafts -/

theorem nodup_stretchDrafts : (stretchDrafts p s x).Nodup := by
  cases x with
  | run first lines =>
    unfold stretchDrafts
    dsimp only
    split
    · exact List.nodup_nil
    · exact List.nodup_singleton _
  | overlong index line =>
    have hoffsets : (stretchDrafts p s (.overlong index line)).map (·.offset) =
        ((pieces p.pieceWidth line.text).zipIdx.map Prod.snd).map fun n => some (n * p.pieceWidth) := by
      rw [stretchDrafts, List.map_map, List.map_map]
      rfl
    refine List.Nodup.of_map (·.offset) ?_
    rw [hoffsets, List.zipIdx_map_snd]
    refine List.Nodup.map (fun m n h => ?_) List.nodup_range'
    exact Nat.eq_of_mul_eq_mul_right pieceWidth_pos (Option.some_inj.1 h)

/-- No draft of a text occurs twice. -/
theorem nodup_lineDrafts : (lineDrafts p s text).Nodup := by
  refine List.nodup_flatMap.2 ⟨fun x _ => nodup_stretchDrafts, ?_⟩
  refine (@pairwise_start_cutLines p 0 [] (linesOf text)).imp fun {x y} hlt d hx hy => ?_
  have hstart := (lines_of_mem_stretchDrafts hx).2.1
  rw [(lines_of_mem_stretchDrafts hy).2.1] at hstart
  omega

/-! ## Blocks -/

/-- What a stretch of a text with `count` lines becomes. A run fits the policy, and it becomes one block with
its lines, joined by breaks, unless that text is too short or the run is an empty last line. A line that does
not fit becomes pieces of one width, one behind the other, and together they are the line. -/
def Stretch.Emits (p : ChunkPolicy) (baseLine count : Nat) : Stretch → List Block → Prop
  | .run first lines, blocks =>
    let content := List.intercalate ['\n'] (lines.map (·.text))
    let spared := content.length < p.minBlock ∨ lines.map (·.text) = [[]] ∧ first + 1 = count
    totalLength lines ≤ p.effectiveMax ∧ (spared → blocks = []) ∧
      (¬spared → ∃ b, blocks = [b] ∧ b.content.toList = content ∧ b.startLine = baseLine + first ∧
        b.endLine + 1 = baseLine + first + lines.length ∧ b.lineOffset = none)
  | .overlong index line, blocks =>
    let width := max 1 p.maxBlock
    p.effectiveMax < line.length ∧ (blocks.map (·.content.toList)).flatten = line.text ∧
      ∀ k b, blocks[k]? = some b → b.content.toList = (line.text.drop (k * width)).take width ∧
        b.content.toList ≠ [] ∧ b.startLine = baseLine + index ∧ b.endLine = baseLine + index ∧
        b.lineOffset = some (k * width)

/-- The blocks of the drafts of a stretch are those that it becomes. -/
theorem emits_of_mem_cutLines (hx : x ∈ cutLines p 0 [] (linesOf text)) :
    x.Emits p s.baseLine (linesOf text).length
      ((stretchDrafts p s x).map (Draft.toBlock path fileHash)) := by
  have hfits := fits_of_mem_cutLines (Nat.zero_le _) hx
  obtain ⟨hsome, front, back, hlines, hstart⟩ := tiles_cutLines.exists_of_mem hx
  rw [Nat.zero_add] at hstart
  cases x with
  | run first lines =>
    obtain rfl : first = front.length := hstart
    have hempty : (totalLength lines == 0) = true ↔ _ :=
      beq_iff_eq.trans (totalLength_eq_zero_iff hsome hlines)
    refine ⟨hfits, ?_, ?_⟩
    · rintro (hshort | hlast)
      · rw [stretchDrafts, if_pos (by simp [hshort])]
        rfl
      · rw [stretchDrafts, if_pos (by simp [hempty.2 hlast])]
        rfl
    · intro hspared
      obtain ⟨hlong, hmore⟩ := not_or.1 hspared
      have hkept : ¬(totalLength lines == 0 ||
          decide ((List.intercalate ['\n'] (lines.map (·.text))).length < p.minBlock)) = true := by
        rw [Bool.or_eq_true, hempty, decide_eq_true_eq, not_or]
        exact ⟨hmore, hlong⟩
      have hpos := List.length_pos_iff.2 hsome
      refine ⟨_, by rw [stretchDrafts, if_neg hkept]; rfl, String.toList_ofList, rfl, ?_, rfl⟩
      show s.baseLine + front.length + lines.length - 1 + 1 = _
      simp only [Stretch.lines] at hpos
      omega
  | overlong index line =>
    have hwidth : p.pieceWidth = max 1 p.maxBlock := Nat.max_comm ..
    refine ⟨hfits, ?_, fun k b hb => ?_⟩
    · rw [stretchDrafts, List.map_map, List.map_map]
      have hpieces := (List.map_congr_left fun _ _ => String.toList_ofList).trans
        (List.zipIdx_map_fst 0 (pieces p.pieceWidth line.text))
      exact (congrArg List.flatten hpieces).trans (flatten_pieces ..)
    · rw [stretchDrafts, List.map_map, List.getElem?_map, List.getElem?_zipIdx, Option.map_map,
        Option.map_eq_some_iff] at hb
      obtain ⟨piece, hpiece, rfl⟩ := hb
      obtain ⟨hplace, hne⟩ := getElem?_pieces pieceWidth_pos hpiece
      have hcontent : (String.ofList piece).toList = piece := String.toList_ofList
      rw [← hwidth]
      refine ⟨hcontent.trans hplace, hcontent.symm ▸ hne, rfl, rfl, ?_⟩
      show some ((0 + k) * p.pieceWidth) = _
      rw [Nat.zero_add]

/-- However long its lines are, and whatever the limits, a text is cut into stretches that cover its lines
one after the other, and the blocks that come out are those that the stretches become. -/
theorem cuts_without_loss (p : ChunkPolicy) (s : Setting) (text : List Char) (path fileHash : String)
    (apart : ∀ d ∈ lineDrafts p s text, ∀ d' ∈ lineDrafts p s text,
      (d.toBlock path fileHash).segmentHash = (d'.toBlock path fileHash).segmentHash → d = d') :
    (linesOf text).map (·.text) = text.splitOn '\n' ∧
    (∀ (i : Nat) (line : Line), (linesOf text)[i]? = some line →
      line.length = line.text.length + if i + 1 < (linesOf text).length then 1 else 0) ∧
    ∃ (stretches : List Stretch) (parts : List (List Block)),
      Tiles 0 (linesOf text) stretches ∧
      List.Forall₂ (Stretch.Emits p s.baseLine (linesOf text).length) stretches parts ∧
      (Sink.pushAll { filePath := path, fileHash := fileHash } (lineDrafts p s text)).toBlocks =
        parts.flatten := by
  refine ⟨map_text_measure _, fun _ _ h => length_of_getElem?_measure h, cutLines p 0 [] (linesOf text),
    (cutLines p 0 [] (linesOf text)).map fun x => (stretchDrafts p s x).map (Draft.toBlock path fileHash),
    @tiles_cutLines p 0 [] (linesOf text), ?_, ?_⟩
  · rw [List.forall₂_map_right_iff, List.forall₂_same]
    exact fun x hx => emits_of_mem_cutLines hx
  · rw [Sink.toBlocks_pushAll (nodup_lineDrafts.map_on fun d hd d' hd' h => apart d hd d' hd' h), lineDrafts,
      List.map_flatMap, List.flatMap_def]

/-- Two lines that fit together, one that is too long, and the empty one behind the last break. -/
def fewLines : List Char :=
  "one\ntwo\nthirteen long\n".toList

def narrow : ChunkPolicy where
  minBlock := 3
  maxBlock := 8

theorem cutLines_fewLines : cutLines narrow 0 [] (linesOf fewLines) =
    [.run 0 [⟨"one".toList, 4⟩, ⟨"two".toList, 4⟩], .overlong 2 ⟨"thirteen long".toList, 14⟩,
      .run 3 [⟨[], 0⟩]] := by
  have hmax : narrow.effectiveMax = 9 := by decide +kernel
  have hlines : linesOf fewLines = [⟨"one".toList, 4⟩, ⟨"two".toList, 4⟩,
    ⟨"thirteen long".toList, 14⟩, ⟨[], 0⟩] := by decide +kernel
  rw [hlines]
  simp [cutLines, hmax, totalLength]

theorem cuts_without_loss_few : ∃ (stretches : List Stretch) (parts : List (List Block)),
    Tiles 0 (linesOf fewLines) stretches ∧
    List.Forall₂ (Stretch.Emits narrow 1 (linesOf fewLines).length) stretches parts ∧
    (Sink.pushAll { filePath := "/w/a.md", fileHash := "hash" }
      (lineDrafts narrow ⟨wholeFileType, [], 1⟩ fewLines)).toBlocks = parts.flatten := by
  have hdifferent : ((lineDrafts narrow ⟨wholeFileType, [], 1⟩ fewLines).map fun d =>
      (d.toBlock "/w/a.md" "hash").segmentHash).Nodup := by
    rw [lineDrafts, cutLines_fewLines]
    decide +kernel
  exact (cuts_without_loss narrow ⟨wholeFileType, [], 1⟩ fewLines "/w/a.md" "hash"
    fun d hd d' hd' h => List.inj_on_of_nodup_map hdifferent hd hd' h).2.2

example : (lineDrafts narrow ⟨wholeFileType, [], 1⟩ fewLines).map
      (fun d => (d.startLine, d.endLine, d.offset, d.content)) =
    [(1, 2, none, "one\ntwo"), (3, 3, some 0, "thirteen"), (3, 3, some 8, " long")] := by
  rw [lineDrafts, cutLines_fewLines]
  decide +kernel

end Chunk

end SourceIndex
