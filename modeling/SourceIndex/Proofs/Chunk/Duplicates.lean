import SourceIndex.Proofs.Chunk.Columns
/-!
# Which drafts a sink refuses

A sink refuses a draft whose segment hash it has already. That is the case for a second draft with the lines, the
offset and the content of an earlier one (`Draft.Repeats`), but not for it alone: nothing in a segment key tells
the offset of a piece from a number in front of the content, so that a piece and a run on the same line have one
key if the run reads like the offset, a dash and the piece (`Draft.Spells`). `push_refuses_iff` says that there is
no third case, so that the same drafts only are refused where none of the second kind was added; and
`refused_secondHalf` that this kind comes up: of a template string the line on which its second half begins is
lost.
-/

namespace SourceIndex

/-- The text whose digest identifies the block of a draft. -/
def Draft.key (path : String) (d : Draft) : String :=
  segmentKey path d.startLine d.endLine d.offset d.content

/-- An offset, a dash and a content as one text. -/
def spelling (n : Nat) (content : String) : String := s!"{n}-{content}"

/-- Two drafts have the same lines, the same offset and the same content. -/
def Draft.Repeats (d e : Draft) : Prop :=
  d.startLine = e.startLine ∧ d.endLine = e.endLine ∧ d.offset = e.offset ∧ d.content = e.content

/-- A draft without an offset has the lines of one with an offset, and reads like its offset, a dash and its
content. -/
def Draft.Spells (d e : Draft) : Prop :=
  d.startLine = e.startLine ∧ d.endLine = e.endLine ∧ d.offset = none ∧
    ∃ n, e.offset = some n ∧ d.content = spelling n e.content

variable {path fileHash : String} {d e : Draft} {b : Block} {s : Sink} {drafts : List Draft}
  {offset offset' : Option Nat} {content content' : String}

/-! ## Segment keys -/

theorem toList_spelling (n : Nat) (content : String) :
    (spelling n content).toList = offsetHead (some n) ++ content.toList := by
  have text (s : String) : toString s = s := rfl
  have dash : "-".toList = ['-'] := rfl
  simp [spelling, offsetHead, text, dash]

theorem offsetHead_append_inj {m n : Nat}
    (h : offsetHead (some m) ++ content.toList = offsetHead (some n) ++ content'.toList) :
    m = n ∧ content = content' := by
  simp only [offsetHead, List.append_assoc, List.singleton_append] at h
  obtain ⟨hdigits, hcontent⟩ := append_cons_inj_of_notMem_front (not_mem_toDigits (by decide) m)
    (not_mem_toDigits (by decide) n) h
  exact ⟨toDigits_inj hdigits, String.toList_inj.1 hcontent⟩

/-- Behind the lines two keys go on alike if offset and content are the same, or if one of the contents spells
the offset and the content of the other. -/
theorem offsetHead_append_eq_iff :
    offsetHead offset ++ content.toList = offsetHead offset' ++ content'.toList ↔
      offset = offset' ∧ content = content' ∨
        (offset = none ∧ ∃ n, offset' = some n ∧ content = spelling n content') ∨
        (offset' = none ∧ ∃ n, offset = some n ∧ content' = spelling n content) := by
  have bare (content : String) : offsetHead none ++ content.toList = content.toList := List.nil_append _
  cases offset with
  | none =>
    cases offset' with
    | none => simp [bare, String.toList_inj]
    | some n => simp [bare, ← toList_spelling, String.toList_inj]
  | some m =>
    cases offset' with
    | none => simp [bare, ← toList_spelling, String.toList_inj, eq_comm]
    | some n =>
      constructor
      · intro h
        obtain ⟨rfl, rfl⟩ := offsetHead_append_inj h
        exact Or.inl ⟨rfl, rfl⟩
      · rintro (⟨hoffset, rfl⟩ | ⟨hnone, -⟩ | ⟨hnone, -⟩)
        · rw [hoffset]
        · cases hnone
        · cases hnone

theorem Draft.key_eq_iff_parts : d.key path = e.key path ↔ d.startLine = e.startLine ∧ d.endLine = e.endLine ∧
    offsetHead d.offset ++ d.content.toList = offsetHead e.offset ++ e.content.toList := by
  refine ⟨segmentKey_parts, ?_⟩
  rintro ⟨hstart, hend, hrest⟩
  rw [key, key, ← String.toList_inj, toList_segmentKey, toList_segmentKey, hstart, hend, hrest]

/-- Drafts have one segment key if they are the same, or if one of them spells the other. -/
theorem Draft.key_eq_iff : d.key path = e.key path ↔ d.Repeats e ∨ d.Spells e ∨ e.Spells d := by
  rw [key_eq_iff_parts, offsetHead_append_eq_iff]
  constructor
  · rintro ⟨hstart, hend, ⟨hoffset, hcontent⟩ | ⟨hnone, n, hn, hcontent⟩ | ⟨hnone, n, hn, hcontent⟩⟩
    · exact Or.inl ⟨hstart, hend, hoffset, hcontent⟩
    · exact Or.inr (Or.inl ⟨hstart, hend, hnone, n, hn, hcontent⟩)
    · exact Or.inr (Or.inr ⟨hstart.symm, hend.symm, hnone, n, hn, hcontent⟩)
  · rintro (⟨hstart, hend, hsame⟩ | ⟨hstart, hend, hspells⟩ | ⟨hstart, hend, hspells⟩)
    · exact ⟨hstart, hend, Or.inl hsame⟩
    · exact ⟨hstart, hend, Or.inr (Or.inl hspells)⟩
    · exact ⟨hstart.symm, hend.symm, Or.inr (Or.inr hspells)⟩

theorem Draft.Repeats.not_spells (h : d.Repeats e) : ¬(d.Spells e ∨ e.Spells d) := by
  obtain ⟨-, -, hoffset, -⟩ := h
  rintro (⟨-, -, hnone, n, hn, -⟩ | ⟨-, -, hnone, n, hn, -⟩)
  · rw [hoffset, hn] at hnone
    cases hnone
  · rw [← hoffset, hn] at hnone
    cases hnone

/-! ## Drafts that were added -/

namespace Sink

/-- A draft is refused behind one of its segment key that was added. -/
theorem Accepts.push_eq_false (he : s.Accepts drafts e) (hkey : d.key s.filePath = e.key s.filePath) :
    ((s.pushAll drafts).push d).2 = false := by
  obtain ⟨hpath, hfile⟩ := pushAll_file s drafts
  rw [push_eq_false_iff, hpath, hfile]
  exact ⟨_, mem_collected_pushAll_iff.2 (Or.inr ⟨e, he, rfl⟩), (congrArg Digest.sha256Hex hkey).symm⟩

/-- Of the drafts that were added no two have one segment key. -/
theorem Accepts.eq_of_key_eq (hd : s.Accepts drafts d) (he : s.Accepts drafts e)
    (hkey : d.key s.filePath = e.key s.filePath) : d = e := by
  induction drafts using List.reverseRecOn with
  | nil => exact absurd hd.mem List.not_mem_nil
  | append_singleton drafts x ih =>
    rcases accepts_concat.1 hd with hd' | ⟨rfl, hadded⟩
    · rcases accepts_concat.1 he with he' | ⟨rfl, hadded⟩
      · exact ih hd' he'
      · exact absurd hadded (Bool.eq_false_iff.1 (hd'.push_eq_false hkey.symm))
    · rcases accepts_concat.1 he with he' | ⟨rfl, -⟩
      · exact absurd hadded (Bool.eq_false_iff.1 (he'.push_eq_false hkey))
      · rfl

end Sink

/-! ## Refused drafts -/

/-- A draft with the segment key of another one makes no collision. -/
theorem Chunk.Collisionless.cons_of_key_eq (apart : Collisionless path drafts) (he : e ∈ drafts)
    (hkey : d.key path = e.key path) : Collisionless path (d :: drafts) := by
  have hmember {x : Draft} (hx : x ∈ d :: drafts) : ∃ y ∈ drafts, x.key path = y.key path := by
    rcases List.mem_cons.1 hx with rfl | hx
    · exact ⟨e, he, hkey⟩
    · exact ⟨x, hx, rfl⟩
  intro x hx x' hx' (hhash : Digest.sha256Hex (x.key path) = Digest.sha256Hex (x'.key path))
  obtain ⟨y, hy, hxy⟩ := hmember hx
  obtain ⟨y', hy', hxy'⟩ := hmember hx'
  rw [hxy, hxy'] at hhash
  exact hxy.trans ((apart y hy y' hy' hhash).trans hxy'.symm)

/-- A sink for one file refuses a draft if it added one with the same segment key before, and only then. -/
theorem push_eq_false_iff_key (fileHash : String) (apart : Chunk.Collisionless path (d :: drafts)) :
    (((Sink.mk path fileHash []).pushAll drafts).push d).2 = false ↔
      ∃ e, (Sink.mk path fileHash []).Accepts drafts e ∧ d.key path = e.key path := by
  refine ⟨fun hrefused => ?_, fun ⟨e, he, hkey⟩ => he.push_eq_false hkey⟩
  obtain ⟨hpath, hfile⟩ := Sink.pushAll_file (Sink.mk path fileHash []) drafts
  rw [Sink.push_eq_false_iff, hpath, hfile] at hrefused
  obtain ⟨b, hb, heq⟩ := hrefused
  rcases Sink.mem_collected_pushAll_iff.1 hb with hnone | ⟨e, he, rfl⟩
  · cases hnone
  · exact ⟨e, he, apart d List.mem_cons_self e (List.mem_cons_of_mem d he.mem) heq.symm⟩

/-- A sink for one file refuses a draft, whatever was pushed before it, if and only if one that it added before is
the same in lines, offset and content, or one of the two spells the other. It refuses no draft but a repeated one if
and only if it added none of the other kind. Two segment keys are equal in the same cases. -/
theorem push_refuses_iff (path fileHash : String) (drafts : List Draft) (d : Draft)
    (apart : Chunk.Collisionless path (d :: drafts)) :
    ((((Sink.mk path fileHash []).pushAll drafts).push d).2 = false ↔
      ∃ e, (Sink.mk path fileHash []).Accepts drafts e ∧ (d.Repeats e ∨ d.Spells e ∨ e.Spells d)) ∧
    (((((Sink.mk path fileHash []).pushAll drafts).push d).2 = false ↔
        ∃ e, (Sink.mk path fileHash []).Accepts drafts e ∧ d.Repeats e) ↔
      ∀ e, (Sink.mk path fileHash []).Accepts drafts e → ¬(d.Spells e ∨ e.Spells d)) ∧
    ∀ e : Draft, d.key path = e.key path ↔ d.Repeats e ∨ d.Spells e ∨ e.Spells d := by
  have hrefuses := push_eq_false_iff_key fileHash apart
  simp only [Draft.key_eq_iff] at hrefuses
  refine ⟨hrefuses, ⟨fun hmeets e he hspells => ?_, fun hnone => ?_⟩, fun e => Draft.key_eq_iff⟩
  · obtain ⟨e', he', hrepeats⟩ := hmeets.1 (hrefuses.2 ⟨e, he, Or.inr hspells⟩)
    have hsame : e' = e := he'.eq_of_key_eq he
      ((Draft.key_eq_iff.2 (Or.inl hrepeats)).symm.trans (Draft.key_eq_iff.2 (Or.inr hspells)))
    exact hrepeats.not_spells (hsame ▸ hspells)
  · rw [hrefuses]
    exact exists_congr fun e => and_congr_right fun he => or_iff_left (hnone e he)

/-! ### A line of a template string -/

namespace Chunk

open Syntax

variable {p : ChunkPolicy} {source : Source} {c x : Cursor} {n : Nat}

/-- A node that is too long and has one child only that is not too short gives what this child gives. -/
theorem visit_of_only_child (h : Splits p source c) (hx : c.children[n]? = some x)
    (hshort : ∀ y ∈ c.children.eraseIdx n, (y.tree.text source).length < p.minBlock) :
    visit p source [c] = visit p source [x] := by
  have hparent : c.tree.children ≠ [] := by
    intro hnone
    rw [Cursor.children, hnone] at hx
    cases hx
  obtain ⟨hn, hget⟩ := List.getElem?_eq_some_iff.1 hx
  have hchildren : c.children = c.children.take n ++ x :: c.children.drop (n + 1) := by
    rw [← hget, ← List.drop_eq_getElem_cons hn, List.take_append_drop]
  rw [List.eraseIdx_eq_take_drop_succ, List.forall_mem_append] at hshort
  rw [visit_of_splits h hparent, List.nil_append, hchildren, visit_append_of_short hshort.1, visit_cons,
    visit_append_of_short hshort.2, visit_cons, List.nil_append]

/-- Two lines that fit, but not together, are two runs. -/
theorem cutLines_pair {a b : Line} (ha : a.length ≤ p.effectiveMax) (hb : b.length ≤ p.effectiveMax)
    (hsome : 0 < a.length) (hlong : p.effectiveMax < a.length + b.length) :
    cutLines p 0 [] [a, b] = [.run 0 [a], .run 1 [b]] := by
  have hcount : splitCount p [a] [b] = 1 := by simp [splitCount, splitPoint]
  simp [cutLines, totalLength, hcount, Nat.not_lt.2 ha, Nat.not_lt.2 hb, hsome, hlong]

/-- A function that returns a template string. The half in front of the placeholder is too long for a block and is
cut into pieces; the half behind it begins on the same line, and begins like the second of them. -/
def templateText : String :=
  "function tpl() \x7b\n  return `abcdefghijklmnoPQRSTUVWXY$\x7bvalue\x7d15-PQRSTUVWXY\nthe second line`;\n\x7d\n"

def firstFragment : Tree := .node ⟨"string_fragment", true, 27, 52, none⟩ []

def secondFragment : Tree := .node ⟨"string_fragment", true, 60, 89, none⟩ []

def placeholder : Tree :=
  .node ⟨"template_substitution", true, 52, 60, none⟩
    [token "$\x7b" 52 54, .node ⟨"identifier", true, 54, 59, none⟩ [], token "\x7d" 59 60]

def templateNode : Tree :=
  .node ⟨"template_string", true, 26, 90, none⟩
    [token "`" 26 27, firstFragment, placeholder, secondFragment, token "`" 89 90]

def returnNode : Tree :=
  .node ⟨"return_statement", true, 19, 91, none⟩ [token "return" 19 25, templateNode, token ";" 90 91]

def bodyNode : Tree :=
  .node ⟨"statement_block", true, 15, 93, none⟩ [token "\x7b" 15 16, returnNode, token "\x7d" 92 93]

def templateFunction : Tree :=
  .node ⟨"function_declaration", true, 0, 93, none⟩
    [token "function" 0 8, .node ⟨"identifier", true, 9, 12, some "name"⟩ [],
      .node ⟨"formal_parameters", true, 12, 14, none⟩ [token "(" 12 13, token ")" 13 14], bodyNode]

def templateTree : Tree := .node ⟨"program", true, 0, 94, none⟩ [templateFunction]

/-- What stands around the two halves. -/
def aroundFragments : List Tree := [templateNode, returnNode, bodyNode, templateFunction, templateTree]

theorem effectiveMax_shortBlocks : shortBlocks.effectiveMax = 17 := by
  decide +kernel

theorem splits_shortBlocks (h : 17 < (c.tree.text source).length) : Splits shortBlocks source c :=
  ⟨Nat.le_of_lt (Nat.lt_of_le_of_lt (by decide) h), effectiveMax_shortBlocks ▸ h⟩

/-- The function is the one definition of the file. -/
theorem collect_template :
    collect (Language.ofPath "/w/t.js") templateTree = [⟨templateFunction, [templateTree]⟩] := by
  rw [collect_eq, definitionsOf, List.filter_eq_cons_iff]
  exact ⟨[Cursor.ofRoot templateTree],
    (Cursor.namedChildren ⟨templateFunction, [templateTree]⟩).flatMap Cursor.preorder,
    rfl, by decide +kernel, by decide +kernel, List.filter_eq_nil_iff.2 (by decide +kernel)⟩

/-- The nodes on the way to the two halves, and the halves, are too long. -/
theorem length_text_onWay : ∀ t ∈
    [templateFunction, bodyNode, returnNode, templateNode, firstFragment, secondFragment],
    17 < (t.text (.ofText templateText.toList)).length := by
  decide +kernel

/-- The other nodes beside the way are too short. -/
theorem length_text_besideWay : ∀ x ∈
    (Cursor.children ⟨templateFunction, [templateTree]⟩).eraseIdx 3 ++
      (Cursor.children ⟨bodyNode, aroundFragments.drop 3⟩).eraseIdx 1 ++
      (Cursor.children ⟨returnNode, aroundFragments.drop 2⟩).eraseIdx 1 ++
      [⟨token "`" 26 27, aroundFragments⟩] ++ [⟨placeholder, aroundFragments⟩] ++
      [⟨token "`" 89 90, aroundFragments⟩],
    (x.tree.text (.ofText templateText.toList)).length < shortBlocks.minBlock := by
  decide +kernel

/-- Of the function only the two halves of the template string are left. -/
theorem draftsOf_template : draftsOf (fun _ _ => some templateTree) shortBlocks "/w/t.js" templateText =
    leafDrafts shortBlocks (.ofText templateText.toList) ⟨firstFragment, aroundFragments⟩ ++
      leafDrafts shortBlocks (.ofText templateText.toList) ⟨secondFragment, aroundFragments⟩ := by
  have hlong := length_text_onWay
  simp only [List.forall_mem_cons] at hlong
  obtain ⟨hfunction, hbody, hreturn, htemplate, hfirst, hsecond, -⟩ := hlong
  have hshort := length_text_besideWay
  simp only [List.forall_mem_append] at hshort
  obtain ⟨⟨⟨⟨⟨hsignature, hbraces⟩, hreturns⟩, hopen⟩, hplaceholder⟩, hclose⟩ := hshort
  have hqueue : Cursor.children ⟨templateNode, aroundFragments.drop 1⟩ =
      [⟨token "`" 26 27, aroundFragments⟩] ++ ⟨firstFragment, aroundFragments⟩ ::
        ([⟨placeholder, aroundFragments⟩] ++ ⟨secondFragment, aroundFragments⟩ ::
          ([⟨token "`" 89 90, aroundFragments⟩] ++ [])) := rfl
  rw [draftsOf_eq (by decide +kernel) rfl, grammarDrafts, collect_template, if_neg (by decide),
    visit_of_only_child (x := ⟨bodyNode, aroundFragments.drop 3⟩) (splits_shortBlocks hfunction) rfl hsignature,
    visit_of_only_child (x := ⟨returnNode, aroundFragments.drop 2⟩) (splits_shortBlocks hbody) rfl hbraces,
    visit_of_only_child (x := ⟨templateNode, aroundFragments.drop 1⟩) (splits_shortBlocks hreturn) rfl hreturns,
    visit_of_splits (c := ⟨templateNode, aroundFragments.drop 1⟩) (splits_shortBlocks htemplate)
      (List.cons_ne_nil _ _),
    List.nil_append, hqueue,
    visit_append_of_short hopen, visit_of_leaf (splits_shortBlocks hfirst) rfl,
    visit_append_of_short hplaceholder, visit_of_leaf (splits_shortBlocks hsecond) rfl,
    visit_append_of_short hclose, visit, List.append_nil]

/-- A draft of the template string. -/
def fragmentDraft (line : Nat) (offset : Option Nat) (content : String) : Draft where
  identifier := none
  blockType := if offset.isSome then "string_fragment_segment" else "string_fragment"
  startLine := line
  endLine := line
  offset := offset
  content := content
  chunkSource := if offset.isSome then .lineSegment else .fallback
  parentChain := [⟨"tpl", .function⟩]
  hierarchyDisplay := some "function tpl"

def firstPiece : Draft := fragmentDraft 2 (some 0) "abcdefghijklmno"

def secondPiece : Draft := fragmentDraft 2 (some 15) "PQRSTUVWXY"

def secondHalf : Draft := fragmentDraft 2 none "15-PQRSTUVWXY"

def lastLine : Draft := fragmentDraft 3 none "the second line"

theorem leafDrafts_firstFragment :
    leafDrafts shortBlocks (.ofText templateText.toList) ⟨firstFragment, aroundFragments⟩ =
      [firstPiece, secondPiece] := by
  have ⟨htext, hchain, hline⟩ :
      firstFragment.text (.ofText templateText.toList) = "abcdefghijklmnoPQRSTUVWXY".toList ∧
      parentChain (.ofText templateText.toList) ⟨firstFragment, aroundFragments⟩ = [⟨"tpl", .function⟩] ∧
      Source.lineOf (.ofText templateText.toList) firstFragment.label.start = 2 := by
    decide +kernel
  have hpieces : pieces shortBlocks.pieceWidth "abcdefghijklmnoPQRSTUVWXY".toList =
      ["abcdefghijklmno".toList, "PQRSTUVWXY".toList] := by
    decide +kernel
  rw [leafDrafts, hchain, hline, htext, lineDrafts,
    cutLines_of_overlong (by decide) (effectiveMax_shortBlocks ▸ by decide), List.flatMap_singleton, stretchDrafts,
    hpieces]
  rfl

theorem leafDrafts_secondFragment :
    leafDrafts shortBlocks (.ofText templateText.toList) ⟨secondFragment, aroundFragments⟩ =
      [secondHalf, lastLine] := by
  have ⟨htext, hchain, hline⟩ :
      secondFragment.text (.ofText templateText.toList) = "15-PQRSTUVWXY\nthe second line".toList ∧
      parentChain (.ofText templateText.toList) ⟨secondFragment, aroundFragments⟩ = [⟨"tpl", .function⟩] ∧
      Source.lineOf (.ofText templateText.toList) secondFragment.label.start = 2 := by
    decide +kernel
  have hlines : linesOf "15-PQRSTUVWXY\nthe second line".toList =
      [⟨"15-PQRSTUVWXY".toList, 14⟩, ⟨"the second line".toList, 15⟩] := by
    decide +kernel
  rw [leafDrafts, hchain, hline, htext, lineDrafts, hlines,
    cutLines_pair (effectiveMax_shortBlocks ▸ by decide) (effectiveMax_shortBlocks ▸ by decide) (by decide)
      (effectiveMax_shortBlocks ▸ by decide)]
  rfl

/-- The drafts of the file. The second half spells the second piece of the first one. -/
theorem draftsOf_template_eq : draftsOf (fun _ _ => some templateTree) shortBlocks "/w/t.js" templateText =
    [firstPiece, secondPiece, secondHalf, lastLine] := by
  rw [draftsOf_template, leafDrafts_firstFragment, leafDrafts_secondFragment]
  rfl

theorem spells_secondHalf : secondHalf.Spells secondPiece :=
  ⟨rfl, rfl, rfl, 15, rfl, by decide +kernel⟩

theorem collisionless_pieces : Collisionless "/w/t.js" [secondPiece, firstPiece] :=
  @collisionless_of_nodup "/w/t.js" "hash" _ (by decide +kernel)

theorem collisionless_secondHalf : Collisionless "/w/t.js" [secondHalf, firstPiece, secondPiece] := by
  have hkey : secondHalf.key "/w/t.js" = secondPiece.key "/w/t.js" :=
    Draft.key_eq_iff.2 (Or.inr (Or.inl spells_secondHalf))
  have hpieces : Collisionless "/w/t.js" [firstPiece, secondPiece] := fun d hd e he =>
    collisionless_pieces d (List.mem_pair.2 (List.mem_pair.1 hd).symm) e (List.mem_pair.2 (List.mem_pair.1 he).symm)
  exact hpieces.cons_of_key_eq (List.mem_cons_of_mem _ List.mem_cons_self) hkey

/-- The second piece is added, since the first one has another text. -/
theorem accepts_secondPiece : (Sink.mk "/w/t.js" "hash" []).Accepts [firstPiece, secondPiece] secondPiece := by
  refine ⟨[firstPiece], [], rfl, Bool.eq_true_of_not_eq_false fun hrefused => ?_⟩
  obtain ⟨e, he, hkey⟩ := (push_eq_false_iff_key "hash" collisionless_pieces).1 hrefused
  obtain rfl := List.mem_singleton.1 he.mem
  rcases Draft.key_eq_iff.1 hkey with ⟨-, -, hoffset, -⟩ | ⟨-, -, hnone, -⟩ | ⟨-, -, hnone, -⟩
  · cases hoffset
  · cases hnone
  · cases hnone

/-- The second half is refused since it spells the second piece. -/
theorem push_refuses_iff_secondHalf : Collisionless "/w/t.js" [secondHalf, firstPiece, secondPiece] ∧
    (∃ e, (Sink.mk "/w/t.js" "hash" []).Accepts [firstPiece, secondPiece] e ∧ secondHalf.Spells e) ∧
    (((Sink.mk "/w/t.js" "hash" []).pushAll [firstPiece, secondPiece]).push secondHalf).2 = false := by
  refine ⟨collisionless_secondHalf, ⟨secondPiece, accepts_secondPiece, spells_secondHalf⟩, ?_⟩
  exact (push_refuses_iff "/w/t.js" "hash" _ secondHalf collisionless_secondHalf).1.2
    ⟨secondPiece, accepts_secondPiece, Or.inr (Or.inl spells_secondHalf)⟩

/-- The second half is refused although no draft in front of it is the same, and no block of the file has its
text: what stands in it in front of the second piece is lost. -/
theorem refused_secondHalf :
    draftsOf (fun _ _ => some templateTree) shortBlocks "/w/t.js" templateText =
      [firstPiece, secondPiece, secondHalf, lastLine] ∧
    Collisionless "/w/t.js" [secondHalf, firstPiece, secondPiece] ∧
    (((Sink.mk "/w/t.js" "hash" []).pushAll [firstPiece, secondPiece]).push secondHalf).2 = false ∧
    (∀ e ∈ [firstPiece, secondPiece], ¬secondHalf.Repeats e) ∧
    ∀ b ∈ parse (fun _ _ => some templateTree) shortBlocks "/w/t.js" templateText "hash",
      b.content ≠ secondHalf.content := by
  have hrefused : (((Sink.mk "/w/t.js" "hash" []).pushAll [firstPiece, secondPiece]).push secondHalf).2 = false :=
    (push_eq_false_iff_key "hash" collisionless_secondHalf).2
      ⟨secondPiece, accepts_secondPiece, Draft.key_eq_iff.2 (Or.inr (Or.inl spells_secondHalf))⟩
  refine ⟨draftsOf_template_eq, collisionless_secondHalf, hrefused, ?_, fun b hb heq => ?_⟩
  · intro e he ⟨_, _, hoffset, _⟩
    rcases List.mem_pair.1 he with rfl | rfl <;> cases hoffset
  · rw [parse_eq, draftsOf_template_eq] at hb
    have hb := List.mem_reverse.1 (Block.mem_of_mem_deduplicate hb)
    rcases Sink.mem_collected_pushAll_iff.1 hb with hnone | ⟨e, he, rfl⟩
    · cases hnone
    -- An added draft with this content would have to be the second half itself.
    have he : (Sink.mk "/w/t.js" "hash" []).Accepts ([firstPiece, secondPiece] ++ [secondHalf] ++ [lastLine]) e := he
    rcases Sink.accepts_concat.1 he with he | ⟨rfl, -⟩
    · rcases Sink.accepts_concat.1 he with he | ⟨-, hadded⟩
      · rcases List.mem_pair.1 he.mem with rfl | rfl
        · exact absurd heq (by decide)
        · exact absurd heq (by decide)
      · rw [hrefused] at hadded
        cases hadded
    · exact absurd heq (by decide)

end Chunk

end SourceIndex
