import Mathlib.Data.List.TakeWhile
import SourceIndex.Proofs.Chunk.Cuts
import SourceIndex.Proofs.Chunk.Places
import SourceIndex.Proofs.Chunk.Repeats
/-!
# White space that becomes blocks

Blocks are held to the limits of the policy with all of their characters, but what is embedded of a block is
its text without the white space around it. Nothing keeps a block from being white space throughout, and then
nothing is left (`Text.trim_eq_empty_iff`). A block is a stretch of the text of its file that is long enough, or
a piece of an overlong line (`part_of_mem_parse`); no other white space comes to an empty text.
-/

namespace SourceIndex

namespace Text

variable {q : Char → Bool} {chars : List Char} {s : String}

theorem trimWhile_eq_nil_iff : trimWhile q chars = [] ↔ ∀ c ∈ chars, q c = true := by
  rw [trimWhile, dropTailWhile, List.reverse_eq_nil_iff, List.dropWhile_eq_nil_iff]
  constructor
  · intro h
    -- what is left behind the dropped head would begin with a character that stays
    refine List.dropWhile_eq_nil_iff.1 (Classical.byContradiction fun hsome => ?_)
    have hstays := List.head_dropWhile_not q hsome
    rw [h _ (List.mem_reverse.2 (List.head_mem hsome))] at hstays
    cases hstays
  · intro h c hc
    exact h c ((List.dropWhile_suffix q).subset (List.mem_reverse.1 hc))

/-- Trimming leaves nothing of a text just if it is blank. -/
theorem trim_eq_empty_iff : trim s = "" ↔ isBlankText s = true := by
  rw [trim, isBlankText, List.all_eq_true, ← trimWhile_eq_nil_iff, ← String.toList_inj, String.toList_ofList]
  rfl

end Text

namespace Syntax

theorem suffix_of_mem_suffixes {text part : List Char} (h : part ∈ suffixes text) : part <:+ text := by
  induction text with
  | nil => exact List.mem_singleton.1 h ▸ List.suffix_refl []
  | cons c text ih =>
    rcases List.mem_cons.1 h with rfl | h
    · exact List.suffix_refl _
    · refine List.IsSuffix.trans ?_ (List.suffix_cons c text)
      rcases List.mem_append.1 h with h | h
      · exact (List.mem_replicate.1 h).2 ▸ List.suffix_refl text
      · exact ih h

theorem takeBytes_isPrefix (n : Nat) (text : List Char) : takeBytes n text <+: text := by
  fun_induction takeBytes n text with
  | case1 | case2 => exact List.nil_prefix
  | case3 n c text ih => exact List.cons_prefix_cons.2 ⟨rfl, ih⟩

/-- Whatever range a node has, its text is a part of the whole. -/
theorem Source.slice_isInfix (source : Source) (start stop : Nat) : source.slice start stop <:+: source.text := by
  refine (takeBytes_isPrefix _ _).isInfix.trans ?_
  rw [source.behind_eq, List.getElem?_toArray]
  cases hbehind : (suffixes source.text)[start]? with
  | none => exact List.nil_infix
  | some behind => exact (suffix_of_mem_suffixes (List.mem_of_getElem? hbehind)).isInfix

end Syntax

namespace Chunk

open Syntax

variable {trees : TreeSource} {p : ChunkPolicy} {path content fileHash : String} {source : Source}
  {setting : Setting} {text whole part : List Char} {x : Stretch} {c : Cursor} {d : Draft} {b : Block}

/-- What a block of a text may hold: as much of it as the policy asks for, or a piece of an overlong line. -/
structure Part (p : ChunkPolicy) (text part : List Char) : Prop where
  within : part <:+: text
  size : p.minBlock ≤ part.length ∨
    ∃ line, line <:+: text ∧ '\n' ∉ line ∧ p.effectiveMax ≤ line.length ∧ part ∈ pieces p.pieceWidth line

theorem Part.of_within (h : Part p text part) (hwithin : text <:+: whole) : Part p whole part where
  within := h.within.trans hwithin
  size := h.size.imp_right fun ⟨line, hline, hrest⟩ => ⟨line, hline.trans hwithin, hrest⟩

theorem part_of_mem_stretchDrafts (hx : x ∈ cutLines p 0 [] (linesOf text))
    (h : d ∈ stretchDrafts p setting x) : Part p text d.content.toList := by
  obtain ⟨front, back, htext, -⟩ := exists_front_of_mem_cutLines hx
  have hwithin : List.intercalate ['\n'] (x.lines.map (·.text)) <:+: text := ⟨front, back, htext.symm⟩
  have hfits := fits_of_mem_cutLines (Nat.zero_le _) hx
  cases x with
  | run first lines =>
    obtain ⟨-, hmin, hcontent, -⟩ := of_mem_stretchDrafts_run h
    exact ⟨hcontent ▸ hwithin, Or.inl hmin⟩
  | overlong index line =>
    obtain ⟨-, hpiece, -⟩ := of_mem_stretchDrafts_overlong h
    have hline : line ∈ linesOf text := (tiles_cutLines.sublist_of_mem hx).subset List.mem_cons_self
    have hwhole : line.text <:+: text := by simpa [Stretch.lines] using hwithin
    obtain ⟨i, hi⟩ := List.mem_iff_getElem?.1 hline
    have hcounted := length_of_getElem?_measure hi
    refine ⟨(infix_of_mem_pieces hpiece).trans hwhole, Or.inr ⟨line.text, hwhole, ?_, ?_, hpiece⟩⟩
    · exact newline_notMem_of_mem_linesOf hline
    · have hlong : p.effectiveMax < line.length := hfits
      split at hcounted <;> omega

theorem part_of_mem_lineDrafts (h : d ∈ lineDrafts p setting text) : Part p text d.content.toList := by
  obtain ⟨x, hx, hd⟩ := List.mem_flatMap.1 h
  exact part_of_mem_stretchDrafts hx hd

theorem part_of_mem_nodeDrafts (h : d ∈ nodeDrafts p source c) : Part p source.text d.content.toList := by
  have hwithin : c.tree.text source <:+: source.text := source.slice_isInfix _ _
  rcases mem_nodeDrafts.1 h with ⟨hfits, rfl⟩ | ⟨-, -, hleaf⟩
  · rw [nodeDraft, String.toList_ofList]
    exact ⟨hwithin, Or.inl hfits.1⟩
  · exact (part_of_mem_lineDrafts hleaf).of_within hwithin

/-- Whatever the syntax tree of a file says, its blocks are parts of its text. -/
theorem part_of_mem_parse (h : b ∈ parse trees p path content fileHash) :
    Part p content.toList b.content.toList := by
  obtain ⟨d, hd, rfl⟩ := exists_draft_of_mem_parse h
  rcases mem_draftsOf_cases hd with hwhole | ⟨root, c, -, -, hnode⟩
  · rw [wholeFileDrafts] at hwhole
    split at hwhole
    · cases hwhole
    · exact part_of_mem_lineDrafts hwhole
  · exact part_of_mem_nodeDrafts hnode

/-- Sixty spaces. -/
def spaces : String :=
  String.ofList (List.replicate 60 ' ')

theorem parse_spaces : (parse (fun _ _ => none) {} "/w/a.md" spaces (contentHash spaces)).map (·.content) =
    [spaces] := by
  have hmax : ChunkPolicy.effectiveMax {} = 1150 := by decide +kernel
  have hlines : linesOf spaces.toList = [⟨spaces.toList, 60⟩] := by decide +kernel
  have hdrafts := (@parse_of_grammarless (fun _ _ => none) {} "/w/a.md" spaces (contentHash spaces)
    (ofPath_note ▸ rfl)).2.1 ⟨ofPath_note ▸ rfl, by decide +kernel⟩
  have hcut : cutLines {} 0 [] (linesOf spaces.toList) = [.run 0 [⟨spaces.toList, 60⟩]] := by
    rw [hlines]
    simp [cutLines, hmax, totalLength]
  rw [parse_eq, hdrafts, lineDrafts, hcut]
  decide +kernel

end Chunk

end SourceIndex
