import Mathlib.Data.Set.Function
import SourceIndex.Proofs.Point.Key
/-!
# When two points are the same

The text that a point's identifier is made from is read from its end: behind the last colon stand the last line
and, behind an `@`, the offset if there is one, behind the colon in front of that the first line, and all the rest
is the path, whatever characters it is made of (`pointKey_inj`). So the texts of two places are equal exactly if
the places are, up to backslashes in the paths, and the identifiers are as long as no two of the texts have one
digest (`key_and_id_eq_iff`).
-/

namespace SourceIndex

/-- Where a block stands: its file, its lines and, for a piece of an overlong line, its offset. -/
structure Place where
  path : String
  startLine : Nat
  endLine : Nat
  offset : Option Nat
deriving DecidableEq

namespace Place

/-- The text that identifies the blocks at a place. -/
def key (p : Place) : String :=
  pointKey p.path p.startLine p.endLine p.offset

/-- The identifier of the points at a place. -/
def id (p : Place) : String :=
  pointId p.path p.startLine p.endLine p.offset

/-- The same place with `/` for every backslash of its path. -/
def normalized (p : Place) : Place :=
  { p with path := Path.normalize p.path }

variable {p q : Place}

theorem id_eq (p : Place) : p.id = Digest.nameId Digest.pointNamespace p.key := rfl

theorem normalized_eq_iff : p.normalized = q.normalized ↔ Path.normalize p.path = Path.normalize q.path ∧
    p.startLine = q.startLine ∧ p.endLine = q.endLine ∧ p.offset = q.offset := by
  simp [normalized]

/-- The text of a place is made from its normalized path. -/
theorem key_eq_of_normalized_eq (h : p.normalized = q.normalized) : p.key = q.key := by
  obtain ⟨hpath, hstart, hend, hoffset⟩ := normalized_eq_iff.1 h
  simp only [key, pointKey, hpath, hstart, hend, hoffset]

theorem key_eq_iff : p.key = q.key ↔ p.normalized = q.normalized :=
  ⟨fun h => normalized_eq_iff.2 (pointKey_inj h), key_eq_of_normalized_eq⟩

/-- Two places have one text if and only if they are the same but for backslashes in their paths. Of places whose
texts have different UUIDs if they are different, two have one identifier if and only if they are the same in
this way. -/
theorem key_and_id_eq_iff : (∀ p q : Place, p.key = q.key ↔ p.normalized = q.normalized) ∧
    ∀ places : Set Place, Set.InjOn (Digest.nameId Digest.pointNamespace) (key '' places) →
      ∀ p ∈ places, ∀ q ∈ places, p.id = q.id ↔ p.normalized = q.normalized := by
  refine ⟨fun p q => key_eq_iff, fun places apart p hp q hq => ?_⟩
  rw [id_eq, id_eq, apart.eq_iff (Set.mem_image_of_mem key hp) (Set.mem_image_of_mem key hq), key_eq_iff]

/-- A block of a file whose name ends as if it had a line number. -/
def wholeLines : Place := ⟨"/w/a:1", 2, 3, none⟩

/-- A piece of a line, of a file whose name is the same but for that ending. -/
def lineOfPiece : Place := ⟨"/w/a", 1, 2, some 3⟩

/-- The same piece, with its path in another spelling. -/
def pieceSpelled : Place := ⟨"\\w\\a", 1, 2, some 3⟩

/-- The texts of the two places differ in one character only, and their identifiers are different; the other
spelling of the path makes no difference. -/
theorem key_and_id_eq_iff_pieces :
    Set.InjOn (Digest.nameId Digest.pointNamespace) (key '' {wholeLines, lineOfPiece, pieceSpelled}) ∧
      wholeLines.key = "/w/a:1:2:3" ∧ lineOfPiece.key = "/w/a:1:2@3" ∧
      wholeLines.id ≠ lineOfPiece.id ∧ lineOfPiece.id = pieceSpelled.id := by
  have hwhole : wholeLines.key = "/w/a:1:2:3" := by decide +kernel
  have hpiece : lineOfPiece.key = "/w/a:1:2@3" := by decide +kernel
  have hspelled : pieceSpelled.key = "/w/a:1:2@3" := by decide +kernel
  have hdigests : Digest.nameId Digest.pointNamespace "/w/a:1:2:3" ≠
      Digest.nameId Digest.pointNamespace "/w/a:1:2@3" := by
    decide +kernel
  have apart : Set.InjOn (Digest.nameId Digest.pointNamespace)
      (key '' {wholeLines, lineOfPiece, pieceSpelled}) := by
    rw [Set.image_insert_eq, Set.image_pair, hwhole, hpiece, hspelled, Set.pair_eq_singleton]
    rintro k (rfl | rfl) l (rfl | rfl) h
    · rfl
    · exact absurd h hdigests
    · exact absurd h.symm hdigests
    · rfl
  have hsame := key_and_id_eq_iff.2 {wholeLines, lineOfPiece, pieceSpelled} apart
  refine ⟨apart, hwhole, hpiece, ?_, ?_⟩
  · rw [ne_eq, hsame wholeLines (by simp) lineOfPiece (by simp)]
    decide +kernel
  · rw [hsame lineOfPiece (by simp) pieceSpelled (by simp)]
    decide +kernel

end Place

end SourceIndex
