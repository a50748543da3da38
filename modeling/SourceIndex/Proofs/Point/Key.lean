import SourceIndex.Point.Basic
/-!
# The names of points and blocks

`pointKey_inj`: the text that a point's identifier is made from gives back the normalized path, the lines
and the offset. Two blocks therefore share an identifier only if they agree in all of these, or if two
different names have the same UUID.

The text that a block's segment hash is made from gives back its lines (`segmentKey_lines`), though not
its offset and content: a number in front of the content may be either. Of blocks that all have an offset it
gives back the offset too (`segmentKey_offset`).
-/

namespace SourceIndex

/-- What stands in front of the last `c` of a text and what stands behind it. -/
theorem append_cons_inj_of_notMem_tail {c : Char} {x x' a a' : List Char} (ha : c ∉ a)
    (ha' : c ∉ a') (h : x ++ c :: a = x' ++ c :: a') : x = x' ∧ a = a' := by
  rcases List.append_eq_append_iff.1 h with ⟨d, hx, hd⟩ | ⟨d, hx, hd⟩
  · cases d with
    | nil => exact ⟨by simpa using hx.symm, (List.cons_inj_right c).1 hd⟩
    | cons e d =>
      injection hd with he hd
      exact absurd (hd ▸ List.mem_append_right d List.mem_cons_self) ha
  · cases d with
    | nil => exact ⟨by simpa using hx, ((List.cons_inj_right c).1 hd).symm⟩
    | cons e d =>
      injection hd with he hd
      exact absurd (hd ▸ List.mem_append_right d List.mem_cons_self) ha'

/-- What stands in front of the first `c` of a text and what stands behind it. -/
theorem append_cons_inj_of_notMem_front {c : Char} {x x' a a' : List Char} (hx : c ∉ x)
    (hx' : c ∉ x') (h : x ++ c :: a = x' ++ c :: a') : x = x' ∧ a = a' := by
  rcases List.append_eq_append_iff.1 h with ⟨d, hd, ha⟩ | ⟨d, hd, ha⟩
  · cases d with
    | nil => exact ⟨by simpa using hd.symm, (List.cons_inj_right c).1 ha⟩
    | cons e d =>
      injection ha with he ha
      exact absurd (hd ▸ he ▸ List.mem_append_right x List.mem_cons_self) hx'
  · cases d with
    | nil => exact ⟨by simpa using hd, ((List.cons_inj_right c).1 ha).symm⟩
    | cons e d =>
      injection ha with he ha
      exact absurd (hd ▸ he ▸ List.mem_append_right x' List.mem_cons_self) hx

/-- A number is written with digits only. -/
theorem not_mem_toDigits {c : Char} (hc : c.isDigit = false) (n : Nat) : c ∉ Nat.toDigits 10 n := by
  intro h
  rw [Nat.isDigit_of_mem_toDigits (by decide) (by decide) h] at hc
  cases hc

/-- Different numbers are written differently. -/
theorem toDigits_inj {m n : Nat} (h : Nat.toDigits 10 m = Nat.toDigits 10 n) : m = n := by
  rw [← @Nat.ofDigitChars_ten_toDigits m, h, Nat.ofDigitChars_ten_toDigits]

/-- What follows the last line number in the name of a point. -/
def offsetTail : Option Nat → List Char
  | some n => '@' :: Nat.toDigits 10 n
  | none => []

theorem toList_pointKey (path : String) (startLine endLine : Nat) (offset : Option Nat) :
    (pointKey path startLine endLine offset).toList =
      ((Path.normalize path).toList ++ ':' :: Nat.toDigits 10 startLine) ++
        ':' :: (Nat.toDigits 10 endLine ++ offsetTail offset) := by
  have text (s : String) : toString s = s := rfl
  have colon : ":".toList = [':'] := rfl
  have at_sign : "@".toList = ['@'] := rfl
  cases offset with
  | none => simp [pointKey, offsetTail, text, colon]
  | some n => simp [pointKey, offsetTail, text, colon, at_sign]

/-- A number and an offset behind it can be told apart. -/
theorem toDigits_append_offsetTail_inj {m n : Nat} {offset offset' : Option Nat}
    (h : Nat.toDigits 10 m ++ offsetTail offset = Nat.toDigits 10 n ++ offsetTail offset') :
    m = n ∧ offset = offset' := by
  have at_not_mem (k : Nat) : '@' ∉ Nat.toDigits 10 k := not_mem_toDigits (by decide) k
  cases offset with
  | none =>
    cases offset' with
    | none =>
      simp only [offsetTail, List.append_nil] at h
      exact ⟨toDigits_inj h, rfl⟩
    | some j =>
      simp only [offsetTail, List.append_nil] at h
      exact absurd (h ▸ List.mem_append_right _ List.mem_cons_self) (at_not_mem m)
  | some i =>
    cases offset' with
    | none =>
      simp only [offsetTail, List.append_nil] at h
      exact absurd (h.symm ▸ List.mem_append_right _ List.mem_cons_self) (at_not_mem n)
    | some j =>
      obtain ⟨hm, hi⟩ := append_cons_inj_of_notMem_tail (at_not_mem i) (at_not_mem j) h
      exact ⟨toDigits_inj hm, congrArg some (toDigits_inj hi)⟩

/-- The name of a point determines the normalized path, the lines and the offset. -/
theorem pointKey_inj {path path' : String} {startLine startLine' endLine endLine' : Nat}
    {offset offset' : Option Nat}
    (h : pointKey path startLine endLine offset = pointKey path' startLine' endLine' offset') :
    Path.normalize path = Path.normalize path' ∧ startLine = startLine' ∧ endLine = endLine' ∧
      offset = offset' := by
  have colon_not_mem (k : Nat) : ':' ∉ Nat.toDigits 10 k := not_mem_toDigits (by decide) k
  have tail_free (k : Nat) (o : Option Nat) : ':' ∉ Nat.toDigits 10 k ++ offsetTail o := by
    rw [List.mem_append]
    rintro (hk | ho)
    · exact colon_not_mem k hk
    · cases o with
      | none => cases ho
      | some n =>
        rcases List.mem_cons.1 ho with hc | hn
        · exact absurd hc (by decide)
        · exact colon_not_mem n hn
  have hlist := congrArg String.toList h
  rw [toList_pointKey, toList_pointKey] at hlist
  obtain ⟨hfront, htail⟩ :=
    append_cons_inj_of_notMem_tail (tail_free endLine offset) (tail_free endLine' offset') hlist
  obtain ⟨hpath, hstart⟩ :=
    append_cons_inj_of_notMem_tail (colon_not_mem startLine) (colon_not_mem startLine') hfront
  obtain ⟨hend, hoffset⟩ := toDigits_append_offsetTail_inj htail
  exact ⟨String.toList_inj.1 hpath, toDigits_inj hstart, hend, hoffset⟩

/-- The name of a block's point. -/
def Block.key (b : Block) : String :=
  pointKey b.filePath b.startLine b.endLine b.lineOffset

theorem Point.id_ofBlock (root : String) (b : Block) (vector : Vector32) :
    (Point.ofBlock root b vector).id = Digest.nameId Digest.pointNamespace b.key := rfl

theorem Point.filePath_ofBlock (root : String) (b : Block) (vector : Vector32) :
    (Point.ofBlock root b vector).payload.filePath = Path.relativeTo root b.filePath := rfl

/-- What stands in front of the content in a segment key: the offset, if there is one. -/
def offsetHead : Option Nat → List Char
  | some n => Nat.toDigits 10 n ++ ['-']
  | none => []

theorem toList_segmentKey (path : String) (startLine endLine : Nat) (offset : Option Nat) (content : String) :
    (segmentKey path startLine endLine offset content).toList =
      path.toList ++ '-' :: (Nat.toDigits 10 startLine ++
        '-' :: (Nat.toDigits 10 endLine ++ '-' :: (offsetHead offset ++ content.toList))) := by
  have text (s : String) : toString s = s := rfl
  have dash : "-".toList = ['-'] := rfl
  cases offset with
  | none => simp [segmentKey, offsetHead, text, dash]
  | some n => simp [segmentKey, offsetHead, text, dash]

/-- The segment key of a block of a file determines its lines, and what stands behind them. -/
theorem segmentKey_parts {path content content' : String} {startLine startLine' endLine endLine' : Nat}
    {offset offset' : Option Nat}
    (h : segmentKey path startLine endLine offset content =
      segmentKey path startLine' endLine' offset' content') :
    startLine = startLine' ∧ endLine = endLine' ∧
      offsetHead offset ++ content.toList = offsetHead offset' ++ content'.toList := by
  have dash_not_mem (k : Nat) : '-' ∉ Nat.toDigits 10 k := not_mem_toDigits (by decide) k
  have hlist := congrArg String.toList h
  rw [toList_segmentKey, toList_segmentKey, List.append_cancel_left_eq, List.cons_inj_right] at hlist
  obtain ⟨hstart, hlist⟩ :=
    append_cons_inj_of_notMem_front (dash_not_mem startLine) (dash_not_mem startLine') hlist
  obtain ⟨hend, hlist⟩ :=
    append_cons_inj_of_notMem_front (dash_not_mem endLine) (dash_not_mem endLine') hlist
  exact ⟨toDigits_inj hstart, toDigits_inj hend, hlist⟩

/-- Blocks of one file have different segment keys if their lines differ. -/
theorem segmentKey_lines {path content content' : String} {startLine startLine' endLine endLine' : Nat}
    {offset offset' : Option Nat}
    (h : segmentKey path startLine endLine offset content =
      segmentKey path startLine' endLine' offset' content') :
    startLine = startLine' ∧ endLine = endLine' := by
  obtain ⟨hstart, hend, -⟩ := segmentKey_parts h
  exact ⟨hstart, hend⟩

/-- Blocks of one file that both have an offset have different segment keys if their offsets differ. -/
theorem segmentKey_offset {path content content' : String} {startLine startLine' endLine endLine' m n : Nat}
    (h : segmentKey path startLine endLine (some m) content =
      segmentKey path startLine' endLine' (some n) content') : m = n := by
  obtain ⟨-, -, hoffset⟩ := segmentKey_parts h
  simp only [offsetHead, List.append_assoc, List.singleton_append] at hoffset
  exact toDigits_inj (append_cons_inj_of_notMem_front (not_mem_toDigits (by decide) m)
    (not_mem_toDigits (by decide) n) hoffset).1

end SourceIndex
