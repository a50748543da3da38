import SourceIndex.Syntax.Definition
/-!
# The lines of nodes

`Tree.Proper` is what a parser promises of the ranges in a syntax tree. The lines of a node then hold the
lines of its children, and `Source.lineOf_add_count_le` says that the text of a node has no more line
breaks than its lines allow. Where also the ends of ranges stand between characters (`Tree.Aligned`), the
text of a node is exactly what stands between them, and its lines are exact (`Source.exists_slice`).
-/

namespace SourceIndex.Syntax

variable {source : Source} {text front back : List Char} {start stop offset : Nat}

/-- A text with what stands behind its bytes. -/
def Source.ofText (text : List Char) : Source where
  text := text

/-! ## Line breaks -/

/-- Length of a text in UTF-8. -/
def byteLength : List Char → Nat
  | [] => 0
  | c :: text => c.utf8Size + byteLength text

/-- A byte offset at which a character begins, or the end of the text. -/
def Source.IsBoundary (source : Source) (offset : Nat) : Prop :=
  ∃ front back, source.text = front ++ back ∧ byteLength front = offset

theorem lineBreaksBefore_of_le (h : stop ≤ offset) : lineBreaksBefore stop offset text = 0 := by
  cases text with
  | nil => rfl
  | cons c text => exact if_pos h

theorem lineBreaksBefore_mono (h : start ≤ stop) :
    lineBreaksBefore start offset text ≤ lineBreaksBefore stop offset text := by
  induction text generalizing offset with
  | nil => exact Nat.le_refl 0
  | cons c text ih =>
    by_cases hstart : start ≤ offset
    · rw [lineBreaksBefore_of_le hstart]
      exact Nat.zero_le _
    · have hstop : ¬stop ≤ offset := fun hle => hstart (Nat.le_trans h hle)
      rw [lineBreaksBefore, if_neg hstart, lineBreaksBefore, if_neg hstop]
      exact Nat.add_le_add_left ih _

/-- All breaks of a text that ends in front of an offset count. -/
theorem lineBreaksBefore_append (h : offset + byteLength front ≤ stop) :
    lineBreaksBefore stop offset (front ++ back) =
      front.count '\n' + lineBreaksBefore stop (offset + byteLength front) back := by
  induction front generalizing offset with
  | nil => simp [byteLength]
  | cons c front ih =>
    have hsize := Char.utf8Size_pos c
    rw [byteLength, ← Nat.add_assoc] at h
    have hstop : ¬stop ≤ offset := by omega
    rw [List.cons_append, lineBreaksBefore, if_neg hstop, ih h, List.count_cons, byteLength,
      Nat.add_assoc offset]
    omega

/-- A text of so many bytes has no more breaks than stand in front of its end. -/
theorem count_takeBytes_le (offset n : Nat) (text : List Char) :
    (takeBytes n text).count '\n' ≤ lineBreaksBefore (offset + n) offset text := by
  induction text generalizing n offset with
  | nil => simp [takeBytes]
  | cons c text ih =>
    cases n with
    | zero => simp [takeBytes]
    | succ n =>
      have hstop : ¬offset + (n + 1) ≤ offset := by omega
      rw [takeBytes, List.count_cons, lineBreaksBefore, if_neg hstop, Nat.add_comm]
      refine Nat.add_le_add_left ?_ _
      by_cases hfits : c.utf8Size ≤ n + 1
      · have := ih (offset + c.utf8Size) (n + 1 - c.utf8Size)
        rwa [Nat.add_assoc, Nat.add_sub_cancel' hfits] at this
      · rw [Nat.sub_eq_zero_of_le (Nat.le_of_not_le hfits)]
        have hnone : takeBytes 0 text = [] := by cases text <;> rfl
        rw [hnone]
        exact Nat.zero_le _

theorem byteLength_append : byteLength (front ++ back) = byteLength front + byteLength back := by
  induction front with
  | nil => simp [byteLength]
  | cons c front ih => rw [List.cons_append, byteLength, byteLength, ih, Nat.add_assoc]

theorem byteLength_eq_zero (h : byteLength text = 0) : text = [] := by
  cases text with
  | nil => rfl
  | cons c text =>
    have hsize := Char.utf8Size_pos c
    rw [byteLength] at h
    omega

/-- A text is taken by its number of bytes. -/
theorem takeBytes_append : takeBytes (byteLength front) (front ++ back) = front := by
  induction front with
  | nil => cases back <;> rfl
  | cons c front ih =>
    obtain ⟨n, hn⟩ : ∃ n, byteLength (c :: front) = n + 1 :=
      Nat.exists_eq_succ_of_ne_zero fun h => List.cons_ne_nil c front (byteLength_eq_zero h)
    rw [hn, List.cons_append, takeBytes, ← hn, byteLength, Nat.add_sub_cancel_left, ih]

/-- What stands behind a byte offset at which a character begins. -/
theorem suffixes_append : (suffixes (front ++ back))[byteLength front]? = some back := by
  induction front with
  | nil => cases back <;> rfl
  | cons c front ih =>
    have hsize : c.utf8Size = c.utf8Size - 1 + 1 := (Nat.sub_add_cancel (Char.utf8Size_pos c)).symm
    rw [List.cons_append, suffixes, byteLength, hsize, Nat.add_right_comm, List.getElem?_cons_succ,
      List.getElem?_append_right (by simp), List.length_replicate, Nat.add_sub_cancel,
      Nat.add_sub_cancel_left]
    exact ih

namespace Source

/-- The line of a boundary is told by the breaks in front of it. -/
theorem lineOf_byteLength (htext : source.text = front ++ back) :
    source.lineOf (byteLength front) = front.count '\n' + 1 := by
  rw [lineOf, htext, lineBreaksBefore_append (Nat.le_of_eq (Nat.zero_add _)), Nat.zero_add,
    lineBreaksBefore_of_le (Nat.le_refl _), Nat.add_zero]

/-- What stands behind the byte at which a part of the text begins. -/
theorem behind_byteLength (htext : source.text = front ++ back) :
    source.behind[byteLength front]?.getD [] = back := by
  rw [source.behind_eq, htext, List.getElem?_toArray, suffixes_append, Option.getD_some]

theorem lineOf_mono (h : start ≤ stop) : source.lineOf start ≤ source.lineOf stop :=
  Nat.succ_le_succ (lineBreaksBefore_mono h)

/-- The text of a range has no more breaks than there are lines from its begin to its end. -/
theorem lineOf_add_count_le (boundary : source.IsBoundary start) (h : start ≤ stop) :
    source.lineOf start + (source.slice start stop).count '\n' ≤ source.lineOf stop := by
  obtain ⟨front, back, htext, rfl⟩ := boundary
  have hbreaks (offset : Nat) (hle : byteLength front ≤ offset) :
      lineBreaksBefore offset 0 source.text =
        front.count '\n' + lineBreaksBefore offset (byteLength front) back := by
    rw [htext, lineBreaksBefore_append (by rwa [Nat.zero_add]), Nat.zero_add]
  have hcount := count_takeBytes_le (byteLength front) (stop - byteLength front) back
  rw [Nat.add_sub_cancel' h] at hcount
  rw [slice, behind_byteLength htext, lineOf, lineOf, hbreaks _ (Nat.le_refl _), hbreaks _ h,
    lineBreaksBefore_of_le (Nat.le_refl _)]
  omega

/-- Two boundaries cut the text in three, and the middle part is the text of their range. -/
theorem exists_slice (hstart : source.IsBoundary start) (hstop : source.IsBoundary stop)
    (h : start ≤ stop) : ∃ front back, source.text = front ++ source.slice start stop ++ back ∧
      source.lineOf start = front.count '\n' + 1 ∧
        source.lineOf stop = (front ++ source.slice start stop).count '\n' + 1 ∧
          takeBytes start source.text = front := by
  obtain ⟨front, rest, hfront, rfl⟩ := hstart
  obtain ⟨upTo, back, hupTo, rfl⟩ := hstop
  obtain ⟨middle, rfl⟩ : ∃ middle, upTo = front ++ middle := by
    rcases List.append_eq_append_iff.1 (hfront.symm.trans hupTo) with ⟨middle, heq, -⟩ | ⟨middle, heq, -⟩
    · exact ⟨middle, heq⟩
    · -- the second boundary is not in front of the first one, so nothing stands between them
      rw [heq, byteLength_append] at h
      have hnone : middle = [] := byteLength_eq_zero (by omega)
      exact ⟨[], by rw [heq, hnone, List.append_nil, List.append_nil]⟩
  rw [List.append_assoc] at hupTo
  have hslice : source.slice (byteLength front) (byteLength (front ++ middle)) = middle := by
    rw [slice, behind_byteLength hupTo, byteLength_append, Nat.add_sub_cancel_left, takeBytes_append]
  rw [hslice]
  refine ⟨front, back, by rw [hupTo, List.append_assoc], lineOf_byteLength hfront, ?_, ?_⟩
  · exact lineOf_byteLength (by rw [hupTo, List.append_assoc])
  · rw [hfront, takeBytes_append]

end Source

/-! ## Ranges of nodes -/

/-- The ranges of a tree are proper: each begins with a character and ends no sooner, and those of children
lie within those of their parents. -/
inductive Tree.Proper (source : Source) : Tree → Prop where
  | node {label : Label} {children : List Tree} (boundary : source.IsBoundary label.start)
      (range : label.start ≤ label.stop)
      (within : ∀ t ∈ children, label.start ≤ t.label.start ∧ t.label.stop ≤ label.stop)
      (below : ∀ t ∈ children, Proper source t) : Proper source (.node label children)

variable {language : Language} {root : Tree} {c d : Cursor} {stack : List Cursor}

namespace Tree.Proper

theorem boundary (h : root.Proper source) : source.IsBoundary root.label.start := by
  cases h with
  | node boundary range within below => exact boundary

theorem range (h : root.Proper source) : root.label.start ≤ root.label.stop := by
  cases h with
  | node boundary range within below => exact range

/-- A child has proper ranges, within the range of its parent. -/
theorem child (h : c.tree.Proper source) (hd : d ∈ c.children) :
    d.tree.Proper source ∧ c.tree.label.start ≤ d.tree.label.start ∧
      d.tree.label.stop ≤ c.tree.label.stop := by
  obtain ⟨tree, ancestors⟩ := c
  obtain ⟨t, ht, rfl⟩ := List.mem_map.1 hd
  cases h with
  | node boundary range within below => exact ⟨below t ht, within t ht⟩

end Tree.Proper

theorem Cursor.namedChildren_subset (c : Cursor) : c.namedChildren ⊆ c.children :=
  List.map_subset _ List.filter_sublist.subset

/-- A property of trees that passes to the children of a node. -/
def Tree.Hereditary (P : Tree → Prop) : Prop :=
  ∀ {t : Tree}, P t → ∀ child ∈ t.children, P child

/-- What passes to children passes to the children of a cursor. -/
theorem Tree.Hereditary.of_mem_children {P : Tree → Prop} (h : Tree.Hereditary P) (hc : P c.tree)
    (hd : d ∈ c.children) : P d.tree := by
  obtain ⟨t, ht, rfl⟩ := List.mem_map.1 hd
  exact h hc t ht

/-- What holds of the nodes to be visited and passes to children holds of the definitions found. -/
theorem Tree.Hereditary.of_mem_collectFrom {P : Tree → Prop} (h : Tree.Hereditary P)
    (hstack : ∀ s ∈ stack, P s.tree) (hc : c ∈ collectFrom language stack) : P c.tree := by
  have hnext {s : Cursor} {rest : List Cursor} (hall : ∀ t ∈ s :: rest, P t.tree) :
      ∀ t ∈ s.namedChildren ++ rest, P t.tree := by
    intro t ht
    rcases List.mem_append.1 ht with ht | ht
    · exact h.of_mem_children (hall s List.mem_cons_self) (s.namedChildren_subset ht)
    · exact hall t (List.mem_cons_of_mem s ht)
  fun_induction collectFrom language stack with
  | case1 => cases hc
  | case2 s rest found hdefinition ih =>
    rcases List.mem_cons.1 hc with rfl | hc
    · exact hstack c List.mem_cons_self
    · exact ih (hnext hstack) hc
  | case3 s rest found hother ih => exact ih (hnext hstack) hc

theorem Tree.Hereditary.of_mem_collect {P : Tree → Prop} (h : Tree.Hereditary P) (hroot : P root)
    (hc : c ∈ collect language root) : P c.tree :=
  h.of_mem_collectFrom (List.forall_mem_singleton.2 hroot) hc

/-- The definitions in a tree with proper ranges have proper ranges. -/
theorem proper_of_mem_collect (h : root.Proper source) (hc : c ∈ collect language root) :
    c.tree.Proper source := by
  refine Tree.Hereditary.of_mem_collect ?_ h hc
  intro t ht child hchild
  cases ht with
  | node boundary range within below => exact below child hchild

/-- The ranges of a tree are aligned with the characters of a text: each begins and ends at a boundary. -/
inductive Tree.Aligned (source : Source) : Tree → Prop where
  | node {label : Label} {children : List Tree} (start : source.IsBoundary label.start)
      (stop : source.IsBoundary label.stop) (range : label.start ≤ label.stop)
      (below : ∀ t ∈ children, Aligned source t) : Aligned source (.node label children)

theorem Tree.Aligned.hereditary : Tree.Hereditary (Tree.Aligned source) := by
  intro t ht child hchild
  cases ht with
  | node start stop range below => exact below child hchild

/-- The text of a node with an aligned range is the part of the source that stands on its lines. -/
theorem Tree.Aligned.exists_text {t : Tree} (h : t.Aligned source) :
    ∃ front back, source.text = front ++ t.text source ++ back ∧
      source.lineOf t.label.start = front.count '\n' + 1 ∧
        source.lineOf t.label.stop = (front ++ t.text source).count '\n' + 1 ∧
          takeBytes t.label.start source.text = front := by
  cases h with
  | node start stop range below => exact Source.exists_slice start stop range

end SourceIndex.Syntax
