import SourceIndex.Syntax.Definition
/-!
# The definitions of a tree

`collect` goes through a stack of nodes. What it finds is the list of the nodes that can be reached through
named children, in document order, less those that are not definitions (`collect_eq`): a node stands in front
of what is below it, and its children stand in front of what lay on the stack before (`collectFrom_eq`).
-/

namespace SourceIndex.Syntax

variable {language : Language} {root : Tree} {stack : List Cursor} {ancestors trees : List Tree}

/-- The nodes of a list of children are those of the named ones. -/
theorem Cursor.preorderAll_eq : Cursor.preorderAll ancestors trees =
    (trees.filter Tree.isNamed).flatMap (Cursor.preorderFrom ancestors) := by
  induction trees with
  | nil => rfl
  | cons t rest ih =>
    rw [preorderAll, ih]
    cases hnamed : t.isNamed <;> simp [hnamed]

/-- A node comes first, then what is below its named children. -/
theorem Cursor.preorder_eq (c : Cursor) : c.preorder = c :: c.namedChildren.flatMap preorder := by
  obtain ⟨⟨label, children⟩, ancestors⟩ := c
  rw [preorder, preorderFrom, preorderAll_eq, namedChildren, List.flatMap_map]
  rfl

/-- What a stack leads to is what its nodes lead to, from the top. -/
theorem collectFrom_eq : collectFrom language stack =
    stack.flatMap fun c => c.preorder.filter (isDefinition language) := by
  fun_induction collectFrom language stack with
  | case1 => rfl
  | case2 c rest found hdefinition ih =>
    rw [List.flatMap_cons, c.preorder_eq, List.filter_cons_of_pos hdefinition, List.filter_flatMap,
      List.cons_append, ← List.flatMap_append, ← ih]
  | case3 c rest found hother ih =>
    rw [List.flatMap_cons, c.preorder_eq, List.filter_cons_of_neg hother, List.filter_flatMap,
      ← List.flatMap_append, ← ih]

/-- The definitions of a tree, in document order. -/
def definitionsOf (language : Language) (root : Tree) : List Cursor :=
  (Cursor.ofRoot root).preorder.filter (isDefinition language)

theorem collect_eq : collect language root = definitionsOf language root := by
  rw [collect, collectFrom_eq, List.flatMap_singleton, definitionsOf]

end SourceIndex.Syntax
