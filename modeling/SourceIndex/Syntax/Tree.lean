/-!
# Syntax trees

A tree of named and anonymous nodes over a text. A node's range is given in bytes of the text's UTF-8
form, its end exclusive. A `Cursor` is a node together with its ancestors, so that one can walk up
from it.

Main definitions: `Tree.ofRows?` reads a tree from its pre-order listing, `Cursor.preorder` lists the
nodes reachable through named children in document order.
-/

namespace SourceIndex.Syntax

/-- What a grammar says about one node. `field` is the role it plays in its parent. -/
structure Label where
  kind : String
  named : Bool
  start : Nat
  stop : Nat
  field : Option String
deriving DecidableEq, Repr

/-- A node with its children, named and anonymous. -/
inductive Tree where
  | node (label : Label) (children : List Tree)

namespace Tree

def label : Tree → Label
  | node l _ => l

def children : Tree → List Tree
  | node _ cs => cs

def kind (t : Tree) : String := t.label.kind

def isNamed (t : Tree) : Bool := t.label.named

def namedChildren (t : Tree) : List Tree :=
  t.children.filter isNamed

/-- The child that plays the role `field`. -/
def childByField? (t : Tree) (field : String) : Option Tree :=
  t.children.find? fun child => child.label.field == some field

mutual

/-- Number of nodes. -/
def size : Tree → Nat
  | node _ cs => sizes cs + 1

/-- Number of nodes of a list of trees. -/
def sizes : List Tree → Nat
  | [] => 0
  | t :: ts => size t + sizes ts

end

theorem sizes_append (xs ys : List Tree) : sizes (xs ++ ys) = sizes xs + sizes ys := by
  induction xs with
  | nil => simp [sizes]
  | cons x xs ih => simp [sizes, ih]; omega

theorem size_eq (t : Tree) : t.size = sizes t.children + 1 := by
  cases t with
  | node l cs => simp [size, children]

theorem sizes_filter_le (p : Tree → Bool) (ts : List Tree) : sizes (ts.filter p) ≤ sizes ts := by
  induction ts with
  | nil => simp [sizes]
  | cons t ts ih =>
    by_cases h : p t
    · simp [h, sizes]; omega
    · simp [h, sizes]; omega

theorem size_le_sizes {t : Tree} {ts : List Tree} (h : t ∈ ts) : t.size ≤ sizes ts := by
  induction ts with
  | nil => cases h
  | cons u us ih =>
    rcases List.mem_cons.mp h with rfl | h
    · simp [sizes]
    · have := ih h
      simp only [sizes]; omega

theorem size_lt_of_childByField? {t c : Tree} {field : String}
    (h : t.childByField? field = some c) : c.size < t.size := by
  have := size_le_sizes (List.mem_of_find?_eq_some h)
  rw [size_eq t]; omega

end Tree

/-! ## Reading a listing -/

/-- One row of a pre-order listing: the depth of a node and its label. -/
structure Row where
  depth : Nat
  label : Label

/-- The trees at depth `depth` from the front of a listing, and the rows after them. -/
def forest : Nat → Nat → List Row → List Tree × List Row
  | 0, _, rows => ([], rows)
  | _, _, [] => ([], [])
  | fuel + 1, depth, row :: rows =>
    if row.depth == depth then
      let (children, rest) := forest fuel (depth + 1) rows
      let (siblings, rest) := forest fuel depth rest
      (.node row.label children :: siblings, rest)
    else ([], row :: rows)

/-- The tree of a listing that holds exactly one. -/
def Tree.ofRows? (rows : List Row) : Option Tree :=
  match forest (rows.length + 1) 0 rows with
  | ([t], []) => some t
  | _ => none

/-! ## Cursors -/

/-- A node and its ancestors, nearest first. -/
structure Cursor where
  tree : Tree
  ancestors : List Tree

namespace Cursor

def ofRoot (t : Tree) : Cursor := ⟨t, []⟩

def kind (c : Cursor) : String := c.tree.kind

/-- All children, in order. -/
def children (c : Cursor) : List Cursor :=
  c.tree.children.map fun child => ⟨child, c.tree :: c.ancestors⟩

/-- The named children, in order. -/
def namedChildren (c : Cursor) : List Cursor :=
  c.tree.namedChildren.map fun child => ⟨child, c.tree :: c.ancestors⟩

def parent? (c : Cursor) : Option Cursor :=
  match c.ancestors with
  | [] => none
  | p :: rest => some ⟨p, rest⟩

def hasParent (c : Cursor) : Bool :=
  !c.ancestors.isEmpty

/-- The proper ancestors as cursors, nearest first. -/
def chain (c : Cursor) : List Cursor :=
  go c.ancestors
where
  go : List Tree → List Cursor
    | [] => []
    | p :: rest => ⟨p, rest⟩ :: go rest

/-- Number of nodes below and at each of the cursors. -/
def totalSize (cs : List Cursor) : Nat :=
  Tree.sizes (cs.map (·.tree))

theorem totalSize_append (xs ys : List Cursor) :
    totalSize (xs ++ ys) = totalSize xs + totalSize ys := by
  simp [totalSize, Tree.sizes_append]

theorem totalSize_cons (c : Cursor) (cs : List Cursor) :
    totalSize (c :: cs) = c.tree.size + totalSize cs := by
  simp [totalSize, Tree.sizes]

theorem totalSize_children_lt (c : Cursor) : totalSize c.children < c.tree.size := by
  have : (c.children.map (·.tree)) = c.tree.children := by
    simp [children, Function.comp_def]
  rw [totalSize, this, Tree.size_eq]
  omega

theorem totalSize_namedChildren_lt (c : Cursor) : totalSize c.namedChildren < c.tree.size := by
  have h : (c.namedChildren.map (·.tree)) = c.tree.namedChildren := by
    simp [namedChildren, Function.comp_def]
  have := Tree.sizes_filter_le Tree.isNamed c.tree.children
  rw [totalSize, h, Tree.namedChildren, Tree.size_eq]
  omega

mutual

/-- The nodes reachable through named children, in document order. -/
def preorderFrom (ancestors : List Tree) : Tree → List Cursor
  | .node l cs => ⟨.node l cs, ancestors⟩ :: preorderAll (.node l cs :: ancestors) cs

/-- The same for the named ones of a list of children. -/
def preorderAll (ancestors : List Tree) : List Tree → List Cursor
  | [] => []
  | t :: ts =>
    (if t.isNamed then preorderFrom ancestors t else []) ++ preorderAll ancestors ts

end

/-- The nodes reachable from `c` through named children, in document order. -/
def preorder (c : Cursor) : List Cursor :=
  preorderFrom c.ancestors c.tree

end Cursor

end SourceIndex.Syntax
