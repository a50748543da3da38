import Mathlib.Data.List.Nodup
import Mathlib.Tactic.Choose
import SourceIndex.Proofs.Syntax.Definitions
/-!
# Going through a tree with a stack

A walk takes the last node off its stack, notes it if it is a definition, and puts the named children on the
stack, the first of them last. What lies ahead of it is the stack read from its end, each node with what is
below it (`Walk.ahead`): a step goes to the first node of this list and leaves the rest (`Walk.step_of_ahead_eq_cons`). A
walk therefore ends after as many steps as there are nodes, and has then noted the definitions among them in
their order (`Walk.steps_ahead`), which is what `collect` finds.

That no node is missed and none is met twice is said of the ways that lead to nodes and not of the nodes,
since two nodes may look the same: `Cursor.InDocumentOrder` lists the ways to all nodes of a kind from left to
right, a node before what is below it.
-/

namespace SourceIndex.Syntax

variable {language : Language} {c d : Cursor} {nodes : List Cursor} {ways : Cursor → List (List Nat)}
  {way : List Nat}

/-! ## Ways to nodes -/

/-- The node to which a way leads: each number is that of a named child. -/
def Cursor.follow? (c : Cursor) : List Nat → Option Cursor
  | [] => some c
  | i :: way => c.namedChildren[i]?.bind fun child => child.follow? way

/-- `found` holds the nodes below `c` that pass a test, each once and in document order: the ways to them are
all different, they are in lexicographic order, and every way to such a node is among them. -/
def Cursor.InDocumentOrder (c : Cursor) (p : Cursor → Bool) (found : List Cursor) : Prop :=
  ∃ ways : List (List Nat), ways.Pairwise (· < ·) ∧
    (∀ way, way ∈ ways ↔ ∃ d, c.follow? way = some d ∧ p d = true) ∧
    ways.map c.follow? = found.map some

/-- The ways that begin at one of `nodes`: the number of the node, and then a way from there. -/
def waysThrough (ways : Cursor → List (List Nat)) (nodes : List Cursor) : List (List Nat) :=
  nodes.zipIdx.flatMap fun x => (ways x.1).map (x.2 :: ·)

theorem cons_mem_waysThrough {i : Nat} :
    i :: way ∈ waysThrough ways nodes ↔ ∃ d, nodes[i]? = some d ∧ way ∈ ways d := by
  simp only [waysThrough, List.mem_flatMap, List.mem_map, Prod.exists, List.mk_mem_zipIdx_iff_getElem?]
  constructor
  · rintro ⟨d, j, hd, rest, hrest, heq⟩
    obtain ⟨rfl, rfl⟩ := List.cons.inj heq
    exact ⟨d, hd, hrest⟩
  · rintro ⟨d, hd, hway⟩
    exact ⟨d, i, hd, way, hway, rfl⟩

theorem nil_notMem_waysThrough : [] ∉ waysThrough ways nodes := by
  simp [waysThrough]

/-- Ways through nodes are in order if those from each node are. -/
theorem pairwise_waysThrough (h : ∀ d ∈ nodes, (ways d).Pairwise (· < ·)) :
    (waysThrough ways nodes).Pairwise (· < ·) := by
  have hnumbers : (nodes.zipIdx.map Prod.snd).Pairwise (· < ·) := by
    rw [List.zipIdx_map_snd]
    exact List.pairwise_lt_range'
  rw [waysThrough, List.pairwise_flatMap]
  constructor
  · rintro ⟨d, i⟩ hmem
    rw [List.pairwise_map]
    exact (h d (List.mem_of_getElem? (List.mk_mem_zipIdx_iff_getElem?.1 hmem))).imp List.cons_lt_cons_self.2
  · refine (List.pairwise_map.1 hnumbers).imp fun hlt a ha b hb => ?_
    obtain ⟨first, -, rfl⟩ := List.mem_map.1 ha
    obtain ⟨second, -, rfl⟩ := List.mem_map.1 hb
    exact List.Lex.rel hlt

theorem Cursor.size_lt_of_mem_namedChildren (h : d ∈ c.namedChildren) : d.tree.size < c.tree.size := by
  obtain ⟨t, ht, rfl⟩ := List.mem_map.1 h
  have hle := Tree.size_le_sizes (List.mem_of_mem_filter ht)
  rw [Tree.size_eq c.tree]
  exact Nat.lt_succ_of_le hle

theorem Cursor.map_waysThrough
    (h : ∀ d ∈ c.namedChildren, (ways d).map d.follow? = d.preorder.map some) :
    (waysThrough ways c.namedChildren).map c.follow? = (c.namedChildren.flatMap preorder).map some := by
  have hchild : ∀ x ∈ c.namedChildren.zipIdx,
      ((ways x.1).map (x.2 :: ·)).map c.follow? = x.1.preorder.map some := by
    rintro ⟨d, i⟩ hmem
    have hd : c.namedChildren[i]? = some d := List.mk_mem_zipIdx_iff_getElem?.1 hmem
    rw [← h d (List.mem_of_getElem? hd), List.map_map]
    refine List.map_congr_left fun way _ => ?_
    rw [Function.comp_apply, follow?, hd, Option.bind_some]
  calc (waysThrough ways c.namedChildren).map c.follow?
      = c.namedChildren.zipIdx.flatMap fun x => x.1.preorder.map some := by
        rw [waysThrough, List.map_flatMap, List.flatMap_congr hchild]
    _ = (c.namedChildren.zipIdx.map Prod.fst).flatMap fun d => d.preorder.map some := by
        rw [List.flatMap_map]
    _ = (c.namedChildren.flatMap preorder).map some := by
        rw [List.zipIdx_map_fst, List.map_flatMap]

/-- To each node that can be reached through named children leads one way, and `preorder` has the nodes in the
order of the ways. -/
theorem Cursor.exists_ways (c : Cursor) : ∃ ways : List (List Nat), ways.Pairwise (· < ·) ∧
    (∀ way, way ∈ ways ↔ (c.follow? way).isSome) ∧ ways.map c.follow? = c.preorder.map some := by
  induction hsize : c.tree.size using Nat.strongRecOn generalizing c with
  | _ size ih =>
    have hchild : ∀ d ∈ c.namedChildren, ∃ ways : List (List Nat), ways.Pairwise (· < ·) ∧
        (∀ way, way ∈ ways ↔ (d.follow? way).isSome) ∧ ways.map d.follow? = d.preorder.map some :=
      fun d hd => ih _ (hsize ▸ size_lt_of_mem_namedChildren hd) d rfl
    choose! ways hordered hcomplete hnodes using hchild
    -- the way to the node itself is empty, and each other way goes through a child
    refine ⟨[] :: waysThrough ways c.namedChildren, ?_, ?_, ?_⟩
    · refine List.pairwise_cons.2 ⟨fun way hway => ?_, pairwise_waysThrough hordered⟩
      cases way with
      | nil => exact absurd hway nil_notMem_waysThrough
      | cons i way => exact List.nil_lt_cons i way
    · rintro (_ | ⟨i, way⟩)
      · exact iff_of_true List.mem_cons_self rfl
      · rw [List.mem_cons, or_iff_right (List.cons_ne_nil i way), cons_mem_waysThrough, follow?]
        cases hd : c.namedChildren[i]? with
        | none => simp
        | some d => simp [hcomplete d (List.mem_of_getElem? hd)]
    · rw [c.preorder_eq, List.map_cons, List.map_cons, map_waysThrough hnodes]
      rfl

/-- The nodes that pass a test are found in document order. -/
theorem Cursor.inDocumentOrder_filter (c : Cursor) (p : Cursor → Bool) :
    c.InDocumentOrder p (c.preorder.filter p) := by
  obtain ⟨ways, hordered, hcomplete, hnodes⟩ := c.exists_ways
  refine ⟨ways.filter fun way => (c.follow? way).any p, hordered.filter _, fun way => ?_, ?_⟩
  · rw [List.mem_filter, hcomplete]
    cases c.follow? way <;> simp
  · calc (ways.filter fun way => (c.follow? way).any p).map c.follow?
        = (ways.map c.follow?).filter (Option.any p) := by rw [List.filter_map]; rfl
      _ = (c.preorder.filter p).map some := by rw [hnodes, List.filter_map]; rfl

/-! ## The walk -/

/-- How far a walk has come: the nodes on its stack, the next one last, and the definitions found so far. -/
structure Walk where
  stack : List Cursor
  found : List Cursor

namespace Walk

variable {w : Walk}

/-- One round of the walk. Behind an empty stack there is none. -/
def step (language : Language) (w : Walk) : Option Walk :=
  w.stack.getLast?.map fun c =>
    { stack := w.stack.dropLast ++ c.namedChildren.reverse
      found := if isDefinition language c then w.found ++ [c] else w.found }

/-- Rounds of the walk, if there are so many. -/
def steps (language : Language) : Nat → Walk → Option Walk
  | 0, w => some w
  | n + 1, w => (w.step language).bind (steps language n)

/-- The nodes that the walk has yet to visit, in the order in which it comes to them. -/
def ahead (w : Walk) : List Cursor :=
  w.stack.reverse.flatMap Cursor.preorder

/-- A step visits the first of the nodes ahead. -/
theorem step_of_ahead_eq_cons (h : w.ahead = c :: nodes) : ∃ w', w.step language = some w' ∧
    w'.ahead = nodes ∧ w'.found = w.found ++ [c].filter (isDefinition language) := by
  obtain ⟨stack, found⟩ := w
  rcases List.eq_nil_or_concat stack with rfl | ⟨rest, d, rfl⟩
  · cases h
  · rw [List.concat_eq_append] at h ⊢
    rw [ahead, List.reverse_concat, List.flatMap_cons, d.preorder_eq, List.cons_append] at h
    obtain ⟨rfl, rfl⟩ := List.cons.inj h
    refine ⟨_, by rw [step, List.getLast?_concat, Option.map_some], ?_, ?_⟩
    · rw [ahead, List.dropLast_concat, List.reverse_append, List.reverse_reverse, List.flatMap_append]
    · dsimp only
      split
      · rename_i hdefinition
        rw [List.filter_cons_of_pos hdefinition, List.filter_nil]
      · rename_i hother
        rw [List.filter_cons_of_neg hother, List.filter_nil, List.append_nil]

/-- Nothing lies ahead only of an empty stack. -/
theorem stack_eq_nil_of_ahead (h : w.ahead = []) : w.stack = [] := by
  rw [ahead, List.flatMap_eq_nil_iff] at h
  refine List.eq_nil_iff_forall_not_mem.2 fun c hc => ?_
  have hnone := h c (List.mem_reverse.2 hc)
  rw [c.preorder_eq] at hnone
  cases hnone

/-- The walk ends when it has visited the nodes ahead, and has then found the definitions among them. -/
theorem steps_ahead (w : Walk) : w.steps language w.ahead.length =
    some ⟨[], w.found ++ w.ahead.filter (isDefinition language)⟩ := by
  induction hahead : w.ahead generalizing w with
  | nil =>
    obtain ⟨stack, found⟩ := w
    obtain rfl : stack = [] := stack_eq_nil_of_ahead hahead
    rw [List.filter_nil, List.append_nil]
    rfl
  | cons c nodes ih =>
    obtain ⟨w', hstep, hrest, hfound⟩ := @step_of_ahead_eq_cons language c nodes w hahead
    rw [List.length_cons, steps, hstep, Option.bind_some, ih w' hrest, hfound, List.append_assoc,
      ← List.filter_append, List.singleton_append]

end Walk

/-- The walk from the root of a tree ends: when it has made as many steps as there are nodes that can be reached
through named children, its stack is empty and it can make no other. It has then found what `collect` gives,
which are the definitions among these nodes, each once and in document order. -/
theorem collect_inDocumentOrder (language : Language) (root : Tree) :
    (∃ last, Walk.steps language (Cursor.ofRoot root).preorder.length ⟨[Cursor.ofRoot root], []⟩ = some last ∧
        last.step language = none ∧ last.found = collect language root) ∧
      collect language root = (Cursor.ofRoot root).preorder.filter (isDefinition language) ∧
      (Cursor.ofRoot root).InDocumentOrder (isDefinition language) (collect language root) := by
  have hcollect : collect language root = (Cursor.ofRoot root).preorder.filter (isDefinition language) :=
    collect_eq
  have hahead : Walk.ahead ⟨[Cursor.ofRoot root], []⟩ = (Cursor.ofRoot root).preorder := by
    rw [Walk.ahead, List.reverse_singleton, List.flatMap_singleton]
  have hsteps := @Walk.steps_ahead language ⟨[Cursor.ofRoot root], []⟩
  rw [hahead, List.nil_append, ← hcollect] at hsteps
  refine ⟨⟨_, hsteps, rfl, rfl⟩, hcollect, ?_⟩
  rw [hcollect]
  exact (Cursor.ofRoot root).inDocumentOrder_filter (isDefinition language)

end SourceIndex.Syntax
