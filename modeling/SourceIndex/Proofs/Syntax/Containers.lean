import Mathlib.Data.List.Destutter
import SourceIndex.Syntax.Hierarchy
/-!
# The containers around a node

`parentChain` goes outwards from a node and leaves out a container that has the name of the one kept before.
`distinctChain` leaves out only what the name was taken from: the key or field that the value just inside of it
is bound to. Of the two chains the first is the second with neighbours of one name made one,
and they agree exactly if no two neighbours have the same name (`parentChain_eq_distinctChain_iff`). Two modules
of one name, one inside the other, are a case where they do not (`parentChain_nested`).
-/

namespace SourceIndex.Syntax

/-- Containers with different names. -/
def ParentContainer.Differs (a b : ParentContainer) : Prop :=
  a.identifier ≠ b.identifier

instance : DecidableRel ParentContainer.Differs :=
  fun a b => inferInstanceAs (Decidable (a.identifier ≠ b.identifier))

/-- A node as a named container, if it is one. -/
def container? (source : Source) (c : Cursor) : Option ParentContainer :=
  match containerType? c, c.identifier? source with
  | some type, some identifier => some ⟨identifier, type⟩
  | _, _ => none

/-- The name that a value without a name of its own takes from what it is bound to. -/
def borrowedName? (source : Source) (c : Cursor) : Option String :=
  if declaratorValues.contains c.kind && (c.tree.fieldText? source "name").isNone then
    boundName? source c.ancestors
  else none

/-- The named containers of a way outwards, without those whose name was taken by the value just inside of
them. The first argument is the name that has been taken from the first node of the way. -/
def distinctFrom (source : Source) : Option String → List Cursor → List ParentContainer
  | _, [] => []
  | taken, c :: rest =>
    match container? source c with
    | some p =>
      if taken = some p.identifier then distinctFrom source none rest
      else p :: distinctFrom source (borrowedName? source c) rest
    | none => distinctFrom source none rest

/-- The named containers around a node, outermost first, without keys and fields whose value has their name. -/
def distinctChain (source : Source) (c : Cursor) : List ParentContainer :=
  (distinctFrom source none c.chain).reverse

variable {source : Source} {c : Cursor} {way : List Cursor} {kept : List ParentContainer}
  {p last : ParentContainer} {taken : Option String} {name : String}

theorem container?_eq_some_iff : container? source c = some p ↔
    containerType? c = some p.containerType ∧ c.identifier? source = some p.identifier := by
  unfold container?
  constructor
  · intro h
    split at h
    · cases h
      exact ⟨by assumption, by assumption⟩
    · cases h
  · rintro ⟨htype, hname⟩
    rw [htype, hname]

/-! ## One step outwards -/

theorem keepContainers_of_none (h : container? source c = none) :
    keepContainers source kept (c :: way) = keepContainers source kept way := by
  unfold container? at h
  rw [keepContainers]
  split
  · simp_all
  · rfl

theorem keepContainers_of_some (h : container? source c = some p) :
    keepContainers source kept (c :: way) =
      if kept.head?.any fun inner => inner.identifier == p.identifier then keepContainers source kept way
      else keepContainers source (p :: kept) way := by
  obtain ⟨htype, hname⟩ := container?_eq_some_iff.1 h
  rw [keepContainers, htype, hname]

/-- Behind a kept container follow those that are left when neighbours of one name are made one. -/
theorem keepContainers_cons (last : ParentContainer) (kept : List ParentContainer) (way : List Cursor) :
    keepContainers source (last :: kept) way =
      ((way.filterMap (container? source)).destutter' ParentContainer.Differs last).reverse ++ kept := by
  induction way generalizing last kept with
  | nil => rfl
  | cons c way ih =>
    cases hc : container? source c with
    | none => rw [keepContainers_of_none hc, List.filterMap_cons_none hc, ih]
    | some p =>
      rw [keepContainers_of_some hc, List.filterMap_cons_some hc]
      by_cases hname : last.identifier = p.identifier
      · rw [List.destutter'_cons_neg _ (not_not.2 hname), if_pos (by simp [hname]), ih]
      · rw [List.destutter'_cons_pos _ hname, if_neg (by simp [hname]), ih, List.reverse_cons,
          List.append_assoc, List.singleton_append]

/-- The containers around a node are the named ones, with neighbours of one name made one: the innermost of
them stays. -/
theorem parentChain_eq_destutter (source : Source) (c : Cursor) : parentChain source c =
    ((c.chain.filterMap (container? source)).destutter ParentContainer.Differs).reverse := by
  rw [parentChain]
  induction c.chain with
  | nil => rfl
  | cons c way ih =>
    cases hc : container? source c with
    | none => rw [keepContainers_of_none hc, List.filterMap_cons_none hc, ih]
    | some p =>
      rw [keepContainers_of_some hc, List.filterMap_cons_some hc, List.destutter_cons', if_neg (by simp),
        keepContainers_cons, List.append_nil]

/-! ## Names that were taken -/

/-- A value that has taken a name is called by it. -/
theorem identifier?_of_borrowedName? (h : borrowedName? source c = some name) :
    c.identifier? source = some name := by
  unfold borrowedName? at h
  split at h
  · rename_i hvalue
    rw [Bool.and_eq_true, Option.isNone_iff_eq_none] at hvalue
    obtain ⟨hkind, hown⟩ := hvalue
    have hkind : c.tree.kind ∈ declaratorValues := List.contains_iff_mem.1 hkind
    simp only [declaratorValues, List.mem_cons, List.not_mem_nil, or_false] at hkind
    rw [Cursor.identifier?, Syntax.identifier?]
    rcases hkind with hkind | hkind | hkind | hkind | hkind | hkind <;> simp [hkind, hown, h]
  · cases h

theorem eq_identifier_of_borrowedName? (h : borrowedName? source c = some name)
    (hc : container? source c = some p) : name = p.identifier :=
  Option.some.inj ((identifier?_of_borrowedName? h).symm.trans (container?_eq_some_iff.1 hc).2)

/-- Behind a container it makes no difference whether what has lent it its name is there. -/
theorem destutter'_distinctFrom (htaken : ∀ name, taken = some name → name = last.identifier) :
    (distinctFrom source taken way).destutter' ParentContainer.Differs last =
      (way.filterMap (container? source)).destutter' ParentContainer.Differs last := by
  induction way generalizing taken last with
  | nil => rfl
  | cons c way ih =>
    cases hc : container? source c with
    | none => rw [distinctFrom, hc, List.filterMap_cons_none hc, ih (by simp)]
    | some p =>
      rw [distinctFrom, hc, List.filterMap_cons_some hc]
      dsimp only
      have hborrowed : ∀ name, borrowedName? source c = some name → name = p.identifier :=
        fun name h => eq_identifier_of_borrowedName? h hc
      split_ifs with hlent
      · have hsame : last.identifier = p.identifier := (htaken _ hlent).symm
        rw [List.destutter'_cons_neg _ (not_not.2 hsame), ih (by simp)]
      · by_cases hname : last.identifier = p.identifier
        · rw [List.destutter'_cons_neg _ (not_not.2 hname), List.destutter'_cons_neg _ (not_not.2 hname),
            ih fun name h => (hborrowed name h).trans hname.symm]
        · rw [List.destutter'_cons_pos _ hname, List.destutter'_cons_pos _ hname, ih hborrowed]

theorem destutter_distinctFrom :
    (distinctFrom source none way).destutter ParentContainer.Differs =
      (way.filterMap (container? source)).destutter ParentContainer.Differs := by
  induction way with
  | nil => rfl
  | cons c way ih =>
    cases hc : container? source c with
    | none => rw [distinctFrom, hc, List.filterMap_cons_none hc, ih]
    | some p =>
      rw [distinctFrom, hc, List.filterMap_cons_some hc, List.destutter_cons']
      dsimp only
      rw [if_neg (by simp), List.destutter_cons',
        destutter'_distinctFrom fun name h => eq_identifier_of_borrowedName? h hc]

/-- Without values that have taken a name the distinct chain holds all the named containers. -/
theorem distinctFrom_eq_filterMap (h : ∀ x ∈ way, borrowedName? source x = none) :
    distinctFrom source none way = way.filterMap (container? source) := by
  induction way with
  | nil => rfl
  | cons c way ih =>
    have hway := ih fun x hx => h x (List.mem_cons_of_mem c hx)
    cases hc : container? source c with
    | none => rw [distinctFrom, hc, List.filterMap_cons_none hc, hway]
    | some p =>
      rw [distinctFrom, hc, List.filterMap_cons_some hc, h c List.mem_cons_self]
      dsimp only
      rw [if_neg (by simp), hway]

/-- The chain of a node is the distinct one with neighbours of one name made one, the innermost of which stays.
So the two agree exactly if no two neighbours in the distinct chain have the same name. -/
theorem parentChain_eq_distinctChain_iff (source : Source) (c : Cursor) :
    parentChain source c = ((distinctChain source c).reverse.destutter ParentContainer.Differs).reverse ∧
    (parentChain source c = distinctChain source c ↔
      (distinctChain source c).IsChain ParentContainer.Differs) ∧
    ((∀ x ∈ c.chain, borrowedName? source x = none) →
      distinctChain source c = (c.chain.filterMap (container? source)).reverse) := by
  have hchain : parentChain source c =
      ((distinctChain source c).reverse.destutter ParentContainer.Differs).reverse := by
    rw [parentChain_eq_destutter, distinctChain, List.reverse_reverse, destutter_distinctFrom]
  have hsymm (l : List ParentContainer) :
      l.reverse.IsChain ParentContainer.Differs ↔ l.IsChain ParentContainer.Differs := by
    rw [List.isChain_reverse]
    exact ⟨fun h => h.imp fun _ _ => Ne.symm, fun h => h.imp fun _ _ => Ne.symm⟩
  refine ⟨hchain, ?_, fun h => ?_⟩
  · rw [hchain, ← hsymm, ← List.destutter_eq_self_iff, ← List.reverse_inj, List.reverse_reverse]
  · rw [distinctChain, distinctFrom_eq_filterMap h]

/-! ## Modules of one name -/

/-- A module inside of a module of the same name, with a function in it. -/
def nestedSource : Source where
  text := "mod a \x7b mod a \x7b fn inner() \x7b\x7d \x7d \x7d".toList

/-- A node without children that is not named. -/
def nestedToken (kind : String) (start stop : Nat) : Tree := .node ⟨kind, false, start, stop, none⟩ []

def nestedFunction : Tree :=
  .node ⟨"function_item", true, 16, 29, none⟩
    [nestedToken "fn" 16 18, .node ⟨"identifier", true, 19, 24, some "name"⟩ [],
      .node ⟨"parameters", true, 24, 26, none⟩ [nestedToken "(" 24 25, nestedToken ")" 25 26],
      .node ⟨"block", true, 27, 29, none⟩ [nestedToken "\x7b" 27 28, nestedToken "\x7d" 28 29]]

/-- The body of a module that stands at a byte offset. -/
def nestedBody (start stop : Nat) (item : Tree) : Tree :=
  .node ⟨"declaration_list", true, start + 6, stop, none⟩
    [nestedToken "\x7b" (start + 6) (start + 7), item, nestedToken "\x7d" (stop - 1) stop]

/-- A module that stands at a byte offset and is called by one letter. -/
def nestedModule (start stop : Nat) (item : Tree) : Tree :=
  .node ⟨"mod_item", true, start, stop, none⟩
    [nestedToken "mod" start (start + 3), .node ⟨"identifier", true, start + 4, start + 5, some "name"⟩ [],
      nestedBody start stop item]

def nestedInner : Tree := nestedModule 8 31 nestedFunction

def nestedOuter : Tree := nestedModule 0 33 nestedInner

/-- The function, below the inner and the outer module. -/
def nestedCursor : Cursor :=
  ⟨nestedFunction,
    [nestedBody 8 31 nestedFunction, nestedInner, nestedBody 0 33 nestedInner, nestedOuter,
      .node ⟨"source_file", true, 0, 33, none⟩ [nestedOuter]]⟩

/-- Around the function stand two modules, neither of which has lent its name to a value, and the chain of the
function holds one of them. -/
theorem parentChain_nested :
    nestedCursor.chain.filterMap (container? nestedSource) = [⟨"a", .moduleDef⟩, ⟨"a", .moduleDef⟩] ∧
    (∀ x ∈ nestedCursor.chain, borrowedName? nestedSource x = none) ∧
    distinctChain nestedSource nestedCursor = [⟨"a", .moduleDef⟩, ⟨"a", .moduleDef⟩] ∧
    parentChain nestedSource nestedCursor = [⟨"a", .moduleDef⟩] := by
  decide +kernel

end SourceIndex.Syntax
