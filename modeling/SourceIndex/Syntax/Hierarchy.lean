import SourceIndex.Syntax.Definition
/-!
# Where a node stands

`parentChain` lists the named containers around a node, outermost first, and `display` writes such a
chain as a path like `class Repo > method load`.
-/

namespace SourceIndex.Syntax

/-- A named container around a block. -/
structure ParentContainer where
  identifier : String
  containerType : ContainerType
deriving DecidableEq, Repr

/-- Put the containers of `ancestors`, nearest first, around those of `kept`, which are outermost first.
A container with the same name as the one just inside it is left out: a key and the object behind it
have one name. -/
def keepContainers (source : Source) (kept : List ParentContainer) :
    List Cursor → List ParentContainer
  | [] => kept
  | c :: rest =>
    match containerType? c, c.identifier? source with
    | some type, some identifier =>
      if kept.head?.any fun inner => inner.identifier == identifier then
        keepContainers source kept rest
      else keepContainers source (⟨identifier, type⟩ :: kept) rest
    | _, _ => keepContainers source kept rest

/-- The named containers around a node, outermost first. -/
def parentChain (source : Source) (c : Cursor) : List ParentContainer :=
  keepContainers source [] c.chain

/-- A readable path to a block: its containers and, when it has a name, the block itself under its
container type or else its kind. `none` when nothing along the way has a name. -/
def display (chain : List ParentContainer) (selfType : Option ContainerType) (kind : String)
    (identifier : Option String) : Option String :=
  let parents := chain.map fun p => s!"{p.containerType.name} {p.identifier}"
  let self := match identifier with
    | some identifier =>
      let label := match selfType with
        | some type => type.name
        | none => kind
      [s!"{label} {identifier}"]
    | none => []
  let parts := parents ++ self
  if parts.isEmpty then none else some (" > ".intercalate parts)

end SourceIndex.Syntax
