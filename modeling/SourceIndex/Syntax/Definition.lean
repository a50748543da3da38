import SourceIndex.Language
import SourceIndex.Syntax.Source
/-!
# Definitions and containers

Which nodes of a tree are definitions worth a block of their own, which ones can enclose other
definitions, and what a node is called.

`collect` gathers the definitions with a stack of nodes still to be visited; `Cursor.preorder`
filtered by `isDefinition` is the same list said by recursion.
-/

namespace SourceIndex.Syntax

/-- Normalized kind of an enclosing container. -/
inductive ContainerType where
  | classDef
  | interfaceDef
  | namespaceDef
  | moduleDef
  | function
  | method
  | object
  | property
deriving DecidableEq, Repr

namespace ContainerType

def all : List ContainerType :=
  [.classDef, .interfaceDef, .namespaceDef, .moduleDef, .function, .method, .object, .property]

def name : ContainerType → String
  | .classDef => "class"
  | .interfaceDef => "interface"
  | .namespaceDef => "namespace"
  | .moduleDef => "module"
  | .function => "function"
  | .method => "method"
  | .object => "object"
  | .property => "property"

def ofName? (s : String) : Option ContainerType :=
  all.find? fun t => t.name == s

end ContainerType

/-! ## Definitions -/

/-- Node kinds that are definitions in a language. -/
def definitionKinds : Language → List String
  | .rust =>
    ["function_item", "function_signature_item", "struct_item", "enum_item", "union_item",
     "trait_item", "impl_item", "mod_item", "macro_definition", "const_item", "static_item",
     "type_item"]
  | .python => ["function_definition", "class_definition", "decorated_definition"]
  | .javaScript =>
    ["function_declaration", "generator_function_declaration", "class_declaration",
     "method_definition", "field_definition", "variable_declarator", "pair"]
  | .typeScript | .tsx =>
    ["function_declaration", "generator_function_declaration", "function_signature",
     "class_declaration", "abstract_class_declaration", "method_definition",
     "abstract_method_signature", "public_field_definition", "interface_declaration",
     "type_alias_declaration", "enum_declaration", "internal_module", "module",
     "variable_declarator", "pair"]
  | _ => []

/-- Kinds of values that make a declared variable a definition. -/
def declaratorValues : List String :=
  ["arrow_function", "function_expression", "function", "generator_function", "class", "object"]

/-- Kinds of nodes that can name the node they are a child of. -/
def identifierKinds : List String :=
  ["identifier", "type_identifier", "property_identifier", "field_identifier", "constant"]

/-- Whether a node is a definition. A declared variable is one only with a function, a class or an
object as its value, and a module only below the root. -/
def isDefinition (language : Language) (c : Cursor) : Bool :=
  (definitionKinds language).contains c.kind &&
    (if c.kind == "variable_declarator" then
      match c.tree.childByField? "value" with
      | some value => declaratorValues.contains value.kind
      | none => false
    else if c.kind == "module" then c.hasParent
    else true)

/-- The definitions among the nodes of `stack` and below them; the top of the stack comes first. -/
def collectFrom (language : Language) (stack : List Cursor) : List Cursor :=
  match stack with
  | [] => []
  | c :: rest =>
    let found := collectFrom language (c.namedChildren ++ rest)
    if isDefinition language c then c :: found else found
termination_by Cursor.totalSize stack
decreasing_by
  rw [Cursor.totalSize_append, Cursor.totalSize_cons]
  have := Cursor.totalSize_namedChildren_lt c
  omega

/-- The definitions of a tree in document order. -/
def collect (language : Language) (root : Tree) : List Cursor :=
  collectFrom language [Cursor.ofRoot root]

/-! ## Containers -/

/-- Whether the nearest class-like or function-like ancestor is class-like. -/
def enclosedByClass : List Tree → Bool
  | [] => false
  | t :: rest =>
    if ["class_definition", "impl_item", "trait_item"].contains t.kind then true
    else if ["function_definition", "function_item", "module", "source_file",
      "mod_item"].contains t.kind then false
    else enclosedByClass rest

/-- The container type of a node that can enclose other definitions. -/
def containerType? (c : Cursor) : Option ContainerType :=
  let k := c.kind
  if ["class_declaration", "class", "abstract_class_declaration", "class_definition",
    "struct_item", "enum_item", "union_item", "impl_item", "enum_declaration"].contains k then
    some .classDef
  else if ["interface_declaration", "trait_item"].contains k then some .interfaceDef
  else if ["internal_module", "module"].contains k && c.hasParent then some .namespaceDef
  else if k == "mod_item" then some .moduleDef
  else if k == "method_definition" then some .method
  else if ["function_definition", "function_item"].contains k then
    some (if enclosedByClass c.ancestors then .method else .function)
  else if ["function_declaration", "generator_function_declaration", "arrow_function",
    "function_expression", "function", "generator_function"].contains k then some .function
  else if k == "object" then some .object
  else if ["pair", "public_field_definition", "field_definition"].contains k then some .property
  else none

/-! ## Names -/

/-- A key without the quotes around it. -/
def unquote (key : String) : String :=
  String.ofList (Text.trimWhile (fun c => c == '"' || c.toNat == 0x27 || c.toNat == 0x60) key.toList)

/-- The trimmed text of the first named child of an identifier kind. -/
def firstIdentifierChild? (source : Source) (t : Tree) : Option String :=
  (t.namedChildren.find? fun child => identifierKinds.contains child.kind).bind
    (Tree.trimmedText? source)

/-- The name an anonymous value takes from what it is assigned to. -/
def boundName? (source : Source) : List Tree → Option String
  | [] => none
  | parent :: _ =>
    if parent.kind == "pair" then (parent.fieldText? source "key").map unquote
    else if ["variable_declarator", "public_field_definition",
      "field_definition"].contains parent.kind then
      (parent.fieldText? source "name").or (parent.fieldText? source "property")
    else if parent.kind == "assignment_expression" then parent.fieldText? source "left"
    else none

/-- The name of a node. Decorators and exports are called what they wrap, implementations by trait
and type, keys without quotes; other nodes by their name, and failing that by what they are bound to
or by their first identifier. -/
def identifier? (source : Source) (ancestors : List Tree) (t : Tree) : Option String :=
  let k := t.kind
  if k == "impl_item" then
    (t.fieldText? source "type").map fun type =>
      match t.fieldText? source "trait" with
      | some trait => s!"{trait} for {type}"
      | none => type
  else if k == "pair" then (t.fieldText? source "key").map unquote
  else if k == "variable_declarator" then t.fieldText? source "name"
  else if k == "lexical_declaration" || k == "variable_declaration" then
    (t.namedChildren.find? fun child => child.kind == "variable_declarator").bind fun declarator =>
      declarator.fieldText? source "name"
  else if k == "decorated_definition" then
    match _h : t.childByField? "definition" with
    | some inner => identifier? source (t :: ancestors) inner
    | none => none
  else if k == "export_statement" then
    match _h : t.childByField? "declaration" with
    | some inner => identifier? source (t :: ancestors) inner
    | none => none
  else if ["object", "arrow_function", "function_expression", "function", "generator_function",
    "class"].contains k then
    (t.fieldText? source "name").or (boundName? source ancestors)
  else (t.fieldText? source "name").or (firstIdentifierChild? source t)
termination_by t.size
decreasing_by
  all_goals exact Tree.size_lt_of_childByField? (by assumption)

/-- The name of the node at a cursor. -/
def Cursor.identifier? (source : Source) (c : Cursor) : Option String :=
  Syntax.identifier? source c.ancestors c.tree

end SourceIndex.Syntax
