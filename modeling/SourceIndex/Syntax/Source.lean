import SourceIndex.Syntax.Tree
import SourceIndex.Text.Blank
/-!
# Text under a syntax tree

Byte ranges of a tree are turned into characters and lines here. A `Source` is a text together with
what stands behind each of its bytes, so that the text of a range (`Source.slice`) is found without
going through all that is in front of it; `Source.lineOf` is the one-based line on which a byte
offset lies.
-/

namespace SourceIndex.Syntax

/-- What follows each byte of a text; behind a byte inside a character comes the next one. -/
def suffixes : List Char → List (List Char)
  | [] => [[]]
  | c :: text => (c :: text) :: (List.replicate (c.utf8Size - 1) text ++ suffixes text)

/-- A text and its suffixes by byte offset. -/
structure Source where
  text : List Char
  behind : Array (List Char) := (suffixes text).toArray
  behind_eq : behind = (suffixes text).toArray := by rfl

/-- The characters of a text that begin within a number of bytes. -/
def takeBytes : Nat → List Char → List Char
  | _, [] => []
  | 0, _ => []
  | n + 1, c :: text => c :: takeBytes (n + 1 - c.utf8Size) text

/-- Number of line breaks in front of a byte offset; the second argument is the offset of the text. -/
def lineBreaksBefore (stop : Nat) : Nat → List Char → Nat
  | _, [] => 0
  | offset, c :: text =>
    if stop ≤ offset then 0
    else (if c == '\n' then 1 else 0) + lineBreaksBefore stop (offset + c.utf8Size) text

namespace Source

/-- The text of a byte range. -/
def slice (source : Source) (start stop : Nat) : List Char :=
  takeBytes (stop - start) (source.behind[start]?.getD [])

/-- The one-based line on which a byte offset lies. -/
def lineOf (source : Source) (offset : Nat) : Nat :=
  lineBreaksBefore offset 0 source.text + 1

end Source

namespace Tree

/-- The text of a node. -/
def text (source : Source) (t : Tree) : List Char :=
  source.slice t.label.start t.label.stop

/-- The text of a node without surrounding white space, if any is left. -/
def trimmedText? (source : Source) (t : Tree) : Option String :=
  let s := Text.trimWhile Text.isBlank (t.text source)
  if s.isEmpty then none else some (String.ofList s)

/-- The trimmed text of the child that plays the role `field`. -/
def fieldText? (source : Source) (t : Tree) (field : String) : Option String :=
  (t.childByField? field).bind (trimmedText? source)

end Tree

end SourceIndex.Syntax
