import SourceIndex.Number.Stored
/-!
# TOML values

The format in which settings are written. A table remembers how it came about, and an array whether
it was started by a heading, because this decides what the rest of a document may still add to it.
-/

namespace SourceIndex

/-- How a table came about. -/
inductive Toml.Origin where
  /-- Written between braces; complete. -/
  | inline
  /-- Has a heading of its own. -/
  | headed
  /-- Only passed through by the heading of a table below it. -/
  | passed
  /-- Made by a dotted key. -/
  | dotted
deriving DecidableEq, Repr

/-- A TOML value. -/
inductive Toml where
  | str (s : String)
  | int (n : Int)
  | float (x : Number.Double)
  | bool (b : Bool)
  /-- A date or a time; no setting is one, so which one is not kept. -/
  | moment
  /-- `growing` for an array of tables that further headings extend. -/
  | arr (growing : Bool) (items : List Toml)
  | tbl (origin : Toml.Origin) (fields : List (String × Toml))
deriving Inhabited

namespace Toml

/-- The members of a table. -/
abbrev Fields := List (String × Toml)

/-- The value under a key. -/
def Fields.get? (fields : Fields) (key : String) : Option Toml :=
  (fields.find? (·.1 == key)).map (·.2)

/-- Put a value under a key, in the place of an earlier one. -/
def Fields.put (fields : Fields) (key : String) (value : Toml) : Fields :=
  if fields.any (·.1 == key) then fields.map fun f => if f.1 == key then (key, value) else f
  else fields ++ [(key, value)]

end Toml

end SourceIndex
