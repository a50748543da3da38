import SourceIndex.Toml.Document
/-!
# Records in TOML

A record is written as a table under its field names, or as an array of its fields in order; what is
left out keeps its default and what the record does not know is ignored. A date in the place of a
record says nothing about any field.
-/

namespace SourceIndex.Toml

/-- The value written for a field, by name or by position. -/
def member? (t : Toml) (index : Nat) (name : String) : Option Toml :=
  match t with
  | .tbl _ fields => Fields.get? fields name
  | .arr _ items => items[index]?
  | _ => none

/-- Whether a value can stand for a record. -/
def isRecord : Toml → Bool
  | .tbl .. => true
  | .arr .. => true
  | .moment => true
  | _ => false

/-- A field, with the value it has when it is left out. -/
def field {α : Type} (t : Toml) (index : Nat) (name : String) (default : α)
    (decode : Toml → Option α) : Option α :=
  match t.member? index name with
  | some v => decode v
  | none => some default

def asStr? : Toml → Option String
  | .str s => some s
  | _ => none

def asBool? : Toml → Option Bool
  | .bool b => some b
  | _ => none

/-- A natural number below a bound. -/
def asNatBelow? (bound : Nat) : Toml → Option Nat
  | .int n => if 0 ≤ n && n < bound then some n.toNat else none
  | _ => none

/-- Any number as a double. -/
def asDouble? : Toml → Option Number.Double
  | .int n => some (.ofFloat (Int64.ofInt n).toFloat)
  | .float x => some x
  | _ => none

/-- Any number as a single. -/
def asSingle? : Toml → Option Number.Single
  | .int n => some (.ofFloat32 (Int64.ofInt n).toFloat32)
  | .float x => some x.toSingle
  | _ => none

/-- A list of texts. -/
def asStrings? : Toml → Option (List String)
  | .arr _ items => items.mapM asStr?
  | _ => none

/-- One of a set of tags: a text, or the only key of a table, over an empty table or array. -/
def asTag? {α : Type} (ofName? : String → Option α) : Toml → Option α
  | .str s => ofName? s
  | .tbl _ [(s, .tbl _ [])] => ofName? s
  | .tbl _ [(s, .arr _ [])] => ofName? s
  | _ => none

end SourceIndex.Toml
