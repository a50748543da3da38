import SourceIndex.Json.Basic
/-!
# Records in JSON

A record is written as an object under its field names and read either from an object or from a list
of its fields in order. Reading ignores names the record does not have. A field is read in one of
three ways: `required`, which must be there; `optional`, which an object may leave out and which then
reads as absent; `defaulted`, which object and list may leave out and which then takes its default.
-/

namespace SourceIndex.Json

/-- The fields of a record as they were written: by name, or by position. -/
inductive Members where
  | named (fields : List (String × Json))
  | listed (items : List Json)

namespace Members

/-- The fields of a record of `width` fields. A list may be shorter, never longer. -/
def of? (width : Nat) : Json → Option Members
  | .obj fields => some (.named fields)
  | .arr items => if items.length ≤ width then some (.listed items) else none
  | _ => none

/-- The value written for the field at `index` under `name`. -/
def get? (m : Members) (index : Nat) (name : String) : Option Json :=
  match m with
  | .named fields => (fields.find? (·.1 == name)).map (·.2)
  | .listed items => items[index]?

/-- A field that must be written. -/
def required {α : Type} (m : Members) (index : Nat) (name : String)
    (decode : Json → Option α) : Option α :=
  (m.get? index name).bind decode

/-- Read `null` as absence. -/
def nullable {α : Type} (decode : Json → Option α) : Json → Option (Option α)
  | .null => some none
  | j => (decode j).map some

/-- A field that an object may leave out or write as `null`. -/
def optional {α : Type} (m : Members) (index : Nat) (name : String)
    (decode : Json → Option α) : Option (Option α) :=
  match m, m.get? index name with
  | _, some j => nullable decode j
  | .named _, none => some none
  | .listed _, none => none

/-- A field that may be left out and then takes the value `default`. -/
def defaulted {α : Type} (m : Members) (index : Nat) (name : String) (default : α)
    (decode : Json → Option α) : Option α :=
  match m.get? index name with
  | some j => decode j
  | none => some default

end Members

/-- One of a set of tags, written as a text or as an object whose only key is the tag and whose value
is `null`. -/
def decodeTag {α : Type} (ofName? : String → Option α) : Json → Option α
  | .str s => ofName? s
  | .obj [(s, .null)] => ofName? s
  | _ => none

/-- A list whose items all decode. -/
def decodeList {α : Type} (decode : Json → Option α) : Json → Option (List α)
  | .arr items => items.mapM decode
  | _ => none

/-- An object used as a map, whose values all decode. -/
def decodeMap {α : Type} (decode : Json → Option α) : Json → Option (List (String × α))
  | .obj fields => fields.mapM fun f => (decode f.2).map fun v => (f.1, v)
  | _ => none

/-- A machine integer below `2 ^ bits`. -/
def decodeWord (bits : Nat) : Json → Option Nat
  | .int n => if 0 ≤ n && n.toNat < Nat.pow 2 bits then some n.toNat else none
  | _ => none

/-- Any number as a double. -/
def decodeFloat : Json → Option Float
  | .int n => some (Float.ofInt n)
  | .float x => some x
  | _ => none

/-- Any number as a single. An integer is rounded once, any other number through a double. -/
def decodeFloat32 : Json → Option Float32
  | .int n => some (if n < 0 then (Int64.ofInt n).toFloat32 else (UInt64.ofNat n.toNat).toFloat32)
  | .float x => some x.toFloat32
  | _ => none

end SourceIndex.Json
