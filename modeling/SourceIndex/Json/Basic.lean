/-!
# JSON values

The data format of the cache file, of stored payloads and of the services' messages. Integers are
kept apart from floating-point numbers, since a line number may be written only as an integer.
-/

namespace SourceIndex

/-- A JSON value. -/
inductive Json where
  | null
  | bool (b : Bool)
  /-- An integer written without fraction or exponent that fits in 64 bits. -/
  | int (n : Int)
  /-- Any other number. -/
  | float (x : Float)
  /-- A number that is written with the digits that a single needs. No text is read as one. -/
  | single (x : Float32)
  | str (s : String)
  | arr (items : List Json)
  /-- Members in the order they were written, each key once. -/
  | obj (fields : List (String × Json))
deriving Inhabited

namespace Json

/-- The value of member `key`; `none` for a missing member and for a value that is no object. -/
def get? (j : Json) (key : String) : Option Json :=
  match j with
  | .obj fields => (fields.find? (·.1 == key)).map (·.2)
  | _ => none

/-- The value of member `key`, with a missing one read as `null`. -/
def getD (j : Json) (key : String) : Json :=
  (j.get? key).getD .null

def asStr? : Json → Option String
  | .str s => some s
  | _ => none

def asNat? : Json → Option Nat
  | .int n => if 0 ≤ n then some n.toNat else none
  | _ => none

def asArr? : Json → Option (List Json)
  | .arr items => some items
  | _ => none

def asFields? : Json → Option (List (String × Json))
  | .obj fields => some fields
  | _ => none

def asBool? : Json → Option Bool
  | .bool b => some b
  | _ => none

def isNull : Json → Bool
  | .null => true
  | _ => false

/-- Put `value` under `key`, replacing an earlier value in its place. -/
def insertField (fields : List (String × Json)) (key : String) (value : Json) :
    List (String × Json) :=
  if fields.any (·.1 == key) then fields.map fun f => if f.1 == key then (key, value) else f
  else fields ++ [(key, value)]

/-- `null` for `none`. -/
def ofOption {α : Type} (f : α → Json) : Option α → Json
  | none => .null
  | some a => f a

/-- A list of texts. -/
def ofStrings (xs : List String) : Json :=
  .arr (xs.map .str)

/-- A natural number. -/
def ofNat (n : Nat) : Json :=
  .int n

end Json

end SourceIndex
