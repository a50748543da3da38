import SourceIndex.Json.Basic
/-!
# Reading JSON

`Json.parse` reads one value and refuses everything the format does not allow: raw control characters
and lone surrogates in strings, leading zeros, trailing text, numbers beyond the double range, and
nesting deeper than 127 levels. A key written twice keeps its last value.

A number that is no 64-bit integer is a significand of at most 64 bits, scaled once by a power of ten;
digits that no longer fit in the significand only shift it.
-/

namespace SourceIndex.Json

/-- What a reader leaves of its input, behind the value it found. -/
abbrev Reading (α : Type) := Option (α × List Char)

/-- Nesting depth at which a value is refused. -/
def depthLimit : Nat := 128

/-- Blanks between tokens. -/
def isSpace (c : Char) : Bool :=
  c == ' ' || c == '\n' || c == '\t' || c == '\r'

def skipSpace (s : List Char) : List Char :=
  s.dropWhile isSpace

/-! ## Numbers -/

/-- Largest significand. -/
def maxSignificand : Nat := Nat.pow 2 64 - 1

def digitValue (c : Char) : Nat :=
  c.toNat - 48

/-- Append digits to `significand` while it fits in 64 bits. Returns it, the number of digits taken,
and the rest. -/
def takeDigits (significand taken : Nat) : List Char → Nat × Nat × List Char
  | [] => (significand, taken, [])
  | c :: s =>
    if c.isDigit then
      let next := significand * 10 + digitValue c
      if next ≤ maxSignificand then takeDigits next (taken + 1) s else (significand, taken, c :: s)
    else (significand, taken, c :: s)

/-- `significand · 10 ^ exponent`, dividing or multiplying by one correctly rounded power of ten at a
time; `none` when the result overflows. -/
def scale (x : Float) (exponent : Int) : Nat → Option Float
  | 0 => some x
  | fuel + 1 =>
    if exponent.natAbs ≤ 308 then
      let p := Float.ofScientific 1 false exponent.natAbs
      let y := if exponent < 0 then x / p else x * p
      if y.isInf then none else some y
    else if x == 0 then some x
    else if 0 ≤ exponent then none
    else scale (x / 1e308) (exponent + 308) fuel

/-- The double for a sign, a significand and a decimal exponent. -/
def toDouble (negative : Bool) (significand : Nat) (exponent : Int) : Option Float :=
  (scale (Float.ofNat significand) exponent (exponent.natAbs / 308 + 2)).map fun y =>
    if negative then -y else y

/-- The exponent part behind `e`, and the finished number. -/
def readExponent (negative : Bool) (significand : Nat) (start : Int) (s : List Char) :
    Reading Json :=
  let (minus, s) := match s with
    | '+' :: r => (false, r)
    | '-' :: r => (true, r)
    | r => (false, r)
  let digits := s.takeWhile Char.isDigit
  let rest := s.dropWhile Char.isDigit
  if digits.isEmpty then none
  else
    let e := digits.foldl (fun n c => n * 10 + digitValue c) 0
    if Nat.pow 2 31 ≤ e then
      if significand != 0 && !minus then none
      else some (.float (if negative then -0.0 else 0.0), rest)
    else
      (toDouble negative significand (if minus then start - e else start + e)).map fun x =>
        (.float x, rest)

/-- The part of a number behind its significand: an exponent or nothing. -/
def finishNumber (negative : Bool) (significand : Nat) (exponent : Int) (s : List Char) :
    Reading Json :=
  match s with
  | 'e' :: r => readExponent negative significand exponent r
  | 'E' :: r => readExponent negative significand exponent r
  | r => (toDouble negative significand exponent).map fun x => (.float x, r)

/-- The places behind a decimal point. Places that no longer fit are dropped. -/
def readPlaces (negative : Bool) (significand : Nat) (shift : Nat) (s : List Char) :
    Reading Json :=
  match s with
  | [] => none
  | c :: _ =>
    if c.isDigit then
      let (significand, taken, rest) := takeDigits significand 0 s
      finishNumber negative significand ((shift : Int) - taken) (rest.dropWhile Char.isDigit)
    else none

/-- An integer as a value: minus zero is a floating-point number, and so is what lies below the
64-bit range. -/
def integerValue (negative : Bool) (significand : Nat) : Json :=
  if !negative then .int significand
  else if significand == 0 || Nat.pow 2 63 < significand then .float (-(Float.ofNat significand))
  else .int (-significand)

/-- A number behind its sign. -/
def readUnsigned (negative : Bool) (s : List Char) : Reading Json :=
  match s with
  | '0' :: '.' :: r => readPlaces negative 0 0 r
  | '0' :: c :: r =>
    if c.isDigit then none
    else if c == 'e' || c == 'E' then readExponent negative 0 0 r
    else some (integerValue negative 0, c :: r)
  | ['0'] => some (integerValue negative 0, [])
  | c :: _ =>
    if c.isDigit then
      let (significand, _, rest) := takeDigits 0 0 s
      let skipped := rest.takeWhile Char.isDigit
      match rest.dropWhile Char.isDigit with
      | '.' :: r => readPlaces negative significand skipped.length r
      | r =>
        if skipped.isEmpty && !(r.head? == some 'e' || r.head? == some 'E') then
          some (integerValue negative significand, r)
        else finishNumber negative significand skipped.length r
    else none
  | [] => none

/-! ## Strings -/

def hexValue? (c : Char) : Option Nat :=
  if c.isDigit then some (c.toNat - 48)
  else if 'a' ≤ c && c ≤ 'f' then some (c.toNat - 87)
  else if 'A' ≤ c && c ≤ 'F' then some (c.toNat - 55)
  else none

/-- Four hexadecimal digits. -/
def readUnit : List Char → Option (Nat × List Char)
  | a :: b :: c :: d :: r => do
    let a ← hexValue? a
    let b ← hexValue? b
    let c ← hexValue? c
    let d ← hexValue? d
    some (((a * 16 + b) * 16 + c) * 16 + d, r)
  | _ => none

/-- The character of an escape behind `\u`: one unit, or a high and a low surrogate. -/
def readEscapedChar (s : List Char) : Option (Char × List Char) := do
  let (unit, r) ← readUnit s
  if 0xDC00 ≤ unit && unit ≤ 0xDFFF then none
  else if 0xD800 ≤ unit && unit ≤ 0xDBFF then
    match r with
    | '\\' :: 'u' :: r => do
      let (low, r) ← readUnit r
      if 0xDC00 ≤ low && low ≤ 0xDFFF then
        some (Char.ofNat (0x10000 + (unit - 0xD800) * 0x400 + (low - 0xDC00)), r)
      else none
    | _ => none
  else some (Char.ofNat unit, r)

/-- The one-letter escapes. -/
def shortEscape? (c : Char) : Option Char :=
  match c with
  | '"' => some '"'
  | '\\' => some '\\'
  | '/' => some '/'
  | 'b' => some '\x08'
  | 'f' => some '\x0c'
  | 'n' => some '\n'
  | 'r' => some '\r'
  | 't' => some '\t'
  | _ => none

/-- The characters of a string behind its opening quote. `acc` holds those read, last first; every
round takes at least one character, so the length of the input bounds their number. -/
def readString : Nat → List Char → List Char → Reading String
  | 0, _, _ => none
  | fuel + 1, acc, s =>
    match s with
    | [] => none
    | '"' :: r => some (String.ofList acc.reverse, r)
    | '\\' :: 'u' :: r =>
      match readEscapedChar r with
      | some (c, r) => readString fuel (c :: acc) r
      | none => none
    | '\\' :: c :: r =>
      match shortEscape? c with
      | some c => readString fuel (c :: acc) r
      | none => none
    | c :: r => if c.toNat < 0x20 || c == '\\' then none else readString fuel (c :: acc) r

/-! ## Values -/

mutual

/-- One value; `depth` is how many levels may still be opened. -/
def readValue : Nat → Nat → List Char → Reading Json
  | 0, _, _ => none
  | fuel + 1, depth, s =>
    match skipSpace s with
    | 'n' :: 'u' :: 'l' :: 'l' :: r => some (.null, r)
    | 't' :: 'r' :: 'u' :: 'e' :: r => some (.bool true, r)
    | 'f' :: 'a' :: 'l' :: 's' :: 'e' :: r => some (.bool false, r)
    | '"' :: r => (readString fuel [] r).map fun (t, r) => (.str t, r)
    | '[' :: r =>
      if depth ≤ 1 then none
      else
        match skipSpace r with
        | ']' :: r => some (.arr [], r)
        | r => readItems fuel (depth - 1) [] r
    | '{' :: r =>
      if depth ≤ 1 then none
      else
        match skipSpace r with
        | '}' :: r => some (.obj [], r)
        | r => readFields fuel (depth - 1) [] r
    | '-' :: r => readUnsigned true r
    | r => readUnsigned false r

/-- Items up to the closing bracket; `acc` holds those read, last first. -/
def readItems : Nat → Nat → List Json → List Char → Reading Json
  | 0, _, _, _ => none
  | fuel + 1, depth, acc, s =>
    match readValue fuel depth s with
    | none => none
    | some (v, r) =>
      match skipSpace r with
      | ',' :: r => readItems fuel depth (v :: acc) r
      | ']' :: r => some (.arr (v :: acc).reverse, r)
      | _ => none

/-- Members up to the closing brace. -/
def readFields : Nat → Nat → List (String × Json) → List Char → Reading Json
  | 0, _, _, _ => none
  | fuel + 1, depth, acc, s =>
    match skipSpace s with
    | '"' :: r =>
      match readString fuel [] r with
      | none => none
      | some (key, r) =>
        match skipSpace r with
        | ':' :: r =>
          match readValue fuel depth r with
          | none => none
          | some (v, r) =>
            let acc := insertField acc key v
            match skipSpace r with
            | ',' :: r => readFields fuel depth acc r
            | '}' :: r => some (.obj acc, r)
            | _ => none
        | _ => none
    | _ => none

end

/-- Read a whole text as one value. -/
def parse (text : String) : Option Json :=
  let s := text.toList
  match readValue (2 * s.length + 2) depthLimit s with
  | some (v, r) => if (skipSpace r).isEmpty then some v else none
  | none => none

end SourceIndex.Json
