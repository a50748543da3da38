import SourceIndex.Toml.Basic
/-!
# TOML scalars

Readers of strings, numbers and dates. Each takes its text from the front of the input and returns what
follows it, or fails.
-/

namespace SourceIndex.Toml

/-- A value and the rest of the input. -/
abbrev Reading (α : Type) := Option (α × List Char)

def isBlank (c : Char) : Bool :=
  c == ' ' || c == '\t'

def skipBlanks (s : List Char) : List Char :=
  s.dropWhile isBlank

/-- The input behind a line end; a carriage return counts only in front of a line feed. -/
def lineEnd? : List Char → Option (List Char)
  | '\n' :: r => some r
  | '\r' :: '\n' :: r => some r
  | _ => none

/-- Characters of comments, and of strings apart from quotes: all but control characters. -/
def isPlain (c : Char) : Bool :=
  c == '\t' || (0x20 ≤ c.toNat && c.toNat != 0x7F)

/-! ## Strings -/

def hexDigit? (c : Char) : Option Nat :=
  if c.isDigit then some (c.toNat - 48)
  else if 'a' ≤ c && c ≤ 'f' then some (c.toNat - 87)
  else if 'A' ≤ c && c ≤ 'F' then some (c.toNat - 55)
  else none

/-- The character with a hexadecimal code; surrogates and codes above the last plane have none. -/
def charOfHex? (digits : List Char) : Option Char := do
  let values ← digits.mapM hexDigit?
  let code := values.foldl (fun n d => n * 16 + d) 0
  if code.isValidChar then some (Char.ofNat code) else none

/-- The one-letter escapes. -/
def shortEscape? (c : Char) : Option Char :=
  match c with
  | 'b' => some '\x08'
  | 'f' => some '\x0c'
  | 'n' => some '\n'
  | 'r' => some '\r'
  | 't' => some '\t'
  | '\\' => some '\\'
  | '"' => some '"'
  | _ => none

def consChar (c : Char) (r : Reading (List Char)) : Reading (List Char) :=
  r.map fun (t, s) => (c :: t, s)

/-- The text of a one-line string behind its opening double quote. -/
def basicBody : List Char → Reading (List Char)
  | [] => none
  | '"' :: r => some ([], r)
  | '\\' :: 'u' :: a :: b :: c :: d :: r =>
    (charOfHex? [a, b, c, d]).bind fun ch => consChar ch (basicBody r)
  | '\\' :: 'U' :: a :: b :: c :: d :: e :: f :: g :: h :: r =>
    (charOfHex? [a, b, c, d, e, f, g, h]).bind fun ch => consChar ch (basicBody r)
  | '\\' :: c :: r => (shortEscape? c).bind fun ch => consChar ch (basicBody r)
  | c :: r => if isPlain c && c != '\\' then consChar c (basicBody r) else none

/-- The text of a one-line string behind its opening single quote; nothing is escaped in it. -/
def literalBody : List Char → Reading (List Char)
  | [] => none
  | '\x27' :: r => some ([], r)
  | c :: r => if isPlain c then consChar c (literalBody r) else none

/-- Three quotes that close a block, with up to two more in front that belong to its text. -/
def blockEnd? (quote : Char) (s : List Char) : Reading (List Char) :=
  let run := min 5 (s.takeWhile (· == quote)).length
  if 3 ≤ run then some (List.replicate (run - 3) quote, s.drop run) else none

/-- The text of a block between triple double quotes. A backslash at the end of a line drops the line
end and all blanks and line ends behind it, which `skipping` tells. -/
def basicBlock (skipping : Bool) : List Char → Reading (List Char)
  | [] => none
  | '\r' :: '\n' :: r => if skipping then basicBlock true r else consChar '\n' (basicBlock false r)
  | '\n' :: r => if skipping then basicBlock true r else consChar '\n' (basicBlock false r)
  | '\\' :: 'u' :: a :: b :: c :: d :: r =>
    (charOfHex? [a, b, c, d]).bind fun ch => consChar ch (basicBlock false r)
  | '\\' :: 'U' :: a :: b :: c :: d :: e :: f :: g :: h :: r =>
    (charOfHex? [a, b, c, d, e, f, g, h]).bind fun ch => consChar ch (basicBlock false r)
  | '\\' :: c :: r =>
    match shortEscape? c with
    | some ch => consChar ch (basicBlock false r)
    | none => if (lineEnd? (skipBlanks (c :: r))).isSome then basicBlock true (c :: r) else none
  | c :: r =>
    if skipping && isBlank c then basicBlock true r
    else if c == '"' then
      match blockEnd? '"' (c :: r) with
      | some done => some done
      | none => consChar c (basicBlock false r)
    else if isPlain c && c != '\\' then consChar c (basicBlock false r)
    else none

/-- The text of a block between triple single quotes. -/
def literalBlock : List Char → Reading (List Char)
  | [] => none
  | '\r' :: '\n' :: r => consChar '\n' (literalBlock r)
  | '\n' :: r => consChar '\n' (literalBlock r)
  | c :: r =>
    if c == '\x27' then
      match blockEnd? '\x27' (c :: r) with
      | some done => some done
      | none => consChar c (literalBlock r)
    else if isPlain c then consChar c (literalBlock r)
    else none

/-- A line end directly behind the quotes that open a block is not part of its text. -/
def afterOpening (s : List Char) : List Char :=
  (lineEnd? s).getD s

/-- A string of any of the four kinds; none if no quote stands first. -/
def readString (s : List Char) : Reading String :=
  let body := match s with
    | '"' :: '"' :: '"' :: r => basicBlock false (afterOpening r)
    | '"' :: r => basicBody r
    | '\x27' :: '\x27' :: '\x27' :: r => literalBlock (afterOpening r)
    | '\x27' :: r => literalBody r
    | _ => none
  body.map fun (t, r) => (String.ofList t, r)

/-! ## Numbers -/

/-- Digits behind a first one; an underscore must stand between two of them. -/
def moreDigits (isDigit : Char → Bool) : List Char → Reading (List Char)
  | [] => some ([], [])
  | '_' :: c :: r => if isDigit c then consChar c (moreDigits isDigit r) else none
  | c :: r =>
    if isDigit c then consChar c (moreDigits isDigit r)
    else if c == '_' then none
    else some ([], c :: r)

/-- At least one digit. -/
def digits (isDigit : Char → Bool) : List Char → Reading (List Char)
  | [] => none
  | c :: r => if isDigit c then consChar c (moreDigits isDigit r) else none

/-- A decimal integer without sign: zero, or digits that do not begin with zero. -/
def decimalDigits : List Char → Reading (List Char)
  | '0' :: r => some (['0'], r)
  | s => digits Char.isDigit s

def digitsValue (base : Nat) (ds : List Char) : Nat :=
  ds.foldl (fun n c => n * base + (hexDigit? c).getD 0) 0

/-- An integer that fits in 64 bits with its sign. -/
def ofInt? (n : Int) : Option Toml :=
  if -9223372036854775808 ≤ n && n < 9223372036854775808 then some (.int n) else none

/-- An integer in base 2, 8 or 16 behind its mark. -/
def readBased (base : Nat) (s : List Char) : Option (Toml × List Char) := do
  let isDigit (c : Char) : Bool := match hexDigit? c with
    | some d => d < base
    | none => false
  let (ds, r) ← digits isDigit s
  let v ← ofInt? (digitsValue base ds)
  some (v, r)

/-- The double nearest to `significand · 10 ^ exponent`. Far outside the range of doubles the result
is infinite or zero whatever the digits are. -/
def nearestDouble (significand : List Char) (exponent : Int) : Float :=
  let m := digitsValue 10 significand
  let top := exponent + (toString m).length
  if m == 0 || top < -330 then 0.0
  else if 310 < top then 1.0 / 0.0
  else Float.ofScientific m (exponent < 0) exponent.natAbs

/-- The exponent of a number, if one is written. -/
def readExponent (s : List Char) : Reading Int :=
  let behind (r : List Char) : Reading Int :=
    let (negative, r) := match r with
      | '-' :: r => (true, r)
      | '+' :: r => (false, r)
      | r => (false, r)
    (digits Char.isDigit r).map fun (ds, r) =>
      let e : Int := digitsValue 10 ds
      (if negative then -e else e, r)
  match s with
  | 'e' :: r => behind r
  | 'E' :: r => behind r
  | r => some (0, r)

/-- A decimal number with fraction or exponent, given its sign and integral digits. A number too large
for a double is refused unless it is negative. -/
def readFloat (negative : Bool) (whole : List Char) (s : List Char) :
    Option (Toml × List Char) := do
  let (places, r) ← match s with
    | '.' :: r => digits Char.isDigit r
    | r => some ([], r)
  let (e, r) ← readExponent r
  let x := nearestDouble (whole ++ places) (e - places.length)
  if negative then some (.float (.ofFloat (-x)), r)
  else if x.isInf then none
  else some (.float (.ofFloat x), r)

/-- A number behind its sign. -/
def readUnsigned (negative : Bool) (s : List Char) : Option (Toml × List Char) :=
  match s with
  | 'i' :: 'n' :: 'f' :: r =>
    let x : Float := 1.0 / 0.0
    some (.float (.ofFloat (if negative then -x else x)), r)
  | 'n' :: 'a' :: 'n' :: r => some (.float (.nan negative), r)
  | s => do
    let (whole, r) ← decimalDigits s
    match r.head? with
    | some c =>
      if c == '.' || c == 'e' || c == 'E' then readFloat negative whole r
      else
        let n : Int := digitsValue 10 whole
        (ofInt? (if negative then -n else n)).map fun v => (v, r)
    | none =>
      let n : Int := digitsValue 10 whole
      (ofInt? (if negative then -n else n)).map fun v => (v, r)

/-- An integer or a floating-point number. -/
def readNumber : List Char → Reading Toml
  | '0' :: 'x' :: r => readBased 16 r
  | '0' :: 'o' :: r => readBased 8 r
  | '0' :: 'b' :: r => readBased 2 r
  | '+' :: r => readUnsigned false r
  | '-' :: r => readUnsigned true r
  | r => readUnsigned false r

/-! ## Dates and times -/

/-- Two digits whose value lies between two bounds. -/
def twoDigits? (low high : Nat) (a b : Char) : Option Nat :=
  if a.isDigit && b.isDigit then
    let n := digitsValue 10 [a, b]
    if low ≤ n && n ≤ high then some n else none
  else none

def daysInMonth (year month : Nat) : Nat :=
  if month == 2 then
    if year % 4 == 0 && (year % 100 != 0 || year % 400 == 0) then 29 else 28
  else if [4, 6, 9, 11].contains month then 30
  else 31

/-- Fraction of a second, if one is written: a point with at least one digit behind it. -/
def skipFraction : List Char → List Char
  | '.' :: c :: r => if c.isDigit then r.dropWhile Char.isDigit else '.' :: c :: r
  | r => r

/-- What follows a time of day; none if it is no valid one. -/
def readTime : List Char → Option (List Char)
  | a :: b :: ':' :: c :: d :: ':' :: e :: f :: r => do
    let _ ← twoDigits? 0 23 a b
    let _ ← twoDigits? 0 59 c d
    let _ ← twoDigits? 0 60 e f
    some (skipFraction r)
  | _ => none

/-- What follows an offset from universal time, which may be missing. -/
def skipOffset : List Char → Option (List Char)
  | 'Z' :: r => some r
  | 'z' :: r => some r
  | c :: r =>
    if c == '+' || c == '-' then
      match r with
      | a :: b :: ':' :: d :: e :: r => do
        let _ ← twoDigits? 0 23 a b
        let _ ← twoDigits? 0 59 d e
        some r
      | _ => none
    else some (c :: r)
  | [] => some []

/-- Whether an hour and a colon stand first. -/
def startsTime : List Char → Bool
  | a :: b :: ':' :: _ => (twoDigits? 0 23 a b).isSome
  | _ => false

/-- Whether a year and a hyphen stand first. -/
def startsDate : List Char → Bool
  | a :: b :: c :: d :: '-' :: _ => [a, b, c, d].all Char.isDigit
  | _ => false

/-- What follows a date, perhaps with a time of day and an offset. -/
def readDate : List Char → Option (List Char)
  | a :: b :: c :: d :: '-' :: e :: f :: '-' :: g :: h :: r => do
    let month ← twoDigits? 1 12 e f
    let _ ← twoDigits? 1 (daysInMonth (digitsValue 10 [a, b, c, d]) month) g h
    match r with
    | delimiter :: behind =>
      if (delimiter == 'T' || delimiter == 't' || delimiter == ' ') && startsTime behind then
        (readTime behind).bind skipOffset
      else some r
    | [] => some []
  | _ => none

/-- A number, a date or a time. -/
def readNumberOrMoment (s : List Char) : Reading Toml :=
  if startsDate s then (readDate s).map fun r => (.moment, r)
  else if startsTime s then (readTime s).map fun r => (.moment, r)
  else readNumber s

end SourceIndex.Toml
