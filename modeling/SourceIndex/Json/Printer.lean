import SourceIndex.Json.Basic
import SourceIndex.Digest.Bytes
import SourceIndex.Number.Decimal
/-!
# Writing JSON

`Json.compact` writes a value without blanks, `Json.pretty` with one member a line and two blanks a
level. Quotes, backslashes and control characters are escaped, and nothing else is. A number that is
not finite becomes `null`.
-/

namespace SourceIndex.Json

/-- `\u` and four hexadecimal digits. -/
def unicodeEscape (n : Nat) : List Char :=
  ['\\', 'u', Digest.hexDigit (n / 4096 % 16), Digest.hexDigit (n / 256 % 16),
    Digest.hexDigit (n / 16 % 16), Digest.hexDigit (n % 16)]

/-- A character as it stands inside quotes. -/
def escapeChar (c : Char) : List Char :=
  if c == '"' then ['\\', '"']
  else if c == '\\' then ['\\', '\\']
  else if c == '\n' then ['\\', 'n']
  else if c == '\r' then ['\\', 'r']
  else if c == '\t' then ['\\', 't']
  else if c == '\x08' then ['\\', 'b']
  else if c == '\x0c' then ['\\', 'f']
  else if c.toNat < 0x20 then unicodeEscape c.toNat
  else [c]

/-- A text in quotes. -/
def quote (s : String) : String :=
  String.ofList ('"' :: s.toList.flatMap escapeChar ++ ['"'])

/-- A truth value. -/
def boolText (b : Bool) : String :=
  if b then "true" else "false"

/-- A double. -/
def floatText (x : Float) : String :=
  if x.isFinite then Number.floatText x else "null"

/-- A single. -/
def singleText (x : Float32) : String :=
  if x.isFinite then Number.float32Text x else "null"

mutual

/-- A value on one line, without blanks. -/
def compact : Json → String
  | .null => "null"
  | .bool b => boolText b
  | .int n => toString n
  | .float x => floatText x
  | .single x => singleText x
  | .str s => quote s
  | .arr items => "[" ++ ",".intercalate (compactItems items) ++ "]"
  | .obj fields => "\x7b" ++ ",".intercalate (compactFields fields) ++ "\x7d"

def compactItems : List Json → List String
  | [] => []
  | j :: js => compact j :: compactItems js

def compactFields : List (String × Json) → List String
  | [] => []
  | (k, j) :: fs => (quote k ++ ":" ++ compact j) :: compactFields fs

end

/-- A line break followed by `n` levels of blanks. -/
def lineBreak (n : Nat) : String :=
  String.ofList ('\n' :: List.replicate (2 * n) ' ')

/-- Parts on lines of their own, one level deeper than the brackets around them. -/
def bracketed (level : Nat) (opening closing : String) (parts : List String) : String :=
  if parts.isEmpty then opening ++ closing
  else
    opening ++ lineBreak (level + 1) ++ ("," ++ lineBreak (level + 1)).intercalate parts ++
      lineBreak level ++ closing

mutual

/-- A value with one item or member a line, starting at depth `level`. -/
def prettyAt (level : Nat) : Json → String
  | .arr items => bracketed level "[" "]" (prettyItems (level + 1) items)
  | .obj fields => bracketed level "\x7b" "\x7d" (prettyFields (level + 1) fields)
  | .null => "null"
  | .bool b => boolText b
  | .int n => toString n
  | .float x => floatText x
  | .single x => singleText x
  | .str s => quote s

def prettyItems (level : Nat) : List Json → List String
  | [] => []
  | j :: js => prettyAt level j :: prettyItems level js

def prettyFields (level : Nat) : List (String × Json) → List String
  | [] => []
  | (k, j) :: fs => (quote k ++ ": " ++ prettyAt level j) :: prettyFields level fs

end

/-- A value with one item or member a line. -/
def pretty (j : Json) : String :=
  prettyAt 0 j

end SourceIndex.Json
