import SourceIndex.Text.Blank
/-!
# Addresses of services

Which texts are addresses: a path that begins with a slash, an authority alone, or a scheme, `://`, an
authority and perhaps a path with a query. An authority is a host, perhaps in brackets, with perhaps a
user in front and a port behind.
-/

namespace SourceIndex.Address

/-- The longest address, in bytes. -/
def maxLength : Nat := 65534

/-- The longest scheme. -/
def maxScheme : Nat := 64

def isSchemeChar (c : Char) : Bool :=
  c.isAlphanum || ['+', '-', '.', '~'].contains c

/-- Characters of an authority, apart from the percent sign. -/
def isAuthorityChar (c : Char) : Bool :=
  c.isAlphanum || "!$&'()*+,-.:;=@[]_~".toList.contains c

/-- Characters of a path. Those beyond ASCII may stand unescaped. -/
def isPathChar (c : Char) : Bool :=
  c.isAlphanum || "!\"$%&'()*+,-./:;=@[\\]^_\x7b|\x7d~".toList.contains c || 0x7f ≤ c.toNat

/-- Characters of a query. -/
def isQueryChar (c : Char) : Bool :=
  0x20 < c.toNat && ['"', '#', '<', '>'].all (· != c)

/-- What ends an authority. -/
def endsAuthority (c : Char) : Bool :=
  ['/', '?', '#'].contains c

/-- What was seen of an authority. -/
structure Seen where
  /-- Colons behind the user and behind the brackets. -/
  colons : Nat := 0
  opened : Bool := false
  closed : Bool := false
  /-- Whether there is a percent sign outside of the user and the brackets. -/
  percent : Bool := false

/-- At most this many colons may follow one another outside of the user, even in brackets. -/
def maxColons : Nat := 8

/-- Take the next character of an authority. -/
def Seen.step (s : Seen) (c : Char) : Option Seen :=
  if c == ':' then if maxColons ≤ s.colons then none else some { s with colons := s.colons + 1 }
  else if c == '[' then if s.percent || s.opened then none else some { s with opened := true }
  else if c == ']' then
    if !s.opened || s.closed then none
    else some { s with closed := true, colons := 0, percent := false }
  else if c == '@' then some { s with colons := 0, percent := false }
  else if c == '%' then some { s with percent := true }
  else if isAuthorityChar c then some s
  else none

/-- Whether a text is an authority; the empty one is. -/
def isAuthority (text : List Char) : Bool :=
  match text.foldlM Seen.step {} with
  | some s =>
    s.opened == s.closed && s.colons ≤ 1 && !s.percent && text.getLast? != some '@'
  | none => false

/-- Whether a text is a path with perhaps a query and a fragment. -/
def isPath (text : List Char) : Bool :=
  let path := text.takeWhile fun c => c != '?' && c != '#'
  let query := (text.drop path.length).takeWhile (· != '#')
  path.all isPathChar && (query.drop 1).all isQueryChar

/-- The scheme of an address, and what follows the `://` behind it. -/
def splitScheme? (text : List Char) : Option (List Char × List Char) :=
  let scheme := text.takeWhile isSchemeChar
  match text.drop scheme.length with
  | ':' :: '/' :: '/' :: rest => some (scheme, rest)
  | _ => none

/-- Whether a text is an address. -/
def isAddress (s : String) : Bool :=
  let text := s.toList
  s.utf8ByteSize ≤ maxLength &&
    match text, splitScheme? text with
    | [], _ => false
    | '/' :: _, _ => isPath text
    | _, some (scheme, rest) =>
      let authority := rest.takeWhile fun c => !endsAuthority c
      scheme.length ≤ maxScheme && !authority.isEmpty && isAuthority authority &&
        isPath (rest.drop authority.length)
    | _, none => !text.any endsAuthority && isAuthority text

end SourceIndex.Address
