/-!
# Glob patterns

`Glob.parse?` reads a pattern into `Token`s, `Glob.isMatch` compares it with the bytes of a whole path.
The comparison keeps, for every place of the path, whether the tokens so far can end there
(`Glob.Places`), and moves these marks on token by token (`Glob.advance`); the work is bounded by the
length of the pattern times the length of the path, however many stars there are.

A question mark stands for one byte, and a class is a set of bytes too, so a character written with
several bytes is never matched by just one of either.
-/

namespace SourceIndex

/-- What a pattern is made of. -/
inductive Glob.Token where
  | literal (c : Char)
  | any
  /-- A single star. -/
  | star
  /-- Two stars at the front: any directories, or none. -/
  | leadingDirs
  /-- A slash and two stars at the end: everything below. -/
  | everythingBelow
  /-- Two stars between slashes: any directories, or none. -/
  | innerDirs
  | oneOf (negated : Bool) (ranges : List (Char × Char))
  | alternatives (branches : List (List Glob.Token))
deriving Inhabited

namespace Glob

/-- How patterns are read and compared. -/
structure Dialect where
  /-- Whether question marks and stars stop at slashes. -/
  slashSeparates : Bool := false
  /-- Whether a bracket that is never closed stands for itself. -/
  lenientBrackets : Bool := false

/-! ## Reading patterns -/

/-- Alternatives that are still open: what stood in front of their brace, last first, and their
finished branches, last first. -/
structure Group where
  front : List Token
  branches : List (List Token)

/-- The pattern read so far: the tokens of the current branch, last first, and the open groups around
it, the innermost first. -/
structure Draft where
  tokens : List Token := []
  groups : List Group := []

def Draft.push (d : Draft) (t : Token) : Draft :=
  { d with tokens := t :: d.tokens }

/-- What is wrong with a class. -/
inductive ClassFault where
  | unclosed
  | emptyRange
deriving DecidableEq

/-- The characters of a class behind its opening bracket and negation. `dash` tells that a range has
been begun; a bracket that comes first stands for itself, and so does a dash that comes first or
last. The ranges are held last first. -/
def classRanges (first dash : Bool) (ranges : List (Char × Char)) :
    List Char → Except ClassFault (List (Char × Char) × List Char)
  | [] => .error .unclosed
  | c :: s =>
    if c == ']' && !first then
      .ok ((if dash then ('-', '-') :: ranges else ranges).reverse, s)
    else if c == '-' && !first && !dash then classRanges false true ranges s
    else if dash then
      match ranges with
      | (low, _) :: ranges =>
        if c < low then .error .emptyRange else classRanges false false ((low, c) :: ranges) s
      | [] => .error .emptyRange
    else classRanges false false ((c, c) :: ranges) s

/-- A class is negated by an exclamation mark or a caret. -/
def classNegation : List Char → Bool × List Char
  | '!' :: s => (true, s)
  | '^' :: s => (true, s)
  | s => (false, s)

/-- Two stars behind earlier tokens, with the character in front of them. They stand for directories if
a slash, or the beginning of an alternative, is in front and a slash or an end behind; a directory token
in front absorbs them. Otherwise they are two single stars. -/
def pushDoubleStar (previous : Option Char) (d : Draft) (s : List Char) :
    Draft × Option Char × List Char :=
  let plain := ((d.push .star).push .star, some '*', s)
  let inGroup := !d.groups.isEmpty
  let absorb (last : Bool) : Draft :=
    match d.tokens with
    | .leadingDirs :: _ => d
    | .everythingBelow :: _ => d
    | _ :: front => { d with tokens := (if last then .everythingBelow else .innerDirs) :: front }
    | [] => d
  if !(previous == some '/' || (inGroup && (previous == some ',' || previous == some '{'))) then plain
  else
    match s with
    | [] => (absorb true, some '*', [])
    | '/' :: r => (absorb false, some '/', r)
    | c :: r => if inGroup && (c == ',' || c == '}') then (absorb true, some '*', c :: r) else plain

/-- Two stars at the front of a pattern or an alternative. -/
def pushLeadingStars (d : Draft) (s : List Char) : Draft × Option Char × List Char :=
  match s with
  | [] => (d.push .leadingDirs, some '*', [])
  | '/' :: r => (d.push .leadingDirs, some '/', r)
  | s => ((d.push .star).push .star, some '*', s)

/-- Read the rest of a pattern; `previous` is the character in front of it and `lone` tells that an
unclosed bracket has been met, after which brackets stand for themselves. Every round takes at least
one character. -/
def readTokens (dialect : Dialect) :
    Nat → Bool → Option Char → Draft → List Char → Option (List Token)
  | 0, _, _, _, _ => none
  | fuel + 1, lone, previous, d, s =>
    match s with
    | [] => if d.groups.isEmpty then some d.tokens.reverse else none
    | '?' :: r => readTokens dialect fuel lone (some '?') (d.push .any) r
    | '*' :: '*' :: r =>
      let (d, previous, r) :=
        if d.tokens.isEmpty then pushLeadingStars d r else pushDoubleStar previous d r
      readTokens dialect fuel lone previous d r
    | '*' :: r => readTokens dialect fuel lone (some '*') (d.push .star) r
    | '{' :: r =>
      readTokens dialect fuel lone (some '{') ⟨[], ⟨d.tokens, []⟩ :: d.groups⟩ r
    | '}' :: r =>
      match d.groups with
      | [] => none
      | g :: groups =>
        let branches := (d.tokens.reverse :: g.branches).reverse
        readTokens dialect fuel lone (some '}') ⟨.alternatives branches :: g.front, groups⟩ r
    | ',' :: r =>
      match d.groups with
      | [] => readTokens dialect fuel lone (some ',') (d.push (.literal ',')) r
      | g :: groups =>
        readTokens dialect fuel lone (some ',')
          ⟨[], ⟨g.front, d.tokens.reverse :: g.branches⟩ :: groups⟩ r
    | '\\' :: c :: r => readTokens dialect fuel lone (some c) (d.push (.literal c)) r
    | ['\\'] => none
    | '[' :: r =>
      if lone then readTokens dialect fuel lone (some '[') (d.push (.literal '[')) r
      else
        let (negated, body) := classNegation r
        match classRanges true false [] body with
        | .ok (ranges, r) =>
          readTokens dialect fuel lone (some ']') (d.push (.oneOf negated ranges)) r
        | .error fault =>
          if fault = .unclosed && dialect.lenientBrackets then
            readTokens dialect fuel true (some '[') (d.push (.literal '[')) r
          else none
    | c :: r => readTokens dialect fuel lone (some c) (d.push (.literal c)) r

/-! ## Comparing -/

/-- A set of bytes: the ranges, or everything outside of them. -/
structure ByteSet where
  negated : Bool
  ranges : List (UInt8 × UInt8)
deriving DecidableEq

namespace ByteSet

def mem (set : ByteSet) (b : UInt8) : Bool :=
  set.ranges.any (fun r => r.1 ≤ b && b ≤ r.2) != set.negated

def single (b : UInt8) : ByteSet := ⟨false, [(b, b)]⟩

def all : ByteSet := ⟨true, []⟩

def slash : ByteSet := single 0x2F

def notSlash : ByteSet := ⟨true, [(0x2F, 0x2F)]⟩

end ByteSet

def bytesOf (c : Char) : List UInt8 :=
  (String.singleton c).toUTF8.toList

/-- The bytes of a range between two characters: from the last byte of the lower to the first byte of
the upper, and the other bytes of both by themselves. -/
def rangeBytes (low high : Char) : List (UInt8 × UInt8) :=
  if low == high then (bytesOf low).map fun b => (b, b)
  else
    let lows := bytesOf low
    let highs := bytesOf high
    lows.dropLast.map (fun b => (b, b)) ++ [(lows.getLastD 0, highs.headD 0)] ++
      highs.tail.map (fun b => (b, b))

/-- What stars and question marks stand for. -/
def Dialect.wild (dialect : Dialect) : ByteSet :=
  if dialect.slashSeparates then .notSlash else .all

mutual

/-- Whether a token stands for nothing at all: alternatives that are all empty. -/
def isVoid : Token → Bool
  | .alternatives branches => areVoid branches
  | _ => false

def isVoidBranch : List Token → Bool
  | [] => true
  | t :: ts => isVoid t && isVoidBranch ts

def areVoid : List (List Token) → Bool
  | [] => true
  | b :: bs => isVoidBranch b && areVoid bs

end

/-- One mark in front of every byte of a text and one behind the last: whether a match of what was
compared so far can end there. -/
abbrev Places := List Bool

namespace Places

/-- Only the beginning of a text of some length. -/
def start (length : Nat) : Places := true :: List.replicate length false

/-- Marked in the one or in the other. -/
def union (a b : Places) : Places := List.zipWith (· || ·) a b

/-- Behind one more byte of a set. -/
def one (set : ByteSet) (s : List UInt8) (places : Places) : Places :=
  false :: List.zipWith (fun place b => place && set.mem b) places s

/-- Behind any number of bytes of a set; `reached` tells whether the places in front reach the first
of these. -/
def manyFrom (set : ByteSet) (reached : Bool) : List UInt8 → Places → Places
  | b :: s, place :: places =>
    let here := reached || place
    here :: manyFrom set (here && set.mem b) s places
  | _, places => places.map (reached || ·)

/-- Behind any number of bytes of a set. -/
def many (set : ByteSet) (s : List UInt8) (places : Places) : Places :=
  manyFrom set false s places

end Places

mutual

/-- The places behind a token. Alternatives that are empty are left out beside others. -/
def advanceToken (dialect : Dialect) (s : List UInt8) (places : Places) : Token → Places
  | .literal c => (bytesOf c).foldl (fun places b => places.one (.single b) s) places
  | .any => places.one dialect.wild s
  | .star => places.many dialect.wild s
  | .leadingDirs => places.union ((places.union (places.many .all s)).one .slash s)
  | .everythingBelow => (places.one .slash s).many .all s
  | .innerDirs =>
    let behind := places.one .slash s
    behind.union ((behind.many .all s).one .slash s)
  | .oneOf negated ranges =>
    places.one ⟨negated, ranges.flatMap fun r => rangeBytes r.1 r.2⟩ s
  | .alternatives branches =>
    if areVoid branches then places else advanceBranches dialect s places branches

/-- The places behind a list of tokens. -/
def advance (dialect : Dialect) (s : List UInt8) (places : Places) : List Token → Places
  | [] => places
  | t :: ts => advance dialect s (advanceToken dialect s places t) ts

/-- The places behind any of the alternatives that are not empty. -/
def advanceBranches (dialect : Dialect) (s : List UInt8) (places : Places) :
    List (List Token) → Places
  | [] => places.map fun _ => false
  | b :: bs =>
    let others := advanceBranches dialect s places bs
    if isVoidBranch b then others else (advance dialect s places b).union others

end

/-- Whether tokens match all of a text. -/
def matchesAll (dialect : Dialect) (tokens : List Token) (s : List UInt8) : Bool :=
  (advance dialect s (.start s.length) tokens).getLastD false

/-! ## Names -/

/-- A character that is itself and no slash. -/
def isNameLiteral : Token → Bool
  | .literal c => c != '/'
  | _ => false

def isLiteral : Token → Bool
  | .literal _ => true
  | _ => false

/-- Tokens behind a star that stands for a beginning of any kind, if there is one. -/
def behindStar? (dialect : Dialect) (floating : Bool) : List Token → Option (List Token)
  | .star :: rest => if floating || !dialect.slashSeparates then some rest else none
  | _ => none

/-- Whether tokens are a star and an extension without further dots. -/
def isExtension (dialect : Dialect) (floating : Bool) (tokens : List Token) : Bool :=
  match behindStar? dialect floating tokens with
  | some (.literal '.' :: rest) =>
    rest.all fun | .literal c => c != '.' && c != '/' | _ => false
  | _ => false

/-- Whether tokens are a plain ending, behind a star that may cross slashes or behind none. -/
def isEnding (dialect : Dialect) (tokens : List Token) : Bool :=
  ((behindStar? dialect false tokens).getD tokens).all isLiteral

/-- Whether tokens end in a dot and further characters of a name, given last first. -/
def endsInExtension : List Token → Bool
  | .literal '.' :: _ => true
  | .literal c :: rest => c != '/' && endsInExtension rest
  | _ => false

/-- Whether a pattern is about the name of the path's last component, or about its extension. -/
def concernsName (dialect : Dialect) (tokens : List Token) : Bool :=
  let (floating, tokens) := match tokens with
    | .leadingDirs :: rest => (true, rest)
    | tokens => (false, tokens)
  (floating && tokens.all isNameLiteral) || isExtension dialect floating tokens ||
    (!isEnding dialect tokens && endsInExtension tokens.reverse)

/-- Whether a path ends in a component `..`, which is no name. -/
def endsInParent (path : String) : Bool :=
  match path.toList.reverse with
  | ['.', '.'] => true
  | '.' :: '.' :: '/' :: _ => true
  | _ => false

end Glob

/-- A pattern. -/
structure Glob where
  dialect : Glob.Dialect
  tokens : List Glob.Token

namespace Glob

/-- Read a pattern. -/
def parse? (dialect : Dialect) (pattern : String) : Option Glob :=
  let s := pattern.toList
  (readTokens dialect (s.length + 1) false none {} s).map fun tokens => ⟨dialect, tokens⟩

/-- Whether a pattern matches a whole path. Two stars alone match everything, and a pattern about names
does not match a path that ends in none. -/
def isMatch (g : Glob) (path : String) : Bool :=
  match g.tokens with
  | [.leadingDirs] => true
  | tokens =>
    !(endsInParent path && concernsName g.dialect tokens) &&
      matchesAll g.dialect tokens path.toUTF8.toList

end Glob

end SourceIndex
