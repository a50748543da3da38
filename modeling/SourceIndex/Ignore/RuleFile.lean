import SourceIndex.Ignore.Glob
import SourceIndex.Path.Basic
/-!
# Ignore files

An ignore file has one rule a line. A rule ignores the paths that its pattern matches, or, behind an
exclamation mark, takes them back in; of the rules that match a path the last one decides
(`verdict`). A pattern with a slash in it is compared with the whole path below the file's directory,
any other with the last component, and a slash at its end restricts it to directories.
-/

namespace SourceIndex

/-- What rules say about a path. -/
inductive Verdict where
  | undecided
  | ignored
  | included
deriving DecidableEq, Repr

/-- This verdict, or else the other one. -/
def Verdict.orElse (a b : Verdict) : Verdict :=
  if a = .undecided then b else a

/-- The first verdict that decides. -/
def Verdict.first (verdicts : List Verdict) : Verdict :=
  verdicts.foldr Verdict.orElse .undecided

/-- One line of an ignore file. -/
structure IgnoreRule where
  glob : Glob
  /-- Takes back in what earlier rules ignore. -/
  includes : Bool
  directoriesOnly : Bool

namespace IgnoreRule

/-- Stars do not cross slashes, and an unclosed bracket stands for itself. -/
def dialect : Glob.Dialect where
  slashSeparates := true
  lenientBrackets := true

/-- A line without white space at its end, unless a backslash protects the last blank. -/
def trimLine (line : List Char) : List Char :=
  if [' ', '\\'].isPrefixOf line.reverse then line else Text.dropTailWhile Text.isBlank line

/-- Whether the rule takes back in, whether its pattern starts at the file's directory, and the
pattern. A backslash in front makes the first character part of the pattern. -/
def splitMarks (line : List Char) : Bool × Bool × List Char :=
  let anchor (includes : Bool) (line : List Char) : Bool × Bool × List Char :=
    match line with
    | '/' :: r => (includes, true, r)
    | r => (includes, false, r)
  match line with
  | '\\' :: '!' :: r => (false, false, '!' :: r)
  | '\\' :: '#' :: r => (false, false, '#' :: r)
  | '!' :: r => anchor true r
  | r => anchor false r

/-- A pattern without a slash at its end, and whether there was one. An escaped slash counts too. -/
def splitTail (pattern : List Char) : Bool × List Char :=
  match pattern.reverse with
  | '/' :: '\\' :: r => (true, r.reverse)
  | '/' :: r => (true, r.reverse)
  | _ => (false, pattern)

/-- The pattern that is compared with whole paths. -/
def fullPattern (anchored : Bool) (pattern : List Char) : List Char :=
  let floating := !anchored && !pattern.contains '/' && pattern != ['*', '*']
  let pattern := if floating then '*' :: '*' :: '/' :: pattern else pattern
  if ['*', '*', '/'].isPrefixOf pattern.reverse then pattern ++ ['/', '*'] else pattern

/-- The rule on a line; comments, empty lines and malformed patterns are none. -/
def ofLine? (line : String) : Option IgnoreRule :=
  if line.toList.head? == some '#' then none
  else
    let line := trimLine line.toList
    if line.isEmpty then none
    else
      let (includes, anchored, pattern) := splitMarks line
      let (directoriesOnly, pattern) := splitTail pattern
      (Glob.parse? dialect (String.ofList (fullPattern anchored pattern))).map fun glob =>
        { glob, includes, directoriesOnly }

/-- What a rule says about a path below its directory. -/
def verdict (rule : IgnoreRule) (path : String) (isDirectory : Bool) : Verdict :=
  if (!rule.directoriesOnly || isDirectory) && rule.glob.isMatch path then
    if rule.includes then .included else .ignored
  else .undecided

end IgnoreRule

namespace IgnoreFile

/-- The lines of a file; a carriage return in front of a line feed belongs to the line end. -/
def lines (bytes : List UInt8) : List (List UInt8) :=
  let pieces := bytes.splitOn 0x0A
  let ended := pieces.dropLast.map fun line =>
    if line.getLast? == some 0x0D then line.dropLast else line
  ended ++ (pieces.getLast?.filter (!·.isEmpty)).toList

/-- The texts of lines up to the first one that is no text. -/
def texts : List (List UInt8) → List String
  | [] => []
  | line :: rest =>
    match String.fromUTF8? ⟨line.toArray⟩ with
    | some text => text :: texts rest
    | none => []

/-- The first line without byte order marks in front. -/
def withoutMarks : List String → List String
  | [] => []
  | line :: rest => String.ofList (line.toList.dropWhile (· == '\uFEFF')) :: rest

/-- The rules of a file, in order. -/
def rules (bytes : ByteArray) : List IgnoreRule :=
  (withoutMarks (texts (lines bytes.toList))).filterMap IgnoreRule.ofLine?

/-- What rules say about a path below their directory: the last one that matches decides. -/
def verdict (rules : List IgnoreRule) (path : String) (isDirectory : Bool) : Verdict :=
  Verdict.first (rules.reverse.map fun rule => rule.verdict path isDirectory)

/-- What rules say about a path or else about the directories above it, the nearest first. -/
def verdictUpwards (rules : List IgnoreRule) (path : String) (isDirectory : Bool) : Verdict :=
  (verdict rules path isDirectory).orElse
    (Verdict.first ((Path.ancestors path).map fun dir => verdict rules dir true))

end IgnoreFile

end SourceIndex
