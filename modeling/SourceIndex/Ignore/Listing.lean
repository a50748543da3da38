import SourceIndex.Ignore.Rules
/-!
# Listing a workspace

The files below a directory, found by going down the tree. On the way the ignore files of every
directory take part, from the outermost to the nearest; of several kinds of ignore file one kind takes
precedence over the next, and within a kind the nearest file that decides. Hidden entries are
left out unless a rule takes them back in, denied directories always.
-/

namespace SourceIndex

/-- The ignore files of one directory, by kind, in the order of precedence. -/
structure DirectoryRules where
  /-- How many names lead to the directory. -/
  depth : Nat
  own : List IgnoreRule
  general : List IgnoreRule
  git : List IgnoreRule
  exclude : List IgnoreRule

namespace DirectoryRules

/-- The rules in the file at the end of a list of names. -/
def rulesAt (entries : List (String × Node)) (names : List String) : List IgnoreRule :=
  match (Node.dir entries).find names with
  | .ok (.file bytes) => IgnoreFile.rules bytes
  | _ => []

/-- The first line of a file, if it is text. -/
def firstLine? (bytes : ByteArray) : Option String :=
  (IgnoreFile.lines bytes.toList).head?.bind fun line => String.fromUTF8? ⟨line.toArray⟩

/-- The directory that several working trees share, given the content of the file that stands in the
place of `.git`: it names the tree's own directory, in which another file names the shared one. -/
def sharedDirectory? (disk : Disk) (bytes : ByteArray) : Option String := do
  let line ← firstLine? bytes
  let mark := "gitdir: "
  guard (mark.toList.isPrefixOf line.toList)
  let own := String.ofList (line.toList.drop mark.length)
  let shared ← firstLine? (← (disk.read (Path.join own "commondir")).toOption)
  some (if shared.toList.head? == some '.' then Path.join own shared else shared)

/-- The rules that version control keeps apart from the files of the directory. -/
def excludeRules (disk : Disk) (entries : List (String × Node)) : List IgnoreRule :=
  match Node.child? entries ".git" with
  | some (.file bytes) =>
    match sharedDirectory? disk bytes with
    | some dir => IgnoreRules.fileRules disk (Path.join dir "info/exclude")
    | none => []
  | _ => rulesAt entries [".git", "info", "exclude"]

/-- The ignore files among the entries of a directory. -/
def ofEntries (disk : Disk) (depth : Nat) (entries : List (String × Node)) : DirectoryRules where
  depth := depth
  own := rulesAt entries [IgnoreRules.ownFileName]
  general := rulesAt entries [".ignore"]
  git := rulesAt entries [".gitignore"]
  exclude := excludeRules disk entries

/-- What one kind of ignore file says about the entry at the end of `names`. -/
def kindVerdict (kind : DirectoryRules → List IgnoreRule) (chain : List DirectoryRules)
    (names : List String) (isDirectory : Bool) : Verdict :=
  Verdict.first (chain.map fun rules =>
    IgnoreFile.verdict (kind rules) ("/".intercalate (names.drop rules.depth)) isDirectory)

/-- What the ignore files of the directories in `chain`, the nearest first, say about the entry at
the end of `names`. -/
def verdict (chain : List DirectoryRules) (names : List String) (isDirectory : Bool) : Verdict :=
  Verdict.first ([own, general, git, exclude].map fun kind =>
    kindVerdict kind chain names isDirectory)

end DirectoryRules

namespace Listing

/-- Whether an entry is left out with all that is below it. -/
def skips (chain : List DirectoryRules) (names : List String) (name : String)
    (isDirectory : Bool) : Bool :=
  let hidden := name.toList.head? == some '.'
  match DirectoryRules.verdict chain names isDirectory with
  | .ignored => true
  | .included => IgnoreRules.deniedNames.contains name
  | .undecided => hidden || IgnoreRules.deniedNames.contains name

mutual

/-- The files at and below a node, each as its list of names. -/
def walk (disk : Disk) (chain : List DirectoryRules) (names : List String) :
    Node → List (List String)
  | .file _ => [names]
  | .dir entries =>
    walkEntries disk (DirectoryRules.ofEntries disk names.length entries :: chain) names entries

def walkEntries (disk : Disk) (chain : List DirectoryRules) (names : List String) :
    List (String × Node) → List (List String)
  | [] => []
  | (name, node) :: rest =>
    let here := names ++ [name]
    (if skips chain here name node.isDir then [] else walk disk chain here node) ++
      walkEntries disk chain names rest

end

/-- The rules of the directories above the end of `names`, the nearest first. -/
def chainAbove (disk : Disk) (names : List String) : List DirectoryRules :=
  ((List.range names.length).map fun depth =>
    let entries := ((disk.tree.find (names.take depth)).toOption.map Node.entries).getD []
    DirectoryRules.ofEntries disk depth entries).reverse

/-- All files below a directory that no rule leaves out. -/
def files (disk : Disk) (root : String) : List String :=
  let found := do
    let names ← disk.resolve root
    let node ← disk.stat root
    Except.ok (names, walk disk (chainAbove disk names) names node)
  match found with
  | .ok (base, paths) =>
    paths.map fun names =>
      let below := names.drop base.length
      if below.isEmpty then root else Path.join root ("/".intercalate below)
  | .error _ => []

end Listing

/-- At most `limit` files of a workspace. -/
def IgnoreRules.listFiles (r : IgnoreRules) (disk : Disk) (limit : Nat) : List String :=
  (Listing.files disk r.root).take limit

end SourceIndex
