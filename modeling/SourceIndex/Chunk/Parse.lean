import SourceIndex.Block.Dedup
import SourceIndex.Chunk.Grammar
/-!
# From a file to its blocks

`parse` turns one file's text into blocks. Syntax trees come from outside: a `TreeSource` knows the
tree of a text in a language.
-/

namespace SourceIndex.Chunk

/-- The syntax tree of a text in a language, where one is known. -/
abbrev TreeSource := Language → String → Option Syntax.Tree

/-- Why a file could not be cut into blocks. -/
inductive ChunkError where
  | unsupportedLanguage (language : String)
  | grammar (language message : String)
  | unparsable (path : String)
deriving DecidableEq, Repr

def ChunkError.message : ChunkError → String
  | .unsupportedLanguage language => s!"Unsupported language: {language}"
  | .grammar language message => s!"Failed to load grammar for {language}: {message}"
  | .unparsable path => s!"Failed to parse {path}"

/-- What stands in the way of a language's grammar: only that there is none. -/
def grammarError? (language : Language) : Option ChunkError :=
  if language.hasGrammar then none else some (.unsupportedLanguage language.name)

/-- The blocks of a file. A file of an unknown language has none; one whose language has a grammar
but whose tree is not known is an error. -/
def tryParse (trees : TreeSource) (p : ChunkPolicy) (path content fileHash : String) :
    Except ChunkError (List Block) :=
  let language := Language.ofPath path
  let text := content.toList
  let finish (drafts : List Draft) : List Block :=
    (Sink.pushAll { filePath := path, fileHash := fileHash } drafts).toBlocks
  if !language.isIndexable then .ok []
  else if language.hasGrammar then
    match trees language content with
    | some root => .ok (Block.deduplicate (finish (grammarDrafts p language { text } root)))
    | none => .error (.unparsable path)
  else .ok (Block.deduplicate (finish (wholeFileDrafts p text)))

/-- The blocks of a file; none if it cannot be parsed, so that one file never stops a scan. -/
def parse (trees : TreeSource) (p : ChunkPolicy) (path content fileHash : String) : List Block :=
  (tryParse trees p path content fileHash).toOption.getD []

end SourceIndex.Chunk
