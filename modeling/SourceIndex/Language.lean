import SourceIndex.Path.Basic
/-!
# Source languages

A file's language is read off its extension. Files of a known language are indexed; those whose
language has a grammar are cut along their definitions, the others by lines.
-/

namespace SourceIndex

/-- Language of an indexed file. -/
inductive Language where
  | rust
  | python
  | javaScript
  | typeScript
  | tsx
  | go
  | java
  | c
  | cpp
  | cSharp
  | ruby
  | swift
  | kotlin
  | scala
  | php
  | markdown
  | shell
  | vue
  | svelte
  | sql
  | unknown
deriving DecidableEq, Repr

namespace Language

/-- The known languages with their names and lower-case extensions. -/
def table : List (Language × String × List String) :=
  [(rust, "rust", ["rs"]),
   (python, "python", ["py", "pyw"]),
   (javaScript, "javascript", ["js", "jsx", "mjs", "cjs"]),
   (typeScript, "typescript", ["ts", "mts", "cts"]),
   (tsx, "tsx", ["tsx"]),
   (go, "go", ["go"]),
   (java, "java", ["java"]),
   (c, "c", ["c", "h"]),
   (cpp, "cpp", ["cpp", "cc", "cxx", "hpp", "hh", "hxx"]),
   (cSharp, "csharp", ["cs"]),
   (ruby, "ruby", ["rb"]),
   (swift, "swift", ["swift"]),
   (kotlin, "kotlin", ["kt", "kts"]),
   (scala, "scala", ["scala"]),
   (php, "php", ["php"]),
   (markdown, "markdown", ["md", "markdown"]),
   (shell, "shell", ["sh", "bash", "zsh"]),
   (vue, "vue", ["vue"]),
   (svelte, "svelte", ["svelte"]),
   (sql, "sql", ["sql"])]

/-- Every extension that is indexed, in table order. -/
def supportedExtensions : List String :=
  table.flatMap fun row => row.2.2

/-- The language of an extension, whatever the case of its ASCII letters. -/
def ofExtension (ext : String) : Language :=
  let ext := String.ofList (ext.toList.map Char.toLower)
  ((table.find? fun row => row.2.2.contains ext).map (·.1)).getD unknown

/-- The language of a file, by its extension. -/
def ofPath (path : String) : Language :=
  ((Path.extension? path).map ofExtension).getD unknown

/-- The lower-case name of a language. -/
def name (language : Language) : String :=
  ((table.find? fun row => row.1 = language).map (·.2.1)).getD "unknown"

/-- Whether files of this language are indexed at all. -/
def isIndexable (language : Language) : Bool :=
  language != unknown

/-- Whether files of this language are cut along their definitions. -/
def hasGrammar (language : Language) : Bool :=
  match language with
  | rust | python | javaScript | typeScript | tsx => true
  | _ => false

end Language

/-- Whether a path has an extension that is indexed. -/
def isSupportedPath (path : String) : Bool :=
  (Language.ofPath path).isIndexable

end SourceIndex
