import SourceIndex.Text.Blank
/-!
# Arguments

`codeindex [options] command [options]`. The workspace, the settings file and the cache directory can be
given on either side of the command; the side behind it counts more. `Request.parse?` refuses whatever
has no meaning: an unknown option or command, an option without its value or given twice on one side,
an empty path, a word too many. Arguments are read from left to right, so that a request for help
counts only if nothing in front of it is refused.
-/

namespace SourceIndex.CommandLine

/-- What to do. -/
inductive Command where
  | index
  | watch
  | search (query : String) (directory : Option String) (json : Bool)
  | status
  | clear
deriving DecidableEq, Repr

/-- The arguments of a run. -/
structure Arguments where
  workspace : String := "."
  settingsFile : Option String := none
  cacheDir : Option String := none
  command : Command
deriving DecidableEq, Repr

/-- What is asked for. -/
inductive Request where
  | run (arguments : Arguments)
  | version
  | help
deriving DecidableEq, Repr

/-- What can be given a value. -/
inductive Setting where
  | workspace
  | settingsFile
  | cacheDir
  | directory
deriving DecidableEq, Repr

/-- A side of the command. -/
inductive Side where
  | front
  | behind (searching : Bool)
deriving DecidableEq, Repr

/-- What was given on one side. -/
structure Given where
  values : List (Setting × String) := []
  json : Bool := false
  words : List String := []
deriving DecidableEq, Repr

namespace Given

def value? (g : Given) (s : Setting) : Option String :=
  (g.values.find? (·.1 = s)).map (·.2)

/-- Enter a value. Nothing can be given twice, and only a directory to search may be empty. -/
def put? (g : Given) (s : Setting) (value : String) : Option Given :=
  if (g.value? s).isSome || (s ≠ .directory && value.isEmpty) then none
  else some { g with values := (s, value) :: g.values }

/-- How many words a side can have. -/
def maxWords : Side → Nat
  | .behind true => 1
  | _ => 0

/-- Enter words. -/
def addWords? (g : Given) (side : Side) (words : List String) : Option Given :=
  if maxWords side < g.words.length + words.length then none
  else some { g with words := g.words ++ words }

end Given

/-- What an argument that begins with a dash means. -/
inductive Mark where
  /-- A value is given, here or in the next argument. -/
  | setting (s : Setting) (value : Option String)
  | json
  | help
  | version
deriving DecidableEq, Repr

namespace Mark

/-- Whether an argument is an option, and not a word. -/
def isMark (argument : String) : Bool :=
  argument.toList.head? == some '-' && argument != "-"

/-- An option written with two dashes: its name, and the value behind an equals sign. -/
def ofLong? (side : Side) (name : String) (value : Option String) : Option Mark :=
  let bare (m : Mark) : Option Mark := if value.isNone then some m else none
  match side, name with
  | _, "workspace" => some (.setting .workspace value)
  | _, "config" => some (.setting .settingsFile value)
  | _, "cache-dir" => some (.setting .cacheDir value)
  | .behind true, "path" => some (.setting .directory value)
  | .behind true, "json" => bare .json
  | .front, "version" => bare .version
  | _, "help" => bare .help
  | _, _ => none

/-- An option written with one dash: its letter, and what follows it. -/
def ofShort? (side : Side) (letter : Char) (rest : List Char) : Option Mark :=
  let value : Option String := match rest with
    | [] => none
    | '=' :: v => some (String.ofList v)
    | v => some (String.ofList v)
  match side, letter with
  | _, 'w' => some (.setting .workspace value)
  | _, 'c' => some (.setting .settingsFile value)
  | .front, 'V' => some .version
  | _, 'h' => some .help
  | _, _ => none

/-- What an option means on a side of the command. -/
def of? (side : Side) (argument : String) : Option Mark :=
  match argument.toList with
  | '-' :: '-' :: text =>
    let name := String.ofList (text.takeWhile (· != '='))
    match text.dropWhile (· != '=') with
    | '=' :: v => ofLong? side name (some (String.ofList v))
    | _ => ofLong? side name none
  | '-' :: letter :: rest => ofShort? side letter rest
  | _ => none

end Mark

/-- What the arguments on one side come to. -/
inductive Reading where
  | done (g : Given)
  /-- A command, and the arguments behind it. -/
  | command (g : Given) (name : String) (rest : List String)
  | help
  | version

/-- Read the arguments on one side. In front of the command its name ends the side. -/
def read? (side : Side) (g : Given) (arguments : List String) : Option Reading :=
  match arguments with
  | [] => some (.done g)
  | "--" :: words => (g.addWords? side words).map .done
  | argument :: rest =>
    if Mark.isMark argument then
      match Mark.of? side argument, rest with
      | some (.setting s (some value)), rest => (g.put? s value).bind fun g => read? side g rest
      | some (.setting s none), value :: rest =>
        if Mark.isMark value then none
        else (g.put? s value).bind fun g => read? side g rest
      | some .json, rest => if g.json then none else read? side { g with json := true } rest
      | some .help, _ => some .help
      | some .version, _ => some .version
      | _, _ => none
    else
      match side with
      | .front => some (.command g argument rest)
      | .behind _ => (g.addWords? side [argument]).bind fun g => read? side g rest
termination_by arguments.length

namespace Request

def commandNames : List String :=
  ["index", "watch", "search", "status", "clear"]

/-- The command of a name and what is given behind it. -/
def command? (name : String) (g : Given) : Option Command :=
  match name, g.words with
  | "index", [] => some .index
  | "watch", [] => some .watch
  | "search", [query] => some (.search query (g.value? .directory) g.json)
  | "status", [] => some .status
  | "clear", [] => some .clear
  | _, _ => none

/-- Help can be asked for as a command, perhaps about another one. -/
def helpFor? : List String → Option Request
  | [] => some .help
  | [name] => if ("help" :: commandNames).contains name then some .help else none
  | _ => none

/-- What is given behind a command. -/
def behind? (front : Given) (name : String) (arguments : List String) : Option Request := do
  guard (commandNames.contains name)
  match ← read? (.behind (name == "search")) {} arguments with
  | .help => some .help
  | .version => some .version
  | .command .. => none
  | .done g =>
    let value? (s : Setting) : Option String := (g.value? s).or (front.value? s)
    let command ← command? name g
    some (.run
      { workspace := (value? .workspace).getD "."
        settingsFile := value? .settingsFile
        cacheDir := value? .cacheDir
        command })

/-- Read the arguments of the program. -/
def parse? (arguments : List String) : Option Request := do
  match ← read? .front {} arguments with
  | .help => some .help
  | .version => some .version
  | .done _ => none
  | .command g name rest => if name == "help" then helpFor? rest else behind? g name rest

end Request

end SourceIndex.CommandLine
