import SourceIndex.Disk.Basic
import SourceIndex.Json.Parser
import SourceIndex.Json.Printer
import SourceIndex.Point.Basic
/-!
# The hash cache

For every indexed file the hash of the content that its stored points were made from. Changes show in
memory at once; they are written to the cache file after a time without further changes (`tick`), or
right away by `flush` and `clear`.
-/

namespace SourceIndex

/-- Hashes by absolute path, each path once. -/
abbrev Hashes := List (String × String)

namespace Hashes

def get? (hashes : Hashes) (path : String) : Option String :=
  (hashes.find? (·.1 == path)).map (·.2)

def put (hashes : Hashes) (path hash : String) : Hashes :=
  if hashes.any (·.1 == path) then hashes.map fun e => if e.1 == path then (path, hash) else e
  else hashes ++ [(path, hash)]

def erase (hashes : Hashes) (path : String) : Hashes :=
  hashes.filter (·.1 != path)

def contains (hashes : Hashes) (path : String) : Bool :=
  hashes.any (·.1 == path)

def toJson (hashes : Hashes) : Json :=
  .obj (hashes.map fun e => (e.1, .str e.2))

def ofJson? : Json → Option Hashes
  | .obj fields => fields.mapM fun f => (f.2.asStr?).map fun hash => (f.1, hash)
  | _ => none

end Hashes

/-- The cache file of the workspace at `root`. -/
def cacheFile (root dir : String) : String :=
  Path.join dir s!"codeindex-cache-{Digest.sha256Hex root}.json"

/-- The cache of one workspace. Times are in nanoseconds. -/
structure HashCache where
  file : String
  /-- How long to wait for further changes before writing. -/
  debounce : Nat
  hashes : Hashes := []
  /-- When the hashes are to be written, if they are waiting to be. -/
  due : Option Nat := none

namespace HashCache

/-- The cache of a workspace, with nothing read yet. -/
def new (root dir : String) (debounce : Nat) : HashCache where
  file := cacheFile root dir
  debounce := debounce

/-- Put off writing to one debounce after `now`. -/
def schedule (c : HashCache) (now : Nat) : HashCache :=
  { c with due := some (now + c.debounce) }

/-- Enter a file's hash. -/
def record (c : HashCache) (now : Nat) (path hash : String) : HashCache :=
  { c with hashes := c.hashes.put path hash }.schedule now

/-- Take files out. Nothing is scheduled if none was there. -/
def forget (c : HashCache) (now : Nat) (paths : List String) : HashCache :=
  if paths.any c.hashes.contains then
    { c with hashes := paths.foldl Hashes.erase c.hashes }.schedule now
  else c

/-- The hashes in the cache file; a file that is missing or malformed has none. -/
def readHashes (file : String) (disk : Disk) : Hashes :=
  match disk.readText file with
  | .ok text => ((Json.parse text).bind Hashes.ofJson?).getD []
  | .error _ => []

/-- Take over what the cache file holds. -/
def load (c : HashCache) (disk : Disk) : HashCache :=
  { c with hashes := readHashes c.file disk }

/-- The file that is written before it takes the place of the cache file. -/
def draftFile (c : HashCache) : String :=
  c.file ++ ".tmp"

/-- Write hashes to the cache file, making its directory if need be. -/
def writeHashes (c : HashCache) (hashes : Hashes) (disk : Disk) : Except IoFailure Disk := do
  let disk ← match Path.ancestors c.file with
    | dir :: _ => if dir.isEmpty then .ok disk else disk.createDirs dir
    | [] => .ok disk
  let disk ← disk.write c.draftFile (Json.compact hashes.toJson).toUTF8
  disk.rename c.draftFile c.file

/-- What becomes of the disk when hashes are written, and of the writing. -/
def save (c : HashCache) (hashes : Hashes) (disk : Disk) : Except IndexError Unit × Disk :=
  match c.writeHashes hashes disk with
  | .ok disk => (.ok (), disk)
  | .error e => (.error (.io e), disk)

/-- Write the hashes now. What was waiting to be written no longer is, even if this fails. -/
def flush (c : HashCache) (disk : Disk) : Except IndexError Unit × HashCache × Disk :=
  let (result, disk) := c.save c.hashes disk
  (result, { c with due := none }, disk)

/-- Forget everything and write that. -/
def clear (c : HashCache) (disk : Disk) : Except IndexError Unit × HashCache × Disk :=
  let (result, disk) := c.save [] disk
  (result, { c with hashes := [], due := none }, disk)

/-- Write the hashes if their time lies before `now`. A failure is not tried again. -/
def tick (c : HashCache) (now : Nat) (disk : Disk) : HashCache × Disk :=
  match c.due with
  | some due => if due < now then ({ c with due := none }, (c.save c.hashes disk).2) else (c, disk)
  | none => (c, disk)

end HashCache

end SourceIndex
