import SourceIndex.Index.Lifecycle
import SourceIndex.Index.Search
/-!
# The manager of a workspace

A manager builds the services of one workspace from settings and passes requests on to them. Without
usable settings it has none: then it cannot search or clear, and starting does nothing.

New settings take effect through `changeSettings`, which rebuilds the services only if something
changed that they depend on.
-/

namespace SourceIndex

/-- Services at work. -/
structure Running where
  services : Services
  search : SearchSettings

/-- A manager. -/
structure Manager where
  root : String
  cacheDir : String
  trees : Chunk.TreeSource
  settings : Settings := {}
  running : Option Running := none

namespace Manager

/-- Whether there are services. -/
def isConfigured (m : Manager) : Bool :=
  m.running.isSome

/-- Stop watching, write the cache and give the services up. -/
def dispose (m : Manager) : Procedure Manager := do
  if m.running.isNone then return m
  Lifecycle.dispose
  let state : IndexState ← ask .state
  if state ≠ .error then ask (.setState .standby "Code index stopped.")
  return { m with running := none }

/-- What is published when there are no services. -/
def idleMessage (s : Settings) : String :=
  if s.enabled then "Code indexing is not configured." else "Code indexing is disabled."

/-- Give the services up and remember settings that none can be built from. -/
def setIdle (m : Manager) (s : Settings) : Procedure Manager := do
  let m ← m.dispose
  ask (.setState .standby (idleMessage s))
  return { m with settings := s }

/-- Replace the services by new ones around the given providers; without any, the world's own
providers stay. -/
def initializeWith (m : Manager) (s : Settings) (providers : Option Providers) :
    Procedure (Except IndexError Unit × Manager) := do
  let m ← m.dispose
  match ← ask (.loadRules m.root s.ignore) with
  | .error e => return (.error e, m)
  | .ok rules =>
    let services : Services := { root := m.root, tuning := s.tuning, rules, trees := m.trees }
    ask (.install services m.cacheDir providers)
    return (.ok (), { m with settings := s, running := some ⟨services, s.search⟩ })

/-- Replace the services by those that settings describe. -/
def configure (m : Manager) (n : Network) (s : Settings) :
    Procedure (Except IndexError Unit × Manager) := do
  if !s.enabled || !s.isConfigured then return (.ok (), ← m.setIdle s)
  match Providers.connect n m.root s with
  | .error e => return (.error e, m)
  | .ok providers => m.initializeWith s (some providers)

/-- Start indexing. -/
def start (m : Manager) : Procedure (Except IndexError Unit) :=
  match m.running with
  | some r => Lifecycle.start r.services
  | none => return .ok ()

/-- Stop watching. -/
def stop (m : Manager) : Procedure Unit :=
  if m.running.isSome then Lifecycle.stop else return ()

/-- Drop the collection and empty the cache. -/
def clear (m : Manager) : Procedure (Except IndexError Unit) :=
  if m.running.isSome then Lifecycle.clear else return .error .notConfigured

/-- Search the index. -/
def search (m : Manager) (query : String) (directory : Option String) :
    Procedure (Except IndexError (List SearchResult)) :=
  match m.running with
  | some r => SourceIndex.search m.root r.search query directory
  | none => return .error .notConfigured

/-- Take new settings over. Answers whether the services were rebuilt; indexing starts anew then. -/
def changeSettings (m : Manager) (n : Network) (s : Settings) :
    Procedure (Except IndexError Bool × Manager) := do
  if !m.settings.requiresRestart s then
    let running := m.running.map fun r => { r with search := s.search }
    return (.ok false, { m with settings := s, running })
  match ← m.configure n s with
  | (.error e, m) => return (.error e, m)
  | (.ok (), m) =>
    match ← m.start with
    | .error e => return (.error e, m)
    | .ok () => return (.ok true, m)

end Manager

end SourceIndex
