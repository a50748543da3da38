import SourceIndex.Embed.Client
import SourceIndex.Store.Collection
/-!
# Providers

An embedding service and a collection, as functions. `Providers.connect` builds them from settings; it
fails if something is missing, and says nothing about whether the servers answer.
-/

namespace SourceIndex

/-- An embedding service and a collection. -/
structure Providers where
  embed : List String → Except ServiceError Embed.Embeddings
  prepare : Except ServiceError Bool
  upsert : List Point → Except ServiceError Unit
  deletePoints : List String → Except ServiceError Unit
  clear : Except ServiceError Unit
  drop : Except ServiceError Unit
  storedPaths : List String
  nearest : Vector32 → Option String → Number.Single → Nat → Except ServiceError (List Hit)

/-- How servers are reached. -/
structure Network where
  http : Http.Exchange
  database : Program.Handler collectionCalls Unit
  /-- Whether the database tells a version that is known to work. -/
  tellsVersion : Bool

namespace Network

/-- A network on which no server answers. -/
def down : Network where
  http _ := none
  database := Collection.unreachable
  tellsVersion := false

/-- Run a program of calls. -/
def call {α : Type} (n : Network) (p : CollectionProgram α) : Except ServiceError α :=
  (p.run.run n.database ()).1

end Network

namespace Providers

/-- The providers behind a client and a collection. -/
def ofClients (n : Network) (client : Embed.Client) (collection : Collection) : Providers where
  embed texts := client.embed n.http texts none
  prepare := n.call collection.prepare
  upsert points := n.call (collection.upsert points)
  deletePoints paths := n.call (Collection.deletePaths paths)
  clear := n.call Collection.clear
  drop := n.call Collection.drop
  storedPaths := (Collection.paths.run n.database ()).1
  nearest vector directory minScore limit :=
    n.call (Collection.nearest vector directory minScore limit)

/-- The client and the collection that settings describe. -/
def clients (root : String) (s : Settings) : Except IndexError (Embed.Client × Collection) :=
  match s.embed.vectorSize? with
  | none => .error .notConfigured
  | some size =>
    match Embed.Client.ofSettings s.embed with
    | .error e => .error (.service e)
    | .ok client =>
      match Collection.open? root s.store size with
      | .error e => .error (.service e)
      | .ok collection => .ok (client, collection)

/-- The providers that settings describe. -/
def connect (n : Network) (root : String) (s : Settings) : Except IndexError Providers :=
  (clients root s).map fun (client, collection) => ofClients n client collection

/-- What is told on the way when providers are built: a client warns if the database does not tell its
version. -/
def notice (n : Network) (root : String) (s : Settings) : String :=
  match clients root s with
  | .ok _ => if n.tellsVersion then "" else Collection.versionNotice
  | .error _ => ""

end Providers

end SourceIndex
