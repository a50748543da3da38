import SourceIndex.Index.Lifecycle
import SourceIndex.Proofs.Cache.Hashes
import SourceIndex.Proofs.Program.Runs
import SourceIndex.Proofs.Store.Points
/-!
# What indexing finds around it

A `Scene` is what indexing works on: the files, the cache, and the stored points. `Premises.rules`
says which answers the requests may get there and what they do to the scene. Services may fail as
`Premises.fails` allows; an upsert that fails may have stored some of its points, a deletion that
fails is put down in the scene and deletes nothing.

The lemmas behind it carry `Program.Ensures` over one request, so that a procedure can be followed
request by request.
-/

namespace SourceIndex

/-- What indexing works on. -/
structure Scene where
  /-- The text of each file; `none` where there is no file or no text. -/
  files : String → Option String
  hashes : Hashes := []
  points : List Point := []
  /-- The files whose points were to be deleted when the store failed, by workspace-relative name. -/
  refused : List String := []

namespace Scene

/-- The stored points of one file, by its workspace-relative name. -/
def pointsOf (L : Scene) (file : String) : List Point :=
  MemoryStore.pointsOf file L.points

/-- Put points into the store, one after the other. -/
def upsert (L : Scene) (points : List Point) : Scene :=
  { L with points := points.foldl MemoryStore.put L.points }

/-- Delete the points of files. -/
def deletePoints (L : Scene) (paths : List String) : Scene :=
  { L with points := L.points.filter fun p => !paths.contains p.payload.filePath }

/-- Put down that points were not deleted. -/
def refuse (L : Scene) (paths : List String) : Scene :=
  { L with refused := L.refused ++ paths }

/-- Remove all points. -/
def clearPoints (L : Scene) : Scene :=
  { L with points := [] }

/-- Enter a hash into the cache. -/
def record (L : Scene) (path hash : String) : Scene :=
  { L with hashes := L.hashes.put path hash }

/-- Take paths out of the cache. -/
def forget (L : Scene) (paths : List String) : Scene :=
  { L with hashes := paths.foldl Hashes.erase L.hashes }

/-- Empty the cache. -/
def forgetAll (L : Scene) : Scene :=
  { L with hashes := [] }

section
variable {L : Scene} {points : List Point} {paths : List String} {path hash q : String}

@[simp] theorem deletePoints_hashes : (L.deletePoints paths).hashes = L.hashes := rfl

/-- Deleting the points of no file changes nothing. -/
theorem deletePoints_nil (L : Scene) : L.deletePoints [] = L := by
  simp [deletePoints]

theorem get?_record : (L.record path hash).hashes.get? q =
    if q = path then some hash else L.hashes.get? q :=
  Hashes.get?_put

theorem get?_forget :
    (L.forget paths).hashes.get? q = if q ∈ paths then none else L.hashes.get? q :=
  Hashes.get?_foldl_erase

theorem pointsOf_deletePoints {file : String} :
    (L.deletePoints paths).pointsOf file = if file ∈ paths then [] else L.pointsOf file :=
  MemoryStore.pointsOf_deletePaths

end

end Scene

/-- What is fixed beforehand: how the files of a workspace are cut into blocks, which paths they have and
which texts they may come to hold, and which requests may fail. -/
structure Premises where
  root : String
  trees : Chunk.TreeSource
  policy : ChunkPolicy
  paths : String → Prop
  texts : String → String → Prop
  fails : Action → Prop

namespace Premises

/-- The answers that requests may get in a scene, and the scenes that may follow. Nothing is said about
the requests that have to do with searching or with other services. -/
def rules (e : Premises) : Program.Rules indexing Scene
  | .embed texts, L, x, L' =>
    L' = L ∧ ((∃ embeddings, x = .ok embeddings ∧ embeddings.vectors.length = texts.length) ∨
      e.fails (.embed texts))
  | .prepareStore, L, x, L' =>
    x = .ok true ∧ L' = L.clearPoints ∨ x = .ok false ∧ L' = L ∨
      e.fails .prepareStore ∧ (∃ failure, x = .error failure) ∧ L' = L
  | .upsert points, L, x, L' =>
    x = .ok () ∧ L' = L.upsert points ∨
      e.fails (.upsert points) ∧ (∃ failure, x = .error failure) ∧
        ∃ part, part ⊆ points ∧ L' = L.upsert part
  | .deletePoints paths, L, x, L' =>
    x = .ok () ∧ L' = L.deletePoints paths ∨
      e.fails (.deletePoints paths) ∧ (∃ failure, x = .error failure) ∧ L' = L.refuse paths
  | .clearStore, L, x, L' =>
    x = .ok () ∧ L' = L.clearPoints ∨
      e.fails .clearStore ∧ (∃ failure, x = .error failure) ∧ L' = L
  | .dropStore, L, x, L' =>
    x = .ok () ∧ L' = L.clearPoints ∨
      e.fails .dropStore ∧ (∃ failure, x = .error failure) ∧ L' = L
  | .storedPaths, L, x, L' =>
    L' = L ∧ (x = Text.sortDistinct (L.points.map (·.payload.filePath)) ∨
      e.fails .storedPaths ∧ x = [])
  | .listFiles _ _, L, (x : List String), L' => L' = L ∧ x.Nodup ∧ ∀ path ∈ x, e.paths path
  | .readFile path, L, x, L' => L' = L ∧ ∀ text, x = .ok text → L.files path = some text
  | .hashes, L, x, L' => L' = L ∧ x = L.hashes
  | .recordHash path hash, L, _, L' => L' = L.record path hash
  | .forgetHashes paths, L, _, L' => L' = L.forget paths
  | .clearCache, L, _, L' => L' = L.forgetAll
  | _, L, _, L' => L' = L

variable {e : Premises} {L : Scene} {α : Type} {a : Action} {f : a.Answer → Procedure α}
  {post : α → Scene → Prop}

/-- A request that ends a procedure ensures what its rules ensure. -/
theorem ensures_ask {post : a.Answer → Scene → Prop}
    (h : ∀ x L', e.rules a L x L' → post x L') : (ask a).Ensures e.rules L post :=
  Program.ensures_ask.2 h

/-- What comes behind a request may rely on the rules of the request. -/
theorem ensures_ask_bind
    (h : ∀ x L', e.rules a L x L' → (f x).Ensures e.rules L' post) :
    (ask a >>= f).Ensures e.rules L post :=
  Program.ensures_bind.2 (ensures_ask h)

/-- What comes behind a request that changes nothing finds the scene as it was, whatever the answer. -/
theorem ensures_idle_bind (idle : ∀ x L', e.rules a L x L' → L' = L)
    (h : ∀ x, (f x).Ensures e.rules L post) : (ask a >>= f).Ensures e.rules L post := by
  refine ensures_ask_bind fun x L' hx => ?_
  rw [idle x L' hx]
  exact h x

/-- What comes behind an entry into the cache finds it there. -/
theorem ensures_record_bind {path hash : String} {f : Unit → Procedure α}
    (h : (f ()).Ensures e.rules (L.record path hash) post) :
    (ask (.recordHash path hash) >>= f).Ensures e.rules L post :=
  ensures_ask_bind fun _ _ hx => hx ▸ h

/-- What comes behind taking paths out of the cache finds them gone. -/
theorem ensures_forget_bind {paths : List String} {f : Unit → Procedure α}
    (h : (f ()).Ensures e.rules (L.forget paths) post) :
    (ask (.forgetHashes paths) >>= f).Ensures e.rules L post :=
  ensures_ask_bind fun _ _ hx => hx ▸ h

end Premises

end SourceIndex
