import SourceIndex.Proofs.Index.Agreement
import SourceIndex.Proofs.Index.Responses
import SourceIndex.Proofs.Program.Interleavings
/-!
# What indexing does to store and cache

An `Effect` is one change of the stored points or of the cache. `Premises.emits` says which effects a
request has with which answer, so that a run changes a scene by its log (`Premises.does`). The
log keeps apart what the scene mixes up: points of a call that succeeded and points that a failed call
left behind.

Of one file, a log does no more to the points than `Effect.onPoints` and no more to the hash than
`Effect.onHash` say (`pointsOf_replay`, `get?_replay`).
-/

namespace SourceIndex

/-- One change of store or cache. -/
inductive Effect where
  /-- A call stored points. -/
  | stored (points : List Point)
  /-- A call failed and left some points behind. -/
  | strayed (points : List Point)
  | deleted (files : List String)
  /-- A call failed to delete the points of files. -/
  | refused (files : List String)
  | cleared
  | recorded (path hash : String)
  | forgot (paths : List String)
  | emptied

namespace Effect

/-- The scene after a change. -/
def act (L : Scene) : Effect → Scene
  | stored points => L.upsert points
  | strayed points => L.upsert points
  | deleted files => L.deletePoints files
  | refused files => L.refuse files
  | cleared => L.clearPoints
  | recorded path hash => L.record path hash
  | forgot paths => L.forget paths
  | emptied => L.forgetAll

/-- The points that a change puts into the store. -/
def points : Effect → List Point
  | stored points => points
  | strayed points => points
  | _ => []

/-- A change removes all points of a file. -/
def Wipes (file : String) : Effect → Prop
  | deleted files => file ∈ files
  | cleared => True
  | _ => False

/-- What becomes of the hash of a file. -/
def onHash (path : String) (hash : Option String) : Effect → Option String
  | recorded other new => if path = other then some new else hash
  | forgot paths => if path ∈ paths then none else hash
  | emptied => none
  | _ => hash

/-- What becomes of the points of a file, given by its workspace-relative name. -/
def onPoints (file : String) (points : List Point) : Effect → List Point
  | stored new => (MemoryStore.pointsOf file new).foldl MemoryStore.put points
  | strayed new => (MemoryStore.pointsOf file new).foldl MemoryStore.put points
  | deleted files => if file ∈ files then [] else points
  | cleared => []
  | _ => points

end Effect

/-- The scene after all changes of a log. -/
def Scene.replay (L : Scene) (log : List Effect) : Scene :=
  log.foldl Effect.act L

/-- The points that a log puts into the store for a file, one after the other. -/
def putsOf (file : String) (log : List Effect) : List Point :=
  log.flatMap fun effect => MemoryStore.pointsOf file effect.points

/-- The points of the calls of a log that stored points. -/
def storesOf (log : List Effect) : List (List Point) :=
  log.filterMap fun
    | .stored points => some points
    | _ => none

@[simp] theorem storesOf_append {log more : List Effect} :
    storesOf (log ++ more) = storesOf log ++ storesOf more :=
  List.filterMap_append

@[simp] theorem storesOf_stored {points : List Point} {log : List Effect} :
    storesOf (.stored points :: log) = points :: storesOf log := rfl

namespace Premises

/-- What requests may do with which answers. -/
def emits (e : Premises) : Program.Emission indexing Effect
  | .embed texts, x, effects => effects = [] ∧
    ((∃ embeddings, x = .ok embeddings ∧ embeddings.vectors.length = texts.length) ∨
      e.fails (.embed texts))
  | .prepareStore, x, effects =>
    x = .ok true ∧ effects = [.cleared] ∨ x = .ok false ∧ effects = [] ∨
      e.fails .prepareStore ∧ (∃ failure, x = .error failure) ∧ effects = []
  | .upsert points, x, effects =>
    x = .ok () ∧ effects = [.stored points] ∨
      e.fails (.upsert points) ∧ (∃ failure, x = .error failure) ∧
        ∃ part, part ⊆ points ∧ effects = [.strayed part]
  | .deletePoints paths, x, effects =>
    x = .ok () ∧ effects = [.deleted paths] ∨
      e.fails (.deletePoints paths) ∧ (∃ failure, x = .error failure) ∧ effects = [.refused paths]
  | .clearStore, x, effects =>
    x = .ok () ∧ effects = [.cleared] ∨
      e.fails .clearStore ∧ (∃ failure, x = .error failure) ∧ effects = []
  | .dropStore, x, effects =>
    x = .ok () ∧ effects = [.cleared] ∨
      e.fails .dropStore ∧ (∃ failure, x = .error failure) ∧ effects = []
  | .recordHash path hash, _, effects => effects = [.recorded path hash]
  | .forgetHashes paths, _, effects => effects = [.forgot paths]
  | .clearCache, _, effects => effects = [.emptied]
  | _, _, effects => effects = []

/-- The rules of the logs of runs. -/
def logs (e : Premises) : Program.Rules indexing (List Effect) :=
  Program.logging e.emits

variable {e : Premises} {L : Scene} {log : List Effect} {path file : String}

/-- A request changes the scene by what it does. -/
theorem does (e : Premises) : Program.Does e.rules e.emits Effect.act := by
  intro a L x L' h
  cases a with
  | embed texts => exact ⟨[], ⟨rfl, h.2⟩, h.1⟩
  | prepareStore =>
    rcases h with ⟨hx, rfl⟩ | ⟨hx, rfl⟩ | ⟨hfails, hx, rfl⟩
    · exact ⟨_, Or.inl ⟨hx, rfl⟩, rfl⟩
    · exact ⟨_, Or.inr (Or.inl ⟨hx, rfl⟩), rfl⟩
    · exact ⟨_, Or.inr (Or.inr ⟨hfails, hx, rfl⟩), rfl⟩
  | upsert points =>
    rcases h with ⟨hx, rfl⟩ | ⟨hfails, hx, part, hpart, rfl⟩
    · exact ⟨_, Or.inl ⟨hx, rfl⟩, rfl⟩
    · exact ⟨_, Or.inr ⟨hfails, hx, part, hpart, rfl⟩, rfl⟩
  | deletePoints paths =>
    rcases h with ⟨hx, rfl⟩ | ⟨hfails, hx, rfl⟩
    · exact ⟨_, Or.inl ⟨hx, rfl⟩, rfl⟩
    · exact ⟨_, Or.inr ⟨hfails, hx, rfl⟩, rfl⟩
  | clearStore =>
    rcases h with ⟨hx, rfl⟩ | ⟨hfails, hx, rfl⟩
    · exact ⟨_, Or.inl ⟨hx, rfl⟩, rfl⟩
    · exact ⟨_, Or.inr ⟨hfails, hx, rfl⟩, rfl⟩
  | dropStore =>
    rcases h with ⟨hx, rfl⟩ | ⟨hfails, hx, rfl⟩
    · exact ⟨_, Or.inl ⟨hx, rfl⟩, rfl⟩
    · exact ⟨_, Or.inr ⟨hfails, hx, rfl⟩, rfl⟩
  | recordHash path hash => exact ⟨_, rfl, h⟩
  | forgetHashes paths => exact ⟨_, rfl, h⟩
  | clearCache => exact ⟨_, rfl, h⟩
  | storedPaths => exact ⟨[], rfl, h.1⟩
  | listFiles rules limit => exact ⟨[], rfl, h.1⟩
  | readFile path => exact ⟨[], rfl, h.1⟩
  | hashes => exact ⟨[], rfl, h.1⟩
  | _ => exact ⟨[], rfl, h⟩

/-- Every request can be answered. -/
theorem emits_total (e : Premises) (a : Action) : ∃ x effects, e.emits a x effects := by
  have hrules := @rules_respond e [] (fun _ => false) List.nodup_nil
    (List.forall_mem_nil _)
    (fun _ h => Bool.noConfusion h) a { files := fun _ => none }
  obtain ⟨effects, h, -⟩ := e.does _ _ _ _ hrules
  exact ⟨_, effects, h⟩

section
variable {α : Type} {a : Action} {f : a.Answer → Procedure α} {post : α → List Effect → Prop}

/-- A request that ends a procedure adds what it does to the log. -/
theorem ensures_log_ask {post : a.Answer → List Effect → Prop}
    (h : ∀ x effects, e.emits a x effects → post x (log ++ effects)) :
    (ask a).Ensures e.logs log post := by
  refine Program.ensures_ask.2 fun x log' hx => ?_
  obtain ⟨effects, hemits, rfl⟩ := hx
  exact h x effects hemits

/-- What comes behind a request finds in the log what the request did. -/
theorem ensures_log_bind
    (h : ∀ x effects, e.emits a x effects → (f x).Ensures e.logs (log ++ effects) post) :
    (ask a >>= f).Ensures e.logs log post :=
  Program.ensures_bind.2 (ensures_log_ask h)

/-- What comes behind a request that does nothing finds the log as it was. -/
theorem ensures_log_idle_bind (idle : ∀ x effects, e.emits a x effects → effects = [])
    (h : ∀ x, (f x).Ensures e.logs log post) : (ask a >>= f).Ensures e.logs log post := by
  refine ensures_log_bind fun x effects hx => ?_
  rw [idle x effects hx, List.append_nil]
  exact h x

end

/-! ## What a log does to one file -/

/-- The hash of a file after a log. -/
theorem get?_replay : (L.replay log).hashes.get? path =
    log.foldl (Effect.onHash path) (L.hashes.get? path) := by
  induction log generalizing L with
  | nil => rfl
  | cons effect log ih =>
    refine (ih (L := effect.act L)).trans ?_
    rw [List.foldl_cons]
    congr 1
    cases effect with
    | recorded other hash => exact Scene.get?_record
    | forgot paths => exact Scene.get?_forget
    | _ => rfl

/-- A file keeps its hash as long as nothing has to do with it. -/
theorem foldl_onHash_of_idle {hash : Option String}
    (h : ∀ effect ∈ log, ∀ base, effect.onHash path base = base) :
    log.foldl (Effect.onHash path) hash = hash := by
  induction log with
  | nil => rfl
  | cons effect log ih =>
    rw [List.foldl_cons, h effect List.mem_cons_self]
    exact ih fun other hmem => h other (List.mem_cons_of_mem _ hmem)

/-- All points that a log puts into the store are known. -/
def Knows (e : Premises) (log : List Effect) : Prop :=
  ∀ effect ∈ log, ∀ q ∈ effect.points, e.Known q

/-- A change that puts known points into an orderly store leaves it so. -/
theorem known_act {effect : Effect} (h : ∀ q ∈ L.points, e.Known q)
    (heffect : ∀ q ∈ effect.points, e.Known q) : ∀ q ∈ (effect.act L).points, e.Known q := by
  intro q hq
  cases effect with
  | stored points =>
    exact (MemoryStore.mem_or_mem_of_mem_foldl_put hq).elim (heffect q) (h q)
  | strayed points =>
    exact (MemoryStore.mem_or_mem_of_mem_foldl_put hq).elim (heffect q) (h q)
  | deleted files => exact h q (List.mem_of_mem_filter hq)
  | cleared => cases hq
  | _ => exact h q hq

/-- The points of a file after a log. -/
theorem pointsOf_replay (distinct : e.Distinct) (h : ∀ q ∈ L.points, e.Known q) (hlog : e.Knows log) :
    (L.replay log).pointsOf file = log.foldl (Effect.onPoints file) (L.pointsOf file) := by
  induction log generalizing L with
  | nil => rfl
  | cons effect log ih =>
    have heffect := hlog effect List.mem_cons_self
    refine (ih (known_act h heffect) fun other hmem => hlog other (List.mem_cons_of_mem _ hmem)).trans ?_
    rw [List.foldl_cons]
    congr 1
    cases effect with
    | stored points => exact MemoryStore.pointsOf_foldl_put (apart distinct) h heffect
    | strayed points => exact MemoryStore.pointsOf_foldl_put (apart distinct) h heffect
    | deleted files => exact Scene.pointsOf_deletePoints
    | _ => rfl

/-- The identifiers in the store stay distinct. -/
theorem nodup_replay (h : (L.points.map (·.id)).Nodup) :
    ((L.replay log).points.map (·.id)).Nodup := by
  induction log generalizing L with
  | nil => exact h
  | cons effect log ih =>
    refine ih ?_
    cases effect with
    | stored points => exact MemoryStore.nodup_foldl_put h
    | strayed points => exact MemoryStore.nodup_foldl_put h
    | deleted files => exact h.sublist (List.Sublist.map _ List.filter_sublist)
    | cleared => exact List.nodup_nil
    | _ => exact h

end Premises

end SourceIndex
