import SourceIndex.Proofs.Index.Scenes
/-!
# Answers by the rules

`Premises.respond` answers every request of indexing as the rules say: it lists given files, gives
every text an empty vector, and refuses the requests that it is told to. Running a procedure with it is
one of the runs that the rules allow (`ends_respond`), so that the rules can be followed at all.
-/

namespace SourceIndex.Premises

/-- The failure of a refused request. -/
def refusal : ServiceError := .http "refused"

/-- Answer requests on a scene: `listed` are the files of the workspace, `refuses` the requests that
fail. -/
def respond (listed : List String) (refuses : Action → Bool) : Program.Handler indexing Scene
  | .embed texts, L =>
    if refuses (.embed texts) then (.error refusal, L)
    else (.ok { vectors := texts.map fun _ => [] }, L)
  | .prepareStore, L =>
    if refuses .prepareStore then (.error refusal, L) else (.ok false, L)
  | .upsert points, L =>
    if refuses (.upsert points) then (.error refusal, L) else (.ok (), L.upsert points)
  | .deletePoints paths, L =>
    if refuses (.deletePoints paths) then (.error refusal, L.refuse paths)
    else (.ok (), L.deletePoints paths)
  | .clearStore, L =>
    if refuses .clearStore then (.error refusal, L) else (.ok (), L.clearPoints)
  | .dropStore, L =>
    if refuses .dropStore then (.error refusal, L) else (.ok (), L.clearPoints)
  | .storedPaths, L =>
    if refuses .storedPaths then ([], L)
    else (Text.sortDistinct (L.points.map (·.payload.filePath)), L)
  | .nearest .., L => (.ok [], L)
  | .listFiles _ _, L => (listed, L)
  | .fileSize _, L => (.ok 0, L)
  | .readFile path, L =>
    match L.files path with
    | some text => (.ok text, L)
    | none => (.error .notFound, L)
  | .hashes, L => (L.hashes, L)
  | .recordHash path hash, L => ((), L.record path hash)
  | .forgetHashes paths, L => ((), L.forget paths)
  | .clearCache, L => (.ok (), L.forgetAll)
  | .flushCache, L => (.ok (), L)
  | .pause _, L => ((), L)
  | .tellScan _, L => ((), L)
  | .tellBatch _, L => ((), L)
  | .state, L => (.standby, L)
  | .setState _ _, L => ((), L)
  | .reportBlocks _ _, L => ((), L)
  | .beginScan, L => (false, L)
  | .endScan, L => ((), L)
  | .startWatcher, L => (.ok (), L)
  | .stopWatcher, L => ((), L)
  | .loadRules root _, L => (.ok { root }, L)
  | .install .., L => ((), L)

variable {e : Premises} {listed : List String} {refuses : Action → Bool}

/-- An answer follows the rules if the failure does when the request is refused, and the success does. -/
theorem rules_ite {a : Action} {L : Scene} {failure success : a.Answer × Scene}
    (hfailure : refuses a = true → e.rules a L failure.1 failure.2)
    (hsuccess : e.rules a L success.1 success.2) :
    e.rules a L (if refuses a then failure else success).1
      (if refuses a then failure else success).2 := by
  split
  · exact hfailure ‹_›
  · exact hsuccess

/-- The answers follow the rules, if only what may fail is refused. -/
theorem rules_respond (nodup : listed.Nodup) (paths : ∀ path ∈ listed, e.paths path)
    (fails : ∀ a, refuses a = true → e.fails a) (a : Action) (L : Scene) :
    e.rules a L (respond listed refuses a L).1 (respond listed refuses a L).2 := by
  cases a with
  | embed texts =>
    exact rules_ite (fun h => ⟨rfl, Or.inr (fails _ h)⟩) ⟨rfl, Or.inl ⟨_, rfl, List.length_map _⟩⟩
  | prepareStore =>
    exact rules_ite (fun h => Or.inr (Or.inr ⟨fails _ h, ⟨_, rfl⟩, rfl⟩)) (Or.inr (Or.inl ⟨rfl, rfl⟩))
  | upsert points =>
    exact rules_ite (fun h => Or.inr ⟨fails _ h, ⟨_, rfl⟩, [], List.nil_subset _, rfl⟩)
      (Or.inl ⟨rfl, rfl⟩)
  | deletePoints names =>
    exact rules_ite (fun h => Or.inr ⟨fails _ h, ⟨_, rfl⟩, rfl⟩) (Or.inl ⟨rfl, rfl⟩)
  | clearStore => exact rules_ite (fun h => Or.inr ⟨fails _ h, ⟨_, rfl⟩, rfl⟩) (Or.inl ⟨rfl, rfl⟩)
  | dropStore => exact rules_ite (fun h => Or.inr ⟨fails _ h, ⟨_, rfl⟩, rfl⟩) (Or.inl ⟨rfl, rfl⟩)
  | storedPaths => exact rules_ite (fun h => ⟨rfl, Or.inr ⟨fails _ h, rfl⟩⟩) ⟨rfl, Or.inl rfl⟩
  | listFiles rules limit => exact ⟨rfl, nodup, paths⟩
  | readFile path =>
    simp only [respond]
    split
    · rename_i text h
      refine ⟨rfl, fun text' heq => ?_⟩
      cases heq
      exact h
    · refine ⟨rfl, fun text' heq => ?_⟩
      cases heq
  | hashes => exact ⟨rfl, rfl⟩
  | _ => rfl

/-- Running a procedure with these answers is a run that the rules allow. -/
theorem ends_respond {α : Type} (listed : List String) (refuses : Action → Bool)
    (nodup : listed.Nodup) (paths : ∀ path ∈ listed, e.paths path)
    (fails : ∀ a, refuses a = true → e.fails a) (p : Procedure α) (L : Scene) :
    Program.Ends e.rules p L (p.run (respond listed refuses) L).1
      (p.run (respond listed refuses) L).2 :=
  Program.ends_run id (rules_respond nodup paths fails) p L

end SourceIndex.Premises
