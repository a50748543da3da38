import SourceIndex.Proofs.Index.Landings
import SourceIndex.Proofs.Index.Outcomes
/-!
# What a batch of changes reports

Results come together from the files that are not stored, the deleted ones, and those that are ready, whether
they were stored or refused; and two loops count files. However the files of a group interleave and whatever
fails, each changed path has one result, and is told of once.
-/

namespace SourceIndex

open Program (Exchange Follows Yields)

namespace Change

variable {s : Services} {ready : List ReadyFile}

/-- Stored or refused, each ready file has one result. -/
theorem yields_fill_paths (refusal : Option String) (ready : List ReadyFile) :
    (fill s refusal ready).Yields fun filled _ => filled.1.map (·.path) = ready.map (·.path) := by
  cases refusal with
  | some e =>
    refine Program.yields_pure ?_
    rw [List.map_map]
    rfl
  | none =>
    refine Yields.bind (fun _ _ _ => trivial) fun failures _ _ => ?_
    exact (yields_settleReady_paths failures.files 0 ready).bind fun _ _ h => Program.yields_pure h

end Change

variable {s : Services} {turns : List String → List Nat} {changes : Changes}
  {trace : List (Exchange indexing)} {results : List ChangeResult}

namespace Course

/-- Each changed path has one result. -/
theorem perm_results (c : Course s turns changes trace results) :
    (results.map (·.path)).Perm (changes.map (·.1)) := by
  have hstored := Change.yields_fill_paths _ _ _ _ c.fills
  have hdeleted : (changes.deletedPaths.map
      (ChangeResult.mk · (Change.deletionOutcome c.refusal.isSome))).map (·.path) =
        changes.deletedPaths := by
    rw [List.map_map]
    exact List.map_id' _
  have houtcomes := Change.perm_outcomes c.outcomes
  rw [Change.map_path_of_reaches c.reaches] at houtcomes
  rw [c.results_eq, List.map_append, List.map_append, hdeleted, hstored]
  -- the results of the ready files stand behind those of the deleted ones
  refine List.Perm.trans ?_ ((houtcomes.append_right _).trans changes.perm_paths)
  rw [List.append_assoc, List.append_assoc]
  exact List.perm_append_comm.append_left _

/-- What a batch tells, from its start to its finish. -/
theorem events (c : Course s turns changes trace results) : asked Action.batchEvent? trace =
    .start (Path.sort (changes.map (·.1))) ::
      progressEvents changes.length 1 (changes.presentPaths ++ changes.deletedPaths) ++
        [.progress changes.length changes.length none, .finish results c.error] := by
  have hfills : asked Action.batchEvent? c.filling = [] :=
    yields_asked_nil (Change.never_fill (fun _ => nofun) (fun _ => nofun) (fun _ _ => nofun)
      (fun _ => nofun) _ _) _ _ c.fills
  have hdeletes : asked Action.batchEvent? c.deletion = [] :=
    yields_asked_nil (Change.never_deleteStale (fun _ => nofun) _) _ _ c.deletes
  refine (congrArg (asked Action.batchEvent?) c.trace_eq).trans ?_
  change _ :: asked Action.batchEvent? (_ ++ (_ ++ (_ ++ (_ ++ _)))) = _
  simp only [asked_append, c.works_told, hdeletes, c.settles_told, hfills, List.nil_append,
    progressEvents_append, List.append_assoc, List.cons_append]
  rfl

end Course

/-- Whatever a procedure has been answered so far, it can be brought to its end. -/
theorem exists_end {α : Type} {p rest : Procedure α} (h : Follows p trace rest) :
    ∃ more a, Follows p (trace ++ more) (.done a) := by
  have answers : ∀ a : Action, Nonempty (indexing.Answer a) := fun a =>
    ⟨(Premises.respond [] (fun _ => false) a smallScene).1⟩
  obtain ⟨more, a, hmore⟩ := Program.exists_follows_done answers rest
  exact ⟨more, a, h.trans hmore⟩

/-- However the files of each group interleave and however requests are answered, a batch comes to its end, and
then has one result for each changed path. It first tells the sorted paths, then of each of them once, with the
counts from one to their number, then that all are done, and last the results. -/
theorem reports_every_change (s : Services) (turns : List String → List Nat) (changes : Changes) :
    (∀ begun rest, Follows (processChangesAbreast s turns changes) begun rest →
      ∃ more results, Follows (processChangesAbreast s turns changes) (begun ++ more) (.done results)) ∧
    ∀ trace results, Follows (processChangesAbreast s turns changes) trace (.done results) →
      (results.map (·.path)).Perm (changes.map (·.1)) ∧
        ∃ (order : List String) (error : Option String), order.Perm (changes.map (·.1)) ∧
          asked Action.batchEvent? trace = .start (Path.sort (changes.map (·.1))) ::
            progressEvents changes.length 1 order ++
              [.progress changes.length changes.length none, .finish results error] := by
  refine ⟨fun begun rest h => exists_end h, fun trace results h => ?_⟩
  obtain ⟨c⟩ := nonempty_course h
  exact ⟨c.perm_results, _, c.error, changes.perm_paths, c.events⟩

/-- A batch of a changed file that is read by turns and of a deleted one. -/
def mixedBatch : Procedure (List ChangeResult) :=
  processChangesAbreast Premises.smallServices (fun _ => [0, 0, 0]) [("/w/b.rs", .deleted), ("/w/a.rs", .changed)]

theorem reports_every_change_small : ∃ trace results, Follows mixedBatch trace (.done results) ∧
    (results.map (·.path)).Perm ["/w/b.rs", "/w/a.rs"] ∧
    ∃ (order : List String) (error : Option String), order.Perm ["/w/b.rs", "/w/a.rs"] ∧
      asked Action.batchEvent? trace = .start (Path.sort ["/w/b.rs", "/w/a.rs"]) :: progressEvents 2 1 order ++
        [.progress 2 2 none, .finish results error] := by
  obtain ⟨ends, reports⟩ := reports_every_change Premises.smallServices (fun _ => [0, 0, 0])
    [("/w/b.rs", .deleted), ("/w/a.rs", .changed)]
  obtain ⟨trace, results, hfollows⟩ := ends [] _ (.nil _)
  exact ⟨trace, results, hfollows, reports trace results hfollows⟩

end SourceIndex
