import SourceIndex.Proofs.Index.Concurrency
import SourceIndex.Proofs.Index.Histories
/-!
# Scans by turns

A handler answers the requests of a crew, and for every order of turns it gives one of the runs
(`ConcurrentScan.inTurns`). So the scans of a crew can be computed.
-/

namespace SourceIndex

open Program (Handler Rules Thread)
open Program.Crew (takeTurns)

theorem ScanMode.onlyTells_showScan : ScanMode.OnlyTells { tell := Lifecycle.showScan } := by
  intro event
  cases event with
  | error message => trivial
  | _ => exact Program.guarded_ask (Action.not_may fun _ => rfl)

/-- What happens to a scene happens to its cache. -/
theorem Premises.ledger_of_rules {e : Premises} {a : Action} {x : a.Answer} {L L' : Scene}
    (h : e.rules a L x L') : Scan.ledger a L.hashes x L'.hashes := by
  cases a with
  | embed texts => exact congrArg Scene.hashes h.1
  | prepareStore =>
    rcases h with ⟨-, rfl⟩ | ⟨-, rfl⟩ | ⟨-, -, rfl⟩
    · rfl
    · rfl
    · rfl
  | upsert points =>
    rcases h with ⟨-, rfl⟩ | ⟨-, -, part, -, rfl⟩
    · rfl
    · rfl
  | deletePoints paths =>
    rcases h with ⟨-, rfl⟩ | ⟨-, -, rfl⟩
    · rfl
    · rfl
  | clearStore =>
    rcases h with ⟨-, rfl⟩ | ⟨-, -, rfl⟩
    · rfl
    · rfl
  | dropStore =>
    rcases h with ⟨-, rfl⟩ | ⟨-, -, rfl⟩
    · rfl
    · rfl
  | storedPaths => exact congrArg Scene.hashes h.1
  | listFiles rules limit => exact ⟨congrArg Scene.hashes h.1, h.2.1⟩
  | readFile path => exact congrArg Scene.hashes h.1
  | hashes => exact ⟨congrArg Scene.hashes h.1, h.2⟩
  | _ => exact congrArg Scene.hashes h

namespace Scan

/-- Answer the requests of jobs: actions by `handle`, the others from what the jobs share. -/
def answerJobs {σ : Type} (threshold : Nat) (handle : Handler indexing σ) : Handler jobs (σ × ScanState)
  | .action a, (s, state) => ((handle a s).1, (handle a s).2, state)
  | .shared c, (s, state) => ((c.serve threshold state).1, s, (c.serve threshold state).2)

theorem jobRules_answerJobs {σ : Type} {threshold : Nat} {rules : Rules indexing σ}
    {handle : Handler indexing σ} (follows : ∀ a s, rules a s (handle a s).1 (handle a s).2)
    (r : Request) (s : σ × ScanState) :
    jobRules threshold rules r s (answerJobs threshold handle r s).1
      (answerJobs threshold handle r s).2 := by
  cases r with
  | action a => exact ⟨follows a s.1, rfl⟩
  | shared c => exact ⟨rfl, rfl⟩

/-- Answer requests from a cache and the texts of files, refusing those that are to be refused. -/
def attendCache (files : String → Option String) (listed : List String) (refuses : Action → Bool) :
    Handler indexing Hashes := fun a hashes =>
  let answered := Premises.respond listed refuses a { files, hashes }
  (answered.1, answered.2.hashes)

theorem ledger_attendCache {files : String → Option String} {listed : List String}
    {refuses : Action → Bool} (nodup : listed.Nodup) (a : Action) (hashes : Hashes) :
    ledger a hashes (attendCache files listed refuses a hashes).1
      (attendCache files listed refuses a hashes).2 := by
  let lenient : Premises :=
    { Premises.small with paths := fun _ => True, fails := fun _ => True }
  exact Premises.ledger_of_rules (Premises.rules_respond (e := lenient) nodup (fun _ _ => trivial)
    (fun _ _ => trivial) a { files, hashes })

end Scan

namespace ConcurrentScan

open Scan

section
variable (s : Services) (mode : ScanMode) (handle : Handler indexing Hashes) (before : Hashes)
  (first second third : List Nat)

/-- The files are worked on, in turns. -/
def workTurns : List (Nat × Program.Exchange jobs) × List (Thread jobs Job BatchResult) ×
    Hashes × ScanState :=
  takeTurns (answerJobs s.tuning.batchThreshold handle) (crew s mode) first
    (((listing s).run handle before).1.map fun path => (crew s mode).start (.file path)) (before, {})

/-- The buffer is flushed and all batches come to their end, in turns. -/
def endTurns : List (Nat × Program.Exchange jobs) × List (Thread jobs Job BatchResult) ×
    Hashes × ScanState :=
  takeTurns (answerJobs s.tuning.batchThreshold handle) (crew s mode) second
    ((workTurns s mode handle before first).2.1 ++ [(crew s mode).start .flush])
    (workTurns s mode handle before first).2.2

/-- What the jobs ended with. -/
def turnResults : List BatchResult :=
  (endTurns s mode handle before first second).2.1.filterMap (·.rest.result?)

/-- The closing. -/
def closeTurns : List (Nat × Program.Exchange jobs) × List (Thread jobs Job BatchResult) ×
    Hashes × ScanState :=
  takeTurns (answerJobs s.tuning.batchThreshold handle) (crew s mode) third
    [(crew s mode).start (.close ((listing s).run handle before).1
      ((turnResults s mode handle before first second).foldl .merge {}))]
    (endTurns s mode handle before first second).2.2

end

/-- The scan of a crew in which the jobs take given turns, if they come to their ends with them. -/
def inTurns (s : Services) (mode : ScanMode) (handle : Handler indexing Hashes) (before : Hashes)
    (first second third : List Nat) (indexes : mode.indexes = true)
    (follows : ∀ a hashes, ledger a hashes (handle a hashes).1 (handle a hashes).2)
    (worked : ((workTurns s mode handle before first).2.1.take
      ((listing s).run handle before).1.length).map (·.rest.result?) =
        ((listing s).run handle before).1.map fun _ => some {})
    (ended : (endTurns s mode handle before first second).2.1.map (·.rest.result?) =
      (turnResults s mode handle before first second).map some)
    (closed : (closeTurns s mode handle before first second third).2.1.map (·.rest.result?) = [some {}]) :
    ConcurrentScan s mode before
      (resultOf (closeTurns s mode handle before first second third).2.2.2
        ((turnResults s mode handle before first second).foldl .merge {}))
      (closeTurns s mode handle before first second third).2.2.1 where
  indexes := indexes
  listed := ((listing s).run handle before).1
  lists := by
    have hrun := Program.ends_run id follows (listing s) before
    have hsame : ((listing s).run handle before).2 = before :=
      (follows (.listFiles s.rules s.tuning.maxListedFiles) before).1
    rwa [id, id, hsame] at hrun
  working := (workTurns s mode handle before first).1
  worked := (workTurns s mode handle before first).2.1
  halfway := (workTurns s mode handle before first).2.2
  works := Program.Crew.runs_takeTurns (jobRules_answerJobs follows) _ _ _ _
  filesDone i hi := by
    have hat := congrArg (·[i]?) worked
    simp only [List.getElem?_map, List.getElem?_take, if_pos hi, List.getElem?_eq_getElem hi,
      Option.map_some] at hat
    obtain ⟨t, ht, hdone⟩ := Option.map_eq_some_iff.1 hat
    exact ⟨t, ht, Program.eq_done_of_result? hdone⟩
  ending := (endTurns s mode handle before first second).1
  ended := (endTurns s mode handle before first second).2.1
  settled := (endTurns s mode handle before first second).2.2
  ends := Program.Crew.runs_takeTurns (jobRules_answerJobs follows) _ _ _ _
  results := turnResults s mode handle before first second
  allDone := by
    refine List.ext_getElem? fun i => ?_
    have hat := congrArg (·[i]?) ended
    simp only [List.getElem?_map] at hat ⊢
    generalize (endTurns s mode handle before first second).2.1[i]? = t at hat ⊢
    generalize (turnResults s mode handle before first second)[i]? = r at hat ⊢
    cases t with
    | none =>
      cases r with
      | none => rfl
      | some r => cases hat
    | some t =>
      cases r with
      | none => cases hat
      | some r =>
        exact congrArg some (Program.eq_done_of_result? (Option.some_inj.1 hat))
  closing := (closeTurns s mode handle before first second third).1
  closed := (closeTurns s mode handle before first second third).2.1
  last := (closeTurns s mode handle before first second third).2.2
  closes := Program.Crew.runs_takeTurns (jobRules_answerJobs follows) _ _ _ _
  closeDone t ht := by
    have hmem := List.mem_map_of_mem (f := fun t : Thread jobs Job BatchResult => t.rest.result?) ht
    rw [closed] at hmem
    exact Program.eq_done_of_result? (List.mem_singleton.1 hmem)
  cache := rfl
  reports := rfl

/-! ### A scan of two files -/

/-- The services of the small workspace, with a batch for each file. -/
def eager : Services :=
  { Premises.smallServices with
    tuning := { Premises.smallServices.tuning with batchThreshold := 1 } }

/-- Whether a request stores points of the second file. -/
def storesOther : Action → Bool
  | .upsert points => points.any (·.payload.filePath == "b.rs")
  | _ => false

/-- Answers from the small workspace, whose second file cannot be stored. -/
def answerEager : Handler indexing Hashes :=
  attendCache (fun path => some (Premises.smallText path)) ["/w/a.rs", "/w/b.rs"] storesOther

theorem ledger_answerEager (a : Action) (hashes : Hashes) :
    ledger a hashes (answerEager a hashes).1 (answerEager a hashes).2 :=
  ledger_attendCache (by decide) a hashes

/-- Two files, and then the batches that they submit, by turns. The batches are not done when the files are. -/
def fileTurns : List Nat :=
  (List.replicate 9 [0, 1, 3, 2]).flatten

/-- The batches and the flush, by turns. -/
def batchTurns : List Nat :=
  [2, 3, 4] ++ (List.replicate 12 [3, 2]).flatten

/-- A scan by turns of the small workspace, of which the first file was in the cache with an older text. -/
def woven :=
  inTurns eager { tell := Lifecycle.showScan } answerEager [("/w/a.rs", "old")] fileTurns batchTurns
    (List.replicate 4 0) rfl ledger_answerEager (by decide +kernel) (by decide +kernel) (by decide +kernel)

end ConcurrentScan

end SourceIndex
