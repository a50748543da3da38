import SourceIndex.Proofs.Index.Mirrors
/-!
# Scans as runs of a crew

`scan` goes through the files one after the other and works each batch through where it is filled. Among the runs
of the crew there is one that does the same: the files' jobs take their turns in the order of the list, and a batch
comes to its end as soon as it is submitted. In it the crew asks for exactly what the scan asks for, in the same
order, with the same report in the end and the same cache (`ConcurrentScan.exists_of_follows`). So whatever holds of
all scans by a crew holds of `scan`.

A job that mirrors a procedure does alone what the procedure does (`Mirrors.exists_runs`); with its batch behind it
this is one step of the scan (`exists_leads_send`), and the files follow by induction on the list
(`exists_leads_files`).
-/

namespace SourceIndex

open Program (Ends Exchange Follows Rules Thread Trail)
open Program.Crew (Runs)

namespace Scan

variable {s : Services} {mode : ScanMode} {α σ : Type} {rules : Rules indexing σ}
  {ts ts₁ ts' : List (Thread jobs Job BatchResult)} {i : Nat} {w w₁ w' : σ}
  {trace more : List (Exchange indexing)} {state state₁ state' : ScanState} {job : Job}

/-- What the jobs of a log asked for beside what they share. -/
def actionLog (log : List (Nat × Exchange jobs)) : List (Exchange indexing) :=
  (log.map (·.2)).filterMap actionOf

theorem actionLog_append (log more : List (Nat × Exchange jobs)) :
    actionLog (log ++ more) = actionLog log ++ actionLog more := by
  rw [actionLog, List.map_append, List.filterMap_append]
  rfl

/-- In some run that asks for `trace`, threads that stood at `ts` come to `ts'`, and what they share is as in a scan
that comes from `state` to `state'`. -/
def Leads (s : Services) (mode : ScanMode) (rules : Rules indexing σ)
    (ts : List (Thread jobs Job BatchResult)) (w : σ) (state : ScanState)
    (trace : List (Exchange indexing)) (ts' : List (Thread jobs Job BatchResult)) (w' : σ)
    (state' : ScanState) : Prop :=
  ∃ log, Runs (jobRules s.tuning.batchThreshold rules) (crew s mode) ts (w, state.shared) log ts'
    (w', state'.shared) ∧ actionLog log = trace

theorem Leads.trans (h : Leads s mode rules ts w state trace ts₁ w₁ state₁)
    (h' : Leads s mode rules ts₁ w₁ state₁ more ts' w' state') :
    Leads s mode rules ts w state (trace ++ more) ts' w' state' := by
  obtain ⟨log, hruns, rfl⟩ := h
  obtain ⟨rest, hrest, rfl⟩ := h'
  exact ⟨log ++ rest, hruns.trans hrest, actionLog_append log rest⟩

/-! ## One job after the other -/

/-- A job that mirrors a procedure may come to its end as the procedure does, while the others wait. -/
theorem Mirrors.exists_runs {p : Procedure α} {a : α}
    {post : α → BatchResult → List Job → ScanState → Prop} (h : Mirrors s mode rules p state (job.program s mode) post)
    (hi : ts[i]? = some ((crew s mode).start job)) (follows : Follows p trace (.done a))
    (trail : Trail rules w trace w') :
    ∃ log t r spawned state', Runs (jobRules s.tuning.batchThreshold rules) (crew s mode) ts (w, state) log
        (ts.set i t ++ spawned.map (crew s mode).start) (w', state') ∧ actionLog log = trace ∧
      t.rest = .done r ∧ post a r spawned state' := by
  obtain ⟨r, whole, state', hwhole, htrail, hactions, hpost⟩ := h a trace w w' follows trail
  have hruns : Runs _ (crew s mode) ts (w, state) _ _ (w', state') := .of_follows hi hwhole htrail
  refine ⟨_, _, r, _, state', hruns, ?_, rfl, hpost⟩
  rw [actionLog, List.map_map]
  exact (congrArg (List.filterMap actionOf) (List.map_id whole)).trans hactions

/-- A job may come to its end, and behind it the batch that it gives rise to. -/
theorem exists_leads_send {p : Procedure (Option (List PendingBlock) × ScanState)}
    (h : Mirrors s mode rules p state.shared (job.program s mode) (Sends state.batches))
    (hi : ts[i]? = some ((crew s mode).start job))
    (follows : Follows (p >>= send s mode) trace (.done state')) (trail : Trail rules w trace w') :
    ∃ t batches, ∃ results : List BatchResult,
      Leads s mode rules ts w state trace (ts.set i t ++ batches) w' state' ∧ t.rest = .done {} ∧
        batches.map (·.rest) = results.map .done ∧ state'.batches = results.foldl .merge state.batches := by
  obtain ⟨⟨batch, state₁⟩, first, second, rfl, hfirst, hsecond⟩ := Program.follows_bind_iff.1 follows
  obtain ⟨w₁, htrail, htrail'⟩ := Program.trail_append_iff.1 trail
  obtain ⟨log, t, _, _, _, hruns, hactions, hrest, rfl, rfl, rfl, hbatches⟩ := h.exists_runs hi hfirst htrail
  cases batch with
  | none =>
    obtain ⟨rfl, rfl⟩ := Program.follows_done_iff.1 hsecond
    cases htrail'
    refine ⟨t, [], [], ⟨log, hruns, ?_⟩, hrest, rfl, hbatches⟩
    rw [hactions, List.append_nil]
  | some batch =>
    -- the batch is the last of all jobs
    have hlength : (ts.set i t).length = ts.length := List.length_set
    have hlast : (ts.set i t ++ [(crew s mode).start (.batch batch)])[ts.length]? =
        some ((crew s mode).start (.batch batch)) := by
      rw [← hlength, List.getElem?_concat_length]
    obtain ⟨log', t', r, _, _, hruns', hactions', hrest', rfl, rfl, hmerged⟩ :=
      (mirrors_submit state₁ batch).exists_runs hlast hsecond htrail'
    have hset : (ts.set i t ++ [(crew s mode).start (.batch batch)]).set ts.length t' =
        ts.set i t ++ [t'] := by
      rw [List.set_append_right _ _ (Nat.le_of_eq hlength), hlength, Nat.sub_self]
      rfl
    rw [hset, List.map_nil, List.append_nil] at hruns'
    refine ⟨t, [t'], [r], ⟨log ++ log', hruns.trans hruns', ?_⟩, hrest, ?_, ?_⟩
    · rw [actionLog_append, hactions, hactions']
    · rw [List.map_singleton, hrest']
      rfl
    · rw [hmerged, ← hbatches]
      rfl

/-- The jobs of files come to their ends in the order of the files, each followed by its batch. -/
theorem exists_leads_files (indexes : mode.indexes = true) {paths : List String}
    (done batches : List (Thread jobs Job BatchResult))
    (follows : Follows (scanFiles s mode state paths) trace (.done state')) (trail : Trail rules w trace w') :
    ∃ files more, ∃ results : List BatchResult, Leads s mode rules
        (done ++ paths.map (fun path => (crew s mode).start (.file path)) ++ batches) w state trace
        (done ++ files ++ (batches ++ more)) w' state' ∧
      files.map (·.rest) = paths.map (fun _ => .done {}) ∧ more.map (·.rest) = results.map .done ∧
        state'.batches = results.foldl .merge state.batches := by
  induction paths generalizing done batches state w trace with
  | nil =>
    obtain ⟨rfl, rfl⟩ := Program.follows_done_iff.1 follows
    cases trail
    refine ⟨[], [], [], ⟨[], ?_, rfl⟩, rfl, rfl, rfl⟩
    simp only [List.map_nil, List.append_nil]
    exact .stop _ _
  | cons path paths ih =>
    rw [scanFiles_cons indexes, ← Program.bind_assoc] at follows
    obtain ⟨state₁, first, second, rfl, hfirst, hsecond⟩ := Program.follows_bind_iff.1 follows
    obtain ⟨w₁, htrail, htrail'⟩ := Program.trail_append_iff.1 trail
    have hi : (done ++ (path :: paths).map (fun path => (crew s mode).start (.file path)) ++
        batches)[done.length]? = some ((crew s mode).start (.file path)) := by
      rw [List.append_assoc, List.getElem?_append_right (Nat.le_refl _), Nat.sub_self]
      rfl
    obtain ⟨t, own, results, hleads, hrest, hown, hmerged⟩ :=
      exists_leads_send mirrors_file hi hfirst htrail
    obtain ⟨files, others, results', hleads', hfiles, hothers, hmerged'⟩ :=
      ih (done ++ [t]) (batches ++ own) hsecond htrail'
    have hset : (done ++ (path :: paths).map (fun path => (crew s mode).start (.file path)) ++ batches).set
        done.length t ++ own = done ++ [t] ++ paths.map (fun path => (crew s mode).start (.file path)) ++
          (batches ++ own) := by
      rw [List.append_assoc, List.set_append_right _ _ (Nat.le_refl _), Nat.sub_self]
      simp
    rw [hset] at hleads
    refine ⟨t :: files, own ++ others, results ++ results', ?_, ?_, ?_, ?_⟩
    · simpa using hleads.trans hleads'
    · rw [List.map_cons, hrest, hfiles, List.map_cons]
    · rw [List.map_append, hown, hothers, List.map_append]
    · rw [hmerged', hmerged, List.foldl_append]

/-! ## Whole scans -/

theorem merge_empty (r : BatchResult) : r.merge {} = r := by
  simp [BatchResult.merge]

/-- Files have no results of their own. -/
theorem foldl_merge_empty (paths : List String) (r : BatchResult) :
    (paths.map fun _ => ({} : BatchResult)).foldl .merge r = r := by
  induction paths with
  | nil => rfl
  | cons path paths ih => rw [List.map_cons, List.foldl_cons, merge_empty, ih]

/-- What is done when all files and batches are done. -/
def wrapUp (s : Services) (mode : ScanMode) (listed : List String) (state : ScanState) :
    Procedure ScanResult := do
  settle mode state.batches
  removeVanished s mode listed
  return resultOf state state.batches

/-- A scan goes through the files, sends off what is left in the buffer, and wraps up. -/
theorem scan_eq (s : Services) (mode : ScanMode) : scan s mode =
    listing s >>= fun listed => scanFiles s mode {} listed >>= fun state =>
      (pure (Shared.take.serve s.tuning.batchThreshold state) >>= send s mode) >>=
        wrapUp s mode listed := by
  refine congrArg (Program.call (I := indexing) _) (funext fun found => ?_)
  refine congrArg (scanFiles s mode {} _ >>= ·) (funext fun state => ?_)
  exact flush_bind s mode state (wrapUp s mode _)

theorem mirrors_close {listed : List String} :
    Mirrors s mode rules (wrapUp s mode listed state) state.shared
      (Job.program s mode (.close listed state.batches)) fun result r spawned state' =>
        result = resultOf state state.batches ∧ r = {} ∧ spawned = [] ∧ state' = state.shared :=
  mirrors_perform_bind fun _ _ _ => mirrors_perform_bind fun _ _ _ => mirrors_pure ⟨rfl, rfl, rfl, rfl⟩

/-- Listing the files leaves the cache as it is. -/
theorem ends_listing {listed : List String} {h h' : Hashes} (follows : Follows (listing s) trace (.done listed))
    (trail : Trail ledger h trace h') : h' = h ∧ Ends ledger (listing s) h listed h := by
  obtain ⟨found, rest, rfl, hdone⟩ := Program.follows_call_iff.1 follows
  obtain ⟨rfl, rfl⟩ := Program.follows_done_iff.1 hdone
  obtain ⟨h₁, ⟨rfl, hnodup⟩, hnil⟩ := Program.trail_cons_iff.1 trail
  cases hnil
  exact ⟨rfl, .call ⟨rfl, hnodup⟩ (.done _ _)⟩

end Scan

namespace ConcurrentScan

open Scan

variable {s : Services} {mode : ScanMode} {before after : Hashes} {result : ScanResult}

/-- A scan that goes through the files one after the other is one of the runs of the crew, and one that asks for the
same in the same order. -/
theorem exists_of_follows (indexes : mode.indexes = true) {trace : List (Exchange indexing)}
    (follows : Follows (scan s mode) trace (.done result)) (trail : Trail ledger before trace after) :
    ∃ (run : ConcurrentScan s mode before result after) (first : List (Exchange indexing)),
      Follows (listing s) first (.done run.listed) ∧
        trace = first ++ actionLog run.log ++ actionLog run.closing := by
  rw [scan_eq] at follows
  obtain ⟨listed, first, _, rfl, hfirst, hrest⟩ := Program.follows_bind_iff.1 follows
  obtain ⟨state, second, _, rfl, hsecond, hrest⟩ := Program.follows_bind_iff.1 hrest
  obtain ⟨last, third, fourth, rfl, hthird, hfourth⟩ := Program.follows_bind_iff.1 hrest
  obtain ⟨h₀, htrail₀, htrail⟩ := Program.trail_append_iff.1 trail
  obtain ⟨h₁, htrail₁, htrail⟩ := Program.trail_append_iff.1 htrail
  obtain ⟨h₂, htrail₂, htrail₃⟩ := Program.trail_append_iff.1 htrail
  obtain ⟨rfl, lists⟩ := ends_listing hfirst htrail₀
  -- the files, the flush and the closing, each with the batches that they give rise to
  obtain ⟨files, batches, results, ⟨working, works, hworking⟩, hfiles, hbatches, hmerged⟩ :=
    exists_leads_files indexes [] [] hsecond htrail₁
  rw [List.nil_append, List.append_nil, List.nil_append, List.nil_append] at works
  have hflush : (files ++ batches ++ [(crew s mode).start .flush])[(files ++ batches).length]? =
      some ((crew s mode).start .flush) := List.getElem?_concat_length
  obtain ⟨t, others, results', ⟨ending, ends, hending⟩, ht, hothers, hmerged'⟩ :=
    exists_leads_send mirrors_flush hflush hthird htrail₂
  have hclose : [(crew s mode).start (.close listed last.batches)][0]? =
      some ((crew s mode).start (.close listed last.batches)) := rfl
  obtain ⟨closing, t', _, _, _, closes, hclosing, hdone, rfl, rfl, rfl, rfl⟩ :=
    mirrors_close.exists_runs hclose hfourth htrail₃
  -- what they ended with
  have hlength : files.length = listed.length := by
    simpa using congrArg List.length hfiles
  have hset : (files ++ batches ++ [(crew s mode).start .flush]).set (files ++ batches).length t ++ others =
      files ++ batches ++ t :: others := by
    rw [List.set_append_right _ _ (Nat.le_refl _), Nat.sub_self, List.append_assoc]
    rfl
  rw [hset] at ends
  have hresults : ((listed.map fun _ => ({} : BatchResult)) ++ results ++
      ({} : BatchResult) :: results').foldl .merge {} = last.batches := by
    rw [List.foldl_append, List.foldl_append, foldl_merge_empty, List.foldl_cons, merge_empty, hmerged', hmerged]
  let run : ConcurrentScan s mode h₀ (resultOf last last.batches) after :=
    { indexes, listed, lists, working, ending, closing
      worked := files ++ batches
      halfway := (h₁, state.shared)
      works
      filesDone := fun i hi => by
        have hfile := congrArg (·[i]?) hfiles
        simp only [List.getElem?_map, List.getElem?_eq_getElem hi, Option.map_some] at hfile
        obtain ⟨u, hu, hdone⟩ := Option.map_eq_some_iff.1 hfile
        exact ⟨u, by rwa [List.getElem?_append_left (hlength ▸ hi)], hdone⟩
      ended := files ++ batches ++ t :: others
      settled := (h₂, last.shared)
      ends
      results := (listed.map fun _ => ({} : BatchResult)) ++ results ++ ({} : BatchResult) :: results'
      allDone := by
        simp only [List.map_append, List.map_cons, hfiles, hbatches, hothers, ht, List.map_map]
        rfl
      closed := [t']
      last := (after, last.shared)
      closes := by
        rw [hresults]
        exact closes
      closeDone := List.forall_mem_singleton.2 hdone
      cache := rfl
      reports := by
        rw [hresults]
        rfl }
  refine ⟨run, first, hfirst, ?_⟩
  rw [ConcurrentScan.log, actionLog_append]
  show _ = first ++ (actionLog working ++ actionLog ending) ++ actionLog closing
  rw [hworking, hending, hclosing, List.append_assoc, List.append_assoc]

/-- Whatever a scan comes to, a crew may come to. -/
theorem nonempty_of_ends (indexes : mode.indexes = true)
    (ends : Ends ledger (scan s mode) before result after) :
    Nonempty (ConcurrentScan s mode before result after) := by
  obtain ⟨trace, follows, trail⟩ := ends.exists_follows
  obtain ⟨run, -⟩ := exists_of_follows indexes follows trail
  exact ⟨run⟩

end ConcurrentScan

end SourceIndex
