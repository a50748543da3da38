import SourceIndex.Proofs.Index.Snapshots
/-!
# Scanning again

A scan that finds the cache up to date finds no file (`ConcurrentScan.found_eq_nil`), so it has no blocks
for batches and nothing to close: it makes no request that is `Action.Loud`, and leaves the cache as it is
(`silent_of_upToDate`). As a scan without failures leaves the cache up to date, scanning is idempotent
(`rescan_is_silent`).
-/

namespace SourceIndex

open Program (Crew Exchange Follows Guarded Handler Rules Thread)
open Program.Crew (Runs takeTurns)

/-- A request that embeds, or that may change store or cache. -/
def Action.Loud : Action → Prop
  | .embed _ | .prepareStore | .upsert _ | .deletePoints _ | .clearStore | .dropStore => True
  | .recordHash .. | .forgetHashes _ | .clearCache => True
  | _ => False

theorem Action.loud_of_may {a : Action} {kind : Effect → Prop} (h : a.May kind) : a.Loud := by
  cases a with
  | prepareStore | upsert | deletePoints | clearStore | dropStore => trivial
  | recordHash | forgetHashes | clearCache | embed => trivial
  | _ => exact absurd h (Action.not_may fun _ => rfl)

/-- What is told is told in silence. -/
def ScanMode.Quiet (mode : ScanMode) : Prop :=
  ∀ event, (mode.tell event).Never Action.Loud

theorem ScanMode.Quiet.onlyTells {mode : ScanMode} (quiet : mode.Quiet) : mode.OnlyTells :=
  fun event => (quiet event).mono (fun _ h => h) fun _ => Action.loud_of_may

theorem ScanMode.indexes_showScan : ({ tell := Lifecycle.showScan } : ScanMode).indexes = true :=
  rfl

theorem ScanMode.quiet_showScan : ScanMode.Quiet { tell := Lifecycle.showScan } := by
  intro event
  cases event with
  | error message => trivial
  | _ => exact Program.guarded_ask id

namespace Scan

variable {s : Services} {mode : ScanMode} {path : String}

/-- Some file is counted. -/
def Counts (e : Exchange jobs) : Prop :=
  ∃ f x, e = ⟨.shared (.count f), x⟩

/-- A file is loud only behind its being counted. -/
theorem guarded_file_loud (quiet : mode.Quiet) :
    (Job.program s mode (.file path)).Guarded Counts (Acts Action.Loud) := by
  have hweaken : ∀ {α : Type} {p : Procedure α}, p.Never Action.Loud →
      (perform p).Guarded Counts (Acts Action.Loud) :=
    fun h => (never_perform h).mono (fun _ => False.elim) fun _ h => h
  refine Guarded.bind (p := workOn s mode path) ?_ fun _ => trivial
  refine Guarded.bind (hweaken (look_never (fun _ => id) (fun _ => id) id)) fun finding => Guarded.bind ?_ fun error => ?_
  · cases finding with
    | failed e => trivial
    | skipped => exact Program.guarded_ask_bind id fun _ => Or.inr trivial
    | parsed f => exact Program.guarded_ask_bind id fun x => Or.inl ⟨f, x, rfl⟩
  · cases error with
    | none => trivial
    | some e => exact hweaken (quiet _)

/-- If no batch failed, there is nothing to settle. -/
theorem settle_empty : settle mode {} = .done () := by
  have hnone : BatchResult.failedFiles {} = [] :=
    List.eq_nil_iff_forall_not_mem.2 fun path hmem =>
      BatchResult.not_lost_empty path (BatchResult.mem_failedFiles.1 hmem)
  unfold settle
  rw [hnone]
  rfl

/-- What is not loud does not change the cache. -/
theorem ledger_of_not_loud {a : Action} {x : a.Answer} {hashes hashes' : Hashes}
    (h : ledger a hashes x hashes') (silent : ¬a.Loud) : hashes' = hashes := by
  cases a with
  | listFiles rules limit => exact h.1
  | hashes => exact h.1
  | recordHash | forgetHashes | clearCache => exact absurd trivial silent
  | _ => exact h

theorem hashes_eq_of_silent {threshold : Nat} {crew : Crew jobs Job BatchResult}
    {ts ts' : List (Thread jobs Job BatchResult)} {s s' : Hashes × ScanState}
    {log : List (Nat × Exchange jobs)} (h : Runs (jobRules threshold ledger) crew ts s log ts' s')
    (silent : ∀ e ∈ log.map (·.2), ¬Acts Action.Loud e.request) : s'.1 = s.1 := by
  induction h with
  | stop => rfl
  | @turn ts ts' s s' s'' log i t r next x chosen asks answer others ih =>
    obtain ⟨hfirst, hrest⟩ := List.forall_mem_cons.1 silent
    rw [ih hrest]
    cases r with
    | action a => exact ledger_of_not_loud answer.1 hfirst
    | shared c => exact answer.1

end Scan

namespace ConcurrentScan

open Scan

variable {s : Services} {mode mode' : ScanMode} {before after after' : Hashes}
  {result result' : ScanResult} {run : ConcurrentScan s mode before result after} {w : Snapshot}

variable (run) in
/-- As many files are processed as are found. -/
theorem processed_eq_length : result.processed = run.found.length := by
  have hworks := processed_eq run.works
  have hends := processed_eq run.ends
  have hcloses := processed_eq run.closes
  rw [run.sharedLog_closing, hends, hworks] at hcloses
  have hprocessed : result.processed = run.last.2.processed := congrArg ScanResult.processed run.reports
  rw [hprocessed, hcloses, found, log, sharedLog_append, List.filterMap_append, List.length_append]
  show 0 + _ + _ + 0 = _
  omega

/-- A scan that finds the cache up to date finds no file. -/
theorem found_eq_nil (tells : mode.OnlyTells) (finds : run.Finds w)
    (known : w.UpToDate s run.listed before) : run.found = [] := by
  refine List.eq_nil_iff_forall_not_mem.2 fun f hf => ?_
  obtain ⟨text, htext, hunknown, -⟩ := exists_text_of_found tells finds hf
  exact hunknown (known.current f.path (listed_of_found hf) text htext)

/-- Without files there are no blocks for batches. -/
theorem eq_nil_of_submitted (hfound : run.found = []) {items : List PendingBlock}
    (h : items ∈ run.submitted) : items = [] := by
  refine List.eq_nil_iff_forall_not_mem.2 fun item hitem => ?_
  obtain ⟨f, hf, -⟩ := exists_found_of_item h hitem
  rw [hfound] at hf
  cases hf

/-- Before its closing, a scan that finds no file does nothing loud, and no batch has a result. -/
theorem silent_of_found (quiet : mode.Quiet) (hfound : run.found = []) {t : Thread jobs Job BatchResult}
    (ht : t ∈ run.ended) {r : BatchResult} (hrest : t.rest = .done r) :
    (∀ e ∈ t.trace, ¬Acts Action.Loud e.request) ∧ r = {} := by
  have hfollows := sound_ended t ht
  rw [Crew.Sound, hrest] at hfollows
  have hhandles := yields_job t.job r t.trace hfollows
  have hjobs := List.mem_map_of_mem (f := (·.job)) ht
  cases hjob : t.job with
  | file path =>
    rw [hjob] at hfollows hhandles
    refine ⟨fun e he hloud => ?_, hhandles.result_eq rfl⟩
    obtain ⟨front, rest, htrace⟩ := List.append_of_mem he
    obtain ⟨_, ho, f, x, rfl⟩ := Follows.exists_opens hfollows (guarded_file_loud quiet) htrace hloud
    obtain ⟨i, hi⟩ := List.mem_iff_getElem?.1 ht
    have hlog : (i, ⟨.shared (.count f), x⟩) ∈ run.log := by
      rw [← Program.Crew.mem_own, ← trace_eq hi, htrace]
      exact List.mem_append_left _ ho
    have hf : f ∈ run.found := mem_counted.2 ⟨x, mem_sharedLog.2 ⟨i, hlog⟩⟩
    rw [hfound] at hf
    cases hf
  | flush =>
    rw [hjob] at hfollows hhandles
    have hnever : (Job.program s mode .flush).Never (Acts Action.Loud) := never_flush
    exact ⟨Follows.never hfollows hnever, hhandles.result_eq rfl⟩
  | batch items =>
    have hsubmitted : items ∈ run.submitted := by
      rw [← run.filterMap_batch_jobs]
      exact List.mem_filterMap.2 ⟨_, hjobs, by rw [hjob]; rfl⟩
    rw [hjob, eq_nil_of_submitted hfound hsubmitted] at hfollows
    -- without items a batch is done at once
    obtain ⟨hnone, hr⟩ := Program.follows_done_iff.1 hfollows
    exact ⟨hnone ▸ List.forall_mem_nil _, hr.symm⟩
  | close listed batches =>
    rw [run.map_job_ended, hjob] at hjobs
    simp at hjobs

theorem silent_log (quiet : mode.Quiet) (hfound : run.found = []) :
    ∀ e ∈ run.log.map (·.2), ¬Acts Action.Loud e.request := by
  intro e he
  obtain ⟨⟨i, e⟩, hlog, rfl⟩ := List.mem_map.1 he
  obtain ⟨t, ht, htrace⟩ := exists_thread hlog
  obtain ⟨r, -, hrest⟩ := exists_rest (List.mem_of_getElem? ht)
  exact (silent_of_found quiet hfound (List.mem_of_getElem? ht) hrest).1 e htrace

theorem merged_of_found (quiet : mode.Quiet) (hfound : run.found = []) :
    run.results.foldl BatchResult.merge {} = {} := by
  have hnone : ∀ r ∈ run.results, r = {} := by
    intro r hr
    obtain ⟨t, ht, hrest⟩ := exists_thread_of_result hr
    exact (silent_of_found quiet hfound ht hrest).2
  generalize run.results = results at hnone
  induction results with
  | nil => rfl
  | cons r results ih =>
    obtain ⟨rfl, hresults⟩ := List.forall_mem_cons.1 hnone
    exact ih hresults

/-- If the cache holds listed files only, a scan that finds no file does nothing loud in the end. -/
theorem silent_closing (quiet : mode.Quiet) (hfound : run.found = [])
    (hpresent : ∀ path, (before.get? path).isSome → path ∈ run.listed) :
    ∀ e ∈ run.closing.map (·.2), ¬Acts Action.Loud e.request := by
  have hsettled : run.settled.1 = before := by
    have hlog := silent_log quiet hfound
    rw [log, List.map_append] at hlog
    obtain ⟨hworking, hending⟩ := List.forall_mem_append.1 hlog
    exact (hashes_eq_of_silent run.ends hending).trans (hashes_eq_of_silent run.works hworking)
  obtain ⟨front, behind, hashes, hclosing, hsettle, hdrop, hlook⟩ := run.exists_look_closing
  rw [merged_of_found quiet hfound, settle_empty] at hsettle
  obtain ⟨rfl, -⟩ := Program.follows_done_iff.1 hsettle
  have hvanished : vanishedOf run.listed hashes = [] := by
    refine List.filter_eq_nil_iff.2 fun path hpath => ?_
    have hsome := Hashes.isSome_get?_iff.2 hpath
    rw [hlook, hsettled] at hsome
    simpa using hpresent path hsome
  rw [hvanished] at hdrop
  obtain ⟨rfl, -⟩ := Program.follows_done_iff.1 hdrop
  rw [hclosing]
  exact List.forall_mem_singleton.2 id

/-- A scan that finds the cache up to date does nothing loud, leaves the cache as it is, and processes no
file. -/
theorem silent_of_upToDate (run : ConcurrentScan s mode before result after) (quiet : mode.Quiet)
    (finds : run.Finds w) (known : w.UpToDate s run.listed before) :
    (∀ e ∈ run.exchanged, ¬Acts Action.Loud e.request) ∧ after = before ∧ result.processed = 0 ∧
      result.total = 0 := by
  have hfound := found_eq_nil quiet.onlyTells finds known
  have hlog := silent_log quiet hfound
  have hclosing := silent_closing quiet hfound known.present
  refine ⟨List.forall_mem_append.2 ⟨hlog, hclosing⟩, ?_, ?_, ?_⟩
  · rw [log, List.map_append] at hlog
    obtain ⟨hworking, hending⟩ := List.forall_mem_append.1 hlog
    rw [← run.cache, hashes_eq_of_silent run.closes hclosing, hashes_eq_of_silent run.ends hending,
      hashes_eq_of_silent run.works hworking]
  · rw [run.processed_eq_length, hfound, List.length_nil]
  · rw [run.total_eq, hfound, List.map_nil, List.sum_nil]

/-- After a scan in which no call failed, a second scan of the same files makes no embedding call and changes
neither store nor cache, however the files and batches of both take turns; it reports no processed file and
no block. -/
theorem rescan_is_silent (first : ConcurrentScan s mode before result after)
    (second : ConcurrentScan s mode' after result' after') (tells : mode.OnlyTells)
    (quiet : mode'.Quiet) (finds : first.Finds w) (flawless : first.Flawless) (findsAgain : second.Finds w) :
    (∀ e ∈ second.exchanged, ¬Acts Action.Loud e.request) ∧ after' = after ∧ result'.processed = 0 ∧
      result'.total = 0 := by
  have hlisted : first.listed.Perm second.listed := finds.listed.trans findsAgain.listed.symm
  have hknown := first.upToDate tells finds flawless
  refine second.silent_of_upToDate quiet findsAgain ⟨fun path hpath => ?_, fun path hsome => ?_⟩
  · exact hknown.current path (hlisted.mem_iff.2 hpath)
  · exact hlisted.mem_iff.1 (hknown.present path hsome)

/-! ### Two scans of two files -/

section
variable {handle : Handler indexing Hashes} {first second third : List Nat} {indexes : mode.indexes = true}
  {follows : ∀ a hashes, ledger a hashes (handle a hashes).1 (handle a hashes).2}
  {worked : ((workTurns s mode handle before first).2.1.take
    ((listing s).run handle before).1.length).map (·.rest.result?) =
      ((listing s).run handle before).1.map fun _ => some {}}
  {ended : (endTurns s mode handle before first second).2.1.map (·.rest.result?) =
    (turnResults s mode handle before first second).map some}
  {closed : (closeTurns s mode handle before first second third).2.1.map (·.rest.result?) = [some {}]}

/-- What holds of all answers of a handler holds of the scan by turns. -/
theorem answered_inTurns {p : (a : Action) → a.Answer → Prop} (h : ∀ a hashes, p a (handle a hashes).1) :
    ∀ e ∈ (inTurns s mode handle before first second third indexes follows worked ended closed).exchanged,
      Answered p e := by
  have hjobs : ∀ r st, Answered p ⟨r, (answerJobs s.tuning.batchThreshold handle r st).1⟩ := by
    intro r st
    cases r with
    | action a => exact h a st.1
    | shared c => trivial
  have hturns := Program.Crew.forall_mem_takeTurns hjobs (crew s mode)
  intro e he
  rcases List.mem_append.1 he with he | he
  · rw [log, List.map_append] at he
    exact (List.mem_append.1 he).elim (hturns _ _ _ e) (hturns _ _ _ e)
  · exact hturns _ _ _ e he

end

/-- Answers from the small workspace, where nothing fails. -/
def answerSmall : Handler indexing Hashes :=
  attendCache (fun path => some (Premises.smallText path)) ["/w/a.rs", "/w/b.rs"] fun _ => false

theorem ledger_answerSmall (a : Action) (hashes : Hashes) :
    ledger a hashes (answerSmall a hashes).1 (answerSmall a hashes).2 :=
  ledger_attendCache (by decide) a hashes

/-- The small workspace. -/
def smallSnapshot : Snapshot where
  listed := ["/w/a.rs", "/w/b.rs"]
  size _ := .ok 0
  content path := .ok (Premises.smallText path)

theorem answers_answerSmall (a : Action) (hashes : Hashes) :
    smallSnapshot.Answers a (answerSmall a hashes).1 := by
  cases a with
  | fileSize path => rfl
  | readFile path => rfl
  | _ => trivial

theorem succeeds_answerSmall (a : Action) (hashes : Hashes) : a.Succeeds (answerSmall a hashes).1 := by
  cases a with
  | embed texts => exact ⟨_, rfl, List.length_map _⟩
  | upsert points => rfl
  | deletePoints paths => rfl
  | _ => trivial

/-- A scan by turns that finds an older text of the first file in the cache, and a file that is gone. -/
def settling :=
  inTurns eager { tell := Lifecycle.showScan } answerSmall [("/w/a.rs", "old"), ("/w/gone.rs", "gone")]
    fileTurns batchTurns (List.replicate 4 0) ScanMode.indexes_showScan ledger_answerSmall
    (by decide +kernel) (by decide +kernel) (by decide +kernel)

/-- The cache as that scan leaves it. -/
def settledCache : Hashes :=
  (closeTurns eager { tell := Lifecycle.showScan } answerSmall
    [("/w/a.rs", "old"), ("/w/gone.rs", "gone")] fileTurns batchTurns (List.replicate 4 0)).2.2.1

/-- A second scan, with the same turns. -/
def resting :=
  inTurns eager { tell := Lifecycle.showScan } answerSmall settledCache fileTurns batchTurns
    (List.replicate 4 0) ScanMode.indexes_showScan ledger_answerSmall (by decide +kernel)
    (by decide +kernel) (by decide +kernel)

/-- The first of two scans processes both files, the second none. -/
theorem rescan_is_silent_small : ∃ result after result' after',
    ∃ first : ConcurrentScan eager { tell := Lifecycle.showScan }
      [("/w/a.rs", "old"), ("/w/gone.rs", "gone")] result after,
    ∃ second : ConcurrentScan eager { tell := Lifecycle.showScan } after result' after',
      first.Finds smallSnapshot ∧ first.Flawless ∧ second.Finds smallSnapshot ∧ result.processed = 2 ∧
      (∀ e ∈ second.exchanged, ¬Acts Action.Loud e.request) ∧ after' = after ∧ result'.processed = 0 ∧
        result'.total = 0 := by
  have hfinds : settling.Finds smallSnapshot := ⟨.refl _, answered_inTurns answers_answerSmall⟩
  have hflawless : settling.Flawless := answered_inTurns succeeds_answerSmall
  have hagain : resting.Finds smallSnapshot := ⟨.refl _, answered_inTurns answers_answerSmall⟩
  exact ⟨_, _, _, _, settling, resting, hfinds, hflawless, hagain, by decide +kernel,
    settling.rescan_is_silent resting ScanMode.onlyTells_showScan ScanMode.quiet_showScan hfinds
      hflawless hagain⟩

end ConcurrentScan

end SourceIndex
