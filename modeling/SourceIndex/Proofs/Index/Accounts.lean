import Mathlib.Data.List.Perm.Basic
import SourceIndex.Proofs.Index.Replacements
/-!
# The accounts of a scan

Every job leaves its items in segments that were stored by a call each and in segments that were lost
(`Scan.Divides`, `Scan.yields_divides`). Put together over all threads these are the accounts of the
scan: the counts add up, and the files of which something was lost are those that leave the cache in the
end.
-/

namespace SourceIndex

open Program (Crew Exchange Follows Guarded Thread)
open Program.Crew (own)

/-- Premises under which every request may fail. -/
def Services.lenient (s : Services) : Premises where
  root := s.root
  trees := s.trees
  policy := s.tuning.chunk
  paths _ := True
  texts _ _ := True
  fails _ := True

namespace Scan

variable {s : Services} {mode : ScanMode} {job : Job} {r : BatchResult} {items : List PendingBlock}
  {path : String}

/-! ## What a job leaves of its items -/

/-- The items of a job are divided into segments that were stored, by a call each, and others that were
lost. A batch has entered the hashes of those that were stored. -/
structure Divides (s : Services) (job : Job) (r : BatchResult) (log : List Effect)
    (landed lost : List (List PendingBlock)) : Prop where
  stored : Premises.Stored (blockStrategy s.root) landed log
  parts : (landed.flatten ++ lost.flatten).Perm job.items
  lost_iff : ∀ path, r.Lost path ↔ ∃ item ∈ lost.flatten, item.block.filePath = path
  hash : job.batch?.isSome → ∀ path base, log.foldl (Effect.onHash path) base =
    (((blockStrategy s.root).itemsOf path landed.flatten).getLast?.map
      (blockStrategy s.root).fileHash).or base

/-- A call that stored points. -/
def Stores (e : Effect) : Prop :=
  ∃ points, e = .stored points

theorem storesOf_eq_nil {log : List Effect} (h : ∀ e ∈ log, ¬Stores e) : storesOf log = [] := by
  unfold storesOf
  rw [List.filterMap_eq_nil_iff]
  intro e hmem
  split
  · exact absurd ⟨_, rfl⟩ (h _ hmem)
  · rfl

/-- Only batches store points. -/
theorem never_stores (tells : mode.OnlyTells) (hjob : job.batch? = none) :
    (job.program s mode).Never (Does Stores) := by
  cases job with
  | file path =>
    refine (guarded_file tells Stores).mono ?_ fun _ h => h
    rintro _ ⟨f, x, -, -, -, ⟨_, heq⟩ | ⟨_, heq⟩ | ⟨_, heq⟩⟩
    · cases heq
    · cases heq
    · cases heq
  | flush => exact never_flush
  | batch items => cases hjob
  | close listed batches =>
    refine (guarded_close tells Stores ?_).mono ?_ fun _ h => h
    · rintro - ⟨_, heq⟩
      cases heq
    · rintro _ ⟨_, ⟨_, -, ⟨_, heq⟩ | ⟨_, heq⟩ | ⟨_, heq⟩⟩, -⟩
      · cases heq
      · cases heq
      · cases heq

/-- Only batches have results. -/
theorem Handles.result_eq {steps : List (Exchange sharing)} (h : Handles s job r steps)
    (hjob : job.batch? = none) : r = {} := by
  cases h with
  | batch items r sizes sum total => cases hjob
  | _ => rfl

theorem items_eq_nil (hjob : job.batch? = none) : job.items = [] := by
  cases job with
  | batch items => cases hjob
  | _ => rfl

theorem quiet_tellSegment {e : Premises} (before size : Nat) (log : List Effect) :
    (tellSegment before size).Ensures e.logs log fun _ log' => log' = log := by
  refine Premises.ensures_log_ask fun _ effects heffects => ?_
  have heffects : effects = [] := heffects
  rw [heffects, List.append_nil]

/-- The items of a file that did not land are lost. -/
theorem itemsOf_ne_iff {landed lost : List (List PendingBlock)} {segments : List (List PendingBlock)}
    (hsub : landed.Sublist segments) (hparts : segments.Perm (landed ++ lost)) :
    (blockStrategy s.root).itemsOf path landed.flatten ≠
        (blockStrategy s.root).itemsOf path segments.flatten ↔
      ∃ item ∈ lost.flatten, item.block.filePath = path := by
  have hperm : ((blockStrategy s.root).itemsOf path segments.flatten).Perm
      ((blockStrategy s.root).itemsOf path landed.flatten ++
        (blockStrategy s.root).itemsOf path lost.flatten) := by
    rw [← Premises.itemsOf_append, ← List.flatten_append]
    exact hparts.flatten.filter _
  have hlength := hperm.length_eq
  rw [List.length_append] at hlength
  constructor
  · intro hne
    have hsome : (blockStrategy s.root).itemsOf path lost.flatten ≠ [] := by
      intro hnil
      rw [hnil, List.length_nil, Nat.add_zero] at hlength
      exact hne ((hsub.flatten.filter _).eq_of_length hlength.symm)
    obtain ⟨item, hitem⟩ := List.exists_mem_of_ne_nil _ hsome
    obtain ⟨hitem, hpath⟩ := List.mem_filter.1 hitem
    exact ⟨item, hitem, beq_iff_eq.1 hpath⟩
  · rintro ⟨item, hitem, hpath⟩ heq
    have hpos : 0 < ((blockStrategy s.root).itemsOf path lost.flatten).length :=
      List.length_pos_of_mem (List.mem_filter.2 ⟨hitem, beq_iff_eq.2 hpath⟩)
    rw [heq] at hlength
    omega

theorem yields_batch_divides (tells : mode.OnlyTells) :
    (Job.program s mode (.batch items)).Yields fun r trace => ∃ landed lost,
      Divides s (.batch items) r (trace.flatMap effects) landed lost := by
  intro r trace h
  obtain ⟨exchanges, hfollows, htranslates⟩ := Program.exists_of_follows_translate h
  have hemits (e : Exchange indexing) :
      s.lenient.emits e.request e.answer (e.request.effects e.answer) :=
    Premises.emits_effects (fun _ => trivial) e.request e.answer
  have hends := hfollows.ends_logging hemits []
  obtain ⟨opening, landed, new, hopening, hworked, hlog, hlost⟩ :=
    Premises.ensures_process_log quiet_tellSegment _ _ hends
  rw [List.nil_append, List.nil_append] at hlog
  obtain ⟨lost, hparts⟩ := hworked.sublist.exists_perm_append
  rw [effects_of_translates tells htranslates, hlog]
  refine ⟨landed, lost, ?_, ?_, fun path => ?_, fun _ path base => ?_⟩
  · rw [Premises.Stored, storesOf_append, hopening.idle_log.storesOf_eq_nil]
    exact hworked.stored
  · rw [← List.flatten_append]
    refine hparts.flatten.symm.trans (.of_eq ?_)
    exact flatten_segmentsOf _ items
  · rw [hlost, ← itemsOf_ne_iff hworked.sublist hparts, flatten_segmentsOf]
  · rw [List.foldl_append, hopening.idle_log.foldl_onHash, hworked.foldl_onHash]

/-- Every job divides its items into what it stored and what it lost. -/
theorem yields_divides (tells : mode.OnlyTells) (job : Job) :
    (job.program s mode).Yields fun r trace => ∃ landed lost,
      Divides s job r (trace.flatMap effects) landed lost := by
  intro r trace h
  cases hjob : job.batch? with
  | some items =>
    cases job with
    | batch items => exact yields_batch_divides tells r trace h
    | _ => cases hjob
  | none =>
    have hresult : r = {} := (yields_job job r trace h).result_eq hjob
    have hstores : storesOf (trace.flatMap effects) = [] :=
      storesOf_eq_nil (not_effect_of_not_does (h.never (never_stores tells hjob)))
    refine ⟨[], [], ?_, ?_, fun path => ?_, fun hsome => ?_⟩
    · rw [Premises.Stored, hstores]
      exact .nil
    · rw [items_eq_nil hjob]
      exact .refl _
    · rw [hresult]
      exact iff_of_false (BatchResult.not_lost_empty path) (by simp)
    · rw [hjob] at hsome
      cases hsome

/-- If nothing of a file was lost, a batch with an item of it has entered the hash of such an item. -/
theorem Divides.hash_eq {log : List Effect} {landed lost : List (List PendingBlock)}
    (h : Divides s job r log landed lost) (hjob : job.batch?.isSome)
    (hnone : ∀ item ∈ lost.flatten, item.block.filePath ≠ path)
    (hsome : ∃ item ∈ job.items, item.block.filePath = path) (base : Option String) :
    ∃ item ∈ job.items, item.block.filePath = path ∧
      log.foldl (Effect.onHash path) base = some item.block.fileHash := by
  obtain ⟨one, hone, hpath⟩ := hsome
  have hlanded : one ∈ (blockStrategy s.root).itemsOf path landed.flatten := by
    refine List.mem_filter.2 ⟨?_, beq_iff_eq.2 hpath⟩
    rcases List.mem_append.1 (h.parts.mem_iff.2 hone) with hin | hin
    · exact hin
    · exact absurd hpath (hnone one hin)
  rw [h.hash hjob]
  cases hlast : ((blockStrategy s.root).itemsOf path landed.flatten).getLast? with
  | none =>
    rw [List.getLast?_eq_none_iff.1 hlast] at hlanded
    cases hlanded
  | some last =>
    obtain ⟨hin, hpath'⟩ := List.mem_filter.1 (List.mem_of_getLast? hlast)
    exact ⟨last, h.parts.subset (List.mem_append_left _ hin), beq_iff_eq.1 hpath', rfl⟩

end Scan

/-! ## Results taken together -/

namespace BatchResult

theorem lost_foldl_merge {path : String} (results : List BatchResult) (r : BatchResult) :
    (results.foldl merge r).Lost path ↔ r.Lost path ∨ ∃ r' ∈ results, r'.Lost path := by
  induction results generalizing r with
  | nil => simp
  | cons first results ih =>
    rw [List.foldl_cons, ih, lost_merge, or_assoc]
    simp

theorem total_foldl_merge (results : List BatchResult) (r : BatchResult) :
    (results.foldl merge r).processed + (results.foldl merge r).failed =
      r.processed + r.failed + (results.map fun r => r.processed + r.failed).sum := by
  induction results generalizing r with
  | nil => rfl
  | cons first results ih =>
    rw [List.foldl_cons, ih, List.map_cons, List.sum_cons]
    simp only [merge]
    omega

end BatchResult

/-! ## The accounts of a whole scan -/

namespace ConcurrentScan

open Scan

variable {s : Services} {mode : ScanMode} {before after : Hashes} {result : ScanResult}
  {run : ConcurrentScan s mode before result after} {f : ParsedFile} {path : String}

variable (run) in
/-- The items of all jobs are those of the submitted batches. -/
theorem flatMap_items : run.ended.flatMap (·.job.items) = run.submitted.flatten := by
  have hjobs : ∀ threads : List (Thread jobs Job BatchResult),
      threads.flatMap (·.job.items) = ((threads.map (·.job)).filterMap Job.batch?).flatten := by
    intro threads
    induction threads with
    | nil => rfl
    | cons t threads ih =>
      rw [List.flatMap_cons, ih, List.map_cons, List.filterMap_cons]
      cases t.job with
      | batch items => rfl
      | _ => rfl
  rw [hjobs, run.filterMap_batch_jobs]

variable (run) in
/-- The jobs have as many items as there are blocks. -/
theorem sum_items : (run.ended.map fun t => t.job.items.length).sum =
    (run.found.map fun f => f.blocks.length).sum := by
  have hlength := run.perm_flatten_submitted.length_eq
  rw [← run.flatMap_items, List.length_flatMap, List.length_flatMap] at hlength
  refine hlength.trans ?_
  congr 1
  exact List.map_congr_left fun f _ => List.length_map _

variable (run) in
/-- The closing has nothing to do with what the jobs share. -/
theorem sharedLog_closing : sharedLog run.closing = [] := by
  refine List.filterMap_eq_nil_iff.2 fun ⟨r, x⟩ hmem => ?_
  cases r with
  | action a => rfl
  | shared c => exact absurd ⟨c, rfl⟩ (run.follows_closing.never (never_shared_close _ _) _ hmem)

variable (run) in
/-- The total is the number of the blocks that were found. -/
theorem total_eq : result.total = (run.found.map fun f => f.blocks.length).sum := by
  have hworks := found_eq run.works
  have hends := found_eq run.ends
  have hcloses := found_eq run.closes
  rw [run.sharedLog_closing, hends, hworks] at hcloses
  have htotal : result.total = run.last.2.found := congrArg ScanResult.total run.reports
  rw [htotal, hcloses, found, log, sharedLog_append, List.filterMap_append, List.map_append,
    List.sum_append]
  show 0 + _ + _ + 0 = _
  omega

variable (run) in
include run in
/-- Every block is counted once, as indexed or as failed. -/
theorem indexed_add_failed : result.indexed + result.failed = result.total := by
  have hcounts : (run.results.map fun r => r.processed + r.failed) =
      run.ended.map fun t => t.job.items.length := by
    refine List.ext_getElem? fun i => ?_
    have hlength : run.ended.length = run.results.length := by
      simpa using congrArg List.length run.allDone
    rw [List.getElem?_map, List.getElem?_map]
    cases ht : run.ended[i]? with
    | none =>
      rw [List.getElem?_eq_none (hlength ▸ List.getElem?_eq_none_iff.1 ht)]
      rfl
    | some t =>
      obtain ⟨r, hr, hfollows⟩ := exists_follows ht
      rw [hr]
      exact congrArg some (yields_job t.job r t.trace hfollows).total
  have hboth : result.indexed + result.failed =
      (run.results.foldl BatchResult.merge {}).processed +
        (run.results.foldl BatchResult.merge {}).failed :=
    congrArg (fun result => result.indexed + result.failed) run.reports
  rw [run.total_eq, ← run.sum_items, ← hcounts, hboth, BatchResult.total_foldl_merge]
  show 0 + 0 + _ = _
  omega

variable (run) in
/-- The steps of progress add up to the total. -/
theorem sum_steps : run.steps.sum = result.total := by
  rw [run.total_eq, ← run.sum_items, steps, ← (run.perm_filterMap advanced).sum_eq,
    List.flatMap_def, List.sum_flatten, List.map_map]
  congr 1
  refine List.map_congr_left fun t ht => ?_
  obtain ⟨r, -, hhandles⟩ := exists_handles ht
  exact hhandles.advanced_eq

/-- What a thread ended with is one of the results. -/
theorem exists_rest {t : Thread jobs Job BatchResult} (h : t ∈ run.ended) :
    ∃ r ∈ run.results, t.rest = .done r := by
  have hmem := List.mem_map_of_mem (f := (·.rest)) h
  rw [run.allDone] at hmem
  obtain ⟨r, hr, hrest⟩ := List.mem_map.1 hmem
  exact ⟨r, hr, hrest.symm⟩

theorem exists_thread_of_result {r : BatchResult} (h : r ∈ run.results) :
    ∃ t ∈ run.ended, t.rest = .done r := by
  have hmem := List.mem_map_of_mem (f := Program.done (I := jobs)) h
  rw [← run.allDone] at hmem
  obtain ⟨t, ht, hrest⟩ := List.mem_map.1 hmem
  exact ⟨t, ht, hrest⟩

variable (run) in
/-- Every thread has divided its items. -/
theorem exists_divisions (tells : mode.OnlyTells) :
    ∃ landed lost : Thread jobs Job BatchResult → List (List PendingBlock),
      ∀ t ∈ run.ended, ∀ r, t.rest = .done r →
        Divides s t.job r (t.trace.flatMap Scan.effects) (landed t) (lost t) := by
  have hdivides (t : Thread jobs Job BatchResult) : ∃ landed lost, t ∈ run.ended →
      ∀ r, t.rest = .done r → Divides s t.job r (t.trace.flatMap Scan.effects) landed lost := by
    by_cases ht : t ∈ run.ended
    · obtain ⟨r, -, hrest⟩ := exists_rest ht
      have hfollows := sound_ended t ht
      rw [Crew.Sound, hrest] at hfollows
      obtain ⟨landed, lost, h⟩ := yields_divides tells t.job r t.trace hfollows
      refine ⟨landed, lost, fun _ r' hrest' => ?_⟩
      rw [hrest] at hrest'
      cases hrest'
      exact h
    · exact ⟨[], [], fun h => absurd h ht⟩
  choose landed lost h using hdivides
  exact ⟨landed, lost, h⟩

variable (run) in
/-- The effects of all threads are those of the log, in some order. -/
theorem perm_effects : (run.ended.flatMap fun t => t.trace.flatMap Scan.effects).Perm
    ((run.log.map (·.2)).flatMap Scan.effects) := by
  rw [← List.flatMap_assoc]
  exact run.perm_log.flatMap_right _

/-- The calls that stored points are those of the segments that landed. -/
theorem exists_stored (tells : mode.OnlyTells)
    {landed : Thread jobs Job BatchResult → List (List PendingBlock)}
    (h : ∀ t ∈ run.ended, Premises.Stored (blockStrategy s.root) (landed t)
      (t.trace.flatMap Scan.effects)) :
    ∃ ordered, ordered.Perm (run.ended.flatMap landed) ∧
      Premises.Stored (blockStrategy s.root) ordered run.effects := by
  have hthreads : ∀ threads : List (Thread jobs Job BatchResult),
      (∀ t ∈ threads, Premises.Stored (blockStrategy s.root) (landed t)
        (t.trace.flatMap Scan.effects)) →
      Premises.Stored (blockStrategy s.root) (threads.flatMap landed)
        (threads.flatMap fun t => t.trace.flatMap Scan.effects) := by
    intro threads
    induction threads with
    | nil => exact fun _ => .nil
    | cons t threads ih =>
      intro hall
      rw [Premises.Stored, List.flatMap_cons, List.flatMap_cons, storesOf_append]
      exact List.rel_append (hall t List.mem_cons_self)
        (ih fun u hu => hall u (List.mem_cons_of_mem _ hu))
  have hclosing : storesOf ((run.closing.map (·.2)).flatMap Scan.effects) = [] :=
    storesOf_eq_nil (not_effect_of_not_does (run.follows_closing.never (never_stores tells rfl)))
  have hperm : (storesOf (run.ended.flatMap fun t => t.trace.flatMap Scan.effects)).Perm
      (storesOf run.effects) := by
    rw [effects, storesOf_append, hclosing, List.append_nil]
    exact run.perm_effects.filterMap _
  have hboth : Relation.Comp (List.Forall₂ fun (segment : List PendingBlock) points =>
      ∃ vectors : List Vector32, vectors.length = segment.length ∧
        points = segment.zipWith (blockStrategy s.root).point vectors)
      List.Perm (run.ended.flatMap landed) (storesOf run.effects) :=
    ⟨_, hthreads run.ended h, hperm⟩
  rw [List.forall₂_comp_perm_eq_perm_comp_forall₂] at hboth
  obtain ⟨ordered, hordered, hstored⟩ := hboth
  exact ⟨ordered, hordered.symm, hstored⟩

/-! ## Hashes after a scan -/

variable (run) in
/-- Of a listed file, the closing only takes the hash, if some of its blocks failed. -/
theorem get?_after (tells : mode.OnlyTells) (hlisted : path ∈ run.listed) :
    after.get? path = if path ∈ (run.results.foldl BatchResult.merge {}).failedFiles then none
      else run.settled.1.get? path := by
  refine (congrArg (Hashes.get? · path) run.cache.symm).trans ?_
  rw [get?_of_runs run.closes path]
  exact yields_close_hash tells hlisted _ _ run.follows_closing _

/-- The hash of a file is changed by the thread of the batch that it is in. -/
theorem eq_of_touches (tells : mode.OnlyTells) (hf : f ∈ run.found) (hblocks : f.blocks ≠ [])
    {i j : Nat} {t : Thread jobs Job BatchResult} {items : List PendingBlock} {item : PendingBlock}
    (ht : run.ended[i]? = some t) (hjob : t.job = .batch items) (hitem : item ∈ items)
    (hpath : item.block.filePath = f.path) {e : Exchange jobs} {effect : Effect}
    (h : (j, e) ∈ run.log) (heffect : effect ∈ Scan.effects e) (htouches : Touches f.path effect) :
    j = i := by
  obtain ⟨u, hu, ⟨g, hg, -, hempty, hempties⟩ | ⟨others, hothers, hjob', hnot⟩⟩ :=
    exists_cause tells (Touches f.path) h heffect htouches
  · rcases hempties with ⟨_, hne⟩ | ⟨_, hne⟩ | hrecorded
    · exact absurd rfl hne
    · exact absurd rfl hne
    · obtain rfl := found_inj hf hg hrecorded.path_eq
      exact absurd hempty hblocks
  · by_cases hsome : ∃ other ∈ others, other.block.filePath = f.path
    · obtain ⟨other, hother, heq⟩ := hsome
      exact batch_unique hu ht hjob' hjob hother hitem (heq.trans hpath.symm)
    · refine absurd ⟨unstored_touches fun other hother heq => hsome ⟨other, hother, heq⟩, ?_, ?_⟩ hnot
      · exact fun ⟨_, hne⟩ => hne rfl
      · exact fun ⟨_, hne⟩ => hne rfl

/-- A file of which nothing was lost has its new hash before the closing. -/
theorem get?_settled_of_not_lost (tells : mode.OnlyTells)
    {landed lost : Thread jobs Job BatchResult → List (List PendingBlock)}
    (hdivides : ∀ t ∈ run.ended, ∀ r, t.rest = .done r →
      Divides s t.job r (t.trace.flatMap Scan.effects) (landed t) (lost t))
    (hf : f ∈ run.found) (hblocks : f.blocks ≠ [])
    (hnone : ∀ t ∈ run.ended, ∀ item ∈ (lost t).flatten, item.block.filePath ≠ f.path) :
    run.settled.1.get? f.path = some f.hash := by
  obtain ⟨first, items, last, front, rest, hsubmitted, hitems, -, -⟩ := exists_batch hf hblocks
  have hin : items ∈ run.submitted := hsubmitted ▸ List.mem_append_right _ List.mem_cons_self
  obtain ⟨i, t, ht, hjob⟩ := exists_batch_thread hin
  obtain ⟨one, hone⟩ : ∃ item, item ∈ f.items :=
    List.exists_mem_of_ne_nil _ (by simpa [ParsedFile.items] using hblocks)
  have hpath := filePath_of_found hf hone
  have hone' : one ∈ items := by
    rw [hitems]
    exact List.mem_append_left _ (List.mem_append_right _ hone)
  have hmem := List.mem_of_getElem? ht
  obtain ⟨r, -, hrest⟩ := exists_rest hmem
  have hjobItems : t.job.items = items := by rw [hjob]; rfl
  rw [run.get?_settled, foldl_onHash_own fun j e effect h heffect htouches =>
    eq_of_touches tells hf hblocks ht hjob hone' hpath h heffect htouches, ← trace_eq ht]
  obtain ⟨item, hitem, heq, hhash⟩ := (hdivides t hmem r hrest).hash_eq (by rw [hjob]; rfl)
    (hnone t hmem) ⟨one, hjobItems ▸ hone', hpath⟩ (before.get? f.path)
  rw [hjobItems] at hitem
  obtain ⟨g, hg, hin⟩ := exists_found_of_item hin hitem
  obtain rfl := found_inj hg hf ((filePath_of_found hg hin).symm.trans heq)
  rw [hhash, (parses_of_found hg).fileHash item hin]

/-- The files that leave the cache are those of which something was lost. -/
theorem mem_failedFiles_iff (path : String) {landed lost : Thread jobs Job BatchResult → List (List PendingBlock)}
    (hdivides : ∀ t ∈ run.ended, ∀ r, t.rest = .done r →
      Divides s t.job r (t.trace.flatMap Scan.effects) (landed t) (lost t)) :
    path ∈ (run.results.foldl BatchResult.merge {}).failedFiles ↔
      ∃ t ∈ run.ended, ∃ item ∈ (lost t).flatten, item.block.filePath = path := by
  rw [BatchResult.mem_failedFiles, BatchResult.lost_foldl_merge,
    or_iff_right (BatchResult.not_lost_empty path)]
  constructor
  · rintro ⟨r, hr, hlost⟩
    obtain ⟨t, ht, hrest⟩ := exists_thread_of_result hr
    exact ⟨t, ht, ((hdivides t ht r hrest).lost_iff path).1 hlost⟩
  · rintro ⟨t, ht, hlost⟩
    obtain ⟨r, hr, hrest⟩ := exists_rest ht
    exact ⟨r, hr, ((hdivides t ht r hrest).lost_iff path).2 hlost⟩

/-- What landed and what was lost are the blocks that were found. -/
theorem perm_divisions {landed lost : Thread jobs Job BatchResult → List (List PendingBlock)}
    (hdivides : ∀ t ∈ run.ended, ∀ r, t.rest = .done r →
      Divides s t.job r (t.trace.flatMap Scan.effects) (landed t) (lost t)) :
    ((run.ended.flatMap landed).flatten ++ (run.ended.flatMap lost).flatten).Perm
      (run.found.flatMap ParsedFile.items) := by
  have hflatten : ∀ parts : Thread jobs Job BatchResult → List (List PendingBlock),
      (run.ended.flatMap parts).flatten = run.ended.flatMap fun t => (parts t).flatten := by
    intro parts
    rw [← List.flatMap_id, List.flatMap_assoc]
    exact List.flatMap_congr fun t _ => List.flatMap_id
  rw [hflatten, hflatten]
  refine (List.flatMap_append_perm _ _ _).trans ?_
  refine List.Perm.trans ?_ (run.flatMap_items ▸ run.perm_flatten_submitted)
  refine List.Perm.flatMap_left _ fun t ht => ?_
  obtain ⟨r, -, hrest⟩ := exists_rest ht
  exact (hdivides t ht r hrest).parts

/-- The items of a file among all that were found are its own. -/
theorem itemsOf_found (hf : f ∈ run.found) :
    (blockStrategy s.root).itemsOf f.path (run.found.flatMap ParsedFile.items) = f.items := by
  have hown : ∀ g ∈ run.found, (blockStrategy s.root).itemsOf f.path g.items =
      if g.path = f.path then g.items else [] := by
    intro g hg
    split
    · rename_i heq
      exact List.filter_eq_self.2 fun item hitem => beq_iff_eq.2 ((filePath_of_found hg hitem).trans heq)
    · rename_i hne
      refine List.filter_eq_nil_iff.2 fun item hitem heq => hne ?_
      exact (filePath_of_found hg hitem).symm.trans (beq_iff_eq.1 heq)
  obtain ⟨first, last, hfound⟩ := List.append_of_mem hf
  have hnodup := run.found_nodup
  rw [hfound, List.map_append, List.map_cons, List.nodup_append, List.nodup_cons] at hnodup
  have hnone : ∀ files : List ParsedFile, (∀ g ∈ files, g ∈ run.found ∧ g.path ≠ f.path) →
      (blockStrategy s.root).itemsOf f.path (files.flatMap ParsedFile.items) = [] := by
    intro files hfiles
    rw [BatchStrategy.itemsOf, List.filter_flatMap, List.flatMap_eq_nil_iff]
    exact fun g hg => (hown g (hfiles g hg).1).trans (if_neg (hfiles g hg).2)
  have hfirst := hnone first fun g hg => ⟨hfound ▸ List.mem_append_left _ hg, fun heq =>
    hnodup.2.2 g.path (List.mem_map_of_mem hg) f.path List.mem_cons_self heq⟩
  have hlast := hnone last fun g hg =>
    ⟨hfound ▸ List.mem_append_right _ (List.mem_cons_of_mem _ hg), fun heq =>
      hnodup.2.1.1 (heq ▸ List.mem_map_of_mem hg)⟩
  rw [hfound, List.flatMap_append, List.flatMap_cons, Premises.itemsOf_append, Premises.itemsOf_append,
    hfirst, hlast, hown f hf, if_pos rfl, List.nil_append, List.append_nil]

variable (run) in
/-- Some thread lost an item of a file if and only if such an item is among all that were lost. -/
theorem exists_lost_iff (lost : Thread jobs Job BatchResult → List (List PendingBlock)) (path : String) :
    (∃ t ∈ run.ended, ∃ item ∈ (lost t).flatten, item.block.filePath = path) ↔
      (blockStrategy s.root).itemsOf path (run.ended.flatMap lost).flatten ≠ [] := by
  constructor
  · rintro ⟨t, ht, item, hitem, hpath⟩ hnil
    obtain ⟨segment, hsegment, hin⟩ := List.mem_flatten.1 hitem
    have hmem : item ∈ (run.ended.flatMap lost).flatten :=
      List.mem_flatten.2 ⟨segment, List.mem_flatMap.2 ⟨t, ht, hsegment⟩, hin⟩
    exact List.filter_eq_nil_iff.1 hnil item hmem (beq_iff_eq.2 hpath)
  · intro hne
    obtain ⟨item, hitem⟩ := List.exists_mem_of_ne_nil _ hne
    obtain ⟨hitem, hpath⟩ := List.mem_filter.1 hitem
    obtain ⟨segment, hsegment, hin⟩ := List.mem_flatten.1 hitem
    obtain ⟨t, ht, hsegment⟩ := List.mem_flatMap.1 hsegment
    exact ⟨t, ht, item, List.mem_flatten.2 ⟨segment, hsegment, hin⟩, beq_iff_eq.1 hpath⟩

/-- However the files and batches of a scan take turns, and whatever fails: every block is counted once, as
indexed or as failed; the steps of progress add up to the total; and the blocks that were found are those
of the segments that landed, by one call each that stored their points, and others that were lost. A file
with blocks has its new hash in the cache if all of them landed, and none otherwise. -/
theorem accounts (run : ConcurrentScan s mode before result after) (tells : mode.OnlyTells) :
    result.indexed + result.failed = result.total ∧ run.steps.sum = result.total ∧
      ∃ landed lost : List (List PendingBlock),
        Premises.Stored (blockStrategy s.root) landed run.effects ∧
        (landed.flatten ++ lost.flatten).Perm (run.found.flatMap ParsedFile.items) ∧
        ∀ f ∈ run.found, f.blocks ≠ [] →
          (((blockStrategy s.root).itemsOf f.path landed.flatten).Perm f.items →
            after.get? f.path = some f.hash) ∧
          (¬((blockStrategy s.root).itemsOf f.path landed.flatten).Perm f.items →
            after.get? f.path = none) := by
  obtain ⟨landed, lost, hdivides⟩ := run.exists_divisions tells
  obtain ⟨ordered, hordered, hstored⟩ := exists_stored tells fun t ht => by
    obtain ⟨r, -, hrest⟩ := exists_rest ht
    exact (hdivides t ht r hrest).stored
  have hparts : (ordered.flatten ++ (run.ended.flatMap lost).flatten).Perm
      (run.found.flatMap ParsedFile.items) :=
    (hordered.flatten.append_right _).trans (perm_divisions hdivides)
  refine ⟨run.indexed_add_failed, run.sum_steps, ordered, run.ended.flatMap lost, hstored, hparts,
    fun f hf hblocks => ?_⟩
  have hitems : ((blockStrategy s.root).itemsOf f.path ordered.flatten ++
      (blockStrategy s.root).itemsOf f.path (run.ended.flatMap lost).flatten).Perm f.items := by
    rw [← Premises.itemsOf_append, ← itemsOf_found hf]
    exact hparts.filter _
  have hlost := run.exists_lost_iff lost f.path
  have hfailed := mem_failedFiles_iff f.path hdivides
  rw [run.get?_after tells (listed_of_found hf)]
  constructor
  · intro hperm
    have hlength := hitems.length_eq
    rw [List.length_append, hperm.length_eq] at hlength
    have hnil : (blockStrategy s.root).itemsOf f.path (run.ended.flatMap lost).flatten = [] :=
      List.length_eq_zero_iff.1 (by omega)
    rw [if_neg fun h => hlost.1 (hfailed.1 h) hnil]
    exact get?_settled_of_not_lost tells hdivides hf hblocks fun t ht item hitem hpath =>
      hlost.1 ⟨t, ht, item, hitem, hpath⟩ hnil
  · intro hnot
    refine if_pos (hfailed.2 (hlost.2 fun hnil => hnot ?_))
    rwa [hnil, List.append_nil] at hitems

/-- The second of two files cannot be stored: its block is counted as failed, and it has no hash. -/
theorem accounts_woven : ∃ result after,
    ∃ run : ConcurrentScan eager { tell := Lifecycle.showScan } [("/w/a.rs", "old")] result after,
      result.failed = 1 ∧ result.indexed + result.failed = result.total ∧
      run.steps.sum = result.total ∧
      after.get? "/w/a.rs" = some (contentHash (Premises.smallText "/w/a.rs")) ∧
      after.get? "/w/b.rs" = none := by
  obtain ⟨hcounts, hsteps, -⟩ := woven.accounts ScanMode.onlyTells_showScan
  exact ⟨_, _, woven, by decide +kernel, hcounts, hsteps, by decide +kernel, by decide +kernel⟩

end ConcurrentScan

end SourceIndex
