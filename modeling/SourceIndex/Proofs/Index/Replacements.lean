import SourceIndex.Proofs.Index.Turns
import SourceIndex.Proofs.Index.Wholeness
/-!
# Replacing the points of changed files

Where files and batches take turns, the old points of a changed file are deleted by the one batch that
holds its blocks, in front of everything that this batch stores. No other batch has blocks of the file,
and the closing deletes only points of files that are no longer listed. So in the log of the whole scan the
deletion comes first, and nothing deletes points of the file behind (`deleted_first`), provided that different
files have different names in the store (`DistinctNames`).
-/

namespace SourceIndex

open Program (Crew Exchange Follows Rules Thread)
open Program.Crew (own traceAt Runs)

namespace Scan

/-! ## Files that have been counted -/

section Counting
variable {s : Services} {mode : ScanMode} {listed : List String} {before : Hashes}
  {log : List (Nat × Exchange jobs)} {ts : List (Thread jobs Job BatchResult)}
  {s' : Hashes × ScanState} {path : String} {f : ParsedFile}

variable (run : Runs (jobRules s.tuning.batchThreshold ledger) (crew s mode)
  (listed.map fun path => (crew s mode).start (.file path)) (before, {}) log ts s')

include run

/-- While files are worked on, what is done is done by a file or by a batch that was submitted. -/
theorem exists_working {i : Nat} {e : Exchange jobs} (h : (i, e) ∈ log) : ∃ t ∈ ts,
    e ∈ t.trace ∧ (crew s mode).Sound t ∧ (∀ e' ∈ t.trace, (i, e') ∈ log) ∧
      ((∃ path, t.job = .file path) ∨
        ∃ items ∈ (sharedLog log).filterMap submitted, t.job = .batch items) := by
  have htrace : traceAt ts i = own i log := by
    have hnew := Program.Crew.traceAt_map_start (crew s mode) (listed.map Job.file) i
    rw [List.map_map] at hnew
    rw [run.traceAt_eq]
    exact congrArg (· ++ own i log) hnew
  have hmem := Program.Crew.mem_own.2 h
  rw [← htrace, traceAt] at hmem
  cases ht : ts[i]? with
  | none =>
    rw [ht] at hmem
    cases hmem
  | some t =>
    have hin := List.mem_of_getElem? ht
    rw [ht] at hmem
    refine ⟨t, hin, hmem, run.sound (fun t' ht' => ?_) t hin, fun e' he' => ?_, ?_⟩
    · obtain ⟨path, -, rfl⟩ := List.mem_map.1 ht'
      exact .nil _
    · rw [← Program.Crew.traceAt_of_getElem? ht, htrace] at he'
      exact Program.Crew.mem_own.1 he'
    · have hjob := List.mem_map_of_mem (f := (·.job)) hin
      rw [run.map_job, spawns_eq s mode, List.map_map, List.mem_append] at hjob
      rcases hjob with hfile | hbatch
      · obtain ⟨path, -, heq⟩ := List.mem_map.1 hfile
        exact Or.inl ⟨path, heq.symm⟩
      · obtain ⟨items, hitems, heq⟩ := List.mem_map.1 hbatch
        exact Or.inr ⟨items, hitems, heq.symm⟩

/-- What a file may ask for only behind something else stands behind it in the log. -/
theorem exists_opened {opens : Exchange jobs → Prop} {c : Shared} {x : c.Answer}
    (hc : ∀ size, c ≠ .advance size)
    (hfile : ∀ path, (Job.program s mode (.file path)).Guarded opens (Asks c))
    (h : ⟨c, x⟩ ∈ sharedLog log) : ∃ i o, (i, o) ∈ log ∧ opens o := by
  obtain ⟨i, hmem⟩ := mem_sharedLog.1 h
  obtain ⟨⟨job, trace, rest⟩, -, htrace, hsound, hlog, ⟨path, rfl⟩ | ⟨items, -, rfl⟩⟩ :=
    exists_working run hmem
  · obtain ⟨first, last, heq⟩ := List.append_of_mem htrace
    obtain ⟨o, ho, hopens⟩ := Follows.exists_opens hsound (hfile path) heq rfl
    refine ⟨i, o, hlog o ?_, hopens⟩
    rw [show trace = _ from heq]
    exact List.mem_append_left _ ho
  · exact absurd rfl (Follows.never hsound (never_asks_batch hc) _ htrace)

/-- A batch that is submitted was taken out of the buffer. -/
theorem taken_of_submitted {batch : List PendingBlock}
    (h : batch ∈ (sharedLog log).filterMap submitted) : batch ∈ (sharedLog log).filterMap taken := by
  obtain ⟨⟨c, x⟩, hmem, hsome⟩ := List.mem_filterMap.1 h
  cases c with
  | submit other =>
    cases hsome
    obtain ⟨i, _, hin, items, rfl⟩ := exists_opened run (fun _ h => by cases h) (fun _ => guarded_submit batch) hmem
    exact List.mem_filterMap.2 ⟨_, mem_sharedLog.2 ⟨i, hin⟩, rfl⟩
  | _ => cases hsome

/-- Blocks that are put into the buffer are those of a file that was counted. -/
theorem exists_counted_of_gathered {items : List PendingBlock}
    (h : items ∈ (sharedLog log).filterMap gathered) :
    ∃ f ∈ (sharedLog log).filterMap counted, f.items = items ∧ Parses s f := by
  obtain ⟨⟨c, x⟩, hmem, hsome⟩ := List.mem_filterMap.1 h
  cases c with
  | gather others =>
    cases hsome
    obtain ⟨i, _, hin, f, y, rfl, hitems, hparses⟩ :=
      exists_opened run (fun _ h => by cases h) (fun _ => guarded_gather items) hmem
    exact ⟨f, mem_counted.2 ⟨y, mem_sharedLog.2 ⟨i, hin⟩⟩, hitems, hparses⟩
  | _ => cases hsome

/-- The items of a batch that was submitted are those of files that were counted. -/
theorem exists_counted_of_submitted {batch : List PendingBlock} {item : PendingBlock}
    (h : batch ∈ (sharedLog log).filterMap submitted) (hitem : item ∈ batch) :
    ∃ f ∈ (sharedLog log).filterMap counted, f.path = item.block.filePath := by
  obtain ⟨groups, rest, hlists, hbatches, -⟩ := cut_buffer run [] rfl
  have htaken := taken_of_submitted run h
  rw [hbatches] at htaken
  obtain ⟨group, hgroup, rfl⟩ := List.mem_map.1 htaken
  obtain ⟨items, hitems, hin⟩ := List.mem_flatten.1 hitem
  have hgathered : items ∈ (sharedLog log).filterMap gathered := by
    rw [← List.nil_append ((sharedLog log).filterMap gathered), hlists]
    exact List.mem_append_left _ (List.mem_flatten.2 ⟨group, hgroup, hitems⟩)
  obtain ⟨f, hf, rfl, hparses⟩ := exists_counted_of_gathered run hgathered
  exact ⟨f, hf, (hparses.filePath item hin).symm⟩

/-- Only files that were counted have been touched. -/
theorem exists_counted_of_touched (tells : mode.OnlyTells) {effect : Effect}
    (h : effect ∈ (log.map (·.2)).flatMap effects) (htouches : Touches path effect) :
    ∃ f ∈ (sharedLog log).filterMap counted, f.path = path := by
  obtain ⟨e, he, heffect⟩ := List.mem_flatMap.1 h
  obtain ⟨⟨i, e⟩, hmem, rfl⟩ := List.mem_map.1 he
  have hdoes : Does (Touches path) e.request := by
    obtain ⟨r, x⟩ := e
    cases r with
    | action a => exact ⟨x, effect, heffect, htouches⟩
    | shared c => cases heffect
  obtain ⟨⟨job, trace, rest⟩, -, htrace, hsound, hlog, ⟨other, rfl⟩ | ⟨items, hitems, rfl⟩⟩ :=
    exists_working run hmem
  · obtain ⟨first, last, heq⟩ := List.append_of_mem htrace
    obtain ⟨o, ho, f, x, rfl, -, -, ⟨_, hne⟩ | ⟨_, hne⟩ | ⟨base, hne⟩⟩ :=
      Follows.exists_opens hsound (guarded_file tells (Touches path)) heq hdoes
    · exact absurd rfl hne
    · exact absurd rfl hne
    · have hin : (i, (⟨.shared (.count f), x⟩ : Exchange jobs)) ∈ log := by
        refine hlog _ ?_
        rw [show trace = _ from heq]
        exact List.mem_append_left _ ho
      exact ⟨f, mem_counted.2 ⟨x, mem_sharedLog.2 ⟨i, hin⟩⟩, (Touches.path_eq ⟨base, hne⟩).symm⟩
  · refine Classical.byContradiction fun hnone => ?_
    have hother : ∀ item ∈ items, item.block.filePath ≠ path := by
      rintro item hitem rfl
      exact hnone (exists_counted_of_submitted run hitems hitem)
    have hstale : ∀ files, ¬Touches path (.deleted files) ∧ ¬Touches path (.refused files) :=
      fun _ => ⟨fun ⟨_, hne⟩ => hne rfl, fun ⟨_, hne⟩ => hne rfl⟩
    exact Follows.never hsound (never_batch tells (unstored_touches hother) (hstale _).1 (hstale _).2) _
      htrace hdoes

end Counting

end Scan

namespace Effect

/-- The entry of a file's hash. -/
def Records (path : String) (e : Effect) : Prop :=
  ∃ hash, e = .recorded path hash

/-- A hash that is in the cache after all changes of a log was there before or has been entered. -/
theorem recorded_of_isSome {path : String} {log : List Effect} {base : Option String}
    (h : (log.foldl (onHash path) base).isSome) :
    base.isSome ∨ ∃ effect ∈ log, effect.Records path := by
  induction log generalizing base with
  | nil => exact Or.inl h
  | cons effect log ih =>
    rcases ih h with hbase | ⟨other, hmem, hrecords⟩
    · cases effect with
      | recorded other hash =>
        by_cases hpath : path = other
        · exact Or.inr ⟨_, List.mem_cons_self, hash, hpath ▸ rfl⟩
        · exact Or.inl (by rwa [onHash, if_neg hpath] at hbase)
      | forgot paths =>
        by_cases hmem : path ∈ paths
        · rw [onHash, if_pos hmem] at hbase
          cases hbase
        · exact Or.inl (by rwa [onHash, if_neg hmem] at hbase)
      | emptied => cases hbase
      | _ => exact Or.inl hbase
    · exact Or.inr ⟨other, List.mem_cons_of_mem _ hmem, hrecords⟩

/-- A call that deletes the points of a file, or tries to. -/
def Deletes (file : String) : Effect → Prop
  | deleted files => file ∈ files
  | refused files => file ∈ files
  | _ => False

/-- A call that stores points of a file, or tries to. -/
def Puts (file : String) (e : Effect) : Prop :=
  MemoryStore.pointsOf file e.points ≠ []

end Effect

namespace ConcurrentScan

open Scan

variable {s : Services} {mode : ScanMode} {before after : Hashes} {result : ScanResult}
  {run : ConcurrentScan s mode before result after} {f g : ParsedFile} {path : String}

theorem listed_of_found (hf : f ∈ run.found) : f.path ∈ run.listed := by
  have hmem := (run.perm_filterMap counted).mem_iff.2 hf
  obtain ⟨t, ht, hin⟩ := List.mem_flatMap.1 hmem
  obtain ⟨r, -, hhandles⟩ := exists_handles ht
  rw [← run.flatMap_paths_jobs]
  refine List.mem_flatMap.2 ⟨t.job, List.mem_map_of_mem ht, ?_⟩
  exact hhandles.paths.subset (List.mem_map_of_mem hin)

/-- The thread that counts a file has it as its job. -/
theorem job_of_count {i : Nat} {x : Nat × Nat} (h : (i, ⟨.shared (.count f), x⟩) ∈ run.log) :
    ∃ t, run.ended[i]? = some t ∧ t.job = .file f.path := by
  obtain ⟨t, ht, htrace⟩ := exists_thread h
  obtain ⟨r, -, hhandles⟩ := exists_handles (List.mem_of_getElem? ht)
  have hpaths := hhandles.paths.subset
    (List.mem_map_of_mem (mem_counted.2 ⟨x, mem_sharedOf_iff.2 htrace⟩))
  refine ⟨t, ht, ?_⟩
  cases hjob : t.job with
  | file path =>
    rw [hjob] at hpaths
    exact congrArg Job.file (List.mem_singleton.1 hpaths).symm
  | _ =>
    rw [hjob] at hpaths
    cases hpaths

/-- A file that was found is one that some thread counted, whose job it is. -/
theorem exists_counting (hf : f ∈ run.found) : ∃ i t x, run.ended[i]? = some t ∧
    t.job = .file f.path ∧ (i, ⟨.shared (.count f), x⟩) ∈ run.log := by
  obtain ⟨x, hmem⟩ := mem_counted.1 hf
  obtain ⟨i, hlog⟩ := mem_sharedLog.1 hmem
  obtain ⟨t, ht, hjob⟩ := job_of_count hlog
  exact ⟨i, t, x, ht, hjob, hlog⟩

/-- As long as no file of a path has been counted, a look at the cache finds what the scan found there. -/
theorem get?_of_look (tells : mode.OnlyTells) {i : Nat} {hashes : Hashes}
    {front behind : List (Nat × Exchange jobs)}
    (hlog : run.working = front ++ (i, ⟨.action .hashes, hashes⟩) :: behind)
    (hnone : ∀ g ∈ (sharedLog front).filterMap counted, g.path ≠ path) :
    hashes.get? path = before.get? path := by
  have hruns := run.works
  rw [hlog] at hruns
  obtain ⟨ts, st, hruns, hrest⟩ := hruns.split
  cases hrest with
  | turn chosen asks answer others =>
    have hstate := get?_of_runs hruns path
    rw [foldl_onHash_of_not_touches] at hstate
    · rw [show hashes = st.1 from answer.1.2, hstate]
    intro effect heffect htouches
    obtain ⟨g, hg, hpath⟩ := exists_counted_of_touched hruns tells heffect htouches
    exact hnone g hg hpath

/-- Whether a file was in the cache is told by the cache that the scan finds. -/
theorem cached_eq (tells : mode.OnlyTells) (hf : f ∈ run.found) :
    f.cached = (before.get? f.path).isSome := by
  obtain ⟨i, t, x, ht, hjob, hlog⟩ := exists_counting hf
  have hworking : t.trace = own i run.working := by
    rw [trace_eq ht, log, Program.Crew.own_append, own_ending_of_file ht hjob, List.append_nil]
  have hin := Program.Crew.mem_own.2 hlog
  rw [← trace_eq ht] at hin
  obtain ⟨first, second, htrace⟩ := List.append_of_mem hin
  have hsound := sound_ended t (List.mem_of_getElem? ht)
  rw [Crew.Sound, hjob] at hsound
  obtain ⟨_, hlooks, hashes, rfl, hcached⟩ :=
    Follows.exists_opens hsound (guarded_count f) htrace rfl
  obtain ⟨third, fourth, rfl⟩ := List.append_of_mem hlooks
  -- the file looks at the cache before it is counted
  rw [hworking, List.append_assoc, List.cons_append] at htrace
  obtain ⟨front, behind, hfront, -, hbehind⟩ := Program.Crew.exists_of_own_eq htrace
  have hlater : (i, (⟨.shared (.count f), x⟩ : Exchange jobs)) ∈ behind := by
    refine Program.Crew.mem_own.1 ?_
    rw [hbehind]
    exact List.mem_append_right _ List.mem_cons_self
  rw [hcached, get?_of_look tells hfront]
  -- no file of this path has been counted before
  intro g hg hpath
  have hnodup := run.found_nodup
  rw [found, log, hfront, List.append_assoc, sharedLog_append, List.filterMap_append,
    List.map_append] at hnodup
  refine List.disjoint_of_nodup_append hnodup (List.mem_map_of_mem hg) (List.mem_map.2 ⟨f, ?_, hpath.symm⟩)
  refine mem_counted.2 ⟨x, mem_sharedLog.2 ⟨i, ?_⟩⟩
  exact List.mem_append_left _ (List.mem_cons_of_mem _ hlater)

/-! ## Which thread does what -/

/-- What a scan does before its closing is done by a file without blocks or by a batch. -/
theorem exists_cause (tells : mode.OnlyTells) (kind : Effect → Prop) {i : Nat} {e : Exchange jobs}
    {effect : Effect} (h : (i, e) ∈ run.log) (heffect : effect ∈ Scan.effects e)
    (hkind : kind effect) :
    ∃ t, run.ended[i]? = some t ∧
      ((∃ f ∈ run.found, t.job = .file f.path ∧ f.blocks = [] ∧ Empties s kind f) ∨
        ∃ items ∈ run.submitted, t.job = .batch items ∧
          ¬(Unstored s kind items ∧ ¬kind (.deleted ((blockStrategy s.root).staleFiles items)) ∧
            ¬kind (.refused ((blockStrategy s.root).staleFiles items)))) := by
  have hdoes : Does kind e.request := by
    obtain ⟨r, x⟩ := e
    cases r with
    | action a => exact ⟨x, effect, heffect, hkind⟩
    | shared c => cases heffect
  obtain ⟨t, ht, htrace⟩ := exists_thread h
  have hmem := List.mem_of_getElem? ht
  have hsound := sound_ended t hmem
  refine ⟨t, ht, ?_⟩
  have hjobs := List.mem_map_of_mem (f := (·.job)) hmem
  rw [run.map_job_ended] at hjobs
  cases hjob : t.job with
  | file path =>
    rw [Crew.Sound, hjob] at hsound
    obtain ⟨first, second, heq⟩ := List.append_of_mem htrace
    obtain ⟨_, hopens, f, x, rfl, rfl, hempty, hempties⟩ :=
      Follows.exists_opens hsound (guarded_file tells kind) heq hdoes
    refine Or.inl ⟨f, mem_counted.2 ⟨x, mem_sharedLog.2 ⟨i, ?_⟩⟩, rfl, hempty, hempties⟩
    refine Program.Crew.mem_own.1 ?_
    rw [← trace_eq ht, heq]
    exact List.mem_append_left _ hopens
  | flush =>
    rw [Crew.Sound, hjob] at hsound
    have hnever : (Job.program s mode .flush).Never (Does kind) := never_flush
    exact absurd hdoes (Follows.never hsound hnever _ htrace)
  | batch items =>
    rw [Crew.Sound, hjob] at hsound
    refine Or.inr ⟨items, ?_, rfl, fun ⟨hunstored, hdeleted, hrefused⟩ => ?_⟩
    · rw [← run.filterMap_batch_jobs]
      exact List.mem_filterMap.2 ⟨.batch items, hjob ▸ List.mem_map_of_mem hmem, rfl⟩
    · exact Follows.never hsound (never_batch tells hunstored hdeleted hrefused) _ htrace hdoes
  | close listed batches =>
    rw [hjob] at hjobs
    simp at hjobs

/-- A batch that was submitted is the job of a thread. -/
theorem exists_batch_thread {items : List PendingBlock} (h : items ∈ run.submitted) :
    ∃ (i : Nat) (t : Thread jobs Job BatchResult), run.ended[i]? = some t ∧ t.job = .batch items := by
  rw [← run.filterMap_batch_jobs] at h
  obtain ⟨job, hjob, hbatch⟩ := List.mem_filterMap.1 h
  obtain ⟨t, ht, rfl⟩ := List.mem_map.1 hjob
  obtain ⟨i, hi⟩ := List.mem_iff_getElem?.1 ht
  refine ⟨i, t, hi, ?_⟩
  cases hjob : t.job with
  | batch others =>
    rw [hjob] at hbatch
    exact congrArg Job.batch (Option.some_inj.1 hbatch)
  | _ =>
    rw [hjob] at hbatch
    cases hbatch

/-- A file is the job of one thread. -/
theorem file_unique {i j : Nat} {t u : Thread jobs Job BatchResult}
    (ht : run.ended[i]? = some t) (hu : run.ended[j]? = some u) (hjob : t.job = .file path)
    (hjob' : u.job = .file path) : i = j := by
  have hi := getElem?_listed ht hjob
  have hj := getElem?_listed hu hjob'
  obtain ⟨hlt, -⟩ := List.getElem?_eq_some_iff.1 hi
  exact (List.getElem?_inj hlt run.listed_nodup).1 (hi.trans hj.symm)

/-- The items of a file are in the batch of one thread. -/
theorem batch_unique {i j : Nat} {t u : Thread jobs Job BatchResult} {first second : List PendingBlock}
    {x y : PendingBlock} (ht : run.ended[i]? = some t) (hu : run.ended[j]? = some u)
    (hjob : t.job = .batch first) (hjob' : u.job = .batch second) (hx : x ∈ first) (hy : y ∈ second)
    (h : x.block.filePath = y.block.filePath) : i = j := by
  have hpairwise := run.pairwise_submitted
  rw [← run.filterMap_batch_jobs, List.pairwise_filterMap, List.pairwise_map, List.pairwise_iff_getElem]
    at hpairwise
  obtain ⟨hi, rfl⟩ := List.getElem?_eq_some_iff.1 ht
  obtain ⟨hj, rfl⟩ := List.getElem?_eq_some_iff.1 hu
  rcases Nat.lt_trichotomy i j with hlt | heq | hlt
  · refine absurd h (hpairwise i j hi hj hlt first ?_ second ?_ x hx y hy)
    · rw [hjob]; rfl
    · rw [hjob']; rfl
  · exact heq
  · refine absurd h.symm (hpairwise j i hj hi hlt second ?_ first ?_ y hy x hx)
    · rw [hjob']; rfl
    · rw [hjob]; rfl

variable (run) in
/-- Different files, listed or in the cache before the scan, have different names in the workspace. -/
def DistinctNames : Prop :=
  ∀ p q, p ∈ run.listed ∨ (before.get? p).isSome → q ∈ run.listed ∨ (before.get? q).isSome →
    Path.relativeTo s.root p = Path.relativeTo s.root q → p = q

/-- The name of a file that was found is that of no other. -/
theorem DistinctNames.path_eq (distinct : run.DistinctNames) (hf : f ∈ run.found) (hg : g ∈ run.found)
    (h : Path.relativeTo s.root g.path = Path.relativeTo s.root f.path) : g.path = f.path :=
  distinct _ _ (Or.inl (listed_of_found hg)) (Or.inl (listed_of_found hf)) h

/-- The items of a batch whose file has the name of a file that was found are of that file. -/
theorem DistinctNames.filePath_eq (distinct : run.DistinctNames) (hf : f ∈ run.found)
    {items : List PendingBlock} {item : PendingBlock} (hitems : items ∈ run.submitted)
    (hitem : item ∈ items)
    (h : Path.relativeTo s.root item.block.filePath = Path.relativeTo s.root f.path) :
    item.block.filePath = f.path := by
  obtain ⟨g, hg, hin⟩ := exists_found_of_item hitems hitem
  rw [filePath_of_found hg hin] at h ⊢
  exact distinct.path_eq hf hg h

theorem exists_item_of_puts {items : List PendingBlock} {points : List Point} {name : String}
    (h : PointsOf s items points) (hputs : MemoryStore.pointsOf name points ≠ []) :
    ∃ item ∈ items, Path.relativeTo s.root item.block.filePath = name := by
  obtain ⟨q, hq⟩ := List.exists_mem_of_ne_nil _ hputs
  obtain ⟨hq, hname⟩ := MemoryStore.mem_pointsOf.1 hq
  obtain ⟨item, hitem, vector, rfl⟩ := h q hq
  exact ⟨item, hitem, hname⟩

/-- The points of a file are stored by the batch that it is in. -/
theorem exists_batch_of_puts (tells : mode.OnlyTells) (distinct : run.DistinctNames)
    (hf : f ∈ run.found) {i : Nat} {e : Exchange jobs} {effect : Effect} (h : (i, e) ∈ run.log)
    (heffect : effect ∈ Scan.effects e) (hputs : effect.Puts (Path.relativeTo s.root f.path)) :
    ∃ t items, run.ended[i]? = some t ∧ items ∈ run.submitted ∧ t.job = .batch items ∧
      ∃ item ∈ items, item.block.filePath = f.path := by
  obtain ⟨t, ht, ⟨g, -, -, -, ⟨hempties⟩ | ⟨hempties⟩ | hempties⟩ | ⟨items, hitems, hjob, hnot⟩⟩ :=
    exists_cause tells (Effect.Puts _) h heffect hputs
  · exact absurd rfl hempties
  · exact absurd rfl hempties
  · exact absurd rfl hempties
  refine ⟨t, items, ht, hitems, hjob, Classical.byContradiction fun hnone => hnot ⟨⟨?_, ?_, ?_⟩, ?_, ?_⟩⟩
  · intro points hpoints hputs
    obtain ⟨item, hitem, hname⟩ := exists_item_of_puts hpoints hputs
    exact hnone ⟨item, hitem, distinct.filePath_eq hf hitems hitem hname⟩
  · intro points hpoints hputs
    obtain ⟨item, hitem, hname⟩ := exists_item_of_puts hpoints hputs
    exact hnone ⟨item, hitem, distinct.filePath_eq hf hitems hitem hname⟩
  · exact fun _ _ hne => hne rfl
  · exact fun hne => hne rfl
  · exact fun hne => hne rfl

/-- The points of a file are deleted by the batch that it is in, or by the file itself if it has no blocks. -/
theorem exists_thread_of_deletes (tells : mode.OnlyTells) (distinct : run.DistinctNames)
    (hf : f ∈ run.found) {i : Nat} {e : Exchange jobs} {effect : Effect} (h : (i, e) ∈ run.log)
    (heffect : effect ∈ Scan.effects e) (hdeletes : effect.Deletes (Path.relativeTo s.root f.path)) :
    ∃ t, run.ended[i]? = some t ∧ (t.job = .file f.path ∧ f.blocks = [] ∨
      ∃ items ∈ run.submitted, t.job = .batch items ∧ ∃ item ∈ items, item.block.filePath = f.path) := by
  obtain ⟨t, ht, ⟨g, hg, hjob, hblocks, hempties⟩ | ⟨items, hitems, hjob, hnot⟩⟩ :=
    exists_cause tells (Effect.Deletes _) h heffect hdeletes
  · have hname : Path.relativeTo s.root g.path = Path.relativeTo s.root f.path := by
      rcases hempties with hin | hin | hin
      · exact (List.mem_singleton.1 hin).symm
      · exact (List.mem_singleton.1 hin).symm
      · exact hin.elim
    obtain rfl := found_inj hg hf (distinct.path_eq hf hg hname)
    exact ⟨t, ht, Or.inl ⟨hjob, hblocks⟩⟩
  · refine ⟨t, ht, Or.inr ⟨items, hitems, hjob, Classical.byContradiction fun hnone => ?_⟩⟩
    have hstale : Path.relativeTo s.root f.path ∉ (blockStrategy s.root).staleFiles items := by
      intro hin
      obtain ⟨item, hitem, -, hname⟩ := mem_staleFiles.1 hin
      exact hnone ⟨item, hitem, distinct.filePath_eq hf hitems hitem hname⟩
    exact hnot ⟨⟨fun _ _ => id, fun _ _ => id, fun _ _ => id⟩, hstale, hstale⟩

/-! ## The order of deletion and storing -/

/-- The thread that has to do with the points of a file first deletes the old ones, and then never again. -/
theorem exists_home (tells : mode.OnlyTells) (distinct : run.DistinctNames) (hf : f ∈ run.found)
    (hcached : f.cached = true) : ∃ i files x front rest,
      own i run.log = front ++ ⟨.action (.deletePoints files), x⟩ :: rest ∧
      Path.relativeTo s.root f.path ∈ files ∧
      (∀ effect ∈ front.flatMap Scan.effects, ¬effect.Puts (Path.relativeTo s.root f.path)) ∧
      (∀ effect ∈ rest.flatMap Scan.effects, ¬effect.Deletes (Path.relativeTo s.root f.path)) ∧
      ∀ j e effect, (j, e) ∈ run.log → effect ∈ Scan.effects e →
        effect.Puts (Path.relativeTo s.root f.path) ∨
          effect.Deletes (Path.relativeTo s.root f.path) → j = i := by
  by_cases hblocks : f.blocks = []
  · have hother : ∀ items ∈ run.submitted, ∀ item ∈ items, item.block.filePath ≠ f.path := by
      intro items hitems item hitem heq
      obtain ⟨g, hg, hin⟩ := exists_found_of_item hitems hitem
      obtain rfl := found_inj hg hf ((filePath_of_found hg hin).symm.trans heq)
      simp [ParsedFile.items, hblocks] at hin
    obtain ⟨i, t, x, ht, hjob, hlog⟩ := exists_counting hf
    obtain ⟨r, -, hfollows⟩ := exists_follows ht
    rw [hjob] at hfollows
    have hin := Program.Crew.mem_own.2 hlog
    rw [← trace_eq ht] at hin
    obtain ⟨front, y, rest, htrace, hrest⟩ :=
      yields_file_delete tells hblocks hcached r t.trace hfollows x hin
    have hown := (trace_eq ht).symm.trans htrace
    refine ⟨i, _, y, front, rest, hown, List.mem_singleton_self _, ?_, ?_, ?_⟩
    · intro effect heffect hputs
      obtain ⟨e, he, heffect⟩ := List.mem_flatMap.1 heffect
      have hin : (i, e) ∈ run.log :=
        Program.Crew.mem_own.1 (hown ▸ List.mem_append_left _ he)
      obtain ⟨_, items, -, hitems, -, item, hitem, heq⟩ :=
        exists_batch_of_puts tells distinct hf hin heffect hputs
      exact hother items hitems item hitem heq
    · intro effect heffect hdeletes
      obtain ⟨hash, rfl⟩ := hrest effect heffect
      exact hdeletes
    · rintro j e effect hin heffect (hputs | hdeletes)
      · obtain ⟨_, items, -, hitems, -, item, hitem, heq⟩ :=
          exists_batch_of_puts tells distinct hf hin heffect hputs
        exact absurd heq (hother items hitems item hitem)
      · obtain ⟨u, hu, ⟨hjob', -⟩ | ⟨items, hitems, -, item, hitem, heq⟩⟩ :=
          exists_thread_of_deletes tells distinct hf hin heffect hdeletes
        · exact file_unique hu ht hjob' hjob
        · exact absurd heq (hother items hitems item hitem)
  · obtain ⟨first, items, last, before', after', hsubmitted, hitems, -, -⟩ := exists_batch hf hblocks
    have hin : items ∈ run.submitted := hsubmitted ▸ List.mem_append_right _ List.mem_cons_self
    obtain ⟨one, hone⟩ : ∃ item, item ∈ f.items :=
      List.exists_mem_of_ne_nil _ (by simpa [ParsedFile.items] using hblocks)
    have hpath := filePath_of_found hf hone
    have hone' : one ∈ items := by
      rw [hitems]
      exact List.mem_append_left _ (List.mem_append_right _ hone)
    have hreplaces : one.replaces = true := by
      obtain ⟨block, -, rfl⟩ := List.mem_map.1 hone
      exact hcached
    have hstale : Path.relativeTo s.root f.path ∈ (blockStrategy s.root).staleFiles items :=
      mem_staleFiles.2 ⟨one, hone', hreplaces, hpath ▸ rfl⟩
    have hunstored : Unstored s (Effect.Deletes (Path.relativeTo s.root f.path)) items :=
      ⟨fun _ _ => id, fun _ _ => id, fun _ _ => id⟩
    obtain ⟨i, t, ht, hjob⟩ := exists_batch_thread hin
    obtain ⟨r, -, hfollows⟩ := exists_follows ht
    rw [hjob] at hfollows
    obtain ⟨x, rest, htrace, hrest⟩ := yields_batch_delete (List.ne_nil_of_mem hstale)
      (List.ne_nil_of_mem hone') tells hunstored r t.trace hfollows
    refine ⟨i, _, x, [], rest, (trace_eq ht).symm.trans htrace, hstale, List.forall_mem_nil _,
      hrest, ?_⟩
    rintro j e effect hlog heffect (hputs | hdeletes)
    · obtain ⟨u, others, hu, -, hjob', item, hitem, heq⟩ :=
        exists_batch_of_puts tells distinct hf hlog heffect hputs
      exact batch_unique hu ht hjob' hjob hitem hone' (heq.trans hpath.symm)
    · obtain ⟨u, hu, ⟨-, hempty⟩ | ⟨others, -, hjob', item, hitem, heq⟩⟩ :=
        exists_thread_of_deletes tells distinct hf hlog heffect hdeletes
      · exact absurd hempty hblocks
      · exact batch_unique hu ht hjob' hjob hitem hone' (heq.trans hpath.symm)

/-! ## The closing -/

variable (run) in
/-- The closing is one thread. -/
theorem follows_closing : Follows
    (Job.program s mode (.close run.listed (run.results.foldl .merge {})))
    (run.closing.map (·.2)) (.done {}) := by
  have hquiet : ((crew s mode).start (.close run.listed (run.results.foldl .merge {}))).rest.Never
      fun r => (crew s mode).spawns r ≠ [] := by
    refine (never_shared_close _ _).mono (fun _ h => h) fun r hr => ?_
    cases r with
    | action a => exact absurd rfl hr
    | shared c => exact ⟨c, rfl⟩
  obtain ⟨t, hclosed, hfollows⟩ := run.closes.alone hquiet
  rwa [run.closeDone t (hclosed ▸ List.mem_singleton_self t)] at hfollows

/-- The closing enters no hashes. -/
theorem never_records_close (tells : mode.OnlyTells) {listed : List String} {batches : BatchResult} :
    (Job.program s mode (.close listed batches)).Never (Does (Effect.Records path)) := by
  refine (guarded_close tells (Effect.Records path) ?_).mono ?_ fun _ h => h
  · rintro - ⟨_, heq⟩
    cases heq
  · rintro _ ⟨_, ⟨_, -, ⟨_, heq⟩ | ⟨_, heq⟩ | ⟨_, heq⟩⟩, -⟩
    · cases heq
    · cases heq
    · cases heq

/-- Hashes are entered for listed files. -/
theorem listed_of_records (tells : mode.OnlyTells) {i : Nat} {e : Exchange jobs} {effect : Effect}
    (h : (i, e) ∈ run.log) (heffect : effect ∈ Scan.effects e) (hrecords : effect.Records path) :
    path ∈ run.listed := by
  obtain ⟨t, -, ⟨f, hf, -, -, hempties⟩ | ⟨items, hitems, -, hnot⟩⟩ :=
    exists_cause tells (Effect.Records path) h heffect hrecords
  · rcases hempties with ⟨_, heq⟩ | ⟨_, heq⟩ | ⟨_, heq⟩
    · cases heq
    · cases heq
    · cases heq
      exact listed_of_found hf
  · refine Classical.byContradiction fun hother => hnot ⟨⟨?_, ?_, ?_⟩, ?_, ?_⟩
    · rintro points - ⟨_, heq⟩
      cases heq
    · rintro points - ⟨_, heq⟩
      cases heq
    · rintro item hitem ⟨_, heq⟩
      obtain ⟨f, hf, hin⟩ := exists_found_of_item hitems hitem
      cases heq
      exact hother (filePath_of_found hf hin ▸ listed_of_found hf)
    · rintro ⟨_, heq⟩
      cases heq
    · rintro ⟨_, heq⟩
      cases heq

/-- What the closing finds in the cache was there before the scan, or is listed. -/
theorem known_of_closing (tells : mode.OnlyTells) {front behind : List (Nat × Exchange jobs)} {i : Nat}
    {hashes : Hashes} (hclosing : run.closing = front ++ (i, ⟨.action .hashes, hashes⟩) :: behind)
    (h : (hashes.get? path).isSome) : (before.get? path).isSome ∨ path ∈ run.listed := by
  have hruns := run.closes
  rw [hclosing] at hruns
  obtain ⟨ts, st, hruns, hrest⟩ := hruns.split
  have hstate : hashes = st.1 := by
    cases hrest with
    | turn chosen asks answer others => exact answer.1.2
  rw [hstate, get?_of_runs hruns path] at h
  rcases Effect.recorded_of_isSome h with hsome | ⟨effect, hmem, hrecords⟩
  · rw [run.get?_settled] at hsome
    refine (Effect.recorded_of_isSome hsome).imp_right fun ⟨effect, hmem, hrecords⟩ => ?_
    obtain ⟨e, he, heffect⟩ := List.mem_flatMap.1 hmem
    obtain ⟨⟨i, e⟩, hmem, rfl⟩ := List.mem_map.1 he
    exact listed_of_records tells hmem heffect hrecords
  · refine absurd hrecords (not_effect_of_not_does (run.follows_closing.never (never_records_close tells)) _ ?_)
    rw [hclosing, List.map_append, List.flatMap_append]
    exact List.mem_append_left _ hmem

/-- The closing does not delete points of a file that was found. -/
theorem not_deletes_of_closing (tells : mode.OnlyTells) (distinct : run.DistinctNames)
    (hf : f ∈ run.found) : ∀ effect ∈ (run.closing.map (·.2)).flatMap Scan.effects,
      ¬effect.Deletes (Path.relativeTo s.root f.path) := by
  intro effect heffect hdeletes
  obtain ⟨⟨r, x⟩, hmem, heffect⟩ := List.mem_flatMap.1 heffect
  obtain ⟨front, behind, hclosing⟩ := List.append_of_mem hmem
  have hdoes : Does (Effect.Deletes (Path.relativeTo s.root f.path)) r := by
    cases r with
    | action a => exact ⟨x, effect, heffect, hdeletes⟩
    | shared c => cases heffect
  obtain ⟨_, hfront, _, ⟨hashes, rfl, hvanishes⟩, rfl⟩ := Follows.exists_opens run.follows_closing
    (guarded_close tells (Effect.Deletes (Path.relativeTo s.root f.path)) fun _ => id) hclosing hdoes
  obtain ⟨looked, _, rfl⟩ := List.append_of_mem hfront
  rw [List.append_assoc, List.cons_append] at hclosing
  obtain ⟨first, rest, hlog, -, hrest⟩ := List.map_eq_append_iff.1 hclosing
  obtain ⟨⟨i, e⟩, last, rfl, rfl, -⟩ := List.map_eq_cons_iff.1 hrest
  have hname : Path.relativeTo s.root f.path ∈
      (vanishedOf run.listed hashes).map (Path.relativeTo s.root) := by
    rcases hvanishes with hin | hin | hin
    · exact hin
    · exact hin
    · exact hin.elim
  obtain ⟨path, hvanished, hname⟩ := List.mem_map.1 hname
  have hnot : path ∉ run.listed := fun hlisted => not_mem_vanishedOf hlisted hvanished
  have hknown : (before.get? path).isSome := by
    refine (known_of_closing tells hlog ?_).resolve_right hnot
    exact Hashes.isSome_get?_iff.2 (List.mem_filter.1 hvanished).1
  have heq := distinct path f.path (Or.inr hknown) (Or.inl (listed_of_found hf)) hname
  exact hnot (heq ▸ listed_of_found hf)

/-- In the log of a scan a file that was in the cache has its deletion in front of all its new points, and no
deletion behind that. -/
theorem deleted_first (tells : mode.OnlyTells) (distinct : run.DistinctNames) (hf : f ∈ run.found)
    (hcached : (before.get? f.path).isSome) : ∃ front call rest,
      run.effects = front ++ call :: rest ∧ call.Deletes (Path.relativeTo s.root f.path) ∧
      (∀ effect ∈ front, ¬effect.Puts (Path.relativeTo s.root f.path)) ∧
      ∀ effect ∈ rest, ¬effect.Deletes (Path.relativeTo s.root f.path) := by
  rw [← cached_eq tells hf] at hcached
  obtain ⟨i, files, x, first, second, hown, hname, hputs, hdeletes, hhome⟩ :=
    exists_home tells distinct hf hcached
  obtain ⟨front, behind, hlog, hfront, hbehind⟩ := Program.Crew.exists_of_own_eq hown
  obtain ⟨call, hcall, hdeletes'⟩ : ∃ call, Scan.effects ⟨.action (.deletePoints files), x⟩ = [call] ∧
      call.Deletes (Path.relativeTo s.root f.path) := by
    cases x with
    | ok => exact ⟨_, rfl, hname⟩
    | error e => exact ⟨_, rfl, hname⟩
  refine ⟨(front.map (·.2)).flatMap Scan.effects, call, (behind.map (·.2)).flatMap Scan.effects ++
    (run.closing.map (·.2)).flatMap Scan.effects, ?_, hdeletes', ?_, ?_⟩
  · rw [ConcurrentScan.effects, hlog, List.map_append, List.flatMap_append, List.map_cons,
      List.flatMap_cons, hcall]
    simp only [List.append_assoc, List.cons_append, List.nil_append]
  · intro effect heffect hput
    obtain ⟨e, he, heffect⟩ := List.mem_flatMap.1 heffect
    obtain ⟨⟨j, e⟩, hmem, rfl⟩ := List.mem_map.1 he
    obtain rfl := hhome j e effect (hlog ▸ List.mem_append_left _ hmem) heffect (Or.inl hput)
    refine hputs effect (List.mem_flatMap.2 ⟨e, ?_, heffect⟩) hput
    exact hfront ▸ Program.Crew.mem_own.2 hmem
  · intro effect heffect hdelete
    rcases List.mem_append.1 heffect with heffect | heffect
    · obtain ⟨e, he, heffect⟩ := List.mem_flatMap.1 heffect
      obtain ⟨⟨j, e⟩, hmem, rfl⟩ := List.mem_map.1 he
      have hin : (j, e) ∈ run.log :=
        hlog ▸ List.mem_append_right _ (List.mem_cons_of_mem _ hmem)
      obtain rfl := hhome j e effect hin heffect (Or.inr hdelete)
      refine hdeletes effect (List.mem_flatMap.2 ⟨e, ?_, heffect⟩) hdelete
      exact hbehind ▸ Program.Crew.mem_own.2 hmem
    · exact not_deletes_of_closing tells distinct hf effect heffect hdelete

/-- However the files and batches of a scan take turns: the submitted batches hold the blocks that were
found, each once; the blocks of a file stand side by side, in order, in one of them; and in the log of the
scan, a file that was in the cache has its deletion in front of all its new points and no deletion behind
that. -/
theorem keeps_files_whole (run : ConcurrentScan s mode before result after) (tells : mode.OnlyTells)
    (distinct : run.DistinctNames) :
    run.submitted.flatten.Perm (run.found.flatMap ParsedFile.items) ∧
      (∀ f ∈ run.found, Parses s f ∧ (f.blocks ≠ [] → ∃ first batch last front rest,
        run.submitted = first ++ batch :: last ∧ batch = front ++ f.items ++ rest ∧
          (∀ item ∈ front ++ rest, item.block.filePath ≠ f.path) ∧
          ∀ other ∈ first ++ last, ∀ item ∈ other, item.block.filePath ≠ f.path)) ∧
      ∀ f ∈ run.found, (before.get? f.path).isSome → ∃ front call rest,
        run.effects = front ++ call :: rest ∧ call.Deletes (Path.relativeTo s.root f.path) ∧
          (∀ effect ∈ front, ¬effect.Puts (Path.relativeTo s.root f.path)) ∧
          ∀ effect ∈ rest, ¬effect.Deletes (Path.relativeTo s.root f.path) :=
  ⟨run.perm_flatten_submitted, fun _ hf => ⟨parses_of_found hf, exists_batch hf⟩,
    fun _ hf => deleted_first tells distinct hf⟩

theorem distinctNames_woven : woven.DistinctNames := by
  have hknown : ∀ p, p ∈ woven.listed ∨ (Hashes.get? [("/w/a.rs", "old")] p).isSome →
      Premises.small.paths p := by
    rintro p (hlisted | hcached)
    · have hpaths : woven.listed = ["/w/a.rs", "/w/b.rs"] := by decide +kernel
      rw [hpaths] at hlisted
      exact hlisted
    · exact List.mem_cons.2 (Or.inl (List.mem_singleton.1 (Hashes.isSome_get?_iff.1 hcached)))
  exact fun p q hp hq h => Premises.small_distinct.names (hknown p hp) (hknown q hq) h

/-- Two batches of one block each; the points of the first file are deleted first, and once. -/
theorem keeps_files_whole_woven :
    woven.DistinctNames ∧ woven.submitted.map List.length = [1, 1] ∧
      woven.submitted.flatten.Perm (woven.found.flatMap ParsedFile.items) ∧
      ∃ front call rest, woven.effects = front ++ call :: rest ∧ call.Deletes "a.rs" ∧
        (∀ effect ∈ front, ¬effect.Puts "a.rs") ∧ ∀ effect ∈ rest, ¬effect.Deletes "a.rs" := by
  obtain ⟨hperm, -, hdeleted⟩ :=
    woven.keeps_files_whole ScanMode.onlyTells_showScan distinctNames_woven
  have hfound : woven.found.map (·.path) = ["/w/a.rs", "/w/b.rs"] := by decide +kernel
  obtain ⟨f, hf, hpath⟩ : ∃ f ∈ woven.found, f.path = "/w/a.rs" :=
    List.mem_map.1 (hfound ▸ List.mem_cons_self)
  have hname : Path.relativeTo eager.root f.path = "a.rs" := by
    rw [hpath]
    decide +kernel
  have hfirst := hdeleted f hf (by rw [hpath]; decide +kernel)
  rw [hname] at hfirst
  exact ⟨distinctNames_woven, by decide +kernel, hperm, hfirst⟩

end ConcurrentScan

end SourceIndex
