import Mathlib.Algebra.BigOperators.Group.List.Basic
import Mathlib.Data.List.Flatten
import SourceIndex.Proofs.Index.Jobs
/-!
# What the jobs of a scan come to together

What the jobs share sees requests of all of them in one order. What is put into the buffer is there cut into
the batches that are taken out of it (`Scan.cut_buffer`), blocks are counted once as found
(`Scan.found_eq`), and a hash of the cache is the last that was entered (`Scan.get?_of_runs`).

Of a `ConcurrentScan` as a whole: its log is that of its threads (`perm_log`, `trace_eq`), each of
which has come to its end (`exists_handles`). The blocks of every file that is found were put into the
buffer, each file once (`perm_gathered`, `found_nodup`), nothing is put in behind the flush, and what was
taken out is submitted (`exists_groups`, `perm_submitted`).
-/

namespace SourceIndex

open Program (Crew Exchange Follows Guarded Rules Thread)
open Program.Crew (own traceAt Runs)

namespace Scan

/-! ## Exchanges with what the jobs share -/

/-- The file that is counted. -/
def counted : Exchange sharing → Option ParsedFile
  | ⟨.count f, _⟩ => some f
  | _ => none

/-- The blocks that are put into the buffer. -/
def gathered : Exchange sharing → Option (List PendingBlock)
  | ⟨.gather items, _⟩ => some items
  | _ => none

/-- The batch that is taken out of the buffer. -/
def taken : Exchange sharing → Option (List PendingBlock)
  | ⟨.gather _, x⟩ => x
  | ⟨.take, x⟩ => x
  | _ => none

/-- The batch that is submitted. -/
def submitted : Exchange sharing → Option (List PendingBlock)
  | ⟨.submit batch, _⟩ => some batch
  | _ => none

/-- By how much the count of indexed blocks goes up. -/
def advanced : Exchange sharing → Option Nat
  | ⟨.advance size, _⟩ => some size
  | _ => none

/-- The file of a job. -/
def Job.paths : Job → List String
  | .file path => [path]
  | _ => []

/-- The items of a job. -/
def Job.items : Job → List PendingBlock
  | .batch items => items
  | _ => []

/-- The batch that a job is. -/
def Job.batch? : Job → Option (List PendingBlock)
  | .batch items => some items
  | _ => none

section
variable {s : Services} {job : Job} {r : BatchResult} {steps : List (Exchange sharing)}

theorem mem_counted {f : ParsedFile} :
    f ∈ steps.filterMap counted ↔ ∃ x : Nat × Nat, (⟨.count f, x⟩ : Exchange sharing) ∈ steps := by
  rw [List.mem_filterMap]
  constructor
  · rintro ⟨⟨c, x⟩, hmem, h⟩
    cases c with
    | count g =>
      cases h
      exact ⟨x, hmem⟩
    | _ => cases h
  · rintro ⟨x, hmem⟩
    exact ⟨_, hmem, rfl⟩

/-- What a batch counts is nothing else. -/
theorem filterMap_advances {β : Type} {g : Exchange sharing → Option β}
    (hg : ∀ size x, g ⟨.advance size, x⟩ = none) (sizes : List (Nat × (Nat × Nat))) :
    (sizes.map fun step => (⟨.advance step.1, step.2⟩ : Exchange sharing)).filterMap g = [] := by
  rw [List.filterMap_map, List.filterMap_eq_nil_iff]
  exact fun step _ => hg step.1 step.2

/-- The blocks of every counted file that has any are put into the buffer. -/
theorem Handles.gathered_eq (h : Handles s job r steps) : steps.filterMap gathered =
    ((steps.filterMap counted).filter ParsedFile.hasBlocks).map ParsedFile.items := by
  have hblocks : ∀ f : ParsedFile, f.blocks ≠ [] → f.hasBlocks = true := by
    intro f hf
    simpa [ParsedFile.hasBlocks] using hf
  cases h with
  | empty f x parses empty =>
    have hnone : f.hasBlocks = false := by simp [ParsedFile.hasBlocks, empty]
    show [] = ([f].filter ParsedFile.hasBlocks).map ParsedFile.items
    rw [List.filter_singleton, hnone]
    rfl
  | waits f x parses some =>
    show [f.items] = ([f].filter ParsedFile.hasBlocks).map ParsedFile.items
    rw [List.filter_singleton, hblocks f some]
    rfl
  | fills f x parses some batch =>
    show [f.items] = ([f].filter ParsedFile.hasBlocks).map ParsedFile.items
    rw [List.filter_singleton, hblocks f some]
    rfl
  | batch items r sizes sum total =>
    rw [filterMap_advances fun _ _ => rfl, filterMap_advances fun _ _ => rfl]
    rfl
  | _ => rfl

/-- What a job takes out of the buffer it submits. -/
theorem Handles.submitted_eq (h : Handles s job r steps) :
    steps.filterMap submitted = steps.filterMap taken := by
  cases h with
  | batch items r sizes sum total =>
    rw [filterMap_advances fun _ _ => rfl, filterMap_advances fun _ _ => rfl]
  | _ => rfl

/-- A job counts at most the file that it is about. -/
theorem Handles.paths (h : Handles s job r steps) :
    ((steps.filterMap counted).map (·.path)).Sublist job.paths := by
  cases h with
  | empty f x parses empty => exact List.Sublist.refl [f.path]
  | waits f x parses some => exact List.Sublist.refl [f.path]
  | fills f x parses some batch => exact List.Sublist.refl [f.path]
  | batch items r sizes sum total =>
    rw [filterMap_advances fun _ _ => rfl]
    exact List.nil_sublist _
  | _ => exact List.nil_sublist _

theorem Handles.parses (h : Handles s job r steps) : ∀ f ∈ steps.filterMap counted, Parses s f := by
  cases h with
  | empty f x parses empty => exact List.forall_mem_singleton.2 parses
  | waits f x parses some => exact List.forall_mem_singleton.2 parses
  | fills f x parses some batch => exact List.forall_mem_singleton.2 parses
  | batch items r sizes sum total =>
    rw [filterMap_advances fun _ _ => rfl]
    exact List.forall_mem_nil _
  | _ => exact List.forall_mem_nil _

/-- Only files put blocks into the buffer. -/
theorem Handles.exists_file (h : Handles s job r steps) {items : List PendingBlock}
    (hin : items ∈ steps.filterMap gathered) : ∃ path, job = .file path := by
  cases h with
  | drained => exact absurd hin List.not_mem_nil
  | flushed batch => exact absurd hin List.not_mem_nil
  | closed listed batches => exact absurd hin List.not_mem_nil
  | batch items r sizes sum total =>
    rw [filterMap_advances fun _ _ => rfl] at hin
    exact absurd hin List.not_mem_nil
  | _ => exact ⟨_, rfl⟩

/-- The count of indexed blocks goes up by as many items as a job has. -/
theorem Handles.advanced_eq (h : Handles s job r steps) :
    (steps.filterMap advanced).sum = job.items.length := by
  cases h with
  | batch items r sizes sum total =>
    rw [List.filterMap_map]
    show (sizes.filterMap fun step => some step.1).sum = items.length
    rw [List.filterMap_eq_map', sum]
  | _ => rfl

/-- A job counts each of its items once, as processed or as failed. -/
theorem Handles.total (h : Handles s job r steps) : r.processed + r.failed = job.items.length := by
  cases h with
  | batch items r sizes sum total => exact total
  | _ => rfl

end

/-! ## The buffer -/

/-- Lists are cut between lists: those in front of each cut are joined to a batch, and those behind the
last one are left. -/
def Cut (lists batches : List (List PendingBlock)) (left : List PendingBlock) : Prop :=
  ∃ (groups : List (List (List PendingBlock))) (rest : List (List PendingBlock)),
    lists = groups.flatten ++ rest ∧ batches = groups.map List.flatten ∧ left = rest.flatten

/-- One more cut in front. -/
theorem Cut.cons (first : List (List PendingBlock)) {lists batches : List (List PendingBlock)}
    {left : List PendingBlock} (h : Cut lists batches left) :
    Cut (first ++ lists) (first.flatten :: batches) left := by
  obtain ⟨groups, rest, rfl, rfl, rfl⟩ := h
  exact ⟨first :: groups, rest, (List.append_assoc ..).symm, rfl, rfl⟩

/-- What the exchanges of a log are with what the jobs share. -/
def sharedLog (log : List (Nat × Exchange jobs)) : List (Exchange sharing) :=
  (log.map (·.2)).filterMap sharedOf

/-- What gives rise to jobs are the batches that are submitted. -/
theorem spawns_eq (s : Services) (mode : ScanMode) (log : List (Nat × Exchange jobs)) :
    (log.flatMap fun e => (crew s mode).spawns e.2.request) =
      ((sharedLog log).filterMap submitted).map .batch := by
  induction log with
  | nil => rfl
  | cons entry log ih =>
    obtain ⟨i, r, x⟩ := entry
    rw [List.flatMap_cons, ih]
    cases r with
    | action a => rfl
    | shared c =>
      cases c with
      | gather items => rfl
      | _ => rfl

section
variable {threshold : Nat} {state state' : ScanState}

/-- All of the buffer is taken out, with the blocks that were put into it last, or they stay there. -/
theorem Shared.serve_gather {items : List PendingBlock} {x : Option (List PendingBlock)}
    (h : (x, state') = (gather items).serve threshold state) :
    x = some (state.buffer ++ items) ∧ state'.buffer = [] ∨
      x = none ∧ state'.buffer = state.buffer ++ items := by
  unfold serve at h
  dsimp only at h
  split at h
  · cases h
    exact Or.inl ⟨rfl, rfl⟩
  · cases h
    exact Or.inr ⟨rfl, rfl⟩

/-- What was in the buffer is taken out, if anything was. -/
theorem Shared.serve_take {x : Option (List PendingBlock)}
    (h : (x, state') = take.serve threshold state) :
    state'.buffer = [] ∧ (x = some state.buffer ∨ x = none ∧ state.buffer = []) := by
  unfold serve at h
  dsimp only at h
  split at h
  · rename_i hempty
    cases h
    exact ⟨List.isEmpty_iff.1 hempty, Or.inr ⟨rfl, List.isEmpty_iff.1 hempty⟩⟩
  · cases h
    exact ⟨rfl, Or.inl rfl⟩

end

/-- What was put into the buffer is cut into the batches that were taken out of it and what is left. -/
theorem cut_buffer {σ : Type} {threshold : Nat} {rules : Rules indexing σ}
    {crew : Crew jobs Job BatchResult} {ts ts' : List (Thread jobs Job BatchResult)}
    {s s' : σ × ScanState} {log : List (Nat × Exchange jobs)}
    (h : Runs (jobRules threshold rules) crew ts s log ts' s') (opened : List (List PendingBlock))
    (hopened : s.2.buffer = opened.flatten) :
    Cut (opened ++ (sharedLog log).filterMap gathered) ((sharedLog log).filterMap taken)
      s'.2.buffer := by
  induction h generalizing opened with
  | stop ts s => exact ⟨[], opened, List.append_nil _, rfl, hopened⟩
  | @turn ts ts' s s' s'' log i t r next x chosen asks answer others ih =>
    obtain ⟨hashes, state⟩ := s
    obtain ⟨hashes', state'⟩ := s'
    cases r with
    | action a => exact ih opened ((congrArg ScanState.buffer answer.2).trans hopened)
    | shared c =>
      have hserve := answer.2
      cases c with
      | gather items =>
        have hjoin : state.buffer ++ items = (opened ++ [items]).flatten := by
          rw [List.flatten_append, List.flatten_singleton, ← hopened]
        show Cut (opened ++ items :: (sharedLog log).filterMap gathered) _ _
        rw [List.append_cons]
        rcases Shared.serve_gather hserve with ⟨rfl, hbuffer⟩ | ⟨rfl, hbuffer⟩
        · have hrest := Cut.cons (opened ++ [items]) (ih [] hbuffer)
          rwa [← hjoin] at hrest
        · exact ih _ (hbuffer.trans hjoin)
      | take =>
        obtain ⟨hbuffer, rfl | ⟨rfl, hempty⟩⟩ := Shared.serve_take hserve
        · have hrest := Cut.cons opened (ih [] hbuffer)
          rwa [← hopened] at hrest
        · exact ih opened (hbuffer.trans (hempty.symm.trans hopened))
      | _ => exact ih opened ((congrArg (·.2.buffer) hserve).trans hopened)

@[simp] theorem sharedLog_append {log more : List (Nat × Exchange jobs)} :
    sharedLog (log ++ more) = sharedLog log ++ sharedLog more := by
  rw [sharedLog, List.map_append, List.filterMap_append]
  rfl

theorem mem_sharedOf_iff {c : Shared} {x : c.Answer} {trace : List (Exchange jobs)} :
    ⟨c, x⟩ ∈ trace.filterMap sharedOf ↔ ⟨.shared c, x⟩ ∈ trace := by
  rw [List.mem_filterMap]
  constructor
  · rintro ⟨⟨r, y⟩, hmem, h⟩
    cases r with
    | action a => cases h
    | shared d =>
      cases h
      exact hmem
  · exact fun h => ⟨_, h, rfl⟩

theorem mem_sharedLog {c : Shared} {x : c.Answer} {log : List (Nat × Exchange jobs)} :
    ⟨c, x⟩ ∈ sharedLog log ↔ ∃ i, (i, (⟨.shared c, x⟩ : Exchange jobs)) ∈ log := by
  rw [sharedLog, mem_sharedOf_iff, List.mem_map]
  constructor
  · rintro ⟨⟨i, e⟩, hmem, rfl⟩
    exact ⟨i, hmem⟩
  · rintro ⟨i, hmem⟩
    exact ⟨_, hmem, rfl⟩

/-- When all was taken out and nothing is put in any more, the buffer stays empty. -/
theorem buffer_eq_nil {σ : Type} {threshold : Nat} {rules : Rules indexing σ}
    {crew : Crew jobs Job BatchResult} {ts ts' : List (Thread jobs Job BatchResult)}
    {s s' : σ × ScanState} {log : List (Nat × Exchange jobs)} {x : Option (List PendingBlock)}
    (h : Runs (jobRules threshold rules) crew ts s log ts' s')
    (hnone : (sharedLog log).filterMap gathered = []) (htake : ⟨.take, x⟩ ∈ sharedLog log) :
    s'.2.buffer = [] := by
  obtain ⟨i, hmem⟩ := mem_sharedLog.1 htake
  obtain ⟨before, behind, rfl⟩ := List.append_of_mem hmem
  obtain ⟨ts₁, s₁, -, hrest⟩ := h.split
  cases hrest with
  | turn chosen asks answer others =>
    have hempty := (Shared.serve_take answer.2).1
    have hnone : (sharedLog behind).filterMap gathered = [] := by
      rw [sharedLog_append, List.filterMap_append] at hnone
      exact (List.append_eq_nil_iff.1 hnone).2
    obtain ⟨groups, rest, hlists, -, hbuffer⟩ := cut_buffer others [] hempty
    rw [hnone] at hlists
    rw [hbuffer, (List.append_eq_nil_iff.1 hlists.symm).2]
    rfl

/-- What a request counts, where a file counts with a weight. -/
def Shared.tally (weight : ParsedFile → Nat) : Shared → Nat
  | .count f => weight f
  | _ => 0

/-- What a request changes of the numbers of blocks that are found and of files that are processed. -/
theorem Shared.serve_counts (threshold : Nat) (c : Shared) (state : ScanState) :
    (c.serve threshold state).2.found = state.found + c.tally (·.blocks.length) ∧
      (c.serve threshold state).2.processed = state.processed + c.tally fun _ => 1 := by
  cases c with
  | gather items =>
    rw [serve]
    split
    · exact ⟨rfl, rfl⟩
    · exact ⟨rfl, rfl⟩
  | take =>
    rw [serve]
    split
    · exact ⟨rfl, rfl⟩
    · exact ⟨rfl, rfl⟩
  | _ => exact ⟨rfl, rfl⟩

section
variable {σ : Type} {threshold : Nat} {rules : Rules indexing σ} {crew : Crew jobs Job BatchResult}
  {ts ts' : List (Thread jobs Job BatchResult)} {s s' : σ × ScanState} {log : List (Nat × Exchange jobs)}

/-- A number that goes up when files are counted adds up over a run. -/
theorem tally_eq {view : ScanState → Nat} {weight : ParsedFile → Nat}
    (hview : ∀ c state, view (Shared.serve threshold c state).2 = view state + c.tally weight)
    (h : Runs (jobRules threshold rules) crew ts s log ts' s') :
    view s'.2 = view s.2 + (((sharedLog log).filterMap counted).map weight).sum := by
  induction h with
  | stop ts s => rfl
  | @turn ts ts' s s' s'' log i t r next x chosen asks answer others ih =>
    obtain ⟨hashes, state⟩ := s
    obtain ⟨hashes', state'⟩ := s'
    cases r with
    | action a => exact ih.trans (congrArg (view · + _) answer.2)
    | shared c =>
      have hserve : view state' = _ := (congrArg (view ·.2) answer.2).trans (hview c state)
      refine ih.trans ((congrArg (· + _) hserve).trans ?_)
      rw [Nat.add_assoc]
      cases c with
      | count f => rfl
      | _ => exact congrArg (view state + ·) (Nat.zero_add _)

/-- As many blocks are found as the counted files have. -/
theorem found_eq (h : Runs (jobRules threshold rules) crew ts s log ts' s') : s'.2.found =
    s.2.found + (((sharedLog log).filterMap counted).map fun f => f.blocks.length).sum :=
  tally_eq (fun c state => (c.serve_counts threshold state).1) h

/-- As many files are processed as are counted. -/
theorem processed_eq (h : Runs (jobRules threshold rules) crew ts s log ts' s') :
    s'.2.processed = s.2.processed + ((sharedLog log).filterMap counted).length := by
  rw [tally_eq (fun c state => (c.serve_counts threshold state).2) h, List.map_const', List.sum_replicate,
    Nat.nsmul_eq_mul, Nat.mul_one]

end

/-- What only one thread changes of the hash of a file is what its own exchanges change. -/
theorem foldl_onHash_own {path : String} {i : Nat} {log : List (Nat × Exchange jobs)}
    (h : ∀ j e effect, (j, e) ∈ log → effect ∈ effects e → Touches path effect → j = i)
    (base : Option String) :
    ((log.map (·.2)).flatMap effects).foldl (Effect.onHash path) base =
      ((own i log).flatMap effects).foldl (Effect.onHash path) base := by
  induction log generalizing base with
  | nil => rfl
  | cons entry log ih =>
    obtain ⟨j, e⟩ := entry
    have hrest := ih fun k e' effect hmem => h k e' effect (List.mem_cons_of_mem _ hmem)
    rw [List.map_cons, List.flatMap_cons, List.foldl_append, hrest, Program.Crew.own_cons]
    split
    · rw [List.flatMap_cons, List.foldl_append]
    · rename_i hne
      rw [foldl_onHash_of_not_touches fun effect heffect htouches =>
        hne (h j e effect List.mem_cons_self heffect htouches)]

/-- The cache changes by the effects of what is exchanged. -/
theorem get?_of_runs {threshold : Nat} {crew : Crew jobs Job BatchResult}
    {ts ts' : List (Thread jobs Job BatchResult)} {s s' : Hashes × ScanState}
    {log : List (Nat × Exchange jobs)} (h : Runs (jobRules threshold ledger) crew ts s log ts' s')
    (path : String) : s'.1.get? path =
      ((log.map (·.2)).flatMap effects).foldl (Effect.onHash path) (s.1.get? path) := by
  rw [List.foldl_flatMap]
  refine Runs.foldl (fun s => s.1.get? path) _ (fun r s x s' answer => ?_) h
  cases r with
  | action a => exact get?_ledger answer.1
  | shared c => exact congrArg (Hashes.get? · path) answer.1

end Scan

namespace ConcurrentScan

open Scan

variable {s : Services} {mode : ScanMode} {before after : Hashes} {result : ScanResult}
  (run : ConcurrentScan s mode before result after)

/-! ## Whole runs -/

/-- What the files, the flush and the batches have exchanged, each with the number of its thread. -/
def log : List (Nat × Exchange jobs) :=
  run.working ++ run.ending

/-- The files that were read and parsed, in the order in which they were counted. -/
def found : List ParsedFile :=
  (sharedLog run.log).filterMap counted

/-- The batches, in the order in which they were submitted. -/
def submitted : List (List PendingBlock) :=
  (sharedLog run.log).filterMap Scan.submitted

/-- The steps in which the count of indexed blocks went up. -/
def steps : List Nat :=
  (sharedLog run.log).filterMap advanced

/-- What the scan did to store and cache, in order. -/
def effects : List Effect :=
  (run.log.map (·.2)).flatMap Scan.effects ++ (run.closing.map (·.2)).flatMap Scan.effects

theorem listed_nodup : run.listed.Nodup := by
  obtain ⟨found, _, ⟨-, hnodup⟩, hrest⟩ := Program.ends_call_iff.1 run.lists
  obtain ⟨hlisted, -⟩ := Program.ends_done_iff.1 hrest
  exact hlisted ▸ hnodup.filter _

variable {run}

theorem sound_worked : ∀ t ∈ run.worked, (crew s mode).Sound t := by
  refine run.works.sound fun t ht => ?_
  obtain ⟨path, -, rfl⟩ := List.mem_map.1 ht
  exact .nil _

theorem sound_ended : ∀ t ∈ run.ended, (crew s mode).Sound t := by
  refine run.ends.sound fun t ht => ?_
  rcases List.mem_append.1 ht with hold | hnew
  · exact sound_worked t hold
  · rw [List.mem_singleton.1 hnew]
    exact .nil _

variable (run) in
/-- The cache before the closing. -/
theorem get?_settled (path : String) : run.settled.1.get? path =
    ((run.log.map (·.2)).flatMap Scan.effects).foldl (Effect.onHash path) (before.get? path) := by
  rw [get?_of_runs run.ends path, get?_of_runs run.works path, ← List.foldl_append,
    ← List.flatMap_append, ← List.map_append]
  rfl

/-- Every thread has followed the program of its job to its end. -/
theorem exists_follows {i : Nat} {t : Thread jobs Job BatchResult} (h : run.ended[i]? = some t) :
    ∃ r, run.results[i]? = some r ∧ Follows (t.job.program s mode) t.trace (.done r) := by
  have hdone := congrArg (·[i]?) run.allDone
  simp only [List.getElem?_map, h, Option.map_some] at hdone
  cases hr : run.results[i]? with
  | none =>
    rw [hr] at hdone
    cases hdone
  | some r =>
    rw [hr, Option.map_some, Option.some_inj] at hdone
    exact ⟨r, rfl, hdone ▸ sound_ended t (List.mem_of_getElem? h)⟩

variable (run) in
theorem traceAt_ended (i : Nat) : traceAt run.ended i = own i run.log := by
  have hstart : traceAt (run.listed.map fun path => (crew s mode).start (.file path)) i = [] := by
    have hnew := Program.Crew.traceAt_map_start (crew s mode) (run.listed.map Job.file) i
    rwa [List.map_map] at hnew
  have hflush : traceAt (run.worked ++ [(crew s mode).start .flush]) i = traceAt run.worked i :=
    Program.Crew.traceAt_append_start [Job.flush] i
  rw [run.ends.traceAt_eq, hflush, run.works.traceAt_eq, hstart, log, Program.Crew.own_append,
    List.nil_append]

/-- The trace of a thread is what the log has of it. -/
theorem trace_eq {i : Nat} {t : Thread jobs Job BatchResult} (h : run.ended[i]? = some t) :
    t.trace = own i run.log := by
  rw [← run.traceAt_ended, Program.Crew.traceAt_of_getElem? h]

/-- Whatever is in the log was done by some thread. -/
theorem exists_thread {i : Nat} {e : Exchange jobs} (h : (i, e) ∈ run.log) :
    ∃ t, run.ended[i]? = some t ∧ e ∈ t.trace := by
  have hmem := Program.Crew.mem_own.2 h
  rw [← run.traceAt_ended, traceAt] at hmem
  cases ht : run.ended[i]? with
  | none =>
    rw [ht] at hmem
    cases hmem
  | some t =>
    rw [ht] at hmem
    exact ⟨t, rfl, hmem⟩

variable (run) in
theorem perm_log : (run.ended.flatMap (·.trace)).Perm (run.log.map (·.2)) := by
  have hstart : (run.listed.map fun path => (crew s mode).start (.file path)).flatMap (·.trace) = [] := by
    simp [Program.Crew.start]
  have hflush : (run.worked ++ [(crew s mode).start .flush]).flatMap (·.trace) =
      run.worked.flatMap (·.trace) :=
    Program.Crew.flatMap_trace_append_start [Job.flush]
  have hworks := run.works.perm
  have hends := run.ends.perm
  rw [hstart, List.nil_append] at hworks
  rw [hflush] at hends
  rw [log, List.map_append]
  exact hends.trans (hworks.append_right _)

variable (run) in
/-- What all threads have exchanged with what they share, in some order. -/
theorem perm_shared : (run.ended.flatMap fun t => t.trace.filterMap sharedOf).Perm
    (sharedLog run.log) := by
  rw [← List.filterMap_flatMap]
  exact run.perm_log.filterMap sharedOf

variable (run) in
/-- What was exchanged of some kind, thread by thread. -/
theorem perm_filterMap {β : Type} (g : Exchange sharing → Option β) :
    (run.ended.flatMap fun t => (t.trace.filterMap sharedOf).filterMap g).Perm
      ((sharedLog run.log).filterMap g) := by
  rw [← List.filterMap_flatMap]
  exact run.perm_shared.filterMap g

variable (run) in
/-- The jobs are the files, the batches that they submitted, the flush, and the batch that it submitted. -/
theorem map_job_ended : run.ended.map (·.job) = run.listed.map .file ++
    ((sharedLog run.working).filterMap Scan.submitted).map .batch ++ .flush ::
      ((sharedLog run.ending).filterMap Scan.submitted).map .batch := by
  have hworked : run.worked.map (·.job) = run.listed.map .file ++
      ((sharedLog run.working).filterMap Scan.submitted).map .batch := by
    rw [run.works.map_job, spawns_eq s mode, List.map_map]
    rfl
  rw [run.ends.map_job, spawns_eq s mode, List.map_append, hworked, List.append_assoc]
  rfl

/-- Every thread has exchanged with what the jobs share what its job is about. -/
theorem exists_handles {t : Thread jobs Job BatchResult} (h : t ∈ run.ended) :
    ∃ r ∈ run.results, Handles s t.job r (t.trace.filterMap sharedOf) := by
  obtain ⟨i, hi⟩ := List.mem_iff_getElem?.1 h
  obtain ⟨r, hr, hfollows⟩ := exists_follows hi
  exact ⟨r, List.mem_of_getElem? hr, yields_job t.job r t.trace hfollows⟩

variable (run) in
/-- The jobs that are batches. -/
theorem filterMap_batch_jobs : (run.ended.map (·.job)).filterMap Job.batch? = run.submitted := by
  have hbatches : ∀ batches : List (List PendingBlock),
      (batches.map Job.batch).filterMap Job.batch? = batches := by
    intro batches
    rw [List.filterMap_map]
    exact List.filterMap_some
  have hfiles : (run.listed.map Job.file).filterMap Job.batch? = [] := by
    rw [List.filterMap_map, List.filterMap_eq_nil_iff]
    exact fun _ _ => rfl
  rw [run.map_job_ended, List.filterMap_append, List.filterMap_append, hfiles, hbatches, submitted, log,
    sharedLog_append, List.filterMap_append]
  exact congrArg (_ ++ ·) (hbatches _)

variable (run) in
/-- The jobs that are files. -/
theorem flatMap_paths_jobs : (run.ended.map (·.job)).flatMap Job.paths = run.listed := by
  have hbatches : ∀ batches : List (List PendingBlock), (batches.map Job.batch).flatMap Job.paths = [] := by
    intro batches
    rw [List.flatMap_map, List.flatMap_eq_nil_iff]
    exact fun _ _ => rfl
  have hfiles : (run.listed.map Job.file).flatMap Job.paths = run.listed := by
    rw [List.flatMap_map]
    exact List.flatMap_singleton' _
  rw [run.map_job_ended, List.flatMap_append, List.flatMap_append, hfiles, hbatches, List.flatMap_cons,
    hbatches, List.append_nil]
  exact List.append_nil _

/-- A thread that scans a file is one of those that the scan began with. -/
theorem getElem?_listed {i : Nat} {t : Thread jobs Job BatchResult} {path : String}
    (h : run.ended[i]? = some t) (hjob : t.job = .file path) : run.listed[i]? = some path := by
  have hjobs := congrArg (·[i]?) run.map_job_ended
  simp only [List.getElem?_map, h, Option.map_some, hjob] at hjobs
  by_cases hi : i < run.listed.length
  · rw [List.append_assoc, List.getElem?_append_left (by rwa [List.length_map]), List.getElem?_map] at hjobs
    cases hpath : run.listed[i]? with
    | none =>
      rw [hpath] at hjobs
      cases hjobs
    | some other =>
      rw [hpath] at hjobs
      cases hjobs
      rfl
  · rw [List.append_assoc, List.getElem?_append_right (by rw [List.length_map]; omega)] at hjobs
    have hmem := List.mem_of_getElem? hjobs.symm
    simp at hmem

/-- When all files have been worked on, they do nothing any more. -/
theorem own_ending_of_file {i : Nat} {t : Thread jobs Job BatchResult} {path : String}
    (h : run.ended[i]? = some t) (hjob : t.job = .file path) : own i run.ending = [] := by
  have hi : i < run.listed.length := (List.getElem?_eq_some_iff.1 (getElem?_listed h hjob)).1
  obtain ⟨u, hu, hdone⟩ := run.filesDone i hi
  have hlt : i < run.worked.length := (List.getElem?_eq_some_iff.1 hu).1
  exact (run.ends.ended (by rwa [List.getElem?_append_left hlt]) hdone).2

variable (run) in
/-- Only files put blocks into the buffer, and they have been worked on. -/
theorem gathered_ending : (sharedLog run.ending).filterMap gathered = [] := by
  rw [List.filterMap_eq_nil_iff]
  rintro ⟨c, x⟩ hmem
  cases c with
  | gather items =>
    obtain ⟨i, hending⟩ := mem_sharedLog.1 hmem
    obtain ⟨t, ht, htrace⟩ := exists_thread (List.mem_append_right run.working hending)
    obtain ⟨r, -, hhandles⟩ := exists_handles (List.mem_of_getElem? ht)
    obtain ⟨path, hjob⟩ := hhandles.exists_file
      (List.mem_filterMap.2 ⟨_, mem_sharedOf_iff.2 htrace, rfl⟩)
    have hnone := own_ending_of_file ht hjob
    exact absurd (Program.Crew.mem_own.2 hending) (hnone ▸ List.not_mem_nil)
  | _ => rfl

variable (run) in
/-- The flush takes out what is left in the buffer. -/
theorem exists_take_ending : ∃ x, ⟨.take, x⟩ ∈ sharedLog run.ending := by
  have hnew : own run.worked.length run.working = [] := by
    have htrace := run.works.traceAt_eq run.worked.length
    rw [traceAt, List.getElem?_eq_none (Nat.le_refl _)] at htrace
    exact (List.append_eq_nil_iff.1 htrace.symm).2
  have hjob : (run.ended.map (·.job))[run.worked.length]? = some .flush := by
    rw [run.ends.map_job, List.map_append, List.append_assoc,
      List.getElem?_append_right (Nat.le_of_eq (List.length_map _)), List.length_map,
      Nat.sub_self]
    rfl
  rw [List.getElem?_map, Option.map_eq_some_iff] at hjob
  obtain ⟨t, ht, hflush⟩ := hjob
  obtain ⟨r, -, hhandles⟩ := exists_handles (List.mem_of_getElem? ht)
  rw [hflush] at hhandles
  have hin : ∃ x, ⟨.take, x⟩ ∈ t.trace.filterMap sharedOf := by
    generalize t.trace.filterMap sharedOf = steps at hhandles
    cases hhandles with
    | drained => exact ⟨none, List.mem_cons_self⟩
    | flushed batch => exact ⟨some batch, List.mem_cons_self⟩
  obtain ⟨x, hin⟩ := hin
  have htake := mem_sharedOf_iff.1 hin
  rw [trace_eq ht, log, Program.Crew.own_append, hnew, List.nil_append] at htake
  exact ⟨x, mem_sharedLog.2 ⟨run.worked.length, Program.Crew.mem_own.1 htake⟩⟩

variable (run) in
/-- The files that have blocks. -/
theorem perm_gathered : ((sharedLog run.log).filterMap gathered).Perm
    ((run.found.filter ParsedFile.hasBlocks).map ParsedFile.items) := by
  refine (run.perm_filterMap gathered).symm.trans ?_
  have hthreads : (run.ended.flatMap fun t => (t.trace.filterMap sharedOf).filterMap gathered) =
      ((run.ended.flatMap fun t => (t.trace.filterMap sharedOf).filterMap counted).filter
        ParsedFile.hasBlocks).map ParsedFile.items := by
    rw [List.filter_flatMap, List.map_flatMap]
    refine List.flatMap_congr fun t ht => ?_
    obtain ⟨r, -, hhandles⟩ := exists_handles ht
    exact hhandles.gathered_eq
  rw [hthreads]
  exact ((run.perm_filterMap counted).filter _).map _

theorem ne_nil_of_gathered {items : List PendingBlock}
    (h : items ∈ (sharedLog run.log).filterMap gathered) : items ≠ [] := by
  obtain ⟨f, hf, rfl⟩ := List.mem_map.1 (run.perm_gathered.mem_iff.1 h)
  have hblocks := (List.mem_filter.1 hf).2
  simpa [ParsedFile.hasBlocks, ParsedFile.items] using hblocks

variable (run) in
/-- What was put into the buffer is cut into the batches that were taken out of it. -/
theorem exists_groups : ∃ groups : List (List (List PendingBlock)),
    (sharedLog run.log).filterMap gathered = groups.flatten ∧
      (sharedLog run.log).filterMap taken = groups.map List.flatten := by
  obtain ⟨x, htake⟩ := run.exists_take_ending
  have hempty := buffer_eq_nil run.ends run.gathered_ending htake
  obtain ⟨first, rest, hlists, hbatches, hleft⟩ := cut_buffer run.works [] rfl
  obtain ⟨second, last, hlists', hbatches', hleft'⟩ := cut_buffer run.ends rest hleft
  rw [List.nil_append] at hlists
  rw [run.gathered_ending, List.append_nil] at hlists'
  -- nothing is left, since only files with blocks put them into the buffer
  have hlast : last = [] := by
    cases last with
    | nil => rfl
    | cons items last =>
      have hmem : items ∈ (sharedLog run.log).filterMap gathered := by
        rw [log, sharedLog_append, List.filterMap_append, hlists, hlists']
        simp
      refine absurd ?_ (ne_nil_of_gathered hmem)
      rw [hempty] at hleft'
      exact List.flatten_eq_nil_iff.1 hleft'.symm items List.mem_cons_self
  rw [hlast, List.append_nil] at hlists'
  refine ⟨first ++ second, ?_, ?_⟩
  · rw [log, sharedLog_append, List.filterMap_append, run.gathered_ending, hlists, hlists',
      List.flatten_append, List.append_nil]
  · rw [log, sharedLog_append, List.filterMap_append, hbatches, hbatches', List.map_append]

variable (run) in
/-- What is taken out of the buffer is submitted. -/
theorem perm_submitted : run.submitted.Perm ((sharedLog run.log).filterMap taken) := by
  refine (run.perm_filterMap Scan.submitted).symm.trans ?_
  have hthreads : (run.ended.flatMap fun t => (t.trace.filterMap sharedOf).filterMap Scan.submitted) =
      run.ended.flatMap fun t => (t.trace.filterMap sharedOf).filterMap taken := by
    refine List.flatMap_congr fun t ht => ?_
    obtain ⟨r, -, hhandles⟩ := exists_handles ht
    exact hhandles.submitted_eq
  rw [hthreads]
  exact run.perm_filterMap taken

variable (run) in
/-- No file is counted twice. -/
theorem found_nodup : (run.found.map (·.path)).Nodup := by
  have hperm := (run.perm_filterMap counted).map (·.path)
  refine (hperm.nodup_iff).1 ?_
  have hsub : ((run.ended.flatMap fun t => (t.trace.filterMap sharedOf).filterMap counted).map
      (·.path)).Sublist run.listed := by
    rw [← run.flatMap_paths_jobs, List.flatMap_map, List.map_flatMap]
    refine List.Sublist.flatMap_right _ fun t ht => ?_
    obtain ⟨r, -, hhandles⟩ := exists_handles ht
    exact hhandles.paths
  exact run.listed_nodup.sublist hsub

theorem parses_of_found {f : ParsedFile} (h : f ∈ run.found) : Parses s f := by
  have hmem := (run.perm_filterMap counted).mem_iff.2 h
  obtain ⟨t, ht, hin⟩ := List.mem_flatMap.1 hmem
  obtain ⟨r, -, hhandles⟩ := exists_handles ht
  exact hhandles.parses f hin

end ConcurrentScan

end SourceIndex
