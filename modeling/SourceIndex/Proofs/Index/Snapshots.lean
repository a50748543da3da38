import SourceIndex.Proofs.Index.Accounts
/-!
# Scans of files that do not change

A `Snapshot` holds what the file system answers while no file changes. A scan that finds it and in
which no call fails leaves the cache up to date (`ConcurrentScan.upToDate`): every listed file with a text
has the hash of this text, and there is no path that is not listed.

A file looks at the cache before anything of its path is entered (`get?_of_look`), so it is skipped
exactly if it had its hash already. A file without blocks enters its hash itself (`yields_file_empty`), one
with blocks has it from the batch that holds them, none of which lost anything (`not_lost`). The closing
takes out what is not listed (`yields_close_vanished`).
-/

namespace SourceIndex

open Program (Crew Exchange Follows Guarded Thread)
open Program.Crew (own)

/-- What the file system answers while no file changes. -/
structure Snapshot where
  listed : List String
  size : String → Except IoFailure Nat
  content : String → Except IoFailure String

namespace Snapshot

/-- A request to the file system is answered from the snapshot. -/
def Answers (w : Snapshot) : (a : Action) → a.Answer → Prop
  | .fileSize path, x => x = w.size path
  | .readFile path, x => x = w.content path
  | _, _ => True

/-- The text that a scan finds in a file: none if it is too large or cannot be read. -/
def text? (w : Snapshot) (limit : Nat) (path : String) : Option String :=
  match w.size path, w.content path with
  | .ok size, .ok text => if limit < size then none else some text
  | _, _ => none

/-- A cache has the hash of every listed file that has a text, and no other path than those listed. -/
structure UpToDate (w : Snapshot) (s : Services) (listed : List String) (hashes : Hashes) : Prop where
  current : ∀ path ∈ listed, ∀ text, w.text? s.tuning.maxFileSize path = some text →
    hashes.get? path = some (contentHash text)
  present : ∀ path, (hashes.get? path).isSome → path ∈ listed

end Snapshot

/-- No call failed: there is a vector for every text, and the store did what it was asked for. -/
def Action.Succeeds : (a : Action) → a.Answer → Prop
  | .embed texts, x => ∃ embeddings, x = .ok embeddings ∧ embeddings.vectors.length = texts.length
  | .upsert _, x => x = .ok ()
  | .deletePoints _, x => x = .ok ()
  | _, _ => True

/-- No call of a trace failed. -/
def AllSucceed (trace : List (Exchange indexing)) : Prop :=
  ∀ e ∈ trace, e.request.Succeeds e.answer

theorem allSucceed_append {first second : List (Exchange indexing)} :
    AllSucceed (first ++ second) ↔ AllSucceed first ∧ AllSucceed second :=
  List.forall_mem_append

namespace Batch

variable {α ε β : Type} {strategy : BatchStrategy α} {limits : BatchLimits} {segment items : List α}
  {segments : List (List α)} {path : String}

theorem yields_embedAndUpsert : (embedAndUpsert strategy segment).Yields fun x trace =>
    AllSucceed trace → x = .ok () := by
  refine Program.yields_ask_bind fun x => ?_
  cases x with
  | error e =>
    refine Program.yields_pure fun h => ?_
    obtain ⟨_, hfalse, -⟩ := h _ List.mem_cons_self
    cases hfalse
  | ok embeddings =>
    refine Program.yields_ite (fun hlength => Program.yields_pure fun h => ?_) fun _ => ?_
    · obtain ⟨others, heq, hall⟩ := h _ List.mem_cons_self
      cases heq
      rw [List.length_map] at hall
      simp [hall] at hlength
    · refine Program.yields_ask_bind fun y => ?_
      cases y with
      | ok => exact Program.yields_pure fun _ => rfl
      | error e =>
        refine Program.yields_pure fun h => ?_
        cases h _ (List.mem_cons_of_mem _ List.mem_cons_self)

/-- What succeeds at once is not tried again. -/
theorem yields_retry {policy : RetryPolicy} {operation : Procedure (Except ε Unit)}
    (h : operation.Yields fun x trace => AllSucceed trace → x = .ok ()) :
    (policy.run pause operation).Yields fun x trace => AllSucceed trace → x = .ok () := by
  have go : ∀ more attempt, (policy.runFrom pause operation attempt more).Yields fun x trace =>
      AllSucceed trace → x = .ok () := by
    intro more
    cases more with
    | zero => exact fun _ => h
    | succ more =>
      intro attempt
      refine h.bind fun x first hx => ?_
      cases x with
      | ok => exact Program.yields_pure fun _ => rfl
      | error failure =>
        intro y second _ hall
        cases hx (allSucceed_append.1 hall).1
  exact go _ _

theorem yields_runSegment_of_allSucceed : (runSegment strategy limits segment).Yields fun r trace =>
    AllSucceed trace → ¬r.Lost path := by
  refine (yields_retry yields_embedAndUpsert).bind fun x first hx => ?_
  cases x with
  | ok =>
    exact Program.Yields.bind (fun _ _ _ => trivial) fun _ _ _ =>
      Program.yields_pure fun _ => not_lost_succeeded
  | error e =>
    intro r second _ hall
    cases hx (allSucceed_append.1 hall).1

theorem yields_runSegments_of_allSucceed {progress : Nat → Nat → Procedure Unit} (r : BatchResult)
    (hr : ¬r.Lost path) : (runSegments strategy limits progress r segments).Yields fun r' trace =>
      AllSucceed trace → ¬r'.Lost path := by
  induction segments generalizing r with
  | nil => exact Program.yields_pure fun _ => hr
  | cons segment segments ih =>
    intro r' trace h hall
    obtain ⟨r₁, first, rest, rfl, hfirst, h⟩ := Program.follows_bind_iff.1 h
    obtain ⟨_, told, rest, rfl, -, h⟩ := Program.follows_bind_iff.1 h
    obtain ⟨hall₁, hall⟩ := allSucceed_append.1 hall
    have hnot : ¬(r.merge r₁).Lost path := fun hlost =>
      (BatchResult.lost_merge.1 hlost).elim hr (yields_runSegment_of_allSucceed _ _ hfirst hall₁)
    exact ih _ hnot _ _ h (allSucceed_append.1 hall).2

/-- If no call fails, a batch loses nothing. -/
theorem yields_process_of_allSucceed {progress : Nat → Nat → Procedure Unit} :
    (process strategy limits progress items).Yields fun r trace => AllSucceed trace → ¬r.Lost path := by
  refine Program.yields_ite (fun _ => Program.yields_pure fun _ => BatchResult.not_lost_empty path) fun _ => ?_
  refine Program.Yields.bind (fun _ _ _ => trivial) fun errors first _ => ?_
  refine (yields_runSegments_of_allSucceed _ ?_).mono fun r rest h hall => h (allSucceed_append.1 hall).2
  exact BatchResult.not_lost_empty path

end Batch

namespace Scan

variable {s : Services} {mode : ScanMode} {w : Snapshot} {path : String} {f : ParsedFile}
  {listed : List String} {batches : BatchResult}

/-- If an exchange is one of an action, it was answered so. -/
def Answered (p : (a : Action) → a.Answer → Prop) : Exchange jobs → Prop
  | ⟨.action a, x⟩ => p a x
  | ⟨.shared _, _⟩ => True

/-- What a procedure exchanged was answered so as the job exchanged it. -/
theorem answered_performed {p : (a : Action) → a.Answer → Prop} {exchanges : List (Exchange indexing)}
    (h : ∀ e ∈ exchanges.map performed, Answered p e) : ∀ e ∈ exchanges, p e.request e.answer :=
  fun _ he => h _ (List.mem_map_of_mem he)

/-! ## Files -/

/-- What looking at a file comes to: a text whose hash is in the cache is skipped, any other text is
parsed, and where there is none nothing is. -/
inductive Sees (s : Services) (w : Snapshot) (path : String) :
    Finding → List (Exchange indexing) → Prop where
  | nothing {finding : Finding} {trace : List (Exchange indexing)}
    (blank : w.text? s.tuning.maxFileSize path = none) (unparsed : ∀ f, finding ≠ .parsed f) :
    Sees s w path finding trace
  | same {text : String} {hashes : Hashes} {trace : List (Exchange indexing)}
    (reads : w.text? s.tuning.maxFileSize path = some text) (looks : ⟨.hashes, hashes⟩ ∈ trace)
    (known : hashes.get? path = some (contentHash text)) : Sees s w path .skipped trace
  | other {text : String} {hashes : Hashes} {trace : List (Exchange indexing)} {f : ParsedFile}
    (reads : w.text? s.tuning.maxFileSize path = some text) (looks : ⟨.hashes, hashes⟩ ∈ trace)
    (unknown : hashes.get? path ≠ some (contentHash text)) (here : f.path = path)
    (hash : f.hash = contentHash text) : Sees s w path (.parsed f) trace

theorem yields_look_sees : (look s path).Yields fun finding trace =>
    (∀ e ∈ trace, w.Answers e.request e.answer) → Sees s w path finding trace := by
  refine Program.yields_ask_bind fun size => ?_
  cases size with
  | error e =>
    refine Program.yields_pure fun h => .nothing ?_ nofun
    have hsize : .error e = w.size path := h _ List.mem_cons_self
    rw [Snapshot.text?, ← hsize]
  | ok size =>
    refine Program.yields_ite (fun hlarge => Program.yields_pure fun h => ?_) fun hsmall => ?_
    · refine .nothing ?_ nofun
      have hsize : .ok size = w.size path := h _ List.mem_cons_self
      rw [Snapshot.text?, ← hsize]
      cases w.content path with
      | ok text => exact if_pos hlarge
      | error e => rfl
    refine Program.yields_ask_bind fun content => ?_
    cases content with
    | error e =>
      refine Program.yields_pure fun h => .nothing ?_ nofun
      have hsize : .ok size = w.size path := h _ List.mem_cons_self
      have hcontent : .error e = w.content path := h _ (List.mem_cons_of_mem _ List.mem_cons_self)
      rw [Snapshot.text?, ← hsize, ← hcontent]
    | ok content =>
      refine Program.yields_ask_bind fun (hashes : Hashes) => ?_
      have hreads {rest : List (Exchange indexing)}
          (h : ∀ e ∈ ⟨.fileSize path, .ok size⟩ :: ⟨.readFile path, .ok content⟩ ::
            (rest : List (Exchange indexing)), w.Answers e.request e.answer) :
          w.text? s.tuning.maxFileSize path = some content := by
        have hsize : .ok size = w.size path := h _ List.mem_cons_self
        have hcontent : .ok content = w.content path :=
          h _ (List.mem_cons_of_mem _ List.mem_cons_self)
        rw [Snapshot.text?, ← hsize, ← hcontent]
        exact if_neg hsmall
      have hlooks (rest : List (Exchange indexing)) : ⟨.hashes, hashes⟩ ∈
          (⟨.fileSize path, .ok size⟩ :: ⟨.readFile path, .ok content⟩ ::
            ⟨.hashes, hashes⟩ :: rest : List (Exchange indexing)) :=
        List.mem_cons_of_mem _ (List.mem_cons_of_mem _ List.mem_cons_self)
      refine Program.yields_ite (fun hknown => Program.yields_pure fun h => ?_) fun hunknown =>
        Program.yields_pure fun h => ?_
      · exact .same (hreads h) (hlooks []) (beq_iff_eq.1 hknown)
      · exact .other (hreads h) (hlooks []) (fun heq => hunknown (beq_iff_eq.2 heq)) rfl rfl

/-- A file is counted if looking at it found a text to parse, and no other is. -/
theorem yields_file_sees : (Job.program s mode (.file path)).Yields fun _ trace =>
    (∀ e ∈ trace, Answered w.Answers e) → ∃ finding looked rest,
      trace = looked.map performed ++ rest ∧ Sees s w path finding looked ∧
        ∀ f, finding = .parsed f ↔ f ∈ (trace.filterMap sharedOf).filterMap counted := by
  intro r trace h hanswered
  obtain ⟨finding, looked, dealt, told, error, rfl, hlook, hdeal, -⟩ := exists_deal h
  rw [List.append_assoc] at hanswered ⊢
  refine ⟨finding, looked, _, rfl, yields_look_sees _ _ hlook ?_, fun f => ?_⟩
  · exact answered_performed (List.forall_mem_append.1 hanswered).1
  · rw [parsed_iff_counts hdeal]
    simp only [List.filterMap_append, sharedOf_performed, List.nil_append, List.append_nil, mem_counted]
    exact exists_congr fun x => mem_sharedOf_iff.symm

/-- What a procedure exchanges that only tells changes nothing in store and cache. -/
theorem effects_performed {α : Type} {p : Procedure α} {a : α} {exchanges : List (Exchange indexing)}
    (h : Follows p exchanges (.done a)) (hp : p.Never (Action.May fun _ => True)) :
    (exchanges.map performed).flatMap effects = [] :=
  effects_eq_nil_of_not_does ((follows_perform_iff.2 ⟨exchanges, h, rfl⟩).never (never_perform hp))

theorem yields_enterEmpty_ok : (enterEmpty f (.ok ())).Yields fun _ exchanges => ∀ base,
    ((exchanges.map performed).flatMap effects).foldl (Effect.onHash f.path) base = some f.hash :=
  Program.yields_ask_bind fun _ => Program.yields_pure fun _ => if_pos rfl

theorem yields_takeEmpty : (takeEmpty s f).Yields fun _ exchanges => AllSucceed exchanges → ∀ base,
    ((exchanges.map performed).flatMap effects).foldl (Effect.onHash f.path) base = some f.hash := by
  refine Program.yields_ite (fun _ => ?_) fun _ => yields_enterEmpty_ok.mono fun _ _ h _ => h
  refine Program.yields_ask_bind fun deleted => ?_
  cases deleted with
  | ok => exact yields_enterEmpty_ok.mono fun _ _ h _ base => h base
  | error e =>
    intro _ rest _ h
    cases h _ List.mem_cons_self

theorem yields_takeFile_empty (tells : mode.OnlyTells) (hblocks : f.blocks = []) :
    (takeFile s mode f).Yields fun _ trace => (∀ e ∈ trace, Answered Action.Succeeds e) → ∀ base,
      (trace.flatMap effects).foldl (Effect.onHash f.path) base = some f.hash := by
  refine Program.yields_ask_bind fun x => (yields_tell tells _).bind fun _ told htold => ?_
  rw [if_pos (List.isEmpty_iff.2 hblocks)]
  refine yields_perform.mono fun _ _ ⟨entered, hentered, htrace⟩ h base => ?_
  subst htrace
  have hsucceed : AllSucceed entered := answered_performed fun e he =>
    h e (List.mem_cons_of_mem _ (List.mem_append_right _ he))
  rw [List.flatMap_cons, List.flatMap_append, htold]
  exact yields_takeEmpty _ _ hentered hsucceed base

/-- A file without blocks enters its hash, once its old points are gone. -/
theorem yields_file_empty (tells : mode.OnlyTells) (hblocks : f.blocks = []) :
    (Job.program s mode (.file path)).Yields fun _ trace =>
      (∀ e ∈ trace, Answered Action.Succeeds e) → ∀ x, ⟨.shared (.count f), x⟩ ∈ trace →
        ∀ base, (trace.flatMap effects).foldl (Effect.onHash f.path) base = some f.hash := by
  intro r trace h hanswered x hmem base
  obtain ⟨looked, dealt, told, error, rfl, hlook, htake, htell⟩ := exists_takeFile h hmem
  have htold : (told.map performed).flatMap effects = [] :=
    yields_tellFailure tells error _ _ (follows_perform_iff.2 ⟨told, htell, rfl⟩)
  rw [List.flatMap_append, List.flatMap_append, effects_performed hlook never_look, htold,
    List.nil_append, List.append_nil]
  exact yields_takeFile_empty tells hblocks _ _ htake
    (List.forall_mem_append.1 (List.forall_mem_append.1 hanswered).1).2 base

/-! ## Batches -/

/-- If no call of a batch failed as its job exchanged it, none failed. -/
theorem allSucceed_of_translates {exchanges : List (Exchange indexing)} {whole : List (Exchange jobs)}
    (h : Program.Translates (relay mode) exchanges whole)
    (hanswered : ∀ e ∈ whole, Answered Action.Succeeds e) : AllSucceed exchanges := by
  induction h with
  | nil => exact List.forall_mem_nil _
  | @cons e exchanges part rest head tail ih =>
    obtain ⟨hpart, hrest⟩ := List.forall_mem_append.1 hanswered
    refine List.forall_mem_cons.2 ⟨?_, ih hrest⟩
    rcases follows_relay head with ⟨rfl, -⟩ | ⟨before, size, y, told, ha, -, -⟩
    · exact hpart _ List.mem_cons_self
    · obtain ⟨a, x⟩ := e
      subst ha
      trivial

theorem yields_batch_of_answered {items : List PendingBlock} :
    (Job.program s mode (.batch items)).Yields fun r trace =>
      (∀ e ∈ trace, Answered Action.Succeeds e) → ¬r.Lost path := by
  intro r trace h hanswered
  obtain ⟨exchanges, hfollows, htranslates⟩ := Program.exists_of_follows_translate h
  exact Batch.yields_process_of_allSucceed r exchanges hfollows
    (allSucceed_of_translates htranslates hanswered)

/-! ## The closing -/

/-- Remove the points and the hashes of files that are not listed any more. -/
def dropVanished (s : Services) (mode : ScanMode) (vanished : List String) : Procedure Unit := do
  if vanished.isEmpty then return ()
  let deleted ← if mode.indexes then ask (.deletePoints (vanished.map (Path.relativeTo s.root)))
    else pure (.ok ())
  match deleted with
  | .ok () => ask (.forgetHashes vanished)
  | .error e =>
    mode.tell (.error s!"Failed to remove points of {vanished.length} deleted files: {e.message}")

theorem removeVanished_eq : removeVanished s mode listed =
    ask .hashes >>= fun hashes => dropVanished s mode (vanishedOf listed hashes) := rfl

/-- If no call fails, what is not listed any more leaves the cache. -/
theorem yields_dropVanished {vanished : List String} : (dropVanished s mode vanished).Yields
    fun _ exchanges => AllSucceed exchanges → ∀ base,
      ((exchanges.map performed).flatMap effects).foldl (Effect.onHash path) base =
        if path ∈ vanished then none else base := by
  refine Program.yields_ite (fun hempty => Program.yields_pure fun _ base => ?_) fun _ => ?_
  · rw [List.isEmpty_iff.1 hempty, if_neg List.not_mem_nil]
    rfl
  have hforget (deleted : List (Exchange indexing)) (idle : ∀ base,
      ((deleted.map performed).flatMap effects).foldl (Effect.onHash path) base = base) :
      (ask (.forgetHashes vanished)).Yields fun _ rest => AllSucceed (deleted ++ rest) → ∀ base,
        (((deleted ++ rest).map performed).flatMap effects).foldl (Effect.onHash path) base =
          if path ∈ vanished then none else base := by
    refine Program.yields_ask fun _ _ base => ?_
    rw [List.map_append, List.flatMap_append, List.foldl_append, idle]
    rfl
  split
  · refine Program.yields_ask_bind fun deleted => ?_
    cases deleted with
    | ok => exact hforget [⟨.deletePoints (vanished.map (Path.relativeTo s.root)), .ok ()⟩] fun _ => rfl
    | error e =>
      intro _ rest _ h
      cases h _ List.mem_cons_self
  · exact hforget [] fun _ => rfl

end Scan

namespace ConcurrentScan

open Scan

variable {s : Services} {mode : ScanMode} {before after : Hashes} {result : ScanResult}
  (run : ConcurrentScan s mode before result after)

/-- All that a scan exchanged. -/
def exchanged : List (Exchange jobs) :=
  run.log.map (·.2) ++ run.closing.map (·.2)

/-- A scan finds the workspace as a snapshot has it. -/
structure Finds (w : Snapshot) : Prop where
  listed : run.listed.Perm (w.listed.filter s.rules.accepts)
  answers : ∀ e ∈ run.exchanged, Answered w.Answers e

/-- No call of a scan failed. -/
def Flawless : Prop :=
  ∀ e ∈ run.exchanged, Answered Action.Succeeds e

variable {run} {w : Snapshot} {f : ParsedFile} {path : String} {hashes : Hashes}

theorem mem_exchanged_of_trace {i : Nat} {t : Thread jobs Job BatchResult}
    (ht : run.ended[i]? = some t) {e : Exchange jobs} (he : e ∈ t.trace) : e ∈ run.exchanged := by
  rw [trace_eq ht] at he
  exact List.mem_append_left _ (List.mem_map_of_mem (f := (·.2)) (Program.Crew.mem_own.1 he))

/-! ## What files are found -/

/-- A file looks at the cache before anything of its path is entered. -/
theorem get?_of_looked (tells : mode.OnlyTells) {i : Nat} {t : Thread jobs Job BatchResult}
    (ht : run.ended[i]? = some t) (hjob : t.job = .file path) {looked : List (Exchange indexing)}
    {rest : List (Exchange jobs)} (htrace : t.trace = looked.map performed ++ rest)
    (hlooks : ⟨.hashes, hashes⟩ ∈ looked) : hashes.get? path = before.get? path := by
  have hworking : t.trace = own i run.working := by
    rw [trace_eq ht, log, Program.Crew.own_append, own_ending_of_file ht hjob, List.append_nil]
  obtain ⟨first, second, rfl⟩ := List.append_of_mem hlooks
  rw [hworking, List.map_append, List.map_cons, List.append_assoc, List.cons_append] at htrace
  obtain ⟨front, behind, hfront, hfirst, -⟩ := Program.Crew.exists_of_own_eq htrace
  refine get?_of_look tells hfront fun g hg hpath => ?_
  obtain ⟨x, hmem⟩ := mem_counted.1 hg
  obtain ⟨j, hin⟩ := mem_sharedLog.1 hmem
  -- the thread itself would have counted it
  have hlog : (j, ⟨.shared (.count g), x⟩) ∈ run.log := by
    rw [log, hfront]
    exact List.mem_append_left _ (List.mem_append_left _ hin)
  obtain ⟨u, hu, hjob'⟩ := job_of_count hlog
  obtain rfl := file_unique hu ht (hpath ▸ hjob') hjob
  have hown := Program.Crew.mem_own.2 hin
  rw [hfirst] at hown
  exact shared_not_mem_performed first hown

/-- What is seen of a listed file, and whether it is found. -/
theorem exists_sees (tells : mode.OnlyTells) (finds : run.Finds w) (hlisted : path ∈ run.listed) :
    ∃ finding looked, Sees s w path finding looked ∧
      (∀ hashes : Hashes, ⟨.hashes, hashes⟩ ∈ looked → hashes.get? path = before.get? path) ∧
        ∀ f, finding = .parsed f ↔ f ∈ run.found ∧ f.path = path := by
  rw [← run.flatMap_paths_jobs, List.mem_flatMap] at hlisted
  obtain ⟨job, hjob, hpath⟩ := hlisted
  obtain ⟨t, hmem, rfl⟩ := List.mem_map.1 hjob
  obtain ⟨i, ht⟩ := List.mem_iff_getElem?.1 hmem
  have hjob : t.job = .file path := by
    cases hjob : t.job with
    | file other =>
      rw [hjob] at hpath
      rw [List.mem_singleton.1 hpath]
    | _ =>
      rw [hjob] at hpath
      cases hpath
  obtain ⟨r, -, hfollows⟩ := exists_follows ht
  rw [hjob] at hfollows
  obtain ⟨finding, looked, rest, htrace, hsees, hparsed⟩ := yields_file_sees r t.trace hfollows
    fun e he => finds.answers e (mem_exchanged_of_trace ht he)
  refine ⟨finding, looked, hsees, fun _ => get?_of_looked tells ht hjob htrace, fun f => ?_⟩
  rw [hparsed f, mem_counted]
  constructor
  · rintro ⟨x, hcount⟩
    have hlog := mem_sharedOf_iff.1 hcount
    rw [trace_eq ht, Program.Crew.mem_own] at hlog
    obtain ⟨u, hu, hjob'⟩ := job_of_count hlog
    obtain rfl := Option.some_inj.1 (ht.symm.trans hu)
    refine ⟨mem_counted.2 ⟨x, mem_sharedLog.2 ⟨i, hlog⟩⟩, ?_⟩
    rw [hjob] at hjob'
    cases hjob'
    rfl
  · rintro ⟨hf, rfl⟩
    obtain ⟨j, u, x, hu, hjob', hlog⟩ := exists_counting hf
    obtain rfl := file_unique hu ht hjob' hjob
    refine ⟨x, mem_sharedOf_iff.2 ?_⟩
    rw [trace_eq ht]
    exact Program.Crew.mem_own.2 hlog

/-- A listed file is found if it has a text whose hash is not in the cache, and with this hash. -/
theorem exists_found_of_text (tells : mode.OnlyTells) (finds : run.Finds w) (hlisted : path ∈ run.listed)
    {text : String} (htext : w.text? s.tuning.maxFileSize path = some text)
    (hunknown : before.get? path ≠ some (contentHash text)) :
    ∃ f ∈ run.found, f.path = path ∧ f.hash = contentHash text := by
  obtain ⟨finding, looked, hsees, hlooks, hparsed⟩ := exists_sees tells finds hlisted
  cases hsees with
  | nothing blank =>
    rw [htext] at blank
    cases blank
  | same reads looks known =>
    obtain rfl := Option.some_inj.1 (htext.symm.trans reads)
    rw [hlooks _ looks] at known
    exact absurd known hunknown
  | @other _ _ _ f reads looks unknown here hash =>
    obtain rfl := Option.some_inj.1 (htext.symm.trans reads)
    exact ⟨f, ((hparsed f).1 rfl).1, here, hash⟩

/-- A file that is found has a text whose hash was not in the cache. -/
theorem exists_text_of_found (tells : mode.OnlyTells) (finds : run.Finds w) (hf : f ∈ run.found) :
    ∃ text, w.text? s.tuning.maxFileSize f.path = some text ∧
      before.get? f.path ≠ some (contentHash text) ∧ f.hash = contentHash text := by
  obtain ⟨finding, looked, hsees, hlooks, hparsed⟩ := exists_sees tells finds (listed_of_found hf)
  obtain rfl := (hparsed f).2 ⟨hf, rfl⟩
  cases hsees with
  | nothing blank unparsed => exact absurd rfl (unparsed f)
  | other reads looks unknown here hash =>
    rw [hlooks _ looks] at unknown
    exact ⟨_, reads, unknown, hash⟩

/-! ## What is in the cache before the closing -/

/-- What a scan touches in the cache it has found. -/
theorem exists_found_of_touches (tells : mode.OnlyTells) {i : Nat} {e : Exchange jobs} {effect : Effect}
    (h : (i, e) ∈ run.log) (heffect : effect ∈ Scan.effects e) (htouches : Touches path effect) :
    ∃ f ∈ run.found, f.path = path := by
  obtain ⟨t, -, ⟨f, hf, -, -, ⟨_, hne⟩ | ⟨_, hne⟩ | hrecorded⟩ | ⟨items, hitems, -, hnot⟩⟩ :=
    exists_cause tells (Touches path) h heffect htouches
  · exact absurd rfl hne
  · exact absurd rfl hne
  · exact ⟨f, hf, hrecorded.path_eq.symm⟩
  · refine Classical.byContradiction fun hnone => hnot ⟨unstored_touches ?_, ?_, ?_⟩
    · rintro item hitem rfl
      obtain ⟨f, hf, hin⟩ := exists_found_of_item hitems hitem
      exact hnone ⟨f, hf, (filePath_of_found hf hin).symm⟩
    · exact fun ⟨_, hne⟩ => hne rfl
    · exact fun ⟨_, hne⟩ => hne rfl

theorem get?_settled_of_not_found (tells : mode.OnlyTells) (hnone : ∀ f ∈ run.found, f.path ≠ path) :
    run.settled.1.get? path = before.get? path := by
  rw [run.get?_settled, foldl_onHash_of_not_touches]
  intro effect heffect htouches
  obtain ⟨e, he, heffect⟩ := List.mem_flatMap.1 heffect
  obtain ⟨⟨i, e⟩, hlog, rfl⟩ := List.mem_map.1 he
  obtain ⟨f, hf, hpath⟩ := exists_found_of_touches tells hlog heffect htouches
  exact hnone f hf hpath

/-- If no call fails, no batch loses anything. -/
theorem not_lost (flawless : run.Flawless) {r : BatchResult} (hr : r ∈ run.results) : ¬r.Lost path := by
  obtain ⟨t, hmem, hrest⟩ := exists_thread_of_result hr
  obtain ⟨i, ht⟩ := List.mem_iff_getElem?.1 hmem
  have hfollows := sound_ended t hmem
  rw [Crew.Sound, hrest] at hfollows
  cases hjob : t.job.batch? with
  | some items =>
    cases hjob' : t.job with
    | batch items =>
      rw [hjob'] at hfollows
      exact yields_batch_of_answered r t.trace hfollows fun e he =>
        flawless e (mem_exchanged_of_trace ht he)
    | _ =>
      rw [hjob'] at hjob
      cases hjob
  | none =>
    rw [(yields_job t.job r t.trace hfollows).result_eq hjob]
    exact BatchResult.not_lost_empty path

theorem failedFiles_eq_nil (flawless : run.Flawless) :
    (run.results.foldl BatchResult.merge {}).failedFiles = [] := by
  refine List.eq_nil_iff_forall_not_mem.2 fun path hmem => ?_
  rw [BatchResult.mem_failedFiles, BatchResult.lost_foldl_merge] at hmem
  rcases hmem with hlost | ⟨r, hr, hlost⟩
  · exact BatchResult.not_lost_empty path hlost
  · exact not_lost flawless hr hlost

/-- The hash of a file without blocks is entered by the file itself. -/
theorem get?_settled_of_empty (tells : mode.OnlyTells) (flawless : run.Flawless) (hf : f ∈ run.found)
    (hblocks : f.blocks = []) : run.settled.1.get? f.path = some f.hash := by
  obtain ⟨i, t, x, ht, hjob, hlog⟩ := exists_counting hf
  obtain ⟨r, -, hfollows⟩ := exists_follows ht
  rw [hjob] at hfollows
  rw [run.get?_settled, foldl_onHash_own (i := i), ← trace_eq ht]
  · refine yields_file_empty tells hblocks r t.trace hfollows
      (fun e he => flawless e (mem_exchanged_of_trace ht he)) x ?_ _
    rw [trace_eq ht]
    exact Program.Crew.mem_own.2 hlog
  intro j e effect h heffect htouches
  obtain ⟨u, hu, ⟨g, -, hjob', -, ⟨_, hne⟩ | ⟨_, hne⟩ | hrecorded⟩ | ⟨items, hitems, -, hnot⟩⟩ :=
    exists_cause tells (Touches f.path) h heffect htouches
  · exact absurd rfl hne
  · exact absurd rfl hne
  · exact file_unique hu ht (hrecorded.path_eq ▸ hjob') hjob
  · refine absurd ⟨unstored_touches fun item hitem hpath => ?_, ?_, ?_⟩ hnot
    · obtain ⟨g, hg, hin⟩ := exists_found_of_item hitems hitem
      obtain rfl := found_inj hg hf ((filePath_of_found hg hin).symm.trans hpath)
      simp [ParsedFile.items, hblocks] at hin
    · rintro ⟨_, hne⟩
      exact hne rfl
    · rintro ⟨_, hne⟩
      exact hne rfl

/-- If no call fails, every file that is found has its hash before the closing. -/
theorem get?_settled_of_found (tells : mode.OnlyTells) (flawless : run.Flawless) (hf : f ∈ run.found) :
    run.settled.1.get? f.path = some f.hash := by
  by_cases hblocks : f.blocks = []
  · exact get?_settled_of_empty tells flawless hf hblocks
  obtain ⟨landed, lost, hdivides⟩ := run.exists_divisions tells
  refine get?_settled_of_not_lost tells hdivides hf hblocks fun t ht item hitem hpath => ?_
  obtain ⟨r, hr, hrest⟩ := exists_rest ht
  exact not_lost flawless hr (((hdivides t ht r hrest).lost_iff f.path).2 ⟨item, hitem, hpath⟩)

/-! ## What is in the cache in the end -/

variable (run) in
/-- The closing settles the batches, looks at the cache, and drops what is not listed any more. -/
theorem exists_look_closing : ∃ (front behind : List (Exchange indexing)) (hashes : Hashes),
    run.closing.map (·.2) =
        front.map performed ++ performed ⟨.hashes, hashes⟩ :: behind.map performed ∧
      Follows (settle mode (run.results.foldl .merge {})) front (.done ()) ∧
      Follows (dropVanished s mode (vanishedOf run.listed hashes)) behind (.done ()) ∧
      ∀ path, hashes.get? path = ((front.map performed).flatMap Scan.effects).foldl
        (Effect.onHash path) (run.settled.1.get? path) := by
  obtain ⟨_, _, _, hclosing, hsettle, hrest⟩ := Program.follows_bind_iff.1 run.follows_closing
  obtain ⟨_, _, _, rfl, hremove, hend⟩ := Program.follows_bind_iff.1 hrest
  obtain ⟨rfl, -⟩ := Program.follows_done_iff.1 hend
  obtain ⟨front, hsettle', rfl⟩ := follows_perform_iff.1 hsettle
  obtain ⟨removed, hremove', rfl⟩ := follows_perform_iff.1 hremove
  rw [removeVanished_eq] at hremove'
  obtain ⟨hashes, behind, rfl, hdrop⟩ := Program.follows_call_iff.1 hremove'
  rw [List.append_nil] at hclosing
  refine ⟨front, behind, hashes, hclosing, hsettle', hdrop, fun path => ?_⟩
  obtain ⟨entries, others, hentries, hfront, hothers⟩ := List.map_eq_append_iff.1 hclosing
  obtain ⟨⟨i, e⟩, later, rfl, rfl, -⟩ := List.map_eq_cons_iff.1 hothers
  have hruns := run.closes
  rw [hentries] at hruns
  obtain ⟨ts, st, hruns, hlast⟩ := hruns.split
  cases hlast with
  | turn chosen asks answer others =>
    rw [← hfront, show hashes = st.1 from answer.1.2]
    exact get?_of_runs hruns path

/-- If no call fails, only listed files are in the cache in the end. -/
theorem listed_of_isSome (flawless : run.Flawless)
    (h : (after.get? path).isSome) : path ∈ run.listed := by
  obtain ⟨front, behind, hashes, hclosing, hsettle, hdrop, hlook⟩ := run.exists_look_closing
  have hsucceed : AllSucceed behind := answered_performed fun e he => flawless e <| by
    rw [exchanged, hclosing]
    exact List.mem_append_right _ (List.mem_append_right _ (List.mem_cons_of_mem _ he))
  have hafter : after.get? path = if path ∈ vanishedOf run.listed hashes then none
      else hashes.get? path := by
    rw [show after.get? path = run.last.1.get? path from congrArg (Hashes.get? · path) run.cache.symm,
      get?_of_runs run.closes path, hclosing, List.flatMap_append, List.foldl_append, ← hlook]
    exact yields_dropVanished _ _ hdrop hsucceed _
  rw [hafter] at h
  refine Classical.byContradiction fun hlisted => ?_
  split at h
  · cases h
  · rename_i hnot
    refine hnot (List.mem_filter.2 ⟨Hashes.isSome_get?_iff.1 h, ?_⟩)
    simpa using hlisted

/-- A scan in which no call fails leaves the cache up to date with the files that it found. -/
theorem upToDate (run : ConcurrentScan s mode before result after) (tells : mode.OnlyTells)
    (finds : run.Finds w) (flawless : run.Flawless) : w.UpToDate s run.listed after where
  current path hlisted text htext := by
    rw [run.get?_after tells hlisted, failedFiles_eq_nil flawless, if_neg List.not_mem_nil]
    by_cases hknown : before.get? path = some (contentHash text)
    · rw [get?_settled_of_not_found tells, hknown]
      rintro f hf rfl
      obtain ⟨other, hother, hunknown, -⟩ := exists_text_of_found tells finds hf
      obtain rfl := Option.some_inj.1 (htext.symm.trans hother)
      exact hunknown hknown
    · obtain ⟨f, hf, rfl, hhash⟩ := exists_found_of_text tells finds hlisted htext hknown
      rw [get?_settled_of_found tells flawless hf, hhash]
  present _ h := listed_of_isSome flawless h

end ConcurrentScan

end SourceIndex
