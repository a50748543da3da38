import SourceIndex.Proofs.Chunk.Blanks
import SourceIndex.Proofs.Index.Idempotence
import SourceIndex.Proofs.Index.Outcomes
import SourceIndex.Proofs.Index.Wholeness
/-!
# What is embedded

Scans and watchers embed the blocks of files without the white space around them. Every such text comes from
what was read of a file: a watcher embeds the blocks of a file right behind reading it
(`Change.guarded_processFile`); a batch of a scan embeds blocks of several files, and each of these was read by
the job that found it (`ConcurrentScan.exists_read_of_found`). Since a block may be white space throughout, a
text may be empty, but only then.
-/

namespace SourceIndex

open Program (Exchange Follows Guarded Yields)

/-- The request embeds a text, maybe among others. -/
def Action.Embeds (text : String) (a : Action) : Prop :=
  ∃ texts, a = .embed texts ∧ text ∈ texts

/-- A text that is embedded for a block of a file. It is empty just if the block is white space throughout, and
the block is as much of the file's content as the policy asks for, or a piece of an overlong line. -/
structure TextOf (s : Services) (path content text : String) (block : Block) : Prop where
  cut : block ∈ Chunk.parse s.trees s.tuning.chunk path content (contentHash content)
  trimmed : text = Text.trim block.content
  empty_iff : text = "" ↔ Text.isBlankText block.content = true
  part : Chunk.Part s.tuning.chunk content.toList block.content.toList

section
variable {s : Services} {path content text : String} {block : Block}

theorem textOf_trim (h : block ∈ Chunk.parse s.trees s.tuning.chunk path content (contentHash content)) :
    TextOf s path content (Text.trim block.content) block where
  cut := h
  trimmed := rfl
  empty_iff := Text.trim_eq_empty_iff
  part := Chunk.part_of_mem_parse h

end

/-- A file is read one of whose blocks the text is embedded for. -/
def Supplies (s : Services) (text : String) (x : Exchange indexing) : Prop :=
  ∃ path content block, x = ⟨.readFile path, .ok content⟩ ∧ TextOf s path content text block

/-! ## Batches of changes -/

namespace Change

variable {s : Services} {text : String} {total : Nat} {t : Tally}

/-- A file's texts are embedded behind its being read. -/
theorem guarded_processFile (s : Services) (text path : String) :
    (processFile s path).Guarded (Supplies s text) (Action.Embeds text) := by
  refine Program.guarded_ite (fun _ => trivial) fun _ => ?_
  refine Program.guarded_ask_bind nofun fun size => Or.inr ?_
  cases size with
  | error e => trivial
  | ok size =>
    refine Program.guarded_ite (fun _ => trivial) fun _ => ?_
    refine Program.guarded_ask_bind nofun fun content => ?_
    cases content with
    | error e => exact Or.inr trivial
    | ok content =>
      refine Classical.or_iff_not_imp_left.2 fun hclosed => ?_
      refine Program.guarded_ask_bind nofun fun hashes => Or.inr ?_
      refine Program.guarded_ite (fun _ => trivial) fun _ => ?_
      refine Guarded.bind (Program.guarded_of_never (never_embedSegments ?_ _)) fun x => ?_
      · rintro segment hsegment ⟨_, ⟨⟩, hmem⟩
        obtain ⟨block, hblock, rfl⟩ := List.mem_map.1 hmem
        have hcut := List.mem_flatten_of_mem hsegment hblock
        rw [flatten_segmentsOf] at hcut
        exact hclosed ⟨path, content, block, rfl, textOf_trim hcut⟩
      · cases x with
        | error message => trivial
        | ok points => trivial

/-- The first segment of a new or changed file is embedded as soon as the file was read. -/
theorem follows_processFile {path content : String} {size : Nat} {hashes : Hashes} {segment : List Block}
    {segments : List (List Block)} (accepts : s.rules.accepts path = true)
    (small : size ≤ s.tuning.maxFileSize) (changed : hashes.get? path ≠ some (contentHash content))
    (cut : segmentsOf (max s.tuning.batchThreshold 1)
      (Chunk.parse s.trees s.tuning.chunk path content (contentHash content)) = segment :: segments) :
    ∃ next, Follows (processFile s path)
      [⟨.fileSize path, .ok size⟩, ⟨.readFile path, .ok content⟩, ⟨.hashes, hashes⟩]
      (.call (.embed (segment.map fun b => Text.trim b.content)) next) := by
  unfold processFile
  rw [if_neg (by simp [accepts])]
  apply Exists.intro
  apply Follows.ask_bind
  dsimp only
  rw [if_neg (Nat.not_lt.2 small)]
  apply Follows.ask_bind
  apply Follows.ask_bind
  rw [if_neg (by simpa using changed), cut]
  exact .nil _

/-- Once the files of a batch were read and embedded, nothing is embedded any more. -/
theorem never_embeds_storing (deleted : List String) : (storing s total deleted t).Never (Action.Embeds text) := by
  refine Guarded.bind (never_deleteStale (fun _ => nofun) _) fun refusal => ?_
  refine Guarded.bind (never_settleDeleted (fun _ => nofun) (fun _ => nofun) _ _ _ _) fun t' => ?_
  cases refusal with
  | some e => exact never_finishing (fun _ => nofun) _ _ _
  | none =>
    refine Guarded.bind (never_upsertReady (fun _ => nofun) (fun _ => nofun) (fun _ _ => nofun)
      (fun _ => nofun) _) fun _ => ?_
    exact never_finishing (fun _ => nofun) _ _ _

end Change

/-- What a batch of changes embeds are texts of files that were read before. -/
theorem guarded_processChangesAbreast (s : Services) (turns : List String → List Nat) (changes : Changes)
    (text : String) :
    (processChangesAbreast s turns changes).Guarded (Supplies s text) (Action.Embeds text) := by
  refine Program.guarded_ask_bind nofun fun _ => Or.inr ?_
  refine Guarded.bind (Change.guarded_processGroupsAbreast (Change.guarded_processFile s text)
    (fun _ => nofun) _ _ _) fun t => ?_
  exact Program.guarded_of_never (Change.never_embeds_storing _)

/-! ## Scans -/

namespace Scan

variable {s : Services} {mode : ScanMode} {text path : String} {f : ParsedFile} {items : List PendingBlock}
  (tell : ∀ event, (mode.tell event).Never (Action.Embeds text))

/-- A file is found with the blocks of what was read of it. -/
theorem yields_look_read : (look s path).Yields fun finding trace => ∀ f, finding = .parsed f →
    ∃ content, ⟨.readFile path, .ok content⟩ ∈ trace ∧
      f.blocks = Chunk.parse s.trees s.tuning.chunk path content (contentHash content) := by
  refine Program.yields_ask_bind fun size => ?_
  cases size with
  | error e => exact Program.yields_pure nofun
  | ok size =>
    refine Program.yields_ite (fun _ => Program.yields_pure nofun) fun _ => ?_
    refine Program.yields_ask_bind fun content => ?_
    cases content with
    | error e => exact Program.yields_pure nofun
    | ok content =>
      refine Program.yields_ask_bind fun hashes => ?_
      refine Program.yields_ite (fun _ => Program.yields_pure nofun) fun _ => Program.yields_pure ?_
      rintro f ⟨⟩
      exact ⟨content, List.mem_cons_of_mem _ List.mem_cons_self, rfl⟩

theorem never_embeds_takeEmpty (s : Services) (f : ParsedFile) (text : String) :
    (takeEmpty s f).Never (Action.Embeds text) := by
  have henter : ∀ deleted, (enterEmpty f deleted).Never (Action.Embeds text) := by
    intro deleted
    cases deleted with
    | ok => exact Program.guarded_ask_bind nofun fun _ => Or.inr trivial
    | error e => trivial
  refine Program.guarded_ite (fun _ => ?_) fun _ => henter _
  exact Program.guarded_ask_bind nofun fun x => Or.inr (henter x)

include tell

/-- Files embed nothing themselves. -/
theorem never_embeds_file : (Job.program s mode (.file path)).Never (Acts (Action.Embeds text)) := by
  refine Guarded.bind (p := workOn s mode path) ?_ fun _ => trivial
  refine Guarded.bind (never_perform (look_never (fun _ => nofun) (fun _ => nofun) nofun)) fun finding =>
    Guarded.bind ?_ fun error => never_perform ?_
  · cases finding with
    | failed e => trivial
    | skipped => exact Program.guarded_ask_bind id fun _ => Or.inr trivial
    | parsed f =>
      refine Program.guarded_ask_bind id fun x => Or.inr ?_
      refine Guarded.bind (never_perform (tell _)) fun _ => ?_
      refine Program.guarded_ite (fun _ => never_perform (never_embeds_takeEmpty s f text)) fun _ => ?_
      refine Program.guarded_ask_bind id fun batch => Or.inr ?_
      exact Guarded.bind (never_submitAny batch) fun _ => trivial
  · cases error with
    | none => trivial
    | some e => exact tell _

/-- A batch embeds the texts of its items. -/
theorem never_embeds_batch (hnone : ∀ item ∈ items, text ≠ Text.trim item.block.content) :
    (Job.program s mode (.batch items)).Never (Acts (Action.Embeds text)) := by
  have hspares : Batch.Spares (blockStrategy s.root) (Action.Embeds text)
      (segmentsOf (BatchLimits.ofTuning s.tuning).segmentSize items) := by
    refine ⟨?_, fun _ => nofun, fun _ _ _ => nofun, fun _ _ _ _ => nofun⟩
    rintro segment hsegment ⟨_, ⟨⟩, hmem⟩
    obtain ⟨item, hitem, rfl⟩ := List.mem_map.1 hmem
    have hin := List.mem_flatten_of_mem hsegment hitem
    rw [flatten_segmentsOf] at hin
    exact hnone item hin rfl
  have hprocess : (reporting s items).Never (Action.Embeds text) :=
    Batch.never_process hspares nofun fun _ _ => Program.guarded_ask nofun
  exact Program.never_translate (I := indexing) hprocess (never_relay tell)

theorem never_embeds_close (listed : List String) (batches : BatchResult) :
    (Job.program s mode (.close listed batches)).Never (Acts (Action.Embeds text)) := by
  refine Guarded.bind (never_perform ?_) fun _ => Guarded.bind (never_perform ?_) fun _ => trivial
  · refine Guarded.bind (never_tellErrors tell _) fun _ => ?_
    exact Program.guarded_ite (fun _ => Program.guarded_ask nofun) fun _ => trivial
  · refine Program.guarded_ask_bind nofun fun hashes => Or.inr ?_
    refine Program.guarded_ite (fun _ => trivial) fun _ => ?_
    refine Program.guarded_ite (fun _ => ?_) fun _ => Program.guarded_ask nofun
    refine Program.guarded_ask_bind nofun fun x => Or.inr ?_
    cases x with
    | ok => exact Program.guarded_ask nofun
    | error e => exact tell _

end Scan

open Scan in
/-- A file that was found was read. -/
theorem ConcurrentScan.exists_read_of_found {s : Services} {mode : ScanMode} {before after : Hashes}
    {result : ScanResult} {run : ConcurrentScan s mode before result after} {f : ParsedFile}
    (hf : f ∈ run.found) : ∃ content, ⟨.action (.readFile f.path), .ok content⟩ ∈ run.exchanged ∧
      f.blocks = Chunk.parse s.trees s.tuning.chunk f.path content (contentHash content) := by
  obtain ⟨i, t, x, ht, hjob, hlog⟩ := exists_counting hf
  have hcounts : ⟨.shared (.count f), x⟩ ∈ t.trace := by
    rw [trace_eq ht]
    exact Program.Crew.mem_own.2 hlog
  obtain ⟨r, -, hfollows⟩ := exists_follows ht
  rw [hjob] at hfollows
  obtain ⟨looked, dealt, told, error, htrace, hlook, -⟩ := exists_takeFile hfollows hcounts
  obtain ⟨content, hread, hblocks⟩ := yields_look_read _ looked hlook f rfl
  refine ⟨content, mem_exchanged_of_trace ht ?_, hblocks⟩
  rw [htrace]
  exact List.mem_append_left _ (List.mem_append_left _ (List.mem_map_of_mem (f := performed) hread))

open Scan in
/-- What a scan embeds are texts of files that it has read. -/
theorem ConcurrentScan.exists_textOf {s : Services} {mode : ScanMode} {before after : Hashes}
    {result : ScanResult} (run : ConcurrentScan s mode before result after) {text : String}
    (tell : ∀ event, (mode.tell event).Never (Action.Embeds text)) {e : Exchange jobs}
    (h : e ∈ run.exchanged) (he : Acts (Action.Embeds text) e.request) : ∃ path content block,
      ⟨.action (.readFile path), .ok content⟩ ∈ run.exchanged ∧ TextOf s path content text block := by
  rcases List.mem_append.1 h with hexchanged | hclosing
  · obtain ⟨⟨i, e⟩, hlog, rfl⟩ := List.mem_map.1 hexchanged
    obtain ⟨t, ht, htrace⟩ := exists_thread hlog
    have hmem := List.mem_of_getElem? ht
    have hsound : Follows (t.job.program s mode) t.trace t.rest := sound_ended t hmem
    cases hjob : t.job with
    | file path =>
      rw [hjob] at hsound
      exact absurd he (hsound.never (never_embeds_file tell) _ htrace)
    | flush =>
      rw [hjob] at hsound
      exact absurd he (hsound.never never_flush _ htrace)
    | close listed batches =>
      rw [hjob] at hsound
      exact absurd he (hsound.never (never_embeds_close tell _ _) _ htrace)
    | batch items =>
      rw [hjob] at hsound
      have hsubmitted : items ∈ run.submitted := by
        rw [← run.filterMap_batch_jobs]
        exact List.mem_filterMap.2 ⟨.batch items, hjob ▸ List.mem_map_of_mem hmem, rfl⟩
      obtain ⟨item, hitem, rfl⟩ : ∃ item ∈ items, text = Text.trim item.block.content := by
        by_contra hnone
        push Not at hnone
        exact hsound.never (never_embeds_batch tell hnone) _ htrace he
      obtain ⟨f, hf, hin⟩ := exists_found_of_item hsubmitted hitem
      obtain ⟨content, hread, hblocks⟩ := exists_read_of_found hf
      obtain ⟨block, hblock, rfl⟩ := List.mem_map.1 hin
      exact ⟨f.path, content, block, hread, textOf_trim (hblocks ▸ hblock)⟩
  · exact absurd he (run.follows_closing.never (never_embeds_close tell _ _) _ hclosing)

/-- Every text that a scan embeds is that of a block of a file it has read, and every text that a watcher embeds
is that of a block of a file it has read before. It is empty just if the block is white space throughout; and
a block is a stretch of its file that has as many characters as the policy asks for, or a piece of an overlong
line. -/
theorem embedded_texts :
    (∀ {s : Services} {mode : ScanMode} {before after : Hashes} {result : ScanResult}
      (run : ConcurrentScan s mode before result after), mode.Quiet →
      ∀ texts x, (⟨.action (.embed texts), x⟩ : Exchange Scan.jobs) ∈ run.exchanged → ∀ text ∈ texts,
        ∃ path content block, ⟨.action (.readFile path), .ok content⟩ ∈ run.exchanged ∧
          TextOf s path content text block) ∧
    ∀ (s : Services) (turns : List String → List Nat) (changes : Changes) trace later,
      Follows (processChangesAbreast s turns changes) trace later →
      ∀ before texts x behind, trace = before ++ (⟨.embed texts, x⟩ : Exchange indexing) :: behind →
        ∀ text ∈ texts, ∃ path content block, ⟨.readFile path, .ok content⟩ ∈ before ∧
          TextOf s path content text block := by
  refine ⟨fun run quiet texts x h text hmem => ?_, fun s turns changes trace later follows before texts x behind
    htrace text hmem => ?_⟩
  · refine run.exists_textOf (fun event => (quiet event).mono (fun _ h => h) ?_) h ⟨texts, rfl, hmem⟩
    rintro _ ⟨_, rfl, -⟩
    trivial
  · obtain ⟨_, hread, path, content, block, rfl, htext⟩ :=
      follows.exists_opens (guarded_processChangesAbreast s turns changes text) htrace ⟨texts, rfl, hmem⟩
    exact ⟨path, content, block, hread, htext⟩

/-- Whether a request embeds a text, maybe among others. -/
def embedsText (text : String) : Action → Bool
  | .embed texts => texts.contains text
  | _ => false

theorem exists_eq_embed {text : String} {a : Action} (h : embedsText text a = true) :
    ∃ texts, a = .embed texts ∧ text ∈ texts := by
  cases a with
  | embed texts => exact ⟨texts, rfl, List.contains_iff_mem.1 h⟩
  | _ => cases h

/-- A batch of one changed file. -/
def changedFirst : List (Exchange indexing) × Procedure (List ChangeResult) × Scene :=
  Program.advance (Premises.respond [] fun _ => false) 12
    (processChangesAbreast Premises.smallServices (fun _ => []) [("/w/a.rs", .changed)]) smallScene

theorem embedded_texts_small :
    (∃ path content block,
      ⟨.action (.readFile path), .ok content⟩ ∈ ConcurrentScan.woven.exchanged ∧
        TextOf ConcurrentScan.eager path content "fn first() {}" block) ∧
    ∃ path content block, ⟨.readFile path, .ok content⟩ ∈ changedFirst.1 ∧
      TextOf Premises.smallServices path content "fn first() {}" block := by
  constructor
  · have hany : ConcurrentScan.woven.exchanged.any (fun e => match e.request with
        | .action a => embedsText "fn first() {}" a
        | .shared _ => false) = true := by decide +kernel
    obtain ⟨⟨r, x⟩, hmem, he⟩ := List.any_eq_true.1 hany
    cases r with
    | action a =>
      obtain ⟨texts, rfl, htext⟩ := exists_eq_embed he
      exact embedded_texts.1 ConcurrentScan.woven ScanMode.quiet_showScan texts x hmem _ htext
    | shared c => cases he
  · have hany : changedFirst.1.any (fun e => embedsText "fn first() {}" e.request) = true := by decide +kernel
    obtain ⟨⟨a, x⟩, hmem, he⟩ := List.any_eq_true.1 hany
    obtain ⟨texts, rfl, htext⟩ := exists_eq_embed he
    obtain ⟨before, behind, htrace⟩ := List.append_of_mem hmem
    obtain ⟨path, content, block, hread, hblock⟩ :=
      embedded_texts.2 _ _ _ _ _ Program.follows_advance before texts x behind htrace _ htext
    exact ⟨path, content, block, htrace ▸ List.mem_append_left _ hread, hblock⟩

/-- A workspace of notes. -/
def notes : Services where
  root := "/w"
  rules := { root := "/w" }
  trees _ _ := none

/-- A note of sixty spaces is one block, for which an empty text is embedded. -/
theorem embeds_empty_text : 1 ≤ notes.tuning.chunk.minBlock ∧
    (∃ block ∈ Chunk.parse notes.trees notes.tuning.chunk "/w/a.md" Chunk.spaces (contentHash Chunk.spaces),
      Text.trim block.content = "") ∧
    ∃ next, Follows (Change.processFile notes "/w/a.md") [⟨.fileSize "/w/a.md", .ok 60⟩,
      ⟨.readFile "/w/a.md", .ok Chunk.spaces⟩, ⟨.hashes, ([] : Hashes)⟩] (.call (.embed [""]) next) := by
  obtain ⟨block, hparse, hcontent⟩ := List.map_eq_singleton_iff.1 Chunk.parse_spaces
  have htrim : Text.trim block.content = "" := by
    rw [hcontent]
    decide +kernel
  have hparse : Chunk.parse notes.trees notes.tuning.chunk "/w/a.md" Chunk.spaces
    (contentHash Chunk.spaces) = [block] := hparse
  have hsegments : segmentsOf (max notes.tuning.batchThreshold 1)
      (Chunk.parse notes.trees notes.tuning.chunk "/w/a.md" Chunk.spaces (contentHash Chunk.spaces)) =
        [[block]] := by
    rw [hparse]
    simp [segmentsOf]
  have hfollows : ∃ next, Follows (Change.processFile notes "/w/a.md") [⟨.fileSize "/w/a.md", .ok 60⟩,
      ⟨.readFile "/w/a.md", .ok Chunk.spaces⟩, ⟨.hashes, ([] : Hashes)⟩]
      (.call (.embed ([block].map fun b => Text.trim b.content)) next) :=
    Change.follows_processFile (by decide +kernel) (by decide) (Option.some_ne_none _).symm hsegments
  rw [List.map_singleton, htrim] at hfollows
  exact ⟨by decide, ⟨block, hparse ▸ List.mem_singleton_self block, htrim⟩, hfollows⟩

end SourceIndex
