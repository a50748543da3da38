import SourceIndex.Proofs.Index.Requests
/-!
# What the jobs of a scan exchange

`Scan.Handles` lists what a job may exchange with what the jobs share, from its beginning to its end
(`yields_job`). What it does to store and cache is bounded from above: a file changes them only
behind its being counted as one without blocks (`guarded_file`), a batch deletes the old points of its
files, at first and once, and stores its items (`never_batch`, `yields_batch_delete`), and the closing
takes out of store and cache what is no longer there (`never_settle`, `guarded_removeVanished`).
-/

namespace SourceIndex

open Program (Exchange Follows Guarded)

namespace Scan

/-- An exchange of a procedure, as a job makes it. -/
def performed (e : Exchange indexing) : Exchange jobs :=
  ⟨.action e.request, e.answer⟩

/-- A kind of actions, as a kind of requests of jobs. -/
def Acts (kind : Action → Prop) : Request → Prop
  | .action a => kind a
  | .shared _ => False

/-- What an exchange does to store and cache. -/
def effects : Exchange jobs → List Effect
  | ⟨.action a, x⟩ => a.effects x
  | ⟨.shared _, _⟩ => []

/-- The requests to what the jobs share, and their answers. -/
def sharing : Interface where
  Request := Shared
  Answer := Shared.Answer

/-- An exchange with what the jobs share. -/
def sharedOf : Exchange jobs → Option (Exchange sharing)
  | ⟨.shared c, x⟩ => some ⟨c, x⟩
  | ⟨.action _, _⟩ => none

variable {s : Services} {mode : ScanMode} {α β : Type} {p : Procedure α} {a : α} {f : ParsedFile}
  {path : String} {kind : Action → Prop}

theorem follows_perform_iff {trace : List (Exchange jobs)} :
    Follows (perform p) trace (.done a) ↔
      ∃ exchanges, Follows p exchanges (.done a) ∧ trace = exchanges.map performed := by
  induction p generalizing trace with
  | done b =>
    refine Program.follows_done_iff.trans ⟨?_, ?_⟩
    · rintro ⟨rfl, rfl⟩
      exact ⟨[], .nil _, rfl⟩
    · rintro ⟨exchanges, h, rfl⟩
      obtain ⟨rfl, rfl⟩ := Program.follows_done_iff.1 h
      exact ⟨rfl, rfl⟩
  | call r next ih =>
    refine Program.follows_call_iff.trans ⟨?_, ?_⟩
    · rintro ⟨x, rest, rfl, h⟩
      obtain ⟨exchanges, hnext, rfl⟩ := (ih x).1 h
      exact ⟨⟨r, x⟩ :: exchanges, .cons (r := r) x hnext, rfl⟩
    · rintro ⟨exchanges, h, rfl⟩
      obtain ⟨x, rest, rfl, hnext⟩ := Program.follows_call_iff.1 h
      exact ⟨x, rest.map performed, rfl, (ih x).2 ⟨rest, hnext, rfl⟩⟩

theorem yields_perform : (perform p).Yields fun a trace =>
    ∃ exchanges, Follows p exchanges (.done a) ∧ trace = exchanges.map performed :=
  fun _ _ => follows_perform_iff.1

theorem guarded_perform {opens : Exchange indexing → Prop} (h : p.Guarded opens kind) :
    (perform p).Guarded (fun e => ∃ e', opens e' ∧ e = performed e') (Acts kind) := by
  induction p with
  | done a => trivial
  | call r next ih =>
    exact ⟨h.1, fun x => (h.2 x).imp (fun hx => ⟨_, hx, rfl⟩) fun hx => ih x hx⟩

theorem filterMap_performed {g : Exchange jobs → Option β} (hg : ∀ e, g (performed e) = none)
    (exchanges : List (Exchange indexing)) : (exchanges.map performed).filterMap g = [] := by
  rw [List.filterMap_map, List.filterMap_eq_nil_iff]
  exact fun e _ => hg e

/-- A procedure has nothing to do with what the jobs share. -/
theorem sharedOf_performed (exchanges : List (Exchange indexing)) :
    (exchanges.map performed).filterMap sharedOf = [] :=
  filterMap_performed (fun _ => rfl) exchanges

theorem yields_perform_shared : (perform p).Yields fun _ trace => trace.filterMap sharedOf = [] := by
  refine yields_perform.mono fun _ trace ⟨exchanges, _, htrace⟩ => ?_
  rw [htrace, sharedOf_performed]

/-- The blocks and the hash of a file are those of some text. -/
def Parses (s : Services) (f : ParsedFile) : Prop :=
  ∃ text, f.hash = contentHash text ∧
    f.blocks = Chunk.parse s.trees s.tuning.chunk f.path text (contentHash text)

/-- What a job exchanges with what the jobs share, and the result it ends with. -/
inductive Handles (s : Services) : Job → BatchResult → List (Exchange sharing) → Prop where
  | failed (path : String) : Handles s (.file path) {} []
  | skipped (path : String) : Handles s (.file path) {} [⟨.skip, ()⟩]
  | empty (f : ParsedFile) (x : Nat × Nat) (parses : Parses s f) (empty : f.blocks = []) :
    Handles s (.file f.path) {} [⟨.count f, x⟩]
  | waits (f : ParsedFile) (x : Nat × Nat) (parses : Parses s f) (some : f.blocks ≠ []) :
    Handles s (.file f.path) {} [⟨.count f, x⟩, ⟨.gather f.items, none⟩]
  | fills (f : ParsedFile) (x : Nat × Nat) (parses : Parses s f) (some : f.blocks ≠ [])
    (batch : List PendingBlock) :
    Handles s (.file f.path) {}
      [⟨.count f, x⟩, ⟨.gather f.items, .some batch⟩, ⟨.submit batch, ()⟩]
  | drained : Handles s .flush {} [⟨.take, none⟩]
  | flushed (batch : List PendingBlock) :
    Handles s .flush {} [⟨.take, some batch⟩, ⟨.submit batch, ()⟩]
  | batch (items : List PendingBlock) (r : BatchResult) (steps : List (Nat × (Nat × Nat)))
    (sizes : (steps.map (·.1)).sum = items.length) (total : r.processed + r.failed = items.length) :
    Handles s (.batch items) r (steps.map fun step => ⟨.advance step.1, step.2⟩)
  | closed (listed : List String) (batches : BatchResult) : Handles s (.close listed batches) {} []

/-- Looking at a file finds the blocks of some text, behind a look at the cache that tells whether there was
older content. -/
theorem yields_look : (look s path).Yields fun finding trace => ∀ f, finding = .parsed f →
    f.path = path ∧ Parses s f ∧ ∃ hashes : Hashes, ⟨.hashes, hashes⟩ ∈ trace ∧
      f.cached = (hashes.get? path).isSome := by
  unfold look
  refine Program.yields_ask_bind fun size => ?_
  cases size with
  | error e => exact Program.yields_pure nofun
  | ok size =>
    dsimp only
    split
    · exact Program.yields_pure nofun
    refine Program.yields_ask_bind fun content => ?_
    cases content with
    | error e => exact Program.yields_pure nofun
    | ok content =>
      refine Program.yields_ask_bind fun (hashes : Hashes) => ?_
      split
      · exact Program.yields_pure nofun
      · refine Program.yields_pure fun f hf => ?_
        cases hf
        refine ⟨rfl, ⟨content, rfl, rfl⟩, hashes, ?_, rfl⟩
        exact List.mem_cons_of_mem _ (List.mem_cons_of_mem _ List.mem_cons_self)

/-- A batch that was taken out is submitted. -/
theorem yields_submitAny (batch : Option (List PendingBlock)) :
    (submitAny batch).Yields fun _ trace => trace.filterMap sharedOf =
      batch.toList.map fun batch => ⟨.submit batch, ()⟩ := by
  cases batch with
  | none => exact Program.yields_pure rfl
  | some batch => exact Program.yields_ask fun _ => rfl

theorem yields_takeFile (parses : Parses s f) : (takeFile s mode f).Yields fun _ trace =>
    Handles s (.file f.path) {} (trace.filterMap sharedOf) := by
  unfold takeFile
  refine Program.yields_ask_bind fun (x : Nat × Nat) => ?_
  refine yields_perform_shared.bind fun _ told htold => ?_
  split
  · rename_i hempty
    refine yields_perform_shared.mono fun _ rest hrest => ?_
    show Handles s (.file f.path) {} (⟨.count f, x⟩ :: (told ++ rest).filterMap sharedOf)
    rw [List.filterMap_append, htold, hrest, List.append_nil]
    exact .empty f x parses (List.isEmpty_iff.1 hempty)
  · rename_i hempty
    have hsome : f.blocks ≠ [] := fun h => hempty (List.isEmpty_iff.2 h)
    refine Program.yields_ask_bind fun (batch : Option (List PendingBlock)) => ?_
    refine (yields_submitAny batch).bind fun _ rest hrest => Program.yields_pure ?_
    show Handles s (.file f.path) {} (⟨.count f, x⟩ :: (told ++ _).filterMap sharedOf)
    rw [List.filterMap_append, htold, List.nil_append, List.append_nil]
    show Handles s (.file f.path) {}
      (⟨.count f, x⟩ :: ⟨.gather f.items, batch⟩ :: rest.filterMap sharedOf)
    rw [hrest]
    cases batch with
    | none => exact .waits f x parses hsome
    | some batch => exact .fills f x parses hsome batch

theorem yields_deal {finding : Finding}
    (hfound : ∀ f, finding = .parsed f → f.path = path ∧ Parses s f) :
    (deal s mode finding).Yields fun _ trace =>
      Handles s (.file path) {} (trace.filterMap sharedOf) := by
  cases finding with
  | failed e => exact Program.yields_pure (.failed path)
  | skipped => exact Program.yields_ask_bind fun _ => Program.yields_pure (.skipped path)
  | parsed f =>
    obtain ⟨rfl, parses⟩ := hfound f rfl
    exact yields_takeFile parses

theorem yields_file : (Job.program s mode (.file path)).Yields fun r trace =>
    Handles s (.file path) r (trace.filterMap sharedOf) := by
  have hwork : (workOn s mode path).Yields fun _ trace =>
      Handles s (.file path) {} (trace.filterMap sharedOf) := by
    refine (yields_perform.and yields_perform_shared).bind fun finding first ⟨hlook, hfirst⟩ => ?_
    obtain ⟨exchanges, hlook, -⟩ := hlook
    have hfound : ∀ f, finding = .parsed f → f.path = path ∧ Parses s f :=
      fun f hf => (yields_look finding exchanges hlook f hf).imp_right And.left
    refine (yields_deal hfound).bind fun error second hsecond => ?_
    refine yields_perform_shared.mono fun _ third hthird => ?_
    rwa [List.filterMap_append, List.filterMap_append, hfirst, hthird, List.append_nil]
  refine hwork.bind fun _ trace htrace => Program.yields_pure ?_
  rwa [List.append_nil]

theorem yields_flush : (Job.program s mode .flush).Yields fun r trace =>
    Handles s .flush r (trace.filterMap sharedOf) := by
  refine Program.yields_ask_bind fun (batch : Option (List PendingBlock)) => ?_
  refine (yields_submitAny batch).bind fun _ rest hrest => Program.yields_pure ?_
  rw [List.append_nil]
  show Handles s .flush {} (⟨.take, batch⟩ :: rest.filterMap sharedOf)
  rw [hrest]
  cases batch with
  | none => exact .drained
  | some batch => exact .flushed batch

theorem yields_close (listed : List String) (batches : BatchResult) :
    (Job.program s mode (.close listed batches)).Yields fun r trace =>
      Handles s (.close listed batches) r (trace.filterMap sharedOf) := by
  refine yields_perform_shared.bind fun _ first hfirst => ?_
  refine yields_perform_shared.bind fun _ second hsecond => Program.yields_pure ?_
  rw [List.append_nil, List.filterMap_append, hfirst, hsecond]
  exact .closed listed batches

/-- What a batch asks for is asked for as it is, but for the size of a segment, which is counted. -/
theorem follows_relay {a : Action} {x : a.Answer} {part : List (Exchange jobs)}
    (h : Follows (relay mode a) part (.done x)) :
    part = [⟨.action a, x⟩] ∧ Batch.told ⟨a, x⟩ = none ∨
      ∃ before size y exchanges, a = .tellScan (.indexed before size) ∧
        part = ⟨.shared (.advance size), y⟩ :: exchanges.map performed ∧
        Follows (mode.tell (.indexed y.1 y.2)) exchanges (.done ()) := by
  have hask : ∀ {a : Action} {x : a.Answer} {part : List (Exchange jobs)},
      Follows (Program.ask (I := jobs) (.action a)) part (.done x) →
        part = [⟨.action a, x⟩] := by
    intro a x part h
    obtain ⟨y, rest, rfl, hrest⟩ := Program.follows_call_iff.1 h
    obtain ⟨rfl, rfl⟩ := Program.follows_done_iff.1 hrest
    rfl
  cases a with
  | tellScan event =>
    cases event with
    | indexed before size =>
      obtain ⟨⟨indexed, found⟩, rest, rfl, hrest⟩ := Program.follows_call_iff.1 h
      obtain ⟨exchanges, htell, rfl⟩ := follows_perform_iff.1 hrest
      exact Or.inr ⟨before, size, (indexed, found), exchanges, rfl, rfl, htell⟩
    | _ => exact Or.inl ⟨hask h, rfl⟩
  | _ => exact Or.inl ⟨hask h, rfl⟩

theorem sharedOf_of_translates {exchanges : List (Exchange indexing)} {whole : List (Exchange jobs)}
    (h : Program.Translates (relay mode) exchanges whole) :
    ∃ steps : List (Nat × (Nat × Nat)), whole.filterMap sharedOf =
      (steps.map fun step => ⟨.advance step.1, step.2⟩) ∧
        steps.map (·.1) = exchanges.filterMap Batch.told := by
  induction h with
  | nil => exact ⟨[], rfl, rfl⟩
  | @cons e exchanges part rest head tail ih =>
    obtain ⟨steps, hsteps, hsizes⟩ := ih
    rw [List.filterMap_append, List.filterMap_cons]
    rcases follows_relay head with ⟨rfl, htold⟩ | ⟨before, size, y, told, ha, rfl, -⟩
    · exact ⟨steps, hsteps, by rw [hsizes, htold]⟩
    · obtain ⟨a, x⟩ := e
      subst ha
      refine ⟨(size, y) :: steps, ?_, congrArg (size :: ·) hsizes⟩
      show ⟨.advance size, y⟩ :: ((told.map performed).filterMap sharedOf ++ rest.filterMap sharedOf) = _
      rw [sharedOf_performed, hsteps]
      rfl

theorem yields_batch (items : List PendingBlock) :
    (Job.program s mode (.batch items)).Yields fun r trace =>
      Handles s (.batch items) r (trace.filterMap sharedOf) := by
  intro r trace h
  obtain ⟨exchanges, hfollows, htranslates⟩ := Program.exists_of_follows_translate h
  obtain ⟨steps, hsteps, hsizes⟩ := sharedOf_of_translates htranslates
  obtain ⟨hsum, htotal⟩ := Batch.yields_process r exchanges hfollows
  rw [hsteps]
  exact .batch items r steps (hsizes ▸ hsum) htotal

/-- What a job exchanges with what the jobs share, and the result it ends with. -/
theorem yields_job (job : Job) : (job.program s mode).Yields fun r trace =>
    Handles s job r (trace.filterMap sharedOf) := by
  cases job with
  | file path => exact yields_file
  | flush => exact yields_flush
  | batch items => exact yields_batch items
  | close listed batches => exact yields_close listed batches

/-! ## What jobs do to store and cache -/

variable {effect : Effect → Prop}

/-- A kind of effects, as the kind of requests that may have one. -/
abbrev Does (effect : Effect → Prop) : Request → Prop :=
  Acts (Action.May effect)

theorem never_perform (h : p.Never kind) : (perform p).Never (Acts kind) :=
  (guarded_perform h).mono (fun _ ⟨_, hfalse, _⟩ => hfalse) fun _ h => h

theorem never_tell (tells : mode.OnlyTells) (event : ScanEvent) :
    (mode.tell event).Never (Action.May effect) :=
  (tells event).mono (fun _ h => h) fun _ ⟨x, e, hmem, _⟩ => ⟨x, e, hmem, trivial⟩

/-- Looking at a file asks for its size and its text, and for the cache. -/
theorem look_never (size : ∀ path, ¬kind (.fileSize path)) (read : ∀ path, ¬kind (.readFile path))
    (hashes : ¬kind .hashes) : (look s path).Never kind := by
  unfold look
  refine Program.guarded_ask_bind (size path) fun size => Or.inr ?_
  cases size with
  | error e => trivial
  | ok size =>
    refine Program.guarded_ite (fun _ => trivial) fun _ => ?_
    refine Program.guarded_ask_bind (read path) fun content => Or.inr ?_
    cases content with
    | error e => trivial
    | ok content =>
      refine Program.guarded_ask_bind hashes fun hashes => Or.inr ?_
      exact Program.guarded_ite (fun _ => trivial) fun _ => trivial

theorem never_look : (look s path).Never (Action.May effect) :=
  look_never (fun _ => Action.not_may fun _ => rfl) (fun _ => Action.not_may fun _ => rfl)
    (Action.not_may fun _ => rfl)

theorem not_may_deletePoints {files : List String} (deleted : ¬effect (.deleted files))
    (refused : ¬effect (.refused files)) : ¬(Action.deletePoints files).May effect := by
  rintro ⟨x, e, hmem, he⟩
  cases x with
  | ok => exact deleted (List.mem_singleton.1 hmem ▸ he)
  | error failure => exact refused (List.mem_singleton.1 hmem ▸ he)

theorem not_may_upsert {points : List Point} (stored : ¬effect (.stored points))
    (strayed : ¬effect (.strayed points)) : ¬(Action.upsert points).May effect := by
  rintro ⟨x, e, hmem, he⟩
  cases x with
  | ok => exact stored (List.mem_singleton.1 hmem ▸ he)
  | error failure => exact strayed (List.mem_singleton.1 hmem ▸ he)

theorem not_may_recordHash {hash : String} (recorded : ¬effect (.recorded path hash)) :
    ¬(Action.recordHash path hash).May effect := by
  rintro ⟨x, e, hmem, he⟩
  exact recorded (List.mem_singleton.1 hmem ▸ he)

theorem not_may_forgetHashes {paths : List String} (forgot : ¬effect (.forgot paths)) :
    ¬(Action.forgetHashes paths).May effect := by
  rintro ⟨x, e, hmem, he⟩
  exact forgot (List.mem_singleton.1 hmem ▸ he)

/-- What a file without blocks gives rise to: the deletion of its points, and its hash. -/
def Empties (s : Services) (effect : Effect → Prop) (f : ParsedFile) : Prop :=
  effect (.deleted [Path.relativeTo s.root f.path]) ∨
    effect (.refused [Path.relativeTo s.root f.path]) ∨ effect (.recorded f.path f.hash)

theorem never_takeEmpty (h : ¬Empties s effect f) : (takeEmpty s f).Never (Action.May effect) := by
  obtain ⟨hdeleted, hrest⟩ := not_or.1 h
  obtain ⟨hrefused, hrecorded⟩ := not_or.1 hrest
  have henter : ∀ deleted, (enterEmpty f deleted).Never (Action.May effect) := by
    intro deleted
    cases deleted with
    | ok => exact Program.guarded_ask_bind (not_may_recordHash hrecorded) fun _ => Or.inr trivial
    | error e => trivial
  refine Program.guarded_ite (fun _ => ?_) fun _ => henter _
  exact Program.guarded_ask_bind (not_may_deletePoints hdeleted hrefused) fun x => Or.inr (henter x)

theorem never_submitAny (batch : Option (List PendingBlock)) :
    (submitAny batch).Never (Acts kind) := by
  cases batch with
  | none => trivial
  | some batch => exact Program.guarded_ask id

/-- A file is counted that has no blocks and gives rise to an effect of the kind. -/
def CountsEmpty (s : Services) (effect : Effect → Prop) (path : String) (e : Exchange jobs) : Prop :=
  ∃ f x, e = ⟨.shared (.count f), x⟩ ∧ f.path = path ∧ f.blocks = [] ∧ Empties s effect f

/-- A file changes store and cache only behind its being counted as one without blocks. -/
theorem guarded_file (tells : mode.OnlyTells) (effect : Effect → Prop) :
    (Job.program s mode (.file path)).Guarded (CountsEmpty s effect path) (Does effect) := by
  have hweaken : ∀ {α : Type} {p : Program jobs α}, p.Never (Does effect) →
      p.Guarded (CountsEmpty s effect path) (Does effect) :=
    fun h => h.mono (fun _ => False.elim) fun _ h => h
  have htell : ∀ event, (perform (mode.tell event)).Never (Does effect) :=
    fun event => never_perform (never_tell tells event)
  have hdeal : ∀ finding, (∀ f, finding = .parsed f → f.path = path ∧ Parses s f) →
      (deal s mode finding).Guarded (CountsEmpty s effect path) (Does effect) := by
    intro finding hfound
    cases finding with
    | failed e => trivial
    | skipped => exact Program.guarded_ask_bind id fun _ => Or.inr trivial
    | parsed f =>
      refine Program.guarded_ask_bind id fun x => Classical.or_iff_not_imp_left.2 fun hclosed => ?_
      refine Guarded.bind (hweaken (htell _)) fun _ => ?_
      refine Program.guarded_ite (fun hempty => ?_) fun _ => ?_
      · refine hweaken (never_perform (never_takeEmpty fun hempties => hclosed ?_))
        exact ⟨f, x, rfl, (hfound f rfl).1, List.isEmpty_iff.1 hempty, hempties⟩
      · refine Program.guarded_ask_bind id fun batch => Or.inr ?_
        exact Guarded.bind (hweaken (never_submitAny batch)) fun _ => trivial
  refine Guarded.bind (p := workOn s mode path) ?_ fun _ => trivial
  refine Guarded.bind_of_yields (hweaken (never_perform never_look)) ?_
  refine yields_perform.mono fun finding trace ⟨exchanges, hlook, _⟩ => Or.inr ?_
  have hfound : ∀ f, finding = .parsed f → f.path = path ∧ Parses s f :=
    fun f hf => (yields_look finding exchanges hlook f hf).imp_right And.left
  refine Guarded.bind (hdeal finding hfound) fun error => ?_
  cases error with
  | none => trivial
  | some e => exact hweaken (htell _)

/-- Points of items, whatever their vectors. -/
def PointsOf (s : Services) (items : List PendingBlock) (points : List Point) : Prop :=
  ∀ p ∈ points, ∃ item ∈ items, ∃ vector, p = Point.ofBlock s.root item.block vector

/-- Effects that the storing of items does not have. -/
structure Unstored (s : Services) (effect : Effect → Prop) (items : List PendingBlock) : Prop where
  stored : ∀ points, PointsOf s items points → ¬effect (.stored points)
  strayed : ∀ points, PointsOf s items points → ¬effect (.strayed points)
  recorded : ∀ item ∈ items, ¬effect (.recorded item.block.filePath item.block.fileHash)

variable {items : List PendingBlock}

theorem mem_staleFiles {file : String} : file ∈ (blockStrategy s.root).staleFiles items ↔
    ∃ item ∈ items, item.replaces = true ∧ Path.relativeTo s.root item.block.filePath = file := by
  simp only [blockStrategy, Text.sortDistinct, Text.sort, List.mem_eraseDups, List.mem_mergeSort,
    List.mem_map, List.mem_filter, and_assoc]

theorem Unstored.spares (h : Unstored s effect items) (size : Nat) :
    Batch.Spares (blockStrategy s.root) (Action.May effect) (segmentsOf size items) := by
  have hin : ∀ segment ∈ segmentsOf size items, ∀ item ∈ segment, item ∈ items := by
    intro segment hsegment item hitem
    have hmem := List.mem_flatten_of_mem hsegment hitem
    rwa [flatten_segmentsOf] at hmem
  refine ⟨fun _ _ => Action.not_may fun _ => rfl, fun _ => Action.not_may fun _ => rfl, ?_, ?_⟩
  · intro segment hsegment vectors
    have hpoints : PointsOf s items (segment.zipWith (blockStrategy s.root).point vectors) := by
      intro p hp
      obtain ⟨item, hitem, vector, rfl⟩ := Premises.exists_of_mem_zipWith hp
      exact ⟨item, hin segment hsegment item hitem, vector, rfl⟩
    exact not_may_upsert (h.stored _ hpoints) (h.strayed _ hpoints)
  · intro segment hsegment item hitem
    exact not_may_recordHash (h.recorded item (hin segment hsegment item hitem))

theorem never_tellSegment (before size : Nat) :
    (tellSegment before size).Never (Action.May effect) :=
  Program.guarded_ask (Action.not_may fun _ => rfl)

/-- A request of a batch is translated to none of a kind, if it is not of the kind itself. -/
theorem never_relay (tell : ∀ event, (mode.tell event).Never kind) (a : Action) (h : ¬kind a) :
    (relay mode a).Never (Acts kind) := by
  have hask : ∀ {a : Action}, ¬kind a → (Program.ask (I := jobs) (.action a)).Never (Acts kind) :=
    fun h => Program.guarded_ask (I := jobs) (r := .action _) h
  cases a with
  | tellScan event =>
    cases event with
    | indexed before size =>
      refine Program.guarded_ask_bind id fun x => Or.inr ?_
      exact never_perform (tell _)
    | _ => exact hask h
  | _ => exact hask h

/-- A batch deletes the old points of its files and stores its items. -/
theorem never_batch (tells : mode.OnlyTells) (unstored : Unstored s effect items)
    (deleted : ¬effect (.deleted ((blockStrategy s.root).staleFiles items)))
    (refused : ¬effect (.refused ((blockStrategy s.root).staleFiles items))) :
    (Job.program s mode (.batch items)).Never (Does effect) := by
  have hprocess : (reporting s items).Never (Action.May effect) :=
    Batch.never_process (unstored.spares _) (not_may_deletePoints deleted refused) never_tellSegment
  exact Program.never_translate (I := indexing) hprocess (never_relay (never_tell tells))

theorem never_flush : (Job.program s mode .flush).Never (Acts kind) := by
  refine Program.guarded_ask_bind id fun batch => Or.inr ?_
  exact Guarded.bind (never_submitAny batch) fun _ => trivial

theorem effects_of_translates (tells : mode.OnlyTells) {exchanges : List (Exchange indexing)}
    {whole : List (Exchange jobs)} (h : Program.Translates (relay mode) exchanges whole) :
    whole.flatMap effects = exchanges.flatMap fun e => e.request.effects e.answer := by
  induction h with
  | nil => rfl
  | @cons e exchanges part rest head tail ih =>
    rw [List.flatMap_append, ih, List.flatMap_cons]
    congr 1
    rcases follows_relay head with ⟨rfl, -⟩ | ⟨before, size, y, told, ha, rfl, htell⟩
    · exact List.flatMap_singleton ..
    · obtain ⟨a, x⟩ := e
      subst ha
      have hnone : (told.map performed).flatMap effects = [] := by
        rw [List.flatMap_map, List.flatMap_eq_nil_iff]
        intro e hmem
        refine List.eq_nil_iff_forall_not_mem.2 fun effect heffect => ?_
        exact htell.never (tells _) e hmem ⟨e.answer, effect, heffect, trivial⟩
      exact hnone

/-- A batch that replaces files first asks for the deletion of their points, and for no deletion behind
that. -/
theorem yields_batch_delete (hstale : (blockStrategy s.root).staleFiles items ≠ []) (hitems : items ≠ [])
    (tells : mode.OnlyTells) (unstored : Unstored s effect items) :
    (Job.program s mode (.batch items)).Yields fun _ trace => ∃ x rest,
      trace = ⟨.action (.deletePoints ((blockStrategy s.root).staleFiles items)), x⟩ :: rest ∧
        ∀ e ∈ rest.flatMap effects, ¬effect e := by
  intro r trace h
  obtain ⟨exchanges, hfollows, htranslates⟩ := Program.exists_of_follows_translate h
  obtain ⟨x, rest, rfl, hrest⟩ := Batch.yields_process_delete hstale hitems
    (unstored.spares _) never_tellSegment r exchanges hfollows
  cases htranslates with
  | @cons _ _ part whole head tail =>
    obtain ⟨rfl, -⟩ | ⟨_, _, _, _, hfalse, -⟩ := follows_relay head
    swap
    · cases hfalse
    refine ⟨x, whole, rfl, fun e hmem => ?_⟩
    rw [effects_of_translates tells tail, List.mem_flatMap] at hmem
    obtain ⟨exchange, hin, he⟩ := hmem
    exact fun heffect => hrest exchange hin ⟨exchange.answer, e, he, heffect⟩

/-! ### The order of a file's requests -/

/-- A request to what the jobs share. -/
def Asks (c : Shared) (r : Request) : Prop :=
  r = .shared c

variable {c : Shared}

/-- A procedure does not ask for what the jobs share. -/
theorem never_shared_perform : (perform p).Never fun r => ∃ c, Asks c r := by
  induction p with
  | done a => trivial
  | call r next ih => exact ⟨nofun, fun x => Or.inr (ih x)⟩

theorem never_asks_perform : (perform p).Never (Asks c) :=
  never_shared_perform.mono (fun _ h => h) fun _ h => ⟨c, h⟩

/-- The closing asks for nothing of what the jobs share. -/
theorem never_shared_close (listed : List String) (batches : BatchResult) :
    (Job.program s mode (.close listed batches)).Never fun r => ∃ c, Asks c r :=
  Guarded.bind never_shared_perform fun _ => Guarded.bind never_shared_perform fun _ => trivial

theorem never_asks_submitAny (hc : ∀ batch, c ≠ .submit batch) (batch : Option (List PendingBlock)) :
    (submitAny batch).Never (Asks c) := by
  cases batch with
  | none => trivial
  | some batch =>
    refine Program.guarded_ask fun h => hc batch ?_
    cases h
    rfl

/-- A file that is dealt with is the only one that is counted. -/
theorem never_counts_takeFile {g : ParsedFile} (hne : g ≠ f) :
    (takeFile s mode g).Never (Asks (.count f)) := by
  refine Program.guarded_ask_bind (fun h => hne ?_) fun x => Or.inr ?_
  · cases h
    rfl
  refine Guarded.bind never_asks_perform fun _ => ?_
  refine Program.guarded_ite (fun _ => never_asks_perform) fun _ => ?_
  refine Program.guarded_ask_bind nofun fun batch => Or.inr ?_
  exact Guarded.bind (never_asks_submitAny (fun _ h => by cases h) batch) fun _ => trivial

/-- What opens the way to a request of a file may be looked for where its finding is dealt with. -/
theorem guarded_file_of_takeFile {opens : Exchange jobs → Prop} (hskip : c ≠ .skip)
    (hlook : (look s path).Yields fun finding exchanges => ∀ f, finding = .parsed f →
      (∃ e ∈ exchanges, opens (performed e)) ∨ (takeFile s mode f).Guarded opens (Asks c)) :
    (Job.program s mode (.file path)).Guarded opens (Asks c) := by
  have hweaken : ∀ {α : Type} {p : Program jobs α}, p.Never (Asks c) → p.Guarded opens (Asks c) :=
    fun h => h.mono (fun _ => False.elim) fun _ h => h
  have htell : ∀ error, (perform (tellFailure mode path error)).Guarded opens (Asks c) :=
    fun _ => hweaken never_asks_perform
  refine Guarded.bind (p := workOn s mode path) ?_ fun _ => trivial
  refine Guarded.bind_of_yields (hweaken never_asks_perform) ?_
  refine yields_perform.mono fun finding trace ⟨exchanges, hfollows, htrace⟩ => ?_
  cases finding with
  | failed e => exact Or.inr (htell _)
  | skipped =>
    refine Or.inr (Program.guarded_ask_bind (fun h => hskip ?_) fun _ => Or.inr (htell _))
    cases h
    rfl
  | parsed f =>
    rcases hlook _ exchanges hfollows f rfl with ⟨e, hmem, hopens⟩ | hguarded
    · exact Or.inl ⟨performed e, htrace ▸ List.mem_map_of_mem hmem, hopens⟩
    · exact Or.inr (Guarded.bind hguarded htell)

/-- A look at the cache that tells whether there was older content of a file. -/
def LooksUp (f : ParsedFile) (e : Exchange jobs) : Prop :=
  ∃ hashes : Hashes, e = ⟨.action .hashes, hashes⟩ ∧ f.cached = (hashes.get? f.path).isSome

/-- A file is counted behind a look at the cache, with what it told. -/
theorem guarded_count (f : ParsedFile) :
    (Job.program s mode (.file path)).Guarded (LooksUp f) (Asks (.count f)) := by
  refine guarded_file_of_takeFile nofun (yields_look.mono fun finding exchanges h g hg => ?_)
  obtain ⟨rfl, -, hashes, hmem, hcached⟩ := h g hg
  by_cases hne : g = f
  · subst hne
    exact Or.inl ⟨_, hmem, hashes, rfl, hcached⟩
  · exact Or.inr ((never_counts_takeFile hne).mono (fun _ => False.elim) fun _ h => h)

/-- A file is counted whose blocks are these. -/
def CountsItems (s : Services) (items : List PendingBlock) (e : Exchange jobs) : Prop :=
  ∃ f x, e = ⟨.shared (.count f), x⟩ ∧ f.items = items ∧ Parses s f

/-- Blocks are put into the buffer behind the counting of their file. -/
theorem guarded_gather (items : List PendingBlock) :
    (Job.program s mode (.file path)).Guarded (CountsItems s items) (Asks (.gather items)) := by
  refine guarded_file_of_takeFile nofun (yields_look.mono fun finding exchanges h f hf => Or.inr ?_)
  obtain ⟨-, hparses, -⟩ := h f hf
  refine Program.guarded_ask_bind nofun fun x => ?_
  by_cases hitems : f.items = items
  · exact Or.inl ⟨f, x, rfl, hitems, hparses⟩
  refine Or.inr (Guarded.mono ?_ (fun _ => False.elim) fun _ h => h)
  refine Guarded.bind never_asks_perform fun _ => ?_
  refine Program.guarded_ite (fun _ => never_asks_perform) fun _ => ?_
  refine Program.guarded_ask_bind (fun h => hitems ?_) fun batch => Or.inr ?_
  · cases h
    rfl
  · exact Guarded.bind (never_asks_submitAny (fun _ h => by cases h) batch) fun _ => trivial

/-- A batch is taken out of the buffer. -/
def TakesOut (batch : List PendingBlock) (e : Exchange jobs) : Prop :=
  ∃ items, e = ⟨.shared (.gather items), some batch⟩

/-- A file submits a batch behind taking it out of the buffer. -/
theorem guarded_submit (batch : List PendingBlock) :
    (Job.program s mode (.file path)).Guarded (TakesOut batch) (Asks (.submit batch)) := by
  refine guarded_file_of_takeFile nofun (yields_look.mono fun finding exchanges _ f _ => Or.inr ?_)
  have hweaken : ∀ {α : Type} {p : Program jobs α}, p.Never (Asks (.submit batch)) →
      p.Guarded (TakesOut batch) (Asks (.submit batch)) :=
    fun h => h.mono (fun _ => False.elim) fun _ h => h
  refine Program.guarded_ask_bind nofun fun x => Or.inr ?_
  refine Guarded.bind (hweaken never_asks_perform) fun _ => ?_
  refine Program.guarded_ite (fun _ => hweaken never_asks_perform) fun _ => ?_
  refine Program.guarded_ask_bind nofun fun (out : Option (List PendingBlock)) => ?_
  by_cases hout : out = some batch
  · exact Or.inl ⟨f.items, hout ▸ rfl⟩
  refine Or.inr (hweaken (Guarded.bind ?_ fun _ => trivial))
  cases out with
  | none => trivial
  | some other =>
    refine Program.guarded_ask fun h => hout ?_
    cases h
    rfl

/-- A batch asks for nothing but that segments are counted. -/
theorem never_asks_batch {items : List PendingBlock} (hc : ∀ size, c ≠ .advance size) :
    (Job.program s mode (.batch items)).Never (Asks c) := by
  refine Program.never_translate (I := indexing) Program.never_false fun a _ => ?_
  have hask : ∀ {a : Action}, (Program.ask (I := jobs) (.action a)).Never (Asks c) :=
    Program.guarded_ask (I := jobs) (r := .action _) nofun
  cases a with
  | tellScan event =>
    cases event with
    | indexed before size =>
      refine Program.guarded_ask_bind (fun h => hc size ?_) fun x => Or.inr never_asks_perform
      cases h
      rfl
    | _ => exact hask
  | _ => exact hask

/-! ### Files without blocks -/

/-- Requests that may not have an effect of a kind have none. -/
theorem not_effect_of_not_does {trace : List (Exchange jobs)} (h : ∀ e ∈ trace, ¬Does effect e.request) :
    ∀ e ∈ trace.flatMap effects, ¬effect e := by
  intro e hmem he
  obtain ⟨⟨r, x⟩, hin, heffect⟩ := List.mem_flatMap.1 hmem
  cases r with
  | action a => exact h _ hin ⟨x, e, heffect, he⟩
  | shared c => cases heffect

/-- What only tells changes nothing in store and cache. -/
theorem effects_eq_nil_of_not_does {trace : List (Exchange jobs)}
    (h : ∀ e ∈ trace, ¬Does (fun _ => True) e.request) : trace.flatMap effects = [] :=
  List.eq_nil_iff_forall_not_mem.2 fun e hmem => not_effect_of_not_does h e hmem trivial

theorem yields_tell (tells : mode.OnlyTells) (event : ScanEvent) :
    (perform (mode.tell event)).Yields fun _ trace => trace.flatMap effects = [] :=
  (never_perform (tells event)).yields.mono fun _ _ h => effects_eq_nil_of_not_does h

theorem yields_tellFailure (tells : mode.OnlyTells) (error : Option IndexError) :
    (perform (tellFailure mode path error)).Yields fun _ trace => trace.flatMap effects = [] := by
  cases error with
  | none => exact Program.yields_pure rfl
  | some e => exact yields_tell tells _

/-- The deletion of a file's points, and behind it nothing but the entry of its hash. -/
def DeletesOnce (s : Services) (f : ParsedFile) (trace : List (Exchange jobs)) : Prop :=
  ∃ before x behind,
    trace = before ++ ⟨.action (.deletePoints [Path.relativeTo s.root f.path]), x⟩ :: behind ∧
      ∀ e ∈ behind.flatMap effects, ∃ hash, e = .recorded f.path hash

/-- What is done in front of a deletion and what has no effect behind it may be added. -/
theorem DeletesOnce.append {first trace last : List (Exchange jobs)} (h : DeletesOnce s f trace)
    (hlast : last.flatMap effects = []) : DeletesOnce s f (first ++ trace ++ last) := by
  obtain ⟨before, x, behind, rfl, hbehind⟩ := h
  refine ⟨first ++ before, x, behind ++ last, ?_, ?_⟩
  · simp only [List.append_assoc, List.cons_append]
  · rwa [List.flatMap_append, hlast, List.append_nil]

theorem yields_enterEmpty (deleted : Except ServiceError Unit) :
    (perform (enterEmpty f deleted)).Yields fun _ trace =>
      ∀ e ∈ trace.flatMap effects, ∃ hash, e = .recorded f.path hash := by
  cases deleted with
  | error e => exact Program.yields_pure (List.forall_mem_nil _)
  | ok =>
    refine yields_perform.mono fun _ trace ⟨exchanges, hfollows, htrace⟩ => ?_
    obtain ⟨x, rest, rfl, hrest⟩ := Program.follows_call_iff.1 hfollows
    obtain ⟨rfl, -⟩ := Program.follows_done_iff.1 hrest
    rw [htrace]
    rintro e hmem
    exact ⟨f.hash, List.mem_singleton.1 hmem⟩

theorem yields_takeFile_delete (tells : mode.OnlyTells) (hblocks : f.blocks = [])
    (hcached : f.cached = true) :
    (takeFile s mode f).Yields fun _ trace => DeletesOnce s f trace := by
  refine Program.yields_ask_bind fun x => ?_
  refine (yields_tell tells _).bind fun _ told _ => ?_
  rw [if_pos (List.isEmpty_iff.2 hblocks)]
  unfold takeEmpty
  rw [if_pos hcached]
  refine Program.yields_ask_bind (I := jobs) fun y => ?_
  refine (yields_enterEmpty y).mono fun _ behind hbehind => ?_
  exact ⟨⟨.shared (.count f), x⟩ :: told, y, behind, rfl, hbehind⟩

/-- A procedure has no exchange with what the jobs share. -/
theorem shared_not_mem_performed {x : c.Answer} (exchanges : List (Exchange indexing)) :
    ⟨.shared c, x⟩ ∉ exchanges.map performed := by
  intro h
  obtain ⟨e, -, heq⟩ := List.mem_map.1 h
  cases heq

/-- A file is looked at, dealt with, and what went wrong is told. -/
theorem exists_deal {r : BatchResult} {trace : List (Exchange jobs)}
    (h : Follows (Job.program s mode (.file path)) trace (.done r)) :
    ∃ finding looked dealt told error, trace = looked.map performed ++ dealt ++ told.map performed ∧
      Follows (look s path) looked (.done finding) ∧ Follows (deal s mode finding) dealt (.done error) ∧
        Follows (tellFailure mode path error) told (.done ()) := by
  obtain ⟨_, whole, rest, rfl, hwork, hrest⟩ := Program.follows_bind_iff.1 h
  obtain ⟨rfl, -⟩ := Program.follows_done_iff.1 hrest
  obtain ⟨finding, _, behind, rfl, hlook, hbehind⟩ := Program.follows_bind_iff.1 hwork
  obtain ⟨error, dealt, _, rfl, hdeal, htell⟩ := Program.follows_bind_iff.1 hbehind
  obtain ⟨looked, hlook', rfl⟩ := follows_perform_iff.1 hlook
  obtain ⟨told, htell', rfl⟩ := follows_perform_iff.1 htell
  refine ⟨finding, looked, dealt, told, error, ?_, hlook', hdeal, htell'⟩
  rw [List.append_nil, List.append_assoc]

/-- A file is counted if it was parsed, and no other is. -/
theorem parsed_iff_counts {finding : Finding} {dealt : List (Exchange jobs)} {error : Option IndexError}
    (h : Follows (deal s mode finding) dealt (.done error)) :
    finding = .parsed f ↔ ∃ x : Nat × Nat, ⟨.shared (.count f), x⟩ ∈ dealt := by
  cases finding with
  | failed e =>
    obtain ⟨rfl, -⟩ := Program.follows_done_iff.1 h
    simp
  | skipped =>
    obtain ⟨_, rest, rfl, hrest⟩ := Program.follows_call_iff.1 h
    obtain ⟨rfl, -⟩ := Program.follows_done_iff.1 hrest
    refine iff_of_false nofun ?_
    rintro ⟨x, hmem⟩
    cases List.mem_singleton.1 hmem
  | parsed g =>
    constructor
    · rintro ⟨rfl⟩
      obtain ⟨x, rest, rfl, -⟩ := Program.follows_call_iff.1 h
      exact ⟨x, List.mem_cons_self⟩
    · rintro ⟨x, hmem⟩
      refine Classical.byContradiction fun hne => ?_
      exact h.never (never_counts_takeFile fun heq => hne (congrArg _ heq)) _ hmem rfl

/-- A file that is counted has been parsed, and its blocks are taken. -/
theorem exists_takeFile {r : BatchResult} {trace : List (Exchange jobs)} {x : Nat × Nat}
    (h : Follows (Job.program s mode (.file path)) trace (.done r))
    (hmem : ⟨.shared (.count f), x⟩ ∈ trace) :
    ∃ looked dealt told error, trace = looked.map performed ++ dealt ++ told.map performed ∧
      Follows (look s path) looked (.done (.parsed f)) ∧ Follows (takeFile s mode f) dealt (.done error) ∧
        Follows (tellFailure mode path error) told (.done ()) := by
  obtain ⟨finding, looked, dealt, told, error, rfl, hlook, hdeal, htell⟩ := exists_deal h
  have hin : ⟨.shared (.count f), x⟩ ∈ dealt := by
    rcases List.mem_append.1 hmem with hmem | hmem
    · exact (List.mem_append.1 hmem).resolve_left (shared_not_mem_performed looked)
    · exact absurd hmem (shared_not_mem_performed told)
  obtain rfl := (parsed_iff_counts hdeal).2 ⟨x, hin⟩
  exact ⟨looked, dealt, told, error, rfl, hlook, hdeal, htell⟩

/-- A file that had older content, but has no blocks any more, asks for the deletion of its points. -/
theorem yields_file_delete (tells : mode.OnlyTells) (hblocks : f.blocks = [])
    (hcached : f.cached = true) :
    (Job.program s mode (.file path)).Yields fun _ trace =>
      ∀ x, ⟨.shared (.count f), x⟩ ∈ trace → DeletesOnce s f trace := by
  intro r trace h x hmem
  obtain ⟨looked, dealt, told, error, rfl, -, htake, htell⟩ := exists_takeFile h hmem
  refine (yields_takeFile_delete tells hblocks hcached error dealt htake).append ?_
  exact yields_tellFailure tells error _ _ (follows_perform_iff.2 ⟨told, htell, rfl⟩)

/-! ### The closing -/

/-- The paths in a cache that are not listed. -/
def vanishedOf (listed : List String) (hashes : Hashes) : List String :=
  (hashes.map (·.1)).filter fun path => !listed.contains path

/-- What paths that are not listed any more give rise to: the deletion of their points, and of their
hashes. -/
def Vanishes (s : Services) (effect : Effect → Prop) (vanished : List String) : Prop :=
  effect (.deleted (vanished.map (Path.relativeTo s.root))) ∨
    effect (.refused (vanished.map (Path.relativeTo s.root))) ∨ effect (.forgot vanished)

variable {listed : List String} {batches : BatchResult}

theorem never_tellErrors (tell : ∀ event, (mode.tell event).Never kind) (messages : List String) :
    (tellErrors mode messages).Never kind := by
  induction messages with
  | nil => trivial
  | cons message messages ih => exact Guarded.bind (tell _) fun _ => ih

theorem never_settle (tells : mode.OnlyTells)
    (forgot : batches.failedFiles ≠ [] → ¬effect (.forgot batches.failedFiles)) :
    (settle mode batches).Never (Action.May effect) := by
  refine Guarded.bind (never_tellErrors (never_tell tells) _) fun _ => ?_
  refine Program.guarded_ite (fun hsome => ?_) fun _ => trivial
  have hne : batches.failedFiles ≠ [] := by simpa using hsome
  exact Program.guarded_ask (not_may_forgetHashes (forgot hne))

/-- A look at the cache that finds paths which are not listed, with an effect of the kind to follow. -/
def FindsVanished (s : Services) (effect : Effect → Prop) (listed : List String)
    (e : Exchange indexing) : Prop :=
  ∃ hashes : Hashes, e = ⟨.hashes, hashes⟩ ∧ Vanishes s effect (vanishedOf listed hashes)

/-- The closing removes paths behind a look at the cache in which they are found. -/
theorem guarded_removeVanished (tells : mode.OnlyTells) (effect : Effect → Prop) :
    (removeVanished s mode listed).Guarded (FindsVanished s effect listed) (Action.May effect) := by
  refine Program.guarded_ask_bind (Action.not_may fun _ => rfl) fun (hashes : Hashes) => ?_
  refine Classical.or_iff_not_imp_left.2 fun hclosed => ?_
  obtain ⟨hdeleted, hrest⟩ := not_or.1 fun h => hclosed ⟨hashes, rfl, h⟩
  obtain ⟨hrefused, hforgot⟩ := not_or.1 hrest
  refine Program.guarded_ite (fun _ => trivial) fun _ => ?_
  refine Program.guarded_ite (fun _ => ?_) fun _ => ?_
  · refine Program.guarded_ask_bind (not_may_deletePoints hdeleted hrefused) fun x => Or.inr ?_
    cases x with
    | ok => exact Program.guarded_ask (not_may_forgetHashes hforgot)
    | error e => exact (never_tell tells _).mono (fun _ => False.elim) fun _ h => h
  · exact Program.guarded_ask (not_may_forgetHashes hforgot)

/-- What the closing does beside taking the files with failed blocks out of the cache is done behind a look at
the cache. -/
theorem guarded_close (tells : mode.OnlyTells) (effect : Effect → Prop)
    (forgot : batches.failedFiles ≠ [] → ¬effect (.forgot batches.failedFiles)) :
    (Job.program s mode (.close listed batches)).Guarded
      (fun e => ∃ e', FindsVanished s effect listed e' ∧ e = performed e') (Does effect) := by
  have hsettle := never_perform (never_settle tells forgot)
  refine Guarded.bind (hsettle.mono (fun _ => False.elim) fun _ h => h) fun _ => ?_
  exact Guarded.bind (guarded_perform (guarded_removeVanished tells effect)) fun _ => trivial

theorem not_mem_vanishedOf {hashes : Hashes} (hlisted : path ∈ listed) :
    path ∉ vanishedOf listed hashes := by
  intro hmem
  have hnot := (List.mem_filter.1 hmem).2
  simp [hlisted] at hnot

/-- The effects that change the hash of a file. -/
def Touches (path : String) (e : Effect) : Prop :=
  ∃ base, e.onHash path base ≠ base

theorem Touches.path_eq {other hash : String} (h : Touches path (.recorded other hash)) : path = other :=
  Classical.byContradiction fun hne => h.elim fun _ hbase => hbase (if_neg hne)

/-- The storing of items does not change the hashes of other files. -/
theorem unstored_touches (h : ∀ item ∈ items, item.block.filePath ≠ path) :
    Unstored s (Touches path) items where
  stored _ _ := fun ⟨_, hne⟩ => hne rfl
  strayed _ _ := fun ⟨_, hne⟩ => hne rfl
  recorded item hitem := fun htouches => h item hitem htouches.path_eq.symm

theorem foldl_onHash_of_not_touches {log : List Effect} {base : Option String}
    (h : ∀ e ∈ log, ¬Touches path e) : log.foldl (Effect.onHash path) base = base :=
  Premises.foldl_onHash_of_idle fun e hmem base =>
    Classical.byContradiction fun hne => h e hmem ⟨base, hne⟩

theorem yields_settle (tells : mode.OnlyTells) (path : String) (batches : BatchResult) :
    (settle mode batches).Yields fun _ exchanges => ∀ base,
      ((exchanges.map performed).flatMap effects).foldl (Effect.onHash path) base =
        if path ∈ batches.failedFiles then none else base := by
  have hnever : (tellErrors mode batches.errors).Never (Action.May fun _ => True) :=
    never_tellErrors tells batches.errors
  refine hnever.yields.bind fun _ told htold => ?_
  have hsilent : (told.map performed).flatMap effects = [] := by
    refine effects_eq_nil_of_not_does fun e hmem => ?_
    obtain ⟨e', hin, rfl⟩ := List.mem_map.1 hmem
    exact htold e' hin
  refine Program.yields_ite (fun _ => Program.yields_ask fun _ base => ?_) fun hempty =>
    Program.yields_pure fun base => ?_
  · rw [List.map_append, List.flatMap_append, hsilent]
    rfl
  · have hnil : batches.failedFiles = [] := by simpa using hempty
    rw [List.append_nil, hsilent, hnil, if_neg List.not_mem_nil]
    rfl

/-- Of the listed files, the closing takes those with a failed block out of the cache, and no other. -/
theorem yields_close_hash (tells : mode.OnlyTells) (hlisted : path ∈ listed) :
    (Job.program s mode (.close listed batches)).Yields fun _ trace => ∀ base,
      (trace.flatMap effects).foldl (Effect.onHash path) base =
        if path ∈ batches.failedFiles then none else base := by
  have hvanished : (perform (removeVanished s mode listed)).Never (Does (Touches path)) := by
    refine (guarded_perform (guarded_removeVanished tells (Touches path))).mono ?_ fun _ h => h
    rintro _ ⟨_, ⟨hashes, -, ⟨_, hne⟩ | ⟨_, hne⟩ | ⟨_, hne⟩⟩, -⟩
    · exact hne rfl
    · exact hne rfl
    · exact hne (if_neg (not_mem_vanishedOf hlisted))
  refine yields_perform.bind fun _ first ⟨exchanges, hsettle, hfirst⟩ => ?_
  refine hvanished.yields.bind fun _ second hsecond => Program.yields_pure fun base => ?_
  rw [List.append_nil, List.flatMap_append, List.foldl_append, hfirst,
    yields_settle tells path batches _ exchanges hsettle,
    foldl_onHash_of_not_touches (not_effect_of_not_does hsecond)]

end Scan

end SourceIndex
