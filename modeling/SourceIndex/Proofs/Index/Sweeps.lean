import SourceIndex.Proofs.Index.Histories
/-!
# A scan in which nothing fails

`Premises.cleanRules` are the rules of a workspace whose listing and file sizes are known and in which no
call fails. A scan then does to every file what its listing, its size and its text say, and nothing
else (`Premises.Sweeping` on the way, `ensures_scan_clean` at the end): a listed file that can be read
and is not too large has the points and the hash of its text; one that is too large, or cannot be read,
keeps what it had; and one that is not listed has nothing left.
-/

namespace SourceIndex

/-- What two properties say of the runs of a program they say together. -/
theorem Program.Ensures.and {I : Interface} {α σ : Type} {rules : Program.Rules I σ} {p : Program I α}
    {s : σ} {post post' : α → σ → Prop} (h : p.Ensures rules s post) (h' : p.Ensures rules s post') :
    p.Ensures rules s fun a s' => post a s' ∧ post' a s' :=
  fun a s' run => ⟨h a s' run, h' a s' run⟩

namespace Premises

section Definitions
variable (e : Premises) (listed : List String) (size : String → Nat)

/-- What is known of the answers when nothing fails: the listing, the sizes of files, and that texts can
be read. -/
def Clean : (a : Action) → Scene → a.Answer → Prop
  | .listFiles _ _, _, (x : List String) => x = listed
  | .fileSize path, L, x => (L.files path).isSome → x = .ok (size path)
  | .readFile path, L, x => ∀ text, L.files path = some text → x = .ok text
  | .clearCache, _, x => x = .ok ()
  | .flushCache, _, x => x = .ok ()
  | .beginScan, _, (x : Bool) => x = false
  | .state, _, (x : IndexState) => x ≠ .indexing
  | .startWatcher, _, x => x = .ok ()
  | _, _, _ => True

/-- The rules of a workspace in which nothing fails. -/
def cleanRules : Program.Rules indexing Scene :=
  fun a L x L' => e.rules a L x L' ∧ Clean listed size a L x

end Definitions

variable {e : Premises} {listed : List String} {size : String → Nat} {L L' L₀ : Scene}
  {path text : String} {s : Services} {mode : ScanMode} {seen : List String} {state : ScanState}
  {batch : List PendingBlock}

/-! ## Requests -/

section
variable {α : Type} {p : Procedure α} {a : Action} {f : a.Answer → Procedure α}
  {post : α → Scene → Prop}

/-- What holds under the rules holds when nothing fails. -/
theorem clean_of_ensures (h : p.Ensures e.rules L post) :
    p.Ensures (e.cleanRules listed size) L post :=
  h.of_rules fun _ _ _ _ answer => answer.1

/-- What comes behind a request may rely on what is known of its answer. -/
theorem ensures_clean_bind
    (h : ∀ x L', e.rules a L x L' → Clean listed size a L x →
      (f x).Ensures (e.cleanRules listed size) L' post) :
    (ask a >>= f).Ensures (e.cleanRules listed size) L post :=
  Program.ensures_bind.2 (Program.ensures_ask.2 fun x L' answer => h x L' answer.1 answer.2)

end

/-! ## Answers -/

/-- Answer requests so that nothing fails: `listed` are the files of the workspace, with their sizes. -/
def answer (listed : List String) (size : String → Nat) : Program.Handler indexing Scene
  | .fileSize path, L => (.ok (size path), L)
  | a, L => respond listed (fun _ => false) a L

/-- These answers are those of a workspace in which nothing fails. -/
theorem cleanRules_answer (nodup : listed.Nodup) (paths : ∀ path ∈ listed, e.paths path) (a : Action)
    (L : Scene) : e.cleanRules listed size a L (answer listed size a L).1 (answer listed size a L).2 := by
  constructor
  · have hrules := @rules_respond e listed (fun _ => false) nodup paths (fun _ h => Bool.noConfusion h) a L
    cases a with
    | fileSize path => exact rfl
    | _ => exact hrules
  · cases a with
    | listFiles rules limit => exact rfl
    | fileSize path => exact fun _ => rfl
    | readFile path =>
      intro text file
      have file : L.files path = some text := file
      simp only [answer, respond, file]
      rfl
    | clearCache => exact rfl
    | flushCache => exact rfl
    | beginScan => exact rfl
    | state =>
      intro h
      cases h
    | startWatcher => exact rfl
    | _ => exact trivial

theorem ends_answer {α : Type} (nodup : listed.Nodup) (paths : ∀ path ∈ listed, e.paths path)
    (p : Procedure α) : Program.Ends (e.cleanRules listed size) p L (p.run (answer listed size) L).1
      (p.run (answer listed size) L).2 :=
  Program.ends_run id (cleanRules_answer nodup paths) p L

/-! ## Batches -/

section
variable (reliable : ∀ a, ¬e.fails a)
include reliable

/-- If nothing fails, all items of a batch are processed. -/
theorem ensures_runSegments_whole {limits : BatchLimits} {progress : Nat → Nat → Procedure Unit}
    {segments : List (List PendingBlock)} {r : BatchResult} :
    (Batch.runSegments (blockStrategy e.root) limits progress r segments).Ensures e.rules L
      fun r' _ => r'.errors = r.errors ∧ r'.processed = r.processed + segments.flatten.length := by
  induction segments generalizing r L with
  | nil => exact Program.ensures_pure.2 ⟨rfl, rfl⟩
  | cons segment segments ih =>
    refine ensures_runSegment.bind fun r₁ L₁ ⟨part, _, hcases⟩ => ?_
    obtain ⟨rfl, -⟩ := hcases.resolve_right fun ⟨_, ⟨a, hfails⟩, _⟩ => reliable a hfails
    refine Program.ensures_bind.2 fun _ L₂ _ => ?_
    refine ih.mono fun r' L' ⟨herrors, hprocessed⟩ => ⟨herrors.trans (List.append_nil _), ?_⟩
    rw [hprocessed, List.flatten_cons, List.length_append]
    exact Nat.add_assoc ..

theorem ensures_deleteStale_whole {paths : List String} :
    (Batch.deleteStale paths).Ensures e.rules L fun errors _ => errors = [] := by
  unfold Batch.deleteStale
  refine Program.ensures_ite (fun _ => Program.ensures_pure.2 rfl) fun _ => ?_
  refine ensures_ask_bind fun x L₁ hx => ?_
  rcases hx with ⟨rfl, -⟩ | ⟨hfails, -⟩
  · exact Program.ensures_pure.2 rfl
  · exact absurd hfails (reliable _)

theorem ensures_process_whole {limits : BatchLimits} {progress : Nat → Nat → Procedure Unit} :
    (Batch.process (blockStrategy e.root) limits progress batch).Ensures e.rules L
      fun r _ => r.errors = [] ∧ r.processed = batch.length := by
  unfold Batch.process
  refine Program.ensures_ite (fun hempty => ?_) fun _ => ?_
  · rw [List.isEmpty_iff.1 hempty]
    exact Program.ensures_pure.2 ⟨rfl, rfl⟩
  · refine (ensures_deleteStale_whole reliable).bind fun errors L₁ herrors => ?_
    refine (ensures_runSegments_whole reliable).mono fun r L' ⟨hr, hprocessed⟩ => ⟨hr.trans herrors, ?_⟩
    rw [hprocessed, flatten_segmentsOf]
    exact Nat.zero_add _

end

/-- What a batch that is sent off does to the files with and without items in it. -/
structure Sent (e : Premises) (batch : List PendingBlock) (state state' : ScanState) (L L' : Scene) :
    Prop where
  buffer : state'.buffer = state.buffer
  found : state'.found = state.found
  errors : state'.batches.errors = state.batches.errors
  processed : state'.batches.processed = state.batches.processed + batch.length
  idle : ∀ {path}, e.paths path → itemsOf path batch = [] → e.Same path L L'
  landed : ∀ {path text replaces}, e.paths path →
    itemsOf path batch = (e.blocks path text).map (fun block => ⟨block, replaces⟩) →
    itemsOf path batch ≠ [] → L'.hashes.get? path = some (contentHash text)

theorem ensures_submit_sent (reliable : ∀ a, ¬e.fails a) (distinct : e.Distinct) (serves : e.Serves s)
    (quiet : e.Quiet mode) (ho : e.Orderly L) (hs : ∀ item ∈ batch, e.Pends item) :
    (Scan.submit s mode state batch).Ensures e.rules L fun state' L' =>
      e.Sent batch state state' L L' := by
  unfold Scan.submit
  rw [serves.1]
  refine ((ensures_process distinct (fun _ _ => quiet _) hs ho).and
    (ensures_process_whole reliable)).bind fun r L' ⟨⟨L₁, hpurged, hbatched⟩, herrors, hprocessed⟩ => ?_
  refine Program.ensures_pure.2 ⟨rfl, rfl, ?_, ?_, fun hpath hitems => ?_, fun hpath hitems hne => ?_⟩
  · exact (congrArg _ herrors).trans (List.append_nil _)
  · exact congrArg _ hprocessed
  · exact (hpurged.same distinct hs hpath hitems).trans (hbatched.same hpath hitems)
  · refine (hbatched.get?_hashes hpath hitems hne).resolve_left fun hlost => ?_
    obtain ⟨-, a, hfails⟩ := (hbatched.fails hlost).resolve_left (BatchResult.not_lost_empty _)
    exact reliable a hfails

/-! ## Looking at files -/

/-- The invariant of a scan that began in `L₀`, when the files in `seen` were looked at and nothing failed:
a file that can be indexed waits for a batch or has got the hash of its text, and to any other nothing
happened. -/
structure Sweeping (e : Premises) (size : String → Nat) (limit : Nat) (L₀ : Scene)
    (seen : List String) (state : ScanState) (L : Scene) : Prop where
  scanning : e.Scanning L₀ seen state L
  current : ∀ {path text}, e.paths path → path ∈ seen → L₀.files path = some text →
    size path ≤ limit →
    itemsOf path state.buffer ≠ [] ∨ L.hashes.get? path = some (contentHash text)
  idle : ∀ {path}, e.paths path → path ∈ seen → L₀.files path = none ∨ limit < size path →
    itemsOf path state.buffer = [] ∧ e.Same path L₀ L
  errors : state.batches.errors = []
  counted : state.found = state.batches.processed + state.buffer.length

namespace Sweeping

variable {limit : Nat} {state' : ScanState}

theorem start (ho : e.Orderly L) : e.Sweeping size limit L [] {} L where
  scanning := .start ho
  current _ hin := absurd hin List.not_mem_nil
  idle _ hin := absurd hin List.not_mem_nil
  errors := rfl
  counted := rfl

/-- Changing the other counters of a scan does not touch its invariant. -/
theorem of_eq (h : e.Sweeping size limit L₀ seen state L) (hbuffer : state'.buffer = state.buffer)
    (hbatches : state'.batches = state.batches) (hfound : state'.found = state.found) :
    e.Sweeping size limit L₀ seen state' L where
  scanning := h.scanning.of_eq hbuffer hbatches hfound
  current := hbuffer ▸ h.current
  idle := hbuffer ▸ h.idle
  errors := hbatches ▸ h.errors
  counted := by rw [hfound, hbatches, hbuffer]; exact h.counted

/-- A batch that is sent off brings the files with blocks in it up to date. -/
theorem sent (h : e.Sweeping size limit L₀ seen { state with buffer := batch } L)
    (hscanning : e.Scanning L₀ seen state' L') (hbuffer : state'.buffer = [])
    (hsent : e.Sent batch { state with buffer := [] } state' L L') :
    e.Sweeping size limit L₀ seen state' L' where
  scanning := hscanning
  current {path text} hpath hin file hsize := by
    right
    -- a file has all of its items in one batch, or none
    by_cases hitems : itemsOf path batch = []
    · rw [(hsent.idle hpath hitems).hash]
      exact (h.current hpath hin file hsize).resolve_left fun hne => hne hitems
    · obtain ⟨text', file', -, hblocks⟩ := (h.scanning.waiting hpath).resolve_left hitems
      rw [file, Option.some_inj] at file'
      subst file'
      exact hsent.landed hpath hblocks hitems
  idle hpath hin hor := by
    obtain ⟨hitems, hsame⟩ := h.idle hpath hin hor
    exact ⟨by rw [hbuffer]; rfl, hsame.trans (hsent.idle hpath hitems)⟩
  errors := hsent.errors.trans h.errors
  counted := by
    rw [hsent.found, hsent.processed, hbuffer]
    exact h.counted

/-- One more file was looked at, and what happened in the scene and in the buffer happened to it. -/
theorem look (h : e.Sweeping size limit L₀ seen state L) (hunseen : path ∉ seen)
    (hscanning : e.Scanning L₀ (seen ++ [path]) state' L')
    (hothers : ∀ {other}, e.paths other → other ≠ path →
      itemsOf other state'.buffer = itemsOf other state.buffer ∧ e.Same other L L')
    (hcurrent : ∀ {text}, L₀.files path = some text → size path ≤ limit →
      itemsOf path state'.buffer ≠ [] ∨ L'.hashes.get? path = some (contentHash text))
    (hidle : L₀.files path = none ∨ limit < size path →
      itemsOf path state'.buffer = [] ∧ e.Same path L₀ L')
    (hbatches : state'.batches = state.batches)
    (hcounted : state'.found + state.buffer.length = state.found + state'.buffer.length) :
    e.Sweeping size limit L₀ (seen ++ [path]) state' L' where
  scanning := hscanning
  current {other text} hother hin file hsize := by
    by_cases heq : other = path
    · subst heq
      exact hcurrent file hsize
    · obtain ⟨hitems, hsame⟩ := hothers hother heq
      rw [hitems, hsame.hash]
      exact h.current hother ((List.mem_append.1 hin).resolve_right fun h => heq (List.mem_singleton.1 h))
        file hsize
  idle {other} hother hin hor := by
    by_cases heq : other = path
    · subst heq
      exact hidle hor
    · obtain ⟨hitems, hsame⟩ := hothers hother heq
      rw [hitems]
      exact (h.idle hother ((List.mem_append.1 hin).resolve_right fun h =>
        heq (List.mem_singleton.1 h)) hor).imp_right fun h => h.trans hsame
  errors := hbatches ▸ h.errors
  counted := by
    have hcount := h.counted
    rw [hbatches]
    omega

/-- A file that can be read, and is not too large, is none of those to which nothing happens. -/
theorem not_idle (h : e.Sweeping size limit L₀ seen state L) (file : L.files path = some text)
    (hsize : size path ≤ limit) : ¬(L₀.files path = none ∨ limit < size path) := by
  rw [← h.scanning.files, file]
  simpa using hsize

/-- A file that keeps what it has was looked at. -/
theorem pass (h : e.Sweeping size limit L₀ seen state L) (hpath : e.paths path)
    (hunseen : path ∉ seen)
    (hcurrent : ∀ {text}, L₀.files path = some text → size path ≤ limit →
      L.hashes.get? path = some (contentHash text)) :
    e.Sweeping size limit L₀ (seen ++ [path]) state L :=
  h.look hunseen (h.scanning.pass path) (fun _ _ => ⟨rfl, .refl ..⟩)
    (fun file hsize => Or.inr (hcurrent file hsize))
    (fun _ => ⟨h.scanning.itemsOf_eq_nil hunseen, h.scanning.untouched hpath (Or.inl hunseen)⟩) rfl rfl

/-- A file without blocks gets the hash of its text, behind the deletion of what it had. -/
theorem empty (distinct : e.Distinct) (h : e.Sweeping size limit L₀ seen state L)
    (hpath : e.paths path) (hunseen : path ∉ seen) (file : L.files path = some text)
    (changed : L.hashes.get? path ≠ some (contentHash text)) (hblocks : e.blocks path text = [])
    (hsize : size path ≤ limit)
    (hdeleted : L' = L.deletePoints [e.name path] ∧ (L.hashes.get? path).isSome ∨
      L' = L ∧ L.hashes.get? path = none) :
    e.Sweeping size limit L₀ (seen ++ [path]) state (L'.record path (contentHash text)) := by
  have hscanning := h.scanning.empty distinct hpath hunseen file changed hblocks hdeleted
  refine h.look hunseen hscanning (fun {other} hother hne => ⟨rfl, ?_⟩)
    (fun {other} hother _ => Or.inr ?_) (fun hidle => absurd hidle (h.not_idle file hsize)) rfl rfl
  · have hapart : e.name other ∉ [e.name path] :=
      fun hin => hne (distinct.names hother hpath (List.mem_singleton.1 hin))
    rcases hdeleted with ⟨rfl, -⟩ | ⟨rfl, -⟩
    · exact (Same.deletePoints hapart).trans (Same.record hne)
    · exact Same.record hne
  · rw [← h.scanning.files, file, Option.some_inj] at hother
    rw [Scene.get?_record, if_pos rfl, hother]

/-- The blocks of a new or changed file come to wait behind the others. -/
theorem join (h : e.Sweeping size limit L₀ seen state L) (hpath : e.paths path)
    (hunseen : path ∉ seen) (file : L.files path = some text)
    (changed : L.hashes.get? path ≠ some (contentHash text)) (hblocks : e.blocks path text ≠ [])
    (hsize : size path ≤ limit) :
    e.Sweeping size limit L₀ (seen ++ [path])
      { state with
        found := state.found + (e.blocks path text).length
        buffer := state.buffer ++
          (e.blocks path text).map fun block => ⟨block, (L.hashes.get? path).isSome⟩ } L := by
  have happ : ∀ {other} {more : List PendingBlock}, itemsOf other (state.buffer ++ more) =
      itemsOf other state.buffer ++ itemsOf other more := List.filter_append ..
  refine h.look hunseen (h.scanning.join hpath hunseen file changed hblocks)
    (fun {other} hother hne => ⟨?_, .refl ..⟩) (fun _ _ => Or.inl ?_)
    (fun hidle => absurd hidle (h.not_idle file hsize)) rfl ?_
  · rw [happ, itemsOf_blocks, if_neg hne, List.append_nil]
  · rw [happ, itemsOf_blocks, if_pos rfl]
    exact List.append_ne_nil_of_right_ne_nil _ fun hnil => hblocks (List.map_eq_nil_iff.1 hnil)
  · change state.found + (e.blocks path text).length + state.buffer.length = state.found +
      (state.buffer ++ (e.blocks path text).map _).length
    rw [List.length_append, List.length_map]
    omega

/-- The result of a scan that comes to its end is in order. -/
theorem check_eq_ok (h : e.Sweeping size limit L₀ seen state L) (hbuffer : state.buffer = [])
    {result : ScanResult} (htotal : result.total = state.found)
    (hindexed : result.indexed = state.batches.processed)
    (herrors : result.batchErrors = state.batches.errors) : result.check = .ok () := by
  have hcounted : result.total = result.indexed := by
    rw [htotal, h.counted, hbuffer, hindexed]
    rfl
  have hsome : (0 < result.total && result.indexed == 0) = false := by
    rw [hcounted]
    cases result.indexed <;> rfl
  simp [ScanResult.check, hsome, herrors, h.errors]

end Sweeping

/-! ## Runs of a scan -/

section
variable {limit : Nat}

theorem ensures_submit_clean (reliable : ∀ a, ¬e.fails a) (distinct : e.Distinct)
    (serves : e.Serves s) (quiet : e.Quiet mode)
    (h : e.Sweeping size limit L₀ seen { state with buffer := batch } L) :
    (Scan.submit s mode { state with buffer := [] } batch).Ensures e.rules L fun state' L' =>
      state'.buffer = [] ∧ e.Sweeping size limit L₀ seen state' L' := by
  have hs : ∀ item ∈ batch, e.Pends item := fun item hitem => (h.scanning.pends item hitem).1
  refine ((ensures_submit distinct serves quiet h.scanning).and
    (ensures_submit_sent reliable distinct serves quiet h.scanning.orderly hs)).mono ?_
  rintro state' L' ⟨⟨hbuffer, hscanning⟩, hsent⟩
  exact ⟨hbuffer, h.sent hscanning hbuffer hsent⟩

theorem ensures_gather_clean (reliable : ∀ a, ¬e.fails a) (distinct : e.Distinct)
    (serves : e.Serves s) (quiet : e.Quiet mode) {blocks : List PendingBlock}
    (h : e.Sweeping size limit L₀ seen { state with buffer := state.buffer ++ blocks } L) :
    (Scan.gather s mode state blocks).Ensures e.rules L fun state' L' =>
      e.Sweeping size limit L₀ seen state' L' := by
  unfold Scan.gather
  dsimp only
  refine Program.ensures_ite (fun _ => ?_) fun _ => Program.ensures_pure.2 h
  exact (ensures_submit_clean reliable distinct serves quiet h).mono fun _ _ h' => h'.2

/-- Taking the blocks of a new or changed file keeps the invariant, and the file was looked at. -/
theorem ensures_takeBlocks_clean (reliable : ∀ a, ¬e.fails a) (distinct : e.Distinct)
    (serves : e.Serves s) (quiet : e.Quiet mode) (indexes : mode.indexes = true)
    (h : e.Sweeping size limit L₀ seen state L) (hpath : e.paths path) (hunseen : path ∉ seen)
    (file : L.files path = some text) (changed : L.hashes.get? path ≠ some (contentHash text))
    (hsize : size path ≤ limit) :
    (Scan.takeBlocks s mode state path (contentHash text) (L.hashes.get? path).isSome
      (e.blocks path text)).Ensures e.rules L fun x L' =>
        e.Sweeping size limit L₀ (seen ++ [path]) x.1 L' := by
  have hname : Path.relativeTo s.root path = e.name path := by
    rw [serves.1]
    rfl
  unfold Scan.takeBlocks
  refine (quiet _ L).bind fun _ L₁ h₁ => ?_
  subst h₁
  simp only [indexes, Bool.not_true, Bool.false_eq_true, if_false]
  refine Program.ensures_ite (fun hempty => ?_) fun hsome => ?_
  · have hblocks := List.isEmpty_iff.1 hempty
    have hfound : state.found + (e.blocks path text).length = state.found := by
      rw [hblocks, List.length_nil, Nat.add_zero]
    refine ensures_deleteIf_bind (fun L₂ hdeleted => ?_) fun failure ⟨_, hfails⟩ => absurd hfails (reliable _)
    refine ensures_record_bind (Program.ensures_pure.2 ?_)
    rw [hname] at hdeleted
    refine (h.empty distinct hpath hunseen file changed hblocks hsize ?_).of_eq rfl rfl hfound
    rcases hdeleted with ⟨hcached, hL⟩ | ⟨hcached, hL⟩
    · exact Or.inl ⟨hL, hcached⟩
    · exact Or.inr ⟨hL, by simpa using hcached⟩
  · have hblocks : e.blocks path text ≠ [] := fun hnone => hsome (List.isEmpty_iff.2 hnone)
    refine Program.Ensures.bind (ensures_gather_clean reliable distinct serves quiet ?_)
      fun state' L₂ h₂ => Program.ensures_pure.2 h₂
    exact (h.join hpath hunseen file changed hblocks hsize).of_eq rfl rfl rfl

/-- Scanning a file keeps the invariant, and the file was looked at. -/
theorem ensures_scanFile_clean (reliable : ∀ a, ¬e.fails a) (distinct : e.Distinct)
    (serves : e.Serves s) (quiet : e.Quiet mode) (indexes : mode.indexes = true)
    (h : e.Sweeping size s.tuning.maxFileSize L₀ seen state L) (hpath : e.paths path)
    (hunseen : path ∉ seen) :
    (Scan.scanFile s mode state path).Ensures (e.cleanRules listed size) L fun x L' =>
      e.Sweeping size s.tuning.maxFileSize L₀ (seen ++ [path]) x.1 L' := by
  unfold Scan.scanFile
  refine ensures_clean_bind fun x L₁ hL hsize => ?_
  have hL : L₁ = L := hL
  subst hL
  have hfiles := h.scanning.files
  cases x with
  | error failure =>
    refine Program.ensures_pure.2 (h.pass hpath hunseen fun file _ => ?_)
    cases hsize (by rw [hfiles, file]; rfl)
  | ok bytes =>
    have hbytes : ∀ {text}, L₁.files path = some text → bytes = size path := by
      intro text file
      cases hsize (by rw [file]; rfl)
      rfl
    dsimp only
    refine Program.ensures_ite (fun hlarge => ?_) fun hsmall => ?_
    · refine Program.ensures_pure.2 ((h.pass hpath hunseen fun file hle => ?_).of_eq rfl rfl rfl)
      rw [hbytes (hfiles ▸ file)] at hlarge
      omega
    refine ensures_clean_bind fun y L₂ ⟨hL, hread⟩ hclean => ?_
    subst hL
    cases y with
    | error failure =>
      refine Program.ensures_pure.2 (h.pass hpath hunseen fun {text} file _ => ?_)
      cases hclean text (hfiles ▸ file)
    | ok text =>
      have file := hread text rfl
      refine ensures_clean_bind fun hashes L₃ ⟨hL, hhashes⟩ _ => ?_
      subst hL hhashes
      refine Program.ensures_ite (fun hsame => ?_) fun hchanged => ?_
      · refine Program.ensures_pure.2 ((h.pass hpath hunseen fun {other} hother _ => ?_).of_eq rfl rfl rfl)
        rw [← hfiles, file, Option.some_inj] at hother
        rw [← hother]
        exact beq_iff_eq.1 hsame
      · have hblocks : Chunk.parse s.trees s.tuning.chunk path text (contentHash text) =
            e.blocks path text := by
          rw [serves.2.1, serves.2.2]
          rfl
        rw [hblocks]
        refine clean_of_ensures (ensures_takeBlocks_clean reliable distinct serves quiet indexes h hpath
          hunseen file (by simpa using hchanged) ?_)
        rw [← hbytes file]
        omega

/-- Scanning files one after the other keeps the invariant, and all of them were looked at. -/
theorem ensures_scanFiles_clean (reliable : ∀ a, ¬e.fails a) (distinct : e.Distinct)
    (serves : e.Serves s) (quiet : e.Quiet mode) (indexes : mode.indexes = true) {todo : List String}
    (h : e.Sweeping size s.tuning.maxFileSize L₀ seen state L)
    (hpaths : ∀ path ∈ todo, e.paths path) (hnodup : (seen ++ todo).Nodup) :
    (Scan.scanFiles s mode state todo).Ensures (e.cleanRules listed size) L fun state' L' =>
      e.Sweeping size s.tuning.maxFileSize L₀ (seen ++ todo) state' L' := by
  induction todo generalizing seen state L with
  | nil => exact Program.ensures_pure.2 (by rwa [List.append_nil])
  | cons path todo ih =>
    unfold Scan.scanFiles
    have hunseen : path ∉ seen := fun hin =>
      (List.nodup_append.1 hnodup).2.2 path hin path List.mem_cons_self rfl
    rw [List.append_cons] at hnodup ⊢
    obtain ⟨hpath, hrest⟩ := List.forall_mem_cons.1 hpaths
    refine (ensures_scanFile_clean reliable distinct serves quiet indexes h hpath hunseen).bind
      fun x L₁ h₁ => ?_
    obtain ⟨state₁, error⟩ := x
    cases error with
    | none => exact Program.ensures_bind.2 (Program.ensures_pure.2 (ih h₁ hrest hnodup))
    | some error =>
      refine (clean_of_ensures (quiet _ L₁)).bind fun _ L₂ h₂ => ?_
      rw [h₂]
      exact ih h₁ hrest hnodup

/-- What a scan leaves of a file if nothing fails and the files in `looked` were looked at. -/
structure Cleaned (e : Premises) (size : String → Nat) (limit : Nat) (looked : List String)
    (L₀ L : Scene) (path : String) : Prop where
  current : path ∈ looked → ∀ {text}, L₀.files path = some text → size path ≤ limit →
    L.hashes.get? path = some (contentHash text) ∧ e.Scanned path L₀ L
  passed : path ∈ looked → L₀.files path = none ∨ limit < size path → e.Same path L₀ L
  gone : path ∉ looked → L.hashes.get? path = none ∧
    (L.pointsOf (e.name path) = [] ∨ L₀.hashes.get? path = none ∧ e.Same path L₀ L)

/-- Files that were not looked at lose points and hash at the end of a scan, and the others stay. -/
theorem Sweeping.cleaned (distinct : e.Distinct) {looked vanished : List String}
    (h : e.Sweeping size limit L₀ looked state L) (hbuffer : state.buffer = [])
    (reliable : ∀ a, ¬e.fails a)
    (hvanished : ∀ path, path ∈ vanished ↔ (L.hashes.get? path).isSome ∧ path ∉ looked)
    (hpath : e.paths path) :
    e.Cleaned size limit looked L₀ ((L.deletePoints (vanished.map e.name)).forget vanished) path := by
  have hstays : path ∉ vanished →
      e.Same path L ((L.deletePoints (vanished.map e.name)).forget vanished) := by
    intro hnot
    have hname := name_notMem_map distinct h.scanning.orderly hpath
      (fun other hin => ((hvanished other).1 hin).1) hnot
    exact (Same.deletePoints hname).trans (Same.forget hnot)
  have hlooked : path ∈ looked → path ∉ vanished := fun hin hgone => ((hvanished path).1 hgone).2 hin
  refine ⟨fun hin {text} file hsize => ?_, fun hin hor => ?_, fun hnot => ?_⟩
  · have hsame := hstays (hlooked hin)
    have hscanned := (h.scanning.settled hpath).resolve_left fun hlost =>
      let ⟨a, hfails⟩ := h.scanning.fails hlost
      reliable a hfails
    refine ⟨?_, hscanned.same hsame⟩
    rw [hsame.hash]
    exact (h.current hpath hin file hsize).resolve_left fun hne => hne (by rw [hbuffer]; rfl)
  · exact (h.idle hpath hin hor).2.trans (hstays (hlooked hin))
  · have huntouched := h.scanning.untouched hpath (Or.inl hnot)
    by_cases hgone : path ∈ vanished
    · refine ⟨by rw [Scene.get?_forget, if_pos hgone], Or.inl ?_⟩
      exact Scene.pointsOf_deletePoints.trans (if_pos (List.mem_map_of_mem hgone))
    · have hsame := huntouched.trans (hstays hgone)
      have hnone : L.hashes.get? path = none := by
        simpa using fun hcached => hgone ((hvanished path).2 ⟨hcached, hnot⟩)
      rw [huntouched.hash] at hnone
      exact ⟨hsame.hash.trans hnone, Or.inr ⟨hnone, hsame⟩⟩

/-- The end of a scan that sent off its last batch. -/
theorem ensures_finish_clean (reliable : ∀ a, ¬e.fails a) (distinct : e.Distinct) (serves : e.Serves s)
    (quiet : e.Quiet mode) (indexes : mode.indexes = true) {looked : List String}
    (h : e.Sweeping size limit L₀ looked state L) (hbuffer : state.buffer = []) (result : ScanResult) :
    Program.Ensures (e.cleanRules listed size) (do
      Scan.settle mode state.batches
      Scan.removeVanished s mode looked
      pure result) L fun result' L' =>
        result' = result ∧ e.Orderly L' ∧
          ∀ {path}, e.paths path → e.Cleaned size limit looked L₀ L' path := by
  have hwhole : state.batches.failedFiles = [] :=
    List.eq_nil_iff_forall_not_mem.2 fun path hin => by
      obtain ⟨a, hfails⟩ := h.scanning.fails (BatchResult.mem_failedFiles.1 hin)
      exact reliable a hfails
  refine (clean_of_ensures (ensures_settle quiet)).bind fun _ L₁ h₁ => ?_
  rw [hwhole] at h₁
  obtain rfl : L₁ = L := h₁
  refine (clean_of_ensures (ensures_removeVanished serves quiet indexes)).bind fun _ L₂ h₂ => ?_
  obtain ⟨vanished, hvanished, rfl | ⟨⟨_, hfails⟩, -⟩⟩ := h₂
  · exact Program.ensures_pure.2 ⟨rfl, h.scanning.orderly.deletePoints.forget,
      h.cleaned distinct hbuffer reliable hvanished⟩
  · exact absurd hfails (reliable _)

/-- A scan in which nothing fails does to every file what its listing, its size and its text say, and its
result is in order. -/
theorem ensures_scan_clean (reliable : ∀ a, ¬e.fails a) (distinct : e.Distinct) (serves : e.Serves s)
    (quiet : e.Quiet mode) (indexes : mode.indexes = true) (ho : e.Orderly L) :
    (scan s mode).Ensures (e.cleanRules listed size) L fun result L' =>
      e.Orderly L' ∧ result.check = .ok () ∧ ∀ {path}, e.paths path →
        e.Cleaned size s.tuning.maxFileSize (listed.filter s.rules.accepts) L L' path := by
  unfold scan
  refine ensures_clean_bind fun (found : List String) L₁ ⟨hL, hnodup, hfound⟩ hclean => ?_
  have hclean : found = listed := hclean
  subst hL hclean
  have hpaths : ∀ path ∈ List.filter s.rules.accepts found, e.paths path :=
    fun path hin => hfound path (List.mem_of_mem_filter hin)
  refine (ensures_scanFiles_clean reliable distinct serves quiet indexes (.start ho) hpaths
    (hnodup.filter _)).bind fun state L₂ h₂ => ?_
  rw [List.nil_append] at h₂
  split
  · rename_i hempty
    have hbuffer := List.isEmpty_iff.1 hempty
    refine (ensures_finish_clean reliable distinct serves quiet indexes h₂ hbuffer _).mono ?_
    rintro result L' ⟨rfl, ho', hcleaned⟩
    exact ⟨ho', h₂.check_eq_ok hbuffer rfl rfl rfl, hcleaned⟩
  · refine (clean_of_ensures (ensures_submit_clean reliable distinct serves quiet
      (h₂.of_eq rfl rfl rfl))).bind fun state' L₃ ⟨hbuffer, h₃⟩ => ?_
    refine (ensures_finish_clean reliable distinct serves quiet indexes h₃ hbuffer _).mono ?_
    rintro result L' ⟨rfl, ho', hcleaned⟩
    exact ⟨ho', h₃.check_eq_ok hbuffer rfl rfl rfl, hcleaned⟩

end

end Premises

end SourceIndex
