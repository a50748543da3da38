import SourceIndex.Proofs.Index.Counts
import SourceIndex.Proofs.Index.Rescans
import SourceIndex.Proofs.Index.Storing
/-!
# Keeping an index up by its changes

Where nothing fails and the embedder is a function of each text, a batch of changes that reports what
happened since cache and store agreed leaves the same index as a scan (`changes_eq_scan`).

The files of a batch are read and embedded first: those whose text was not indexed yet become ready with the
points of their text (`ensures_processGroups_steady`). What storing them does is read off the log of the
batch: ready files get their points and hashes, deleted ones lose theirs, and nothing happens to the others
(`Storing.replay_ready`, `Storing.replay_others`). So every file is renewed, as it is by a scan.
-/

namespace SourceIndex

/-- The file that an outcome makes ready. -/
def FileOutcome.ready? : FileOutcome → Option ReadyFile
  | .result _ => none
  | .ready file => some file

namespace Premises

variable {e : Premises} {s : Services} {vectorOf : String → Vector32} {limit : Nat} {L L' : Scene}
  {path : String} {paths : List String}

/-! ## Reading and embedding -/

/-- The ready file that a changed file becomes: none if it is gone, or if its text was indexed. -/
def readyOf (e : Premises) (vectorOf : String → Vector32) (L : Scene) (path : String) :
    Option ReadyFile :=
  match L.files path with
  | none => none
  | some text =>
    if L.hashes.get? path = some (contentHash text) then none
    else some ⟨path, contentHash text, e.freshPoints vectorOf path text⟩

theorem readyOf_eq_some {file : ReadyFile} : e.readyOf vectorOf L path = some file ↔
    ∃ text, L.files path = some text ∧ L.hashes.get? path ≠ some (contentHash text) ∧
      file = ⟨path, contentHash text, e.freshPoints vectorOf path text⟩ := by
  unfold readyOf
  cases L.files path with
  | none => simp
  | some text => simp [eq_comm]

/-- A file that becomes ready carries its own points. -/
theorem filed_of_readyOf (ho : e.Orderly L) (hpath : e.paths path) {file : ReadyFile}
    (h : e.readyOf vectorOf L path = some file) : e.Filed file := by
  obtain ⟨text, hfile, -, rfl⟩ := readyOf_eq_some.1 h
  refine ⟨hpath, List.forall_mem_map.2 fun block hblock => ?_⟩
  exact ⟨.ofBlock ⟨hpath, ho.texts hpath hfile⟩ hblock _, filePath_ofBlock hblock _⟩

theorem map_path_readyOf : ((paths.filterMap (e.readyOf vectorOf L)).map (·.path)).Sublist paths := by
  induction paths with
  | nil => exact List.nil_sublist _
  | cons path paths ih =>
    rw [List.filterMap_cons]
    cases h : e.readyOf vectorOf L path with
    | none => exact ih.cons path
    | some file =>
      obtain ⟨text, -, -, rfl⟩ := readyOf_eq_some.1 h
      exact ih.cons_cons path

theorem ensures_embedSegments_steady (serves : e.Serves s) {segments : List (List Block)}
    {points : List Point} :
    (Change.embedSegments s segments points).Ensures (e.steadyRules vectorOf limit) L fun x L' =>
      L' = L ∧ x = .ok (points ++ segments.flatten.map fun block =>
        Point.ofBlock e.root block (vectorOf (Text.trim block.content))) := by
  induction segments generalizing points with
  | nil => exact Program.ensures_pure.2 ⟨rfl, by rw [List.flatten_nil, List.map_nil, List.append_nil]⟩
  | cons segment segments ih =>
    unfold Change.embedSegments
    refine ensures_steady_bind fun x L₁ hanswer hsteady => ?_
    obtain ⟨embeddings, rfl, hvectors⟩ := hsteady
    obtain ⟨rfl, -⟩ := hanswer
    have hlen : embeddings.vectors.length = segment.length := by
      rw [hvectors, List.length_map, List.length_map]
    have hpoints : segment.zipWith (Point.ofBlock s.root) embeddings.vectors =
        segment.map fun block => Point.ofBlock e.root block (vectorOf (Text.trim block.content)) := by
      rw [hvectors, List.map_map, List.zipWith_map_right, List.zipWith_self, serves.1]
      rfl
    refine Program.ensures_ite (fun hne => absurd hlen (by simpa using hne)) fun _ => ?_
    refine ih.mono fun y L₂ h => ⟨h.1, ?_⟩
    rw [h.2, hpoints, List.append_assoc, List.flatten_cons, List.map_append]

/-- A file that is there becomes ready with the points of its text, unless this was indexed. -/
theorem ensures_processFile_steady (serves : e.Serves s) (hsome : (L.files path).isSome)
    (accepts : s.rules.accepts path = true) :
    (Change.processFile s path).Ensures (e.steadyRules vectorOf s.tuning.maxFileSize) L
      fun outcome L' => L' = L ∧ outcome.ready? = e.readyOf vectorOf L path := by
  obtain ⟨text, file⟩ := Option.isSome_iff_exists.1 hsome
  unfold Change.processFile
  rw [accepts]
  refine Program.ensures_ite (fun hrefused => Bool.noConfusion hrefused) fun _ => ?_
  refine ensures_steady_bind fun x L₁ hL hsteady => ?_
  obtain ⟨size, rfl, hsize⟩ := hsteady hsome
  have hL : L₁ = L := hL
  rw [hL]
  refine Program.ensures_ite (fun hlarge => absurd hsize (Nat.not_le.2 hlarge)) fun _ => ?_
  refine ensures_steady_bind fun y L₂ hread hsteady => ?_
  obtain rfl := hsteady text file
  rw [hread.1]
  refine ensures_steady_bind fun hashes L₃ hhashes _ => ?_
  obtain ⟨rfl, rfl⟩ := hhashes
  refine Program.ensures_ite (fun hsame => ?_) fun hchanged => ?_
  · refine Program.ensures_pure.2 ⟨rfl, ?_⟩
    rw [readyOf, file]
    exact (if_pos (beq_iff_eq.1 hsame)).symm
  · refine (ensures_embedSegments_steady serves).bind fun z L₄ hz => ?_
    obtain ⟨rfl, rfl⟩ := hz
    refine Program.ensures_pure.2 ⟨rfl, ?_⟩
    rw [readyOf, file, flatten_segmentsOf, serves.2.1, serves.2.2]
    exact (if_neg fun heq => hchanged (beq_iff_eq.2 heq)).symm

/-- The files of a batch that are there, which may be indexed. -/
theorem ensures_processAll_steady (serves : e.Serves s)
    (hpaths : ∀ path ∈ paths, (L.files path).isSome ∧ s.rules.accepts path = true) :
    (Change.processAll s paths).Ensures (e.steadyRules vectorOf s.tuning.maxFileSize) L
      fun outcomes L' => L' = L ∧
        outcomes.filterMap FileOutcome.ready? = paths.filterMap (e.readyOf vectorOf L) := by
  induction paths with
  | nil => exact Program.ensures_pure.2 ⟨rfl, rfl⟩
  | cons path paths ih =>
    obtain ⟨⟨hsome, accepts⟩, hrest⟩ := List.forall_mem_cons.1 hpaths
    refine (ensures_processFile_steady serves hsome accepts).bind fun outcome L₁ h₁ => ?_
    obtain ⟨rfl, hfile⟩ := h₁
    refine (ih hrest).bind fun outcomes L₂ h₂ => Program.ensures_pure.2 ⟨h₂.1, ?_⟩
    rw [List.filterMap_cons, List.filterMap_cons, hfile, h₂.2]

theorem ensures_count_steady {total : Nat} {tally : Change.Tally} {outcomes : List FileOutcome} :
    (Change.count total tally outcomes).Ensures (e.steadyRules vectorOf limit) L fun tally' L' =>
      L' = L ∧ tally'.ready = tally.ready ++ outcomes.filterMap FileOutcome.ready? := by
  induction outcomes generalizing tally with
  | nil => exact Program.ensures_pure.2 ⟨rfl, (List.append_nil _).symm⟩
  | cons outcome outcomes ih =>
    refine ensures_steady_idle_bind (fun _ _ hx => hx) fun _ => ih.mono fun tally' L' h => ⟨h.1, ?_⟩
    rw [h.2, List.filterMap_cons]
    cases outcome with
    | result r => rfl
    | ready file => exact List.append_assoc ..

/-- Reading and embedding files group by group changes nothing, and those of them become ready whose text was
not indexed. -/
theorem ensures_processGroups_steady (serves : e.Serves s) {total : Nat} {tally : Change.Tally}
    {groups : List (List String)}
    (hpaths : ∀ path ∈ groups.flatten, (L.files path).isSome ∧ s.rules.accepts path = true) :
    (Change.processGroups s total tally groups).Ensures
      (e.steadyRules vectorOf s.tuning.maxFileSize) L fun tally' L' =>
        L' = L ∧ tally'.ready = tally.ready ++ groups.flatten.filterMap (e.readyOf vectorOf L) := by
  induction groups generalizing tally with
  | nil => exact Program.ensures_pure.2 ⟨rfl, (List.append_nil _).symm⟩
  | cons group groups ih =>
    rw [List.flatten_cons, List.forall_mem_append] at hpaths
    refine (ensures_processAll_steady serves hpaths.1).bind fun outcomes L₁ h₁ => ?_
    obtain ⟨rfl, houtcomes⟩ := h₁
    refine ensures_count_steady.bind fun tally₂ L₂ h₂ => ?_
    obtain ⟨rfl, htally⟩ := h₂
    refine (ih hpaths.2).mono fun tally' L' h => ⟨h.1, ?_⟩
    rw [h.2, htally, houtcomes, List.append_assoc, List.flatten_cons, List.filterMap_append]

/-! ## Storing -/

section
variable {deleted : List String} {ready : List ReadyFile} {log : List Effect}

/-- Where no call fails, a ready file gets its points in place of all that it had, and its hash. -/
theorem Storing.replay_ready (distinct : e.Distinct) (h : e.Storing deleted ready log)
    (ho : e.Orderly L) (reliable : ∀ a, ¬e.fails a) (hready : ∀ file ∈ ready, e.Filed file)
    (nodup : (ready.map (·.path)).Nodup) {file : ReadyFile} (hfile : file ∈ ready)
    (kept : file.path ∉ deleted) :
    (L.replay log).hashes.get? file.path = some file.hash ∧
      (L.replay log).pointsOf (e.name file.path) = file.points.foldl MemoryStore.put [] := by
  obtain ⟨hlays, hwipes, hrecorded⟩ := h.lays distinct reliable hready nodup hfile
  refine ⟨?_, ?_⟩
  · rw [get?_replay, foldl_onHash_of_enters (h.enters reliable nodup hfile kept) hrecorded]
  · rw [pointsOf_replay distinct ho.known (h.knows hready), hlays.foldl_onPoints hwipes]

theorem foldl_onHash_forgotten {hash : Option String} :
    (deleted.map fun other => .forgot [other]).foldl (Effect.onHash path) hash =
      if path ∈ deleted then none else hash := by
  induction deleted generalizing hash with
  | nil => rfl
  | cons other deleted ih =>
    rw [List.map_cons, List.foldl_cons, ih, Effect.onHash]
    by_cases heq : path = other
    · simp [heq]
    · simp [heq]

/-- Where no call fails, a deleted file loses its points and its hash, and nothing happens to a file that is
neither deleted nor ready. -/
theorem Storing.replay_others (distinct : e.Distinct) (h : e.Storing deleted ready log)
    (ho : e.Orderly L) (reliable : ∀ a, ¬e.fails a) (hready : ∀ file ∈ ready, e.Filed file)
    (hdeleted : ∀ other ∈ deleted, e.paths other) (hpath : e.paths path)
    (hnot : path ∉ ready.map (·.path)) :
    (L.replay log).hashes.get? path = (if path ∈ deleted then none else L.hashes.get? path) ∧
      (L.replay log).pointsOf (e.name path) =
        if path ∈ deleted then [] else L.pointsOf (e.name path) := by
  rw [get?_replay, pointsOf_replay distinct ho.known (h.knows hready)]
  cases h with
  | idle empty =>
    rw [empty.1]
    exact ⟨rfl, rfl⟩
  | refused fails =>
    obtain ⟨a, ha⟩ := fails
    exact absurd ha (reliable a)
  | @filled failures size upserts upserted =>
    have hputs : putsOf (e.name path) (filling failures deleted ready upserts) = [] := by
      rw [putsOf_filling, (upserted.exact reliable (e.name path)).2, flatten_segmentsOf,
        map_snd_tagged]
      refine MemoryStore.pointsOf_eq_nil fun q hq heq => hnot ?_
      obtain ⟨file, hfile, hq⟩ := List.mem_flatMap.1 hq
      have hname := ((hready file hfile).points q hq).2.symm.trans heq
      rw [← distinct.names (hready file hfile).paths hpath hname]
      exact List.mem_map_of_mem hfile
    have hwiped : e.name path ∈ (deleted ++ ready.map (·.path)).map e.name ↔ path ∈ deleted := by
      constructor
      · intro hin
        obtain ⟨other, hother, hname⟩ := List.mem_map.1 hin
        rcases List.mem_append.1 hother with hother | hother
        · exact distinct.names (hdeleted other hother) hpath hname ▸ hother
        · obtain ⟨file, hfile, rfl⟩ := List.mem_map.1 hother
          have hsame := distinct.names (hready file hfile).paths hpath hname
          exact absurd (hsame ▸ List.mem_map_of_mem hfile) hnot
      · exact fun hin => List.mem_map_of_mem (List.mem_append_left _ hin)
    refine ⟨?_, ?_⟩
    · have hupserts : ∀ effect ∈ upserts, ∀ base, effect.onHash path base = base :=
        upserted.forall_mem (fun _ _ => rfl) fun _ _ => rfl
      have hsettled : ∀ effect ∈ ready.zipIdx.map (settlement failures.files), ∀ base,
          effect.onHash path base = base := by
        refine List.forall_mem_map.2 fun entry hentry base => ?_
        have hne : path ≠ entry.1.path := fun heq =>
          hnot (heq ▸ List.mem_map_of_mem (List.fst_mem_of_mem_zipIdx hentry))
        unfold settlement
        split
        · exact if_neg fun hin => hne (List.mem_singleton.1 hin)
        · exact if_neg hne
      rw [List.foldl_cons, filling, List.foldl_append, List.foldl_append, foldl_onHash_forgotten,
        foldl_onHash_of_idle hupserts, foldl_onHash_of_idle hsettled]
      rfl
    · rw [List.foldl_cons, foldl_onPoints_of_forall (not_wipes_of_mem_filling upserted), hputs]
      exact if_congr hwiped rfl rfl

end

/-! ## A batch of changes -/

/-- Changes that report what happened to the files since cache and store agreed: those that are reported as
deleted are gone and the others are there, and every file is reported whose text is not the one that was
indexed, or that is gone and was. -/
structure Reports (e : Premises) (changes : Changes) (L : Scene) : Prop where
  nodup : (changes.map (·.1)).Nodup
  paths : ∀ c ∈ changes, e.paths c.1
  deleted : ∀ c ∈ changes, c.2 = .deleted ↔ L.files c.1 = none
  covers : ∀ {path}, e.paths path → L.hashes.get? path ≠ (L.files path).map contentHash →
    path ∈ changes.map (·.1)

namespace Reports

variable {changes : Changes}

theorem mem_deleted (h : e.Reports changes L) :
    path ∈ Path.sort ((changes.filter (·.2 = .deleted)).map (·.1)) ↔
      path ∈ changes.map (·.1) ∧ L.files path = none := by
  simp only [mem_sort_paths, List.mem_map, List.mem_filter, decide_eq_true_eq]
  constructor
  · rintro ⟨c, ⟨hc, hkind⟩, rfl⟩
    exact ⟨⟨c, hc, rfl⟩, (h.deleted c hc).1 hkind⟩
  · rintro ⟨⟨c, hc, rfl⟩, hgone⟩
    exact ⟨c, ⟨hc, (h.deleted c hc).2 hgone⟩, rfl⟩

theorem mem_present (h : e.Reports changes L) :
    path ∈ Path.sort ((changes.filter (·.2 ≠ .deleted)).map (·.1)) ↔
      path ∈ changes.map (·.1) ∧ (L.files path).isSome := by
  simp only [mem_sort_paths, List.mem_map, List.mem_filter, decide_eq_true_eq]
  constructor
  · rintro ⟨c, ⟨hc, hkind⟩, rfl⟩
    exact ⟨⟨c, hc, rfl⟩, Option.isSome_iff_ne_none.2 fun hgone => hkind ((h.deleted c hc).2 hgone)⟩
  · rintro ⟨⟨c, hc, rfl⟩, hsome⟩
    exact ⟨c, ⟨hc, fun hkind => Option.isSome_iff_ne_none.1 hsome ((h.deleted c hc).1 hkind)⟩, rfl⟩

theorem paths_of_mem (h : e.Reports changes L) (hpath : path ∈ changes.map (·.1)) : e.paths path := by
  obtain ⟨c, hc, rfl⟩ := List.mem_map.1 hpath
  exact h.paths c hc

theorem nodup_present (h : e.Reports changes L) :
    (Path.sort ((changes.filter (·.2 ≠ .deleted)).map (·.1))).Nodup := by
  rw [Path.sort, (List.mergeSort_perm _ _).nodup_iff]
  exact h.nodup.sublist (List.Sublist.map _ List.filter_sublist)

end Reports

/-- Where no call fails, storing the files of a batch that were read renews every file. -/
theorem Storing.renewed {deleted present : List String} {log : List Effect} {changes : Changes}
    (undisturbed : e.Undisturbed s L) (reports : e.Reports changes L)
    (h : e.Storing deleted (present.filterMap (e.readyOf vectorOf L)) log)
    (hdeleted : ∀ {path}, path ∈ deleted ↔ path ∈ changes.map (·.1) ∧ L.files path = none)
    (hpresent : ∀ {path}, path ∈ present ↔ path ∈ changes.map (·.1) ∧ (L.files path).isSome)
    (nodup : present.Nodup) (hpath : e.paths path) : e.Renewed vectorOf path L (L.replay log) := by
  have hready : ∀ file ∈ present.filterMap (e.readyOf vectorOf L), e.Filed file := by
    intro file hfile
    obtain ⟨other, hother, hfile⟩ := List.mem_filterMap.1 hfile
    exact filed_of_readyOf undisturbed.orderly (reports.paths_of_mem (hpresent.1 hother).1) hfile
  have hothers := h.replay_others undisturbed.distinct undisturbed.orderly undisturbed.reliable hready
    (fun other hin => reports.paths_of_mem (hdeleted.1 hin).1) hpath
  have hnotReady : e.readyOf vectorOf L path = none →
      path ∉ (present.filterMap (e.readyOf vectorOf L)).map (·.path) := by
    intro hnone hin
    obtain ⟨file, hfile, rfl⟩ := List.mem_map.1 hin
    obtain ⟨other, -, hother⟩ := List.mem_filterMap.1 hfile
    obtain ⟨text, -, -, rfl⟩ := readyOf_eq_some.1 hother
    rw [hnone] at hother
    cases hother
  cases hfile : L.files path with
  | none =>
    obtain ⟨hhash, hpoints⟩ := hothers (hnotReady (by rw [readyOf, hfile]))
    by_cases hin : path ∈ deleted
    · rw [if_pos hin] at hhash hpoints
      exact .gone hfile hhash hpoints
    · rw [if_neg hin] at hhash hpoints
      have huncached : L.hashes.get? path = none := by
        by_contra hcached
        exact hin (hdeleted.2 ⟨reports.covers hpath (by rwa [hfile]), hfile⟩)
      exact .of_absent hfile huncached (undisturbed.steps hpath) ⟨hhash, hpoints⟩
  | some text =>
    have hkept : path ∉ deleted := fun hin => by
      rw [(hdeleted.1 hin).2] at hfile
      cases hfile
    by_cases hsame : L.hashes.get? path = some (contentHash text)
    · obtain ⟨hhash, hpoints⟩ := hothers (hnotReady (by rw [readyOf, hfile]; exact if_pos hsame))
      rw [if_neg hkept] at hhash hpoints
      exact .of_unchanged hfile hsame ⟨hhash, hpoints⟩
    · have hin : path ∈ present :=
        hpresent.2 ⟨reports.covers hpath (by rwa [hfile]), hfile ▸ rfl⟩
      have hmem : ⟨path, contentHash text, e.freshPoints vectorOf path text⟩ ∈
          present.filterMap (e.readyOf vectorOf L) :=
        List.mem_filterMap.2 ⟨path, hin, readyOf_eq_some.2 ⟨text, hfile, hsame, rfl⟩⟩
      obtain ⟨hhash, hpoints⟩ := h.replay_ready undisturbed.distinct undisturbed.orderly
        undisturbed.reliable hready (nodup.sublist map_path_readyOf) hmem hkept
      exact .of_changed hfile hsame hhash hpoints

/-- A batch of changes that reports what happened renews every file. -/
theorem ensures_processChanges_steady {changes : Changes} (undisturbed : e.Undisturbed s L)
    (reports : e.Reports changes L) :
    (processChanges s changes).Ensures (e.steadyRules vectorOf s.tuning.maxFileSize) L fun _ L' =>
      ∀ path, e.paths path → e.Renewed vectorOf path L L' := by
  rw [processChanges_eq]
  refine ensures_steady_idle_bind (fun _ _ hx => hx) fun _ => ?_
  refine Program.Ensures.bind (ensures_processGroups_steady undisturbed.serves fun path hin => ?_)
    fun tally L₁ h₁ => ?_
  · rw [flatten_segmentsOf] at hin
    obtain ⟨hmem, hsome⟩ := reports.mem_present.1 hin
    exact ⟨hsome, undisturbed.accepts (reports.paths_of_mem hmem) hsome⟩
  · obtain ⟨rfl, htally⟩ := h₁
    rw [flatten_segmentsOf, List.nil_append] at htally
    refine steady_of_ensures fun results L' run => ?_
    obtain ⟨log, hlog, rfl⟩ := run.exists_log e.does []
    obtain ⟨new, hstoring, hnew⟩ := ensures_storing_log undisturbed.serves _ _ hlog
    rw [List.nil_append, List.nil_append] at hnew
    rw [htally, ← hnew] at hstoring
    exact fun path hpath => hstoring.renewed undisturbed reports reports.mem_deleted
      reports.mem_present reports.nodup_present hpath

/-- Where no call fails and the embedder is a function of each text, a batch of changes that reports what
happened since cache and store agreed and a scan both come to an end, and whatever their answers were, they
leave the same cache and the same points. With these every file is renewed: if it is there it has the hash
of its text, and the points of this text unless it had them before; if it is gone it has neither. -/
theorem changes_eq_scan {changes : Changes} {mode : ScanMode} (undisturbed : e.Undisturbed s L)
    (reports : e.Reports changes L) (quiet : e.Quiet mode) (indexes : mode.indexes = true) :
    let rules := e.steadyRules vectorOf s.tuning.maxFileSize
    (∃ results L₁, Program.Ends rules (processChanges s changes) L results L₁) ∧
      (∃ result L₂, Program.Ends rules (scan s mode) L result L₂) ∧
      ∀ results L₁ result L₂, Program.Ends rules (processChanges s changes) L results L₁ →
        Program.Ends rules (scan s mode) L result L₂ →
        (∀ path, L₁.hashes.get? path = L₂.hashes.get? path) ∧ L₁.points.Perm L₂.points ∧
          ∀ path, e.paths path → e.Renewed vectorOf path L L₁ := by
  intro rules
  obtain ⟨listed, nodup, hlisted⟩ := undisturbed.listed
  refine ⟨⟨_, _, ends_attend nodup hlisted _⟩, ⟨_, _, ends_attend nodup hlisted _⟩,
    fun results L₁ result L₂ changed scanned => ?_⟩
  have hagrees : e.Agrees L := fun path hash hget =>
    (undisturbed.steps (undisturbed.orderly.cached hget)).backed hget
  have horderly := steady_of_ensures (ensures_processChanges undisturbed.distinct undisturbed.serves
    reports.paths reports.nodup undisturbed.orderly hagrees) _ _ changed
  have hchanged := ensures_processChanges_steady undisturbed reports _ _ changed
  have hscanned := ensures_scan_steady undisturbed quiet indexes _ _ scanned
  obtain ⟨hhashes, hpoints⟩ := same_of_renewed horderly.1 hscanned.1 hchanged hscanned.2
  exact ⟨hhashes, hpoints, hchanged⟩

/-! ### One file in place of another -/

/-- Of the small workspace only the file at `path` is there. -/
def only (path other : String) : Option String :=
  if other = path then some (smallText other) else none

theorem mem_singleton_iff_only (hpath : calm.paths path) (other : String) :
    other ∈ [path] ↔ calm.paths other ∧ (only path other).isSome := by
  rw [List.mem_singleton, only]
  constructor
  · rintro rfl
    exact ⟨hpath, by rw [if_pos rfl]; rfl⟩
  · rintro ⟨-, hsome⟩
    by_contra hne
    rw [if_neg hne] at hsome
    cases hsome

theorem undisturbed_calm (ho : calm.Orderly L) (steps : ∀ path, calm.paths path → calm.InStep L path)
    (hpath : calm.paths path) (files : L.files = only path) : calm.Undisturbed smallServices L := by
  refine ⟨calm_distinct, ⟨rfl, rfl, rfl⟩, fun _ h => h, ho, steps _, fun {other} hother _ => ?_,
    [path], List.nodup_singleton _, files ▸ mem_singleton_iff_only hpath⟩
  rcases List.mem_pair.1 hother with rfl | rfl
  · decide +kernel
  · decide +kernel

/-- Only the first file is there, and nothing was indexed. -/
def firstOnly : Scene where
  files := only "/w/a.rs"

/-- The first file was indexed by a scan. -/
def indexedFirst : Scene :=
  ((scan smallServices { tell := Lifecycle.showScan }).run (attend (fun _ => []) ["/w/a.rs"]) firstOnly).2

/-- Since then it was removed, and the second one was created. -/
def replaced : Scene :=
  { indexedFirst with files := only "/w/b.rs" }

theorem texts_only {other text : String} (h : only path other = some text) :
    text = smallText other := by
  unfold only at h
  split at h
  · exact (Option.some_inj.1 h).symm
  · cases h

theorem orderly_firstOnly : calm.Orderly firstOnly :=
  ⟨fun _ h => texts_only h, List.nodup_nil, nofun, nofun⟩

theorem renewed_indexedFirst : calm.Orderly indexedFirst ∧ ∀ path, calm.paths path →
    calm.Renewed (fun _ => []) path firstOnly indexedFirst :=
  ensures_scan_steady (undisturbed_calm orderly_firstOnly (fun _ _ => ⟨nofun, fun _ => rfl⟩)
    List.mem_cons_self rfl) quiet_showScan rfl _ _
    (ends_attend (List.nodup_singleton _) (mem_singleton_iff_only List.mem_cons_self) _)

theorem undisturbed_replaced : calm.Undisturbed smallServices replaced := by
  obtain ⟨ho, hrenewed⟩ := renewed_indexedFirst
  refine @undisturbed_calm replaced "/w/b.rs" ⟨fun _ h => texts_only h, ho.ids, ho.known, ho.cached⟩
    (fun path hpath => ?_) (List.mem_cons_of_mem _ List.mem_cons_self) rfl
  have hstep := (hrenewed path hpath).inStep orderly_firstOnly ho hpath ⟨nofun, fun _ => rfl⟩
  exact ⟨hstep.backed, hstep.absent⟩

/-- The first file is reported as deleted and the second one as created. -/
theorem reports_replaced :
    calm.Reports [("/w/a.rs", .deleted), ("/w/b.rs", .created)] replaced where
  nodup := by decide
  paths := List.forall_mem_cons.2 ⟨List.mem_cons_self, List.forall_mem_singleton.2
    (List.mem_cons_of_mem _ List.mem_cons_self)⟩
  deleted := List.forall_mem_cons.2 ⟨⟨fun _ => rfl, fun _ => rfl⟩, List.forall_mem_singleton.2
    ⟨nofun, nofun⟩⟩
  covers hpath _ := hpath

/-- The changes and a scan both take the first file out of the index and put in the second one. -/
theorem changes_eq_scan_calm :
    let rules := calm.steadyRules (fun _ => []) smallServices.tuning.maxFileSize
    let changes := [("/w/a.rs", .deleted), ("/w/b.rs", .created)]
    replaced.hashes.get? "/w/a.rs" = some (contentHash (smallText "/w/a.rs")) ∧
    ∃ results result L₁ L₂,
      Program.Ends rules (processChanges smallServices changes) replaced results L₁ ∧
      Program.Ends rules (scan smallServices { tell := Lifecycle.showScan }) replaced result L₂ ∧
      L₁.hashes.get? "/w/a.rs" = none ∧
      L₁.hashes.get? "/w/b.rs" = some (contentHash (smallText "/w/b.rs")) ∧
      (∀ path, L₁.hashes.get? path = L₂.hashes.get? path) ∧ L₁.points.Perm L₂.points := by
  intro rules changes
  refine ⟨(renewed_indexedFirst.2 "/w/a.rs" List.mem_cons_self).hash, ?_⟩
  obtain ⟨⟨results, L₁, changed⟩, ⟨result, L₂, scanned⟩, hsame⟩ :=
    changes_eq_scan undisturbed_replaced reports_replaced quiet_showScan rfl
  obtain ⟨hhashes, hpoints, hrenewed⟩ := hsame results L₁ result L₂ changed scanned
  exact ⟨results, result, L₁, L₂, changed, scanned, (hrenewed "/w/a.rs" List.mem_cons_self).hash,
    (hrenewed "/w/b.rs" (List.mem_cons_of_mem _ List.mem_cons_self)).hash, hhashes, hpoints⟩

end Premises

end SourceIndex
