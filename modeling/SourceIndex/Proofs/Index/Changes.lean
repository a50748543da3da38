import SourceIndex.Proofs.Index.Batches
/-!
# What a batch of changes leaves behind

Files are read and embedded first, which changes nothing (`ensures_processGroups`); a file that is ready
carries all points of the text it holds (`Premises.ReadyFor`). After the old points of all files
were deleted, a file all of whose segments went through has exactly its new points
(`ensures_upsertSegments`), and only such a file gets its hash (`ensures_settleReady`).

`ensures_processChanges`: whatever fails meanwhile, the cache and the store still agree afterwards.
-/

namespace SourceIndex.Premises

variable {e : Premises} {s : Services} {L L' : Scene} {path : String}

/-! ## Reading and embedding -/

/-- A file that is ready carries the points of all blocks of the text that it holds. -/
structure ReadyFor (e : Premises) (L : Scene) (file : ReadyFile) : Prop where
  paths : e.paths file.path
  embedded : ∃ text vectors, L.files file.path = some text ∧ file.hash = contentHash text ∧
    vectors.length = (e.blocks file.path text).length ∧
    file.points = e.points file.path text vectors

/-- Embedding the blocks of a file segment by segment gives each of them a vector, or fails. -/
theorem ensures_embedSegments (serves : e.Serves s) {segments : List (List Block)}
    {points : List Point} :
    (Change.embedSegments s segments points).Ensures e.rules L fun x L' => L' = L ∧
      ∀ all, x = .ok all → ∃ vectors : List Vector32,
        vectors.length = segments.flatten.length ∧
          all = points ++ segments.flatten.zipWith (Point.ofBlock e.root) vectors := by
  induction segments generalizing points with
  | nil =>
    refine Program.ensures_pure.2 ⟨rfl, fun all h => ⟨[], rfl, ?_⟩⟩
    cases h
    exact (List.append_nil _).symm
  | cons segment segments ih =>
    unfold Change.embedSegments
    refine ensures_ask_bind fun x L₁ ⟨hL, _⟩ => ?_
    subst hL
    cases x with
    | error failure => exact Program.ensures_pure.2 ⟨rfl, nofun⟩
    | ok embeddings =>
      refine Program.ensures_ite (fun _ => Program.ensures_pure.2 ⟨rfl, nofun⟩) fun hlen => ?_
      have hlen : embeddings.vectors.length = segment.length := by simpa using hlen
      refine ih.mono fun y L₂ ⟨h₂, hall⟩ => ⟨h₂, fun all hy => ?_⟩
      obtain ⟨vectors, hvectors, rfl⟩ := hall all hy
      refine ⟨embeddings.vectors ++ vectors, ?_, ?_⟩
      · rw [List.length_append, List.flatten_cons, List.length_append, hlen, hvectors]
      · rw [List.flatten_cons, List.zipWith_append hlen.symm, serves.1, List.append_assoc]

/-- Reading and embedding a file changes nothing; a file that gets ready carries the points of its text. -/
theorem ensures_processFile (serves : e.Serves s) (hpath : e.paths path) :
    (Change.processFile s path).Ensures e.rules L fun outcome L' => L' = L ∧
      ∀ file, outcome = .ready file → file.path = path ∧ e.ReadyFor L file := by
  unfold Change.processFile
  refine Program.ensures_ite (fun _ => Program.ensures_pure.2 ⟨rfl, nofun⟩) fun _ => ?_
  refine ensures_idle_bind (fun _ _ hx => hx) fun x => ?_
  cases x with
  | error failure => exact Program.ensures_pure.2 ⟨rfl, nofun⟩
  | ok size =>
    refine Program.ensures_ite (fun _ => Program.ensures_pure.2 ⟨rfl, nofun⟩) fun _ => ?_
    refine ensures_ask_bind fun y L₁ ⟨hL, hread⟩ => ?_
    subst hL
    cases y with
    | error failure => exact Program.ensures_pure.2 ⟨rfl, nofun⟩
    | ok text =>
      refine ensures_idle_bind (fun _ _ hx => hx.1) fun hashes => ?_
      refine Program.ensures_ite (fun _ => Program.ensures_pure.2 ⟨rfl, nofun⟩) fun _ => ?_
      refine (ensures_embedSegments serves).bind fun z L₂ ⟨h₂, hall⟩ => ?_
      cases z with
      | error message => exact Program.ensures_pure.2 ⟨h₂, nofun⟩
      | ok points =>
        refine Program.ensures_pure.2 ⟨h₂, fun file hfile => ?_⟩
        cases hfile
        obtain ⟨vectors, hlen, hpoints⟩ := hall points rfl
        rw [flatten_segmentsOf, serves.2.1, serves.2.2] at hlen hpoints
        exact ⟨rfl, hpath, text, vectors, hread text rfl, rfl, hlen, hpoints⟩

/-- The files of a tally that became ready behind those of another are ready, and were among some paths. -/
def ReadyAmong (e : Premises) (L : Scene) (paths : List String) (before after : List ReadyFile) :
    Prop :=
  ∃ more, after = before ++ more ∧ (∀ file ∈ more, e.ReadyFor L file) ∧
    (more.map (·.path)).Sublist paths

theorem ReadyAmong.trans {paths paths' : List String} {before between after : List ReadyFile}
    (h : e.ReadyAmong L paths before between) (h' : e.ReadyAmong L paths' between after) :
    e.ReadyAmong L (paths ++ paths') before after := by
  obtain ⟨more, rfl, hready, hsub⟩ := h
  obtain ⟨more', rfl, hready', hsub'⟩ := h'
  refine ⟨more ++ more', List.append_assoc .., fun file hfile => ?_, ?_⟩
  · exact (List.mem_append.1 hfile).elim (hready file) (hready' file)
  · rw [List.map_append]
    exact hsub.append hsub'

/-- Adding an outcome to a tally makes at most its file ready. -/
theorem ReadyAmong.add {t : Change.Tally} {outcome : FileOutcome}
    (h : ∀ file, outcome = .ready file → file.path = path ∧ e.ReadyFor L file) :
    e.ReadyAmong L [path] t.ready (t.add outcome).ready := by
  cases outcome with
  | result r => exact ⟨[], (List.append_nil _).symm, nofun, List.nil_sublist _⟩
  | ready file =>
    obtain ⟨hpath, hready⟩ := h file rfl
    refine ⟨[file], rfl, fun other hother => ?_, ?_⟩
    · exact List.mem_singleton.1 hother ▸ hready
    · rw [← hpath]
      exact List.Sublist.refl _

/-- Outcomes belong to paths in order. -/
def OutcomesOf (e : Premises) (L : Scene) (paths : List String) (outcomes : List FileOutcome) :
    Prop :=
  List.Forall₂ (fun path outcome => ∀ file, outcome = FileOutcome.ready file →
    file.path = path ∧ e.ReadyFor L file) paths outcomes

theorem ensures_processAll (serves : e.Serves s) {paths : List String}
    (hpaths : ∀ path ∈ paths, e.paths path) :
    (Change.processAll s paths).Ensures e.rules L fun outcomes L' =>
      L' = L ∧ e.OutcomesOf L paths outcomes := by
  induction paths with
  | nil => exact Program.ensures_pure.2 ⟨rfl, .nil⟩
  | cons path paths ih =>
    refine (ensures_processFile serves (hpaths path List.mem_cons_self)).bind
      fun outcome L₁ ⟨h₁, hfile⟩ => ?_
    subst h₁
    refine (ih fun other h => hpaths other (List.mem_cons_of_mem path h)).bind
      fun outcomes L₂ ⟨h₂, hrest⟩ => ?_
    exact Program.ensures_pure.2 ⟨h₂, .cons hfile hrest⟩

theorem ensures_count {total : Nat} {t : Change.Tally} {paths : List String}
    {outcomes : List FileOutcome} (h : e.OutcomesOf L paths outcomes) :
    (Change.count total t outcomes).Ensures e.rules L fun t' L' =>
      L' = L ∧ e.ReadyAmong L paths t.ready t'.ready := by
  induction h generalizing t with
  | nil =>
    exact Program.ensures_pure.2 ⟨rfl, [], (List.append_nil _).symm, nofun, List.nil_sublist _⟩
  | cons hfile hrest ih =>
    refine ensures_idle_bind (fun _ _ hx => hx) fun _ => ?_
    exact ih.mono fun t' L' ⟨h', hready⟩ => ⟨h', (ReadyAmong.add hfile).trans hready⟩

/-- Reading and embedding files group by group changes nothing and makes some of them ready. -/
theorem ensures_processGroups (serves : e.Serves s) {total : Nat} {t : Change.Tally}
    {groups : List (List String)} (hpaths : ∀ path ∈ groups.flatten, e.paths path) :
    (Change.processGroups s total t groups).Ensures e.rules L fun t' L' =>
      L' = L ∧ e.ReadyAmong L groups.flatten t.ready t'.ready := by
  induction groups generalizing t with
  | nil =>
    exact Program.ensures_pure.2 ⟨rfl, [], (List.append_nil _).symm, nofun, List.nil_sublist _⟩
  | cons group groups ih =>
    rw [List.flatten_cons] at hpaths ⊢
    refine (ensures_processAll serves fun path h => hpaths path (List.mem_append_left _ h)).bind
      fun outcomes L₁ ⟨h₁, houtcomes⟩ => ?_
    subst h₁
    refine (ensures_count houtcomes).bind fun t₂ L₂ ⟨h₂, hready⟩ => ?_
    subst h₂
    exact (ih fun path h => hpaths path (List.mem_append_right _ h)).mono
      fun t' L' ⟨h', hrest⟩ => ⟨h', hready.trans hrest⟩

/-! ## Deleting -/

/-- The old points of all files of a batch are deleted by one call, or the batch goes no further. -/
theorem ensures_deleteOld (serves : e.Serves s) {paths : List String} :
    (Change.deleteStale s paths).Ensures e.rules L fun error L' =>
      error = none ∧ L' = L.deletePoints (paths.map e.name) ∨
      (∃ message, error = some message) ∧ L' = L.refuse (paths.map e.name) := by
  have hname : Path.relativeTo s.root = e.name := by
    rw [serves.1]
    rfl
  unfold Change.deleteStale
  refine Program.ensures_ite (fun hempty => ?_) fun _ => ?_
  · rw [List.isEmpty_iff.1 hempty]
    exact Program.ensures_pure.2 (Or.inl ⟨rfl, (Scene.deletePoints_nil L).symm⟩)
  · refine ensures_ask_bind fun x L₁ hx => ?_
    rcases hx with ⟨rfl, rfl⟩ | ⟨-, ⟨failure, rfl⟩, rfl⟩
    · exact Program.ensures_pure.2 (Or.inl ⟨rfl, by rw [hname]⟩)
    · exact Program.ensures_pure.2 (Or.inr ⟨⟨_, rfl⟩, by rw [hname]⟩)

/-- Deleted files leave the cache if their points are gone. -/
theorem ensures_settleDeleted {total : Nat} {failed : Bool} {t : Change.Tally}
    {paths : List String} :
    (Change.settleDeleted total failed t paths).Ensures e.rules L fun t' L' =>
      t'.ready = t.ready ∧ L' = if failed then L else L.forget paths := by
  induction paths generalizing t L with
  | nil =>
    refine Program.ensures_pure.2 ⟨rfl, ?_⟩
    split
    · rfl
    · rfl
  | cons path paths ih =>
    unfold Change.settleDeleted
    refine ensures_idle_bind (fun _ _ hx => hx) fun _ => ?_
    cases failed with
    | true => exact ih
    | false => exact ensures_forget_bind ih

/-! ## Storing -/

/-- Trying to store points again and again stores all of them in the end, or some of them. -/
theorem ensures_upsert_retried {retry : RetryPolicy} {points : List Point} :
    (retry.run pause (ask (.upsert points)) : Procedure (Except ServiceError Unit)).Ensures e.rules L
      fun x L' => ∃ part, part ⊆ points ∧
        (x = .ok () ∧ L' = (L.upsert part).upsert points ∨
          (∃ failure, x = .error failure) ∧ L' = L.upsert part) := by
  let again (L₁ : Scene) : Prop := ∃ part, part ⊆ points ∧ L₁ = L.upsert part
  refine RetryPolicy.ensures_run again _ (fun d L₁ => ensures_ask fun _ _ h => h) ?_
    ⟨[], List.nil_subset _, rfl⟩
  rintro L₁ ⟨part, hpart, rfl⟩
  refine ensures_ask fun x L₂ hx => ?_
  rcases hx with ⟨rfl, rfl⟩ | ⟨-, hfailure, more, hmore, rfl⟩
  · exact ⟨⟨part, hpart, Or.inl ⟨rfl, rfl⟩⟩, nofun⟩
  · have hboth : (L.upsert part).upsert more = L.upsert (part ++ more) := by
      unfold Scene.upsert
      rw [List.foldl_append]
    rw [hboth]
    have hsub : part ++ more ⊆ points := List.append_subset.2 ⟨hpart, hmore⟩
    exact ⟨⟨_, hsub, Or.inr ⟨hfailure, rfl⟩⟩, fun _ _ => ⟨_, hsub, rfl⟩⟩

/-- A file has a point in a segment that failed. -/
def Missed (failures : Change.UpsertFailures) (tagged : List (Nat × Point)) (file : String) : Prop :=
  ∃ p ∈ tagged, p.2.payload.filePath = file ∧ ∃ message, (p.1, message) ∈ failures.files

/-- What the segments of a batch of changes leave of a scene they found: every file has got all of its
points, unless one of them was in a segment that failed. -/
structure Landed (e : Premises) (tagged : List (Nat × Point))
    (failures failures' : Change.UpsertFailures) (L L' : Scene) : Prop where
  orderly : e.Orderly L'
  files : L'.files = L.files
  hashes : L'.hashes = L.hashes
  failed : failures.files ⊆ failures'.files
  points : ∀ file, Missed failures' tagged file ∨ ∀ q, q ∈ L'.pointsOf file ↔
    q ∈ (MemoryStore.pointsOf file (tagged.map (·.2))).foldl MemoryStore.put (L.pointsOf file)

theorem Landed.trans {tagged more : List (Nat × Point)} {f f₁ f' : Change.UpsertFailures}
    {L₁ : Scene} (h : e.Landed tagged f f₁ L L₁) (h' : e.Landed more f₁ f' L₁ L') :
    e.Landed (tagged ++ more) f f' L L' where
  orderly := h'.orderly
  files := h'.files.trans h.files
  hashes := h'.hashes.trans h.hashes
  failed _ hmem := h'.failed (h.failed hmem)
  points file := by
    rcases h.points file with ⟨p, hp, hfile, message, hm⟩ | hpoints
    · exact Or.inl ⟨p, List.mem_append_left _ hp, hfile, message, h'.failed hm⟩
    · rcases h'.points file with ⟨p, hp, hmissed⟩ | hpoints'
      · exact Or.inl ⟨p, List.mem_append_right _ hp, hmissed⟩
      · refine Or.inr fun q => ?_
        rw [hpoints', List.map_append, MemoryStore.pointsOf_append, List.foldl_append]
        exact MemoryStore.mem_foldl_put_congr hpoints

/-- Segments that are stored one after the other leave every file with all of its points, unless one of
them was in a segment that failed. -/
theorem ensures_upsertSegments (distinct : e.Distinct) {retry : RetryPolicy}
    {segments : List (List (Nat × Point))} (hknown : ∀ p ∈ segments.flatten, e.Known p.2)
    (ho : e.Orderly L) (failures : Change.UpsertFailures) :
    (Change.upsertSegments retry failures segments).Ensures e.rules L fun failures' L' =>
      e.Landed segments.flatten failures failures' L L' := by
  induction segments generalizing failures L with
  | nil =>
    exact Program.ensures_pure.2 ⟨ho, rfl, rfl, fun _ h => h, fun _ => Or.inr fun _ => Iff.rfl⟩
  | cons segment segments ih =>
    rw [List.flatten_cons] at hknown ⊢
    have hfirst : ∀ q ∈ segment.map (·.2), e.Known q := by
      intro q hq
      obtain ⟨p, hp, rfl⟩ := List.mem_map.1 hq
      exact hknown p (List.mem_append_left _ hp)
    have hrest : ∀ p ∈ segments.flatten, e.Known p.2 :=
      fun p hp => hknown p (List.mem_append_right _ hp)
    refine ensures_upsert_retried.bind fun x L₁ ⟨part, hpart, hx⟩ => ?_
    have hpartKnown : ∀ q ∈ part, e.Known q := fun q hq => hfirst q (hpart hq)
    rcases hx with ⟨rfl, rfl⟩ | ⟨⟨failure, rfl⟩, rfl⟩
    · have hlanded : e.Landed segment failures failures L
          ((L.upsert part).upsert (segment.map (·.2))) :=
        ⟨(ho.upsert hpartKnown).upsert hfirst, rfl, rfl, fun _ h => h, fun file => Or.inr fun q =>
          mem_pointsOf_upsert_upsert distinct ho hfirst fun r hr => ⟨r, hpart hr, rfl⟩⟩
      exact (ih hrest hlanded.orderly failures).mono fun _ _ h => hlanded.trans h
    · let failures₁ := failures.add (segment.map (·.1)) failure.message
      have hlanded : e.Landed segment failures failures₁ L (L.upsert part) := by
        refine ⟨ho.upsert hpartKnown, rfl, rfl, List.subset_append_right _ _, fun file => ?_⟩
        by_cases hin : ∃ p ∈ segment, p.2.payload.filePath = file
        · obtain ⟨p, hp, hfile⟩ := hin
          refine Or.inl ⟨p, hp, hfile, failure.message, List.mem_append_left _ ?_⟩
          exact List.mem_map.2 ⟨p.1, List.mem_map.2 ⟨p, hp, rfl⟩, rfl⟩
        · have hother : ∀ q ∈ segment.map (·.2), q.payload.filePath ≠ file := by
            intro q hq heq
            obtain ⟨p, hp, rfl⟩ := List.mem_map.1 hq
            exact hin ⟨p, hp, heq⟩
          refine Or.inr fun q => ?_
          rw [pointsOf_upsert_of_ne distinct ho hpartKnown fun q hq => hother q (hpart hq),
            MemoryStore.pointsOf_eq_nil hother]
          rfl
      exact (ih hrest hlanded.orderly failures₁).mono fun _ _ h => hlanded.trans h

/-- What settling the results of ready files, counted from `i`, leaves of a scene: the points stay, and a
file gets its hash, or leaves the cache if some of its points failed. -/
structure Settled (e : Premises) (failures : List (Nat × String)) (i : Nat)
    (ready : List ReadyFile) (L L' : Scene) : Prop where
  orderly : e.Orderly L'
  files : L'.files = L.files
  points : L'.points = L.points
  others : ∀ {path}, path ∉ ready.map (·.path) → L'.hashes.get? path = L.hashes.get? path
  each : ∀ {file j}, (file, j) ∈ ready.zipIdx i →
    L'.hashes.get? file.path = none ∨
      L'.hashes.get? file.path = some file.hash ∧ ∀ message, (j, message) ∉ failures

theorem ensures_settleReady {failures : List (Nat × String)} {i : Nat} {ready : List ReadyFile}
    (hready : ∀ file ∈ ready, e.paths file.path) (hnodup : (ready.map (·.path)).Nodup)
    (ho : e.Orderly L) :
    (Change.settleReady failures i ready).Ensures e.rules L fun _ L' =>
      e.Settled failures i ready L L' := by
  induction ready generalizing i L with
  | nil => exact Program.ensures_pure.2 ⟨ho, rfl, rfl, fun _ => rfl, nofun⟩
  | cons file ready ih =>
    obtain ⟨hnot, hnodup⟩ := List.nodup_cons.1 hnodup
    have hrest : ∀ other ∈ ready, e.paths other.path :=
      fun other h => hready other (List.mem_cons_of_mem file h)
    -- the file itself comes first, and nothing behind it touches its hash
    have step : ∀ {L₁}, e.Orderly L₁ → L₁.files = L.files → L₁.points = L.points →
        (∀ {path}, path ≠ file.path → L₁.hashes.get? path = L.hashes.get? path) →
        (L₁.hashes.get? file.path = none ∨ L₁.hashes.get? file.path = some file.hash ∧
          ∀ message, (i, message) ∉ failures) →
        ∀ {result : ChangeResult}, Program.Ensures e.rules (do
            let more ← Change.settleReady failures (i + 1) ready
            pure (result :: more)) L₁ fun _ L' => e.Settled failures i (file :: ready) L L' := by
      intro L₁ ho₁ hfiles hpoints hothers hown result
      refine (ih hrest hnodup ho₁).bind fun more L' h => Program.ensures_pure.2 ?_
      refine ⟨h.orderly, h.files.trans hfiles, h.points.trans hpoints, fun {path} hpath => ?_,
        fun {other j} hmem => ?_⟩
      · rw [List.map_cons, List.mem_cons, not_or] at hpath
        rw [h.others hpath.2, hothers hpath.1]
      · rw [List.zipIdx_cons, List.mem_cons] at hmem
        rcases hmem with heq | hmem
        · cases heq
          rw [h.others hnot]
          exact hown
        · exact h.each hmem
    unfold Change.settleReady
    cases hfind : failures.find? (·.1 == i) with
    | some found =>
      refine ensures_forget_bind (step ho.forget rfl rfl (fun hne => ?_) (Or.inl ?_))
      · rw [Scene.get?_forget, if_neg (by simpa using hne)]
      · rw [Scene.get?_forget, if_pos (List.mem_singleton_self _)]
    | none =>
      refine ensures_record_bind (step (ho.record (hready file List.mem_cons_self)) rfl rfl
        (fun hne => ?_) (Or.inr ⟨?_, fun message hmem => ?_⟩))
      · rw [Scene.get?_record, if_neg hne]
      · rw [Scene.get?_record, if_pos rfl]
      · have hne := List.find?_eq_none.1 hfind _ hmem
        exact absurd (beq_self_eq_true i) hne

/-! ## Ready files -/

theorem exists_mem_zipIdx {ready : List ReadyFile} {file : ReadyFile} (h : file ∈ ready) :
    ∃ j, (file, j) ∈ ready.zipIdx := by
  obtain ⟨j, hj, rfl⟩ := List.mem_iff_getElem.1 h
  exact ⟨j, List.mem_zipIdx_iff_getElem?.2 (by simp [hj])⟩

/-- Ready files with the same path have the same number. -/
theorem number_unique {ready : List ReadyFile} {file other : ReadyFile} {i j : Nat}
    (hnodup : (ready.map (·.path)).Nodup) (hi : (other, i) ∈ ready.zipIdx)
    (hj : (file, j) ∈ ready.zipIdx) (hpath : other.path = file.path) : i = j := by
  rw [List.mem_zipIdx_iff_getElem?] at hi hj
  have hi' : (ready.map (·.path))[i]? = some other.path := by
    rw [List.getElem?_map, hi]
    rfl
  have hj' : (ready.map (·.path))[j]? = some other.path := by
    rw [List.getElem?_map, hj, hpath]
    rfl
  have hlt := (List.getElem?_eq_some_iff.1 hi').1
  exact (List.getElem?_inj hlt hnodup).1 (hi'.trans hj'.symm)

/-- A file that carries the points of a text that it has or had. -/
structure Prepared (e : Premises) (file : ReadyFile) (text : String) : Prop where
  version : e.Version file.path text
  hash : file.hash = contentHash text
  points : ∃ vectors : List Vector32, vectors.length = (e.blocks file.path text).length ∧
    file.points = e.points file.path text vectors

/-- A file that carries known points, all of them its own. -/
structure Filed (e : Premises) (file : ReadyFile) : Prop where
  paths : e.paths file.path
  points : ∀ q ∈ file.points, e.Known q ∧ q.payload.filePath = e.name file.path

theorem ReadyFor.prepared {file : ReadyFile} (h : e.ReadyFor L file) (ho : e.Orderly L) :
    ∃ text, L.files file.path = some text ∧ e.Prepared file text := by
  obtain ⟨text, vectors, hfile, hhash, hlen, hpoints⟩ := h.embedded
  exact ⟨text, hfile, ⟨h.paths, ho.texts h.paths hfile⟩, hhash, vectors, hlen, hpoints⟩

/-- Points of ready files are stored under the names of their files. -/
theorem Prepared.filed {file : ReadyFile} {text : String} (h : e.Prepared file text) :
    e.Filed file := by
  obtain ⟨vectors, -, hpoints⟩ := h.points
  refine ⟨h.version.1, fun q hq => ?_⟩
  rw [hpoints, Premises.points] at hq
  obtain ⟨block, hb, vector, rfl⟩ := exists_of_mem_zipWith hq
  exact ⟨.ofBlock h.version hb vector, filePath_ofBlock hb vector⟩

theorem ReadyFor.filed {file : ReadyFile} (h : e.ReadyFor L file) (ho : e.Orderly L) :
    e.Filed file :=
  let ⟨_, _, hprepared⟩ := h.prepared ho
  hprepared.filed

theorem mem_tagged {ready : List ReadyFile} {p : Nat × Point} :
    p ∈ Change.tagged ready ↔ ∃ file, (file, p.1) ∈ ready.zipIdx ∧ p.2 ∈ file.points := by
  simp only [Change.tagged, List.mem_flatMap, List.mem_map, Prod.exists]
  constructor
  · rintro ⟨file, i, hmem, q, hq, rfl⟩
    exact ⟨file, hmem, hq⟩
  · rintro ⟨file, hmem, hq⟩
    exact ⟨file, p.1, hmem, p.2, hq, rfl⟩

/-- Without their numbers, tagged points are the points of the ready files in order. -/
theorem map_snd_tagged (ready : List ReadyFile) :
    (Change.tagged ready).map (·.2) = ready.flatMap (·.points) := by
  have go : ∀ i, ((ready.zipIdx i).flatMap fun entry =>
      entry.1.points.map fun point => (entry.2, point)).map (·.2) = ready.flatMap (·.points) := by
    induction ready with
    | nil => exact fun _ => rfl
    | cons file ready ih =>
      intro i
      rw [List.zipIdx_cons, List.flatMap_cons, List.map_append, ih, List.flatMap_cons, List.map_map]
      congr 1
      exact List.map_id _
  exact go 0

/-- Among the points of all ready files those under a file's name are that file's own. -/
theorem pointsOf_flatMap_ready (distinct : e.Distinct) {ready : List ReadyFile} {file : ReadyFile}
    (hready : ∀ file ∈ ready, e.Filed file) (hnodup : (ready.map (·.path)).Nodup)
    (hfile : file ∈ ready) :
    MemoryStore.pointsOf (e.name file.path) (ready.flatMap (·.points)) = file.points := by
  induction ready with
  | nil => cases hfile
  | cons first ready ih =>
    obtain ⟨hnot, hnodup⟩ := List.nodup_cons.1 hnodup
    have hfirst := hready first List.mem_cons_self
    have hrest : ∀ other ∈ ready, e.Filed other :=
      fun other h => hready other (List.mem_cons_of_mem first h)
    rw [List.flatMap_cons, MemoryStore.pointsOf_append]
    rcases List.mem_cons.1 hfile with rfl | hin
    · have hown : MemoryStore.pointsOf (e.name file.path) file.points = file.points :=
        List.filter_eq_self.2 fun q hq => beq_iff_eq.2 (hfirst.points q hq).2
      rw [hown, MemoryStore.pointsOf_eq_nil, List.append_nil]
      intro q hq heq
      obtain ⟨other, hother, hq⟩ := List.mem_flatMap.1 hq
      rw [((hrest other hother).points q hq).2] at heq
      have hsame := distinct.names (hrest other hother).paths hfirst.paths heq
      exact hnot (List.mem_map.2 ⟨other, hother, hsame⟩)
    · rw [ih hrest hnodup hin, MemoryStore.pointsOf_eq_nil, List.nil_append]
      intro q hq heq
      rw [(hfirst.points q hq).2] at heq
      have hsame := distinct.names hfirst.paths (hready file hfile).paths heq
      exact hnot (List.mem_map.2 ⟨file, hin, hsame.symm⟩)

/-- A tagged point of ready files bears the number of its file and is stored under its name. -/
theorem known_of_mem_tagged {ready : List ReadyFile} (hready : ∀ file ∈ ready, e.Filed file)
    {p : Nat × Point} (hp : p ∈ Change.tagged ready) :
    e.Known p.2 ∧ ∃ file, (file, p.1) ∈ ready.zipIdx ∧ p.2.payload.filePath = e.name file.path := by
  obtain ⟨file, hmem, hq⟩ := mem_tagged.1 hp
  obtain ⟨hk, hname⟩ := (hready file (List.fst_mem_of_mem_zipIdx hmem)).points p.2 hq
  exact ⟨hk, file, hmem, hname⟩

/-- A tagged point that is stored under the name of a ready file bears the number of that file. -/
theorem number_of_mem_tagged (distinct : e.Distinct) {ready : List ReadyFile} {file : ReadyFile}
    {j : Nat} (hready : ∀ file ∈ ready, e.Filed file) (hnodup : (ready.map (·.path)).Nodup)
    (hmem : (file, j) ∈ ready.zipIdx) {p : Nat × Point} (hp : p ∈ Change.tagged ready)
    (hname : p.2.payload.filePath = e.name file.path) : p.1 = j := by
  obtain ⟨-, other, hother, hname'⟩ := known_of_mem_tagged hready hp
  refine number_unique hnodup hother hmem ?_
  exact distinct.names (hready other (List.fst_mem_of_mem_zipIdx hother)).paths
    (hready file (List.fst_mem_of_mem_zipIdx hmem)).paths (hname'.symm.trans hname)

/-- A ready file whose old points are gone is backed once all of its points are stored. -/
theorem Landed.backed (distinct : e.Distinct) {ready : List ReadyFile} {file : ReadyFile}
    {failures failures' : Change.UpsertFailures} {j : Nat} (ho : e.Orderly L)
    (hready : ∀ file ∈ ready, e.ReadyFor L file) (hnodup : (ready.map (·.path)).Nodup)
    (h : e.Landed (Change.tagged ready) failures failures' L L') (hmem : (file, j) ∈ ready.zipIdx)
    (hgone : L.pointsOf (e.name file.path) = [])
    (hclean : ∀ message, (j, message) ∉ failures'.files) : e.Backed L' file.path file.hash := by
  have hfile := List.fst_mem_of_mem_zipIdx hmem
  have hlanded := (h.points (e.name file.path)).resolve_left ?_
  · obtain ⟨text, vectors, htext, hhash, hlen, hpoints⟩ := (hready file hfile).embedded
    rw [hhash]
    refine Backed.of_mem h.orderly (ho.texts (hready file hfile).paths htext) hlen fun q => ?_
    rw [hlanded, map_snd_tagged, hgone, ← hpoints,
      pointsOf_flatMap_ready distinct (fun other h => (hready other h).filed ho) hnodup hfile]
  · rintro ⟨p, hp, hname, message, hfailed⟩
    have hnumber : p.1 = j :=
      number_of_mem_tagged distinct (fun other h => (hready other h).filed ho) hnodup hmem hp hname
    exact hclean message (hnumber ▸ hfailed)

/-- Storing the points of ready files leaves those of other files as they were. -/
theorem Landed.mem_pointsOf_of_not_mem (distinct : e.Distinct) {ready : List ReadyFile}
    {failures failures' : Change.UpsertFailures} (ho : e.Orderly L)
    (hready : ∀ file ∈ ready, e.ReadyFor L file)
    (h : e.Landed (Change.tagged ready) failures failures' L L') (hpath : e.paths path)
    (hnot : path ∉ ready.map (·.path)) (q : Point) :
    q ∈ L'.pointsOf (e.name path) ↔ q ∈ L.pointsOf (e.name path) := by
  have hother : ∀ p ∈ Change.tagged ready, p.2.payload.filePath ≠ e.name path := by
    intro p hp heq
    obtain ⟨-, other, hother, hname⟩ :=
      known_of_mem_tagged (fun file h => (hready file h).filed ho) hp
    have hmem := List.fst_mem_of_mem_zipIdx hother
    have hsame := distinct.names (hready other hmem).paths hpath (hname.symm.trans heq)
    exact hnot (List.mem_map.2 ⟨other, hmem, hsame⟩)
  rcases h.points (e.name path) with ⟨p, hp, hname, -⟩ | hlanded
  · exact absurd hname (hother p hp)
  · rw [hlanded, MemoryStore.pointsOf_eq_nil]
    · rfl
    · intro r hr
      obtain ⟨p, hp, rfl⟩ := List.mem_map.1 hr
      exact hother p hp

/-- Storing the points of ready files whose old points are gone makes the cache agree with the store on
these files, and leaves the others as they were. -/
theorem ensures_upsertReady (distinct : e.Distinct) {ready : List ReadyFile} (ho : e.Orderly L)
    (hready : ∀ file ∈ ready, e.ReadyFor L file) (hnodup : (ready.map (·.path)).Nodup)
    (hgone : ∀ file ∈ ready, L.pointsOf (e.name file.path) = [])
    (hbacked : ∀ {path hash}, path ∉ ready.map (·.path) → L.hashes.get? path = some hash →
      e.Backed L path hash) :
    (Change.upsertReady s ready).Ensures e.rules L fun _ L' =>
      e.Orderly L' ∧ L'.files = L.files ∧ e.Agrees L' := by
  unfold Change.upsertReady
  refine (ensures_upsertSegments distinct (fun p hp =>
    (known_of_mem_tagged (fun file h => (hready file h).filed ho) ?_).1) ho _).bind
      fun failures L₁ h₁ => ?_
  · rwa [flatten_segmentsOf] at hp
  rw [flatten_segmentsOf] at h₁
  refine (ensures_settleReady (fun file h => (hready file h).paths) hnodup h₁.orderly).bind
    fun results L₂ h₂ => Program.ensures_pure.2 ?_
  have hpoints : ∀ file q, q ∈ L₂.pointsOf file ↔ q ∈ L₁.pointsOf file := by
    intro file q
    rw [Scene.pointsOf, h₂.points]
    rfl
  refine ⟨h₂.orderly, h₂.files.trans h₁.files, fun path hash hget => ?_⟩
  by_cases hin : path ∈ ready.map (·.path)
  · obtain ⟨file, hfile, rfl⟩ := List.mem_map.1 hin
    obtain ⟨j, hmem⟩ := exists_mem_zipIdx hfile
    rcases h₂.each hmem with hnone | ⟨hsome, hclean⟩
    · rw [hnone] at hget
      cases hget
    · rw [hsome, Option.some_inj] at hget
      subst hget
      exact (h₁.backed distinct ho hready hnodup hmem (hgone file hfile) hclean).congr h₁.orderly
        h₂.orderly (hpoints _)
  · rw [h₂.others hin, h₁.hashes] at hget
    refine (hbacked hin hget).congr ho h₂.orderly fun q => (hpoints _ q).trans ?_
    exact h₁.mem_pointsOf_of_not_mem distinct ho hready (ho.cached hget) hin q

/-! ## A whole batch -/

theorem mem_sort_paths {path : String} {paths : List String} :
    path ∈ Path.sort paths ↔ path ∈ paths :=
  List.mem_mergeSort

/-- When the points of deleted and of ready files are gone and the deleted ones have left the cache, what
was backed is backed still, the ready files apart. -/
theorem backed_of_deleted (distinct : e.Distinct) (ho : e.Orderly L) (hagrees : e.Agrees L)
    {deleted ready : List String} (hpaths : ∀ path ∈ deleted ++ ready, e.paths path) {hash : String}
    (hnot : path ∉ ready)
    (hget : ((L.deletePoints ((deleted ++ ready).map e.name)).forget deleted).hashes.get? path =
      some hash) :
    e.Backed ((L.deletePoints ((deleted ++ ready).map e.name)).forget deleted) path hash := by
  rw [Scene.get?_forget] at hget
  split at hget
  · cases hget
  rename_i hkept
  refine (hagrees path hash hget).congr ho ho.deletePoints.forget fun q => ?_
  show q ∈ (L.deletePoints _).pointsOf _ ↔ _
  rw [Scene.pointsOf_deletePoints, if_neg]
  intro hmem
  obtain ⟨other, hother, heq⟩ := List.mem_map.1 hmem
  have hsame := distinct.names (hpaths other hother) (ho.cached hget) heq
  exact (List.mem_append.1 (hsame ▸ hother)).elim hkept hnot

/-- Whatever fails while a batch of changes is worked through, a cache and a store that agreed before it
agree after it. -/
theorem ensures_processChanges (distinct : e.Distinct) (serves : e.Serves s) {changes : Changes}
    (hpaths : ∀ c ∈ changes, e.paths c.1) (hnodup : (changes.map (·.1)).Nodup)
    (ho : e.Orderly L) (hagrees : e.Agrees L) :
    (processChanges s changes).Ensures e.rules L fun _ L' =>
      e.Orderly L' ∧ L'.files = L.files ∧ e.Agrees L' := by
  unfold processChanges
  refine ensures_idle_bind (fun _ _ hx => hx) fun _ => ?_
  generalize hpresent : Path.sort ((changes.filter (·.2 ≠ .deleted)).map (·.1)) = present
  generalize hdeleted : Path.sort ((changes.filter (·.2 = .deleted)).map (·.1)) = deleted
  have hpresentPaths : ∀ path ∈ present, e.paths path := by
    intro path h
    rw [← hpresent, mem_sort_paths] at h
    obtain ⟨c, hc, rfl⟩ := List.mem_map.1 h
    exact hpaths c (List.mem_of_mem_filter hc)
  have hpresentNodup : present.Nodup := by
    rw [← hpresent, Path.sort, (List.mergeSort_perm _ _).nodup_iff]
    exact hnodup.sublist (List.Sublist.map _ List.filter_sublist)
  refine Program.Ensures.bind (ensures_processGroups serves ?_) fun tally L₁ ⟨h₁, htally⟩ => ?_
  · rwa [flatten_segmentsOf]
  subst h₁
  rw [flatten_segmentsOf] at htally
  obtain ⟨ready, hready, hfiles, hsub⟩ := htally
  rw [List.nil_append] at hready
  have hreadyNodup : (ready.map (·.path)).Nodup := hpresentNodup.sublist hsub
  rw [hready]
  have finish : ∀ {results : List ChangeResult} {error : Option String} {L'},
      e.Orderly L' ∧ L'.files = L₁.files ∧ e.Agrees L' → Program.Ensures e.rules (do
        Change.tellProgress changes.length changes.length none
        ask (.tellBatch (.finish results error))
        pure results) L' fun _ L' => e.Orderly L' ∧ L'.files = L₁.files ∧ e.Agrees L' := by
    intro results error L' h'
    refine ensures_idle_bind (fun _ _ hx => hx) fun _ => ?_
    exact ensures_idle_bind (fun _ _ hx => hx) fun _ => Program.ensures_pure.2 h'
  refine (ensures_deleteOld serves).bind fun error L₂ h₂ => ?_
  rcases h₂ with ⟨rfl, rfl⟩ | ⟨⟨message, rfl⟩, rfl⟩
  · refine ensures_settleDeleted.bind fun tally' L₃ ⟨htally', h₃⟩ => ?_
    have h₃ : L₃ = (L₁.deletePoints ((deleted ++ ready.map (·.path)).map e.name)).forget deleted :=
      h₃
    rw [h₃, htally', hready]
    have hallPaths : ∀ path ∈ deleted ++ ready.map (·.path), e.paths path := by
      intro path h
      rcases List.mem_append.1 h with h | h
      · rw [← hdeleted, mem_sort_paths] at h
        obtain ⟨c, hc, rfl⟩ := List.mem_map.1 h
        exact hpaths c (List.mem_of_mem_filter hc)
      · obtain ⟨file, hfile, rfl⟩ := List.mem_map.1 h
        exact (hfiles file hfile).paths
    refine (ensures_upsertReady distinct ho.deletePoints.forget
      (fun file h => ⟨(hfiles file h).paths, (hfiles file h).embedded⟩) hreadyNodup
      (fun file h => ?_) (backed_of_deleted distinct ho hagrees hallPaths)).bind fun x L₄ h₄ => ?_
    · show (L₁.deletePoints _).pointsOf _ = []
      rw [Scene.pointsOf_deletePoints, if_pos]
      exact List.mem_map_of_mem (List.mem_append_right _ (List.mem_map_of_mem h))
    · exact Program.ensures_bind.2 (Program.ensures_pure.2 (finish h₄))
  · refine ensures_settleDeleted.bind fun tally' L₃ ⟨_, h₃⟩ => ?_
    have h₃ : L₃ = L₁.refuse ((deleted ++ ready.map (·.path)).map e.name) := h₃
    rw [h₃]
    refine Program.ensures_bind.2 (Program.ensures_pure.2 (finish ⟨ho.refuse, rfl, ?_⟩))
    exact fun path hash hget => (hagrees path hash hget).congr ho ho.refuse fun _ => Iff.rfl

end SourceIndex.Premises
