import SourceIndex.Proofs.Index.Changes
import SourceIndex.Proofs.Index.Fates
/-!
# What a batch of changes does to store and cache

Once its files were read and embedded, a batch of changes deletes the old points of all files it deals
with, upserts the new ones segment by segment, and enters the hashes (`Change.storing`).
`Premises.Storing` is its log, `ensures_storing_log` that it has such a log whatever fails.

A file whose hash is entered has all of its points in the log. Since they are put in order, a cut through the
log parts them: those behind the cut are the last of them (`Brings`), so that who wipes the store in
between takes away the first ones.
-/

namespace SourceIndex

/-- What a batch of changes does once its files were read and embedded. -/
def Change.storing (s : Services) (total : Nat) (deleted : List String) (tally : Change.Tally) :
    Procedure (List ChangeResult) := do
  let deleteError ← Change.deleteStale s (deleted ++ tally.ready.map (·.path))
  let tally ← Change.settleDeleted total deleteError.isSome tally deleted
  let (results, error) ← match deleteError with
    | some e =>
      let failed := tally.ready.map fun file =>
        ChangeResult.mk file.path (.failed "failed to delete old points")
      pure (tally.results ++ failed, some e)
    | none => do
      let (stored, error) ← Change.upsertReady s tally.ready
      pure (tally.results ++ stored, error)
  Change.tellProgress total total none
  ask (.tellBatch (.finish results error))
  return results

/-- A batch of changes reads and embeds its files and then stores them. -/
theorem processChanges_eq (s : Services) (changes : Changes) :
    processChanges s changes = (do
      ask (.tellBatch (.start (Path.sort (changes.map (·.1)))))
      let present := Path.sort ((changes.filter (·.2 ≠ .deleted)).map (·.1))
      let tally ← Change.processGroups s changes.length {}
        (segmentsOf (max s.tuning.watcherConcurrency 1) present)
      Change.storing s changes.length (Path.sort ((changes.filter (·.2 = .deleted)).map (·.1))) tally) :=
  rfl

/-! ## Points in order -/

/-- A log puts the points of a file in order: wherever it is cut, the points behind the cut leave what the
last of the file's points leave, and unless these are all of them, some were put in front of it. -/
def Brings (file : String) (points : List Point) (log : List Effect) : Prop :=
  ∀ front rest, log = front ++ rest → ∃ early late, points = early ++ late ∧
    (∀ base q, q ∈ (putsOf file rest).foldl MemoryStore.put base ↔
      q ∈ late.foldl MemoryStore.put base) ∧ (early = [] ∨ putsOf file front ≠ [])

section
variable {file : String} {points segment : List Point} {log idle : List Effect}
  {strays : List (List Point)}

theorem Brings.nil : Brings file [] [] := by
  intro front rest h
  obtain ⟨rfl, rfl⟩ := List.append_eq_nil_iff.1 h.symm
  exact ⟨[], [], rfl, fun _ _ => Iff.rfl, Or.inl rfl⟩

/-- Behind a log all of its points are those of the file. -/
theorem Brings.all (h : Brings file points log) (base : List Point) (q : Point) :
    q ∈ (putsOf file log).foldl MemoryStore.put base ↔ q ∈ points.foldl MemoryStore.put base := by
  obtain ⟨early, late, rfl, hlate, hearly⟩ := h [] log rfl
  rw [hlate, hearly.resolve_right fun hne => hne rfl, List.nil_append]

/-- What puts nothing for the file may stand in front. -/
theorem Brings.append_idle (h : Brings file points log) (hidle : putsOf file idle = []) :
    Brings file points (idle ++ log) := by
  intro front rest heq
  rcases List.append_eq_append_iff.1 heq with ⟨between, rfl, rfl⟩ | ⟨between, rfl, rfl⟩
  · obtain ⟨early, late, hpoints, hlate, hearly⟩ := h between rest rfl
    refine ⟨early, late, hpoints, hlate, ?_⟩
    rwa [putsOf_append, hidle, List.nil_append]
  · rw [putsOf_append] at hidle
    refine ⟨[], points, rfl, fun base q => ?_, Or.inl rfl⟩
    rw [putsOf_append, (List.append_eq_nil_iff.1 hidle).2, List.nil_append]
    exact h.all base q

/-- What puts nothing for the file may stand behind. -/
theorem Brings.idle_append (h : Brings file points log) (hidle : putsOf file idle = []) :
    Brings file points (log ++ idle) := by
  intro front rest heq
  rcases List.append_eq_append_iff.1 heq with ⟨between, rfl, rfl⟩ | ⟨between, rfl, rfl⟩
  · rw [putsOf_append] at hidle
    refine ⟨points, [], (List.append_nil _).symm, fun base q => ?_, ?_⟩
    · rw [(List.append_eq_nil_iff.1 hidle).2]
    · rw [putsOf_append, (List.append_eq_nil_iff.1 hidle).1, List.append_nil]
      by_cases hnone : putsOf file log = []
      · obtain ⟨early, late, rfl, hlate, hearly⟩ := h log [] (List.append_nil _).symm
        have hlate : late = [] := by
          rw [List.eq_nil_iff_forall_not_mem]
          intro q hq
          obtain ⟨p, hp, -⟩ := MemoryStore.exists_id_foldl_put.2 (Or.inr ⟨q, hq, rfl⟩)
          exact absurd ((hlate [] p).2 hp) List.not_mem_nil
        rw [hlate, List.append_nil]
        exact hearly
      · exact Or.inr hnone
  · obtain ⟨early, late, hpoints, hlate, hearly⟩ := h front between rfl
    refine ⟨early, late, hpoints, fun base q => ?_, hearly⟩
    rw [putsOf_append, hidle, List.append_nil]
    exact hlate base q

theorem putsOf_strays : putsOf file (strays.map .strayed) =
    strays.flatMap fun part => MemoryStore.pointsOf file part :=
  List.flatMap_map ..

/-- A segment that is stored in the end brings its points before those of the segments behind. -/
theorem Brings.land (h : Brings file points log) (within : ∀ part ∈ strays, part ⊆ segment) :
    Brings file (MemoryStore.pointsOf file segment ++ points)
      (strays.map .strayed ++ .stored segment :: log) := by
  intro front rest heq
  rcases List.append_eq_append_iff.1 heq with ⟨between, rfl, hrest⟩ | ⟨between, hstrays, rfl⟩
  · rcases List.cons_eq_append_iff.1 hrest with ⟨rfl, rfl⟩ | ⟨between', rfl, rfl⟩
    · refine ⟨[], _, (List.nil_append _).symm, fun base q => ?_, Or.inl rfl⟩
      rw [putsOf_cons, List.foldl_append, List.foldl_append]
      exact h.all _ q
    · obtain ⟨early, late, rfl, hlate, hearly⟩ := h between' rest rfl
      refine ⟨MemoryStore.pointsOf file segment ++ early, late, (List.append_assoc ..).symm, hlate, ?_⟩
      rw [putsOf_append, putsOf_cons]
      by_cases hown : MemoryStore.pointsOf file segment = []
      · refine hearly.imp (fun hnone => ?_) fun hsome hnone => hsome ?_
        · rw [hown, hnone, List.nil_append]
        · exact (List.append_eq_nil_iff.1 (List.append_eq_nil_iff.1 hnone).2).2
      · refine Or.inr fun hnone => hown ?_
        exact (List.append_eq_nil_iff.1 (List.append_eq_nil_iff.1 hnone).2).1
  · refine ⟨[], _, (List.nil_append _).symm, fun base q => ?_, Or.inl rfl⟩
    -- the strays behind the cut are put again with the whole segment
    have hcovered : ∀ r ∈ putsOf file between, ∃ p ∈ MemoryStore.pointsOf file segment, p.id = r.id := by
      intro r hr
      have hin : r ∈ putsOf file (strays.map .strayed) := by
        rw [hstrays, putsOf_append]
        exact List.mem_append_right _ hr
      rw [putsOf_strays, List.mem_flatMap] at hin
      obtain ⟨part, hpart, hr⟩ := hin
      obtain ⟨hmem, hfile⟩ := MemoryStore.mem_pointsOf.1 hr
      exact ⟨r, MemoryStore.mem_pointsOf.2 ⟨within part hpart hmem, hfile⟩, rfl⟩
    rw [putsOf_append, putsOf_cons, List.foldl_append, List.foldl_append, List.foldl_append]
    refine (h.all _ q).trans (MemoryStore.mem_foldl_put_congr fun r => ?_)
    exact MemoryStore.mem_foldl_put_foldl_put hcovered

end

namespace Premises

variable {e : Premises} {s : Services} {log : List Effect} {file : String} {path : String}
  {failures failures' : Change.UpsertFailures} {segment : List (Nat × Point)}
  {segments : List (List (Nat × Point))} {ready : List ReadyFile} {deleted : List String}

/-! ## Logs of segments -/

/-- The log of tagged segments: each of them is stored by a call, perhaps behind others that failed, or it
is entered as failed. -/
inductive Upserted (e : Premises) : Change.UpsertFailures → List (List (Nat × Point)) →
    Change.UpsertFailures → List Effect → Prop where
  | nil (failures : Change.UpsertFailures) : Upserted e failures [] failures []
  | landed {failures failures' : Change.UpsertFailures} {segment : List (Nat × Point)}
      {segments : List (List (Nat × Point))} {strays : List (List Point)} {log : List Effect}
      (reliable : (∀ a, ¬e.fails a) → strays = [])
      (within : ∀ part ∈ strays, part ⊆ segment.map (·.2))
      (rest : Upserted e failures segments failures' log) :
      Upserted e failures (segment :: segments) failures'
        (strays.map .strayed ++ .stored (segment.map (·.2)) :: log)
  | lost {failures failures' : Change.UpsertFailures} {segment : List (Nat × Point)}
      {segments : List (List (Nat × Point))} {strays : List (List Point)} {log : List Effect}
      {message : String} (fails : ∃ a, e.fails a)
      (within : ∀ part ∈ strays, part ⊆ segment.map (·.2))
      (rest : Upserted e (failures.add (segment.map (·.1)) message) segments failures' log) :
      Upserted e failures (segment :: segments) failures' (strays.map .strayed ++ log)

/-- What was entered as failed stays so. -/
theorem Upserted.subset (h : e.Upserted failures segments failures' log) :
    failures.files ⊆ failures'.files := by
  induction h with
  | nil failures => exact List.Subset.refl _
  | landed reliable within rest ih => exact ih
  | lost fails within rest ih => exact List.Subset.trans (List.subset_append_right _ _) ih

/-- A file none of whose segments failed has all of its points in the log. -/
theorem Upserted.brings (h : e.Upserted failures segments failures' log) {number : Nat}
    (numbered : ∀ p ∈ segments.flatten, p.2.payload.filePath = file → p.1 = number)
    (clean : ∀ message, (number, message) ∉ failures'.files) :
    Brings file (MemoryStore.pointsOf file (segments.flatten.map (·.2))) log := by
  induction h with
  | nil failures => exact .nil
  | @landed failures failures' segment segments strays log reliable within rest ih =>
    rw [List.flatten_cons] at numbered ⊢
    rw [List.map_append, MemoryStore.pointsOf_append]
    exact (ih (fun p hp => numbered p (List.mem_append_right _ hp)) clean).land within
  | @lost failures failures' segment segments strays log message fails within rest ih =>
    rw [List.flatten_cons] at numbered ⊢
    -- the segment has no point of the file, or the file would count as failed
    have hother : ∀ q ∈ segment.map (·.2), q.payload.filePath ≠ file := by
      intro q hq heq
      obtain ⟨p, hp, rfl⟩ := List.mem_map.1 hq
      have hnumber := numbered p (List.mem_append_left _ hp) heq
      refine clean message (rest.subset (List.mem_append_left _ ?_))
      exact List.mem_map.2 ⟨p.1, List.mem_map_of_mem hp, by rw [hnumber]⟩
    have hstrays : putsOf file (strays.map .strayed) = [] := by
      rw [putsOf_strays, List.flatMap_eq_nil_iff]
      exact fun part hpart =>
        MemoryStore.pointsOf_eq_nil fun q hq => hother q (within part hpart hq)
    rw [List.map_append, MemoryStore.pointsOf_append, MemoryStore.pointsOf_eq_nil hother,
      List.nil_append]
    exact (ih (fun p hp => numbered p (List.mem_append_right _ hp)) clean).append_idle hstrays

/-- Where no call fails, the log of segments puts all points one after the other. -/
theorem Upserted.exact (h : e.Upserted failures segments failures' log)
    (reliable : ∀ a, ¬e.fails a) (file : String) : failures' = failures ∧
      putsOf file log = MemoryStore.pointsOf file (segments.flatten.map (·.2)) := by
  induction h with
  | nil failures => exact ⟨rfl, rfl⟩
  | @landed failures failures' segment segments strays log none within rest ih =>
    obtain ⟨hfailures, hputs⟩ := ih
    refine ⟨hfailures, ?_⟩
    rw [none reliable, List.map_nil, List.nil_append, putsOf_cons, hputs, List.flatten_cons,
      List.map_append, MemoryStore.pointsOf_append]
    rfl
  | lost fails within rest ih =>
    obtain ⟨a, ha⟩ := fails
    exact absurd ha (reliable a)

/-- Segments do nothing but put points, by calls that succeed or fail. -/
theorem Upserted.forall_mem (h : e.Upserted failures segments failures' log) {p : Effect → Prop}
    (stored : ∀ points, p (.stored points)) (strayed : ∀ points, p (.strayed points)) :
    ∀ effect ∈ log, p effect := by
  induction h with
  | nil failures => exact List.forall_mem_nil _
  | landed reliable within rest ih =>
    exact List.forall_mem_append.2 ⟨List.forall_mem_map.2 fun part _ => strayed part,
      List.forall_mem_cons.2 ⟨stored _, ih⟩⟩
  | lost fails within rest ih =>
    exact List.forall_mem_append.2 ⟨List.forall_mem_map.2 fun part _ => strayed part, ih⟩

/-! ## The log of a batch -/

/-- What settling a ready file does: its hash is entered if none of its segments failed. -/
def settlement (failures : List (Nat × String)) (entry : ReadyFile × Nat) : Effect :=
  match failures.find? (·.1 == entry.2) with
  | some _ => .forgot [entry.1.path]
  | none => .recorded entry.1.path entry.1.hash

/-- What a batch does behind the deletion of the old points. -/
def filling (failures : Change.UpsertFailures) (deleted : List String) (ready : List ReadyFile)
    (upserts : List Effect) : List Effect :=
  deleted.map (fun path => .forgot [path]) ++
    (upserts ++ ready.zipIdx.map (settlement failures.files))

/-- The log of a batch of changes, its files being read: the old points of all files are deleted, the
deleted ones leave the cache, the others get their points and hashes; or the deletion is refused. -/
inductive Storing (e : Premises) (deleted : List String) (ready : List ReadyFile) :
    List Effect → Prop where
  | idle (empty : deleted = [] ∧ ready = []) : Storing e deleted ready []
  | refused (fails : ∃ a, e.fails a) :
      Storing e deleted ready [.refused ((deleted ++ ready.map (·.path)).map e.name)]
  | filled {failures : Change.UpsertFailures} {size : Nat} {upserts : List Effect}
      (upserted : e.Upserted {} (segmentsOf size (Change.tagged ready)) failures upserts) :
      Storing e deleted ready
        (.deleted ((deleted ++ ready.map (·.path)).map e.name) ::
          filling failures deleted ready upserts)

theorem ensures_deleteOld_log (serves : e.Serves s) {paths : List String} :
    (Change.deleteStale s paths).Ensures e.logs log fun error log' =>
      error = none ∧ (paths = [] ∧ log' = log ∨ log' = log ++ [.deleted (paths.map e.name)]) ∨
      (∃ message, error = some message) ∧ (∃ a, e.fails a) ∧
        log' = log ++ [.refused (paths.map e.name)] := by
  have hname : Path.relativeTo s.root = e.name := by
    rw [serves.1]
    rfl
  unfold Change.deleteStale
  refine Program.ensures_ite (fun hempty => ?_) fun _ => ?_
  · exact Program.ensures_pure.2 (Or.inl ⟨rfl, Or.inl ⟨List.isEmpty_iff.1 hempty, rfl⟩⟩)
  · refine ensures_log_bind fun x effects hx => ?_
    rcases hx with ⟨rfl, rfl⟩ | ⟨hfails, ⟨failure, rfl⟩, rfl⟩
    · exact Program.ensures_pure.2 (Or.inl ⟨rfl, Or.inr (by rw [hname])⟩)
    · exact Program.ensures_pure.2 (Or.inr ⟨⟨_, rfl⟩, ⟨_, hfails⟩, by rw [hname]⟩)

theorem ensures_settleDeleted_log {total : Nat} {failed : Bool} {tally : Change.Tally}
    {paths : List String} :
    (Change.settleDeleted total failed tally paths).Ensures e.logs log fun tally' log' =>
      tally'.ready = tally.ready ∧
        log' = log ++ if failed then [] else paths.map fun path => .forgot [path] := by
  induction paths generalizing tally log with
  | nil =>
    refine Program.ensures_pure.2 ⟨rfl, ?_⟩
    split
    · exact (List.append_nil log).symm
    · exact (List.append_nil log).symm
  | cons path paths ih =>
    unfold Change.settleDeleted
    refine ensures_log_idle_bind (fun _ _ hx => hx) fun _ => ?_
    cases failed with
    | true => exact ih
    | false =>
      refine ensures_log_bind fun _ effects heffects => ?_
      have heffects : effects = [.forgot [path]] := heffects
      rw [heffects]
      refine ih.mono fun tally' log' h => ⟨h.1, ?_⟩
      rw [h.2, List.append_assoc]
      rfl

/-- Trying to store points again and again stores them in the end, or leaves only strays. -/
theorem ensures_upsert_retried_log {retry : RetryPolicy} {points : List Point} :
    (retry.run pause (ask (.upsert points)) : Procedure (Except ServiceError Unit)).Ensures e.logs log
      fun x log' => ∃ strays : List (List Point), ((∀ a, ¬e.fails a) → strays = []) ∧
        (∀ part ∈ strays, part ⊆ points) ∧
        (x = .ok () ∧ log' = log ++ (strays.map .strayed ++ [.stored points]) ∨
          (∃ failure, x = .error failure) ∧ (∃ a, e.fails a) ∧ log' = log ++ strays.map .strayed) := by
  let again (log₁ : List Effect) : Prop := ∃ strays : List (List Point),
    ((∀ a, ¬e.fails a) → strays = []) ∧ (∀ part ∈ strays, part ⊆ points) ∧
      log₁ = log ++ strays.map .strayed
  refine RetryPolicy.ensures_run again _ ?_ ?_ ⟨[], fun _ => rfl, nofun, (List.append_nil log).symm⟩
  · refine fun d log₁ => ensures_log_ask fun _ effects heffects => ?_
    have heffects : effects = [] := heffects
    rw [heffects, List.append_nil]
  · rintro log₁ ⟨strays, hreliable, hwithin, rfl⟩
    refine ensures_log_ask fun x effects hx => ?_
    rcases hx with ⟨rfl, rfl⟩ | ⟨hfails, hfailure, part, hpart, rfl⟩
    · exact ⟨⟨strays, hreliable, hwithin, Or.inl ⟨rfl, List.append_assoc ..⟩⟩, nofun⟩
    · have hboth : log ++ strays.map .strayed ++ [.strayed part] =
          log ++ (strays ++ [part]).map .strayed := by
        rw [List.map_append, List.append_assoc]
        rfl
      have hreliable' : (∀ a, ¬e.fails a) → strays ++ [part] = [] :=
        fun reliable => absurd hfails (reliable _)
      have hwithin' : ∀ part' ∈ strays ++ [part], part' ⊆ points := by
        rw [List.forall_mem_append, List.forall_mem_singleton]
        exact ⟨hwithin, hpart⟩
      exact ⟨⟨_, hreliable', hwithin', Or.inr ⟨hfailure, ⟨_, hfails⟩, hboth⟩⟩,
        fun _ _ => ⟨_, hreliable', hwithin', hboth⟩⟩

theorem ensures_upsertSegments_log {retry : RetryPolicy} :
    (Change.upsertSegments retry failures segments).Ensures e.logs log fun failures' log' =>
      ∃ new, e.Upserted failures segments failures' new ∧ log' = log ++ new := by
  induction segments generalizing failures log with
  | nil => exact Program.ensures_pure.2 ⟨[], .nil failures, (List.append_nil log).symm⟩
  | cons segment segments ih =>
    refine ensures_upsert_retried_log.bind fun x log₁ ⟨strays, hreliable, hwithin, hx⟩ => ?_
    rcases hx with ⟨rfl, rfl⟩ | ⟨⟨failure, rfl⟩, hfails, rfl⟩
    · refine ih.mono fun failures' log' ⟨new, hnew, hlog⟩ => ⟨_, .landed hreliable hwithin hnew, ?_⟩
      rw [hlog, List.append_assoc, List.append_assoc]
      rfl
    · refine ih.mono fun failures' log' ⟨new, hnew, hlog⟩ => ⟨_, .lost hfails hwithin hnew, ?_⟩
      rw [hlog, List.append_assoc]

theorem ensures_settleReady_log {failures : List (Nat × String)} {i : Nat} :
    (Change.settleReady failures i ready).Ensures e.logs log fun _ log' =>
      log' = log ++ (ready.zipIdx i).map (settlement failures) := by
  induction ready generalizing i log with
  | nil => exact Program.ensures_pure.2 (List.append_nil log).symm
  | cons file ready ih =>
    have step : ∀ {effect : Effect}, effect = settlement failures (file, i) →
        ∀ {result : ChangeResult}, Program.Ensures e.logs (do
            let more ← Change.settleReady failures (i + 1) ready
            pure (result :: more)) (log ++ [effect])
          fun _ log' => log' = log ++ ((file :: ready).zipIdx i).map (settlement failures) := by
      rintro effect rfl result
      refine ih.bind fun more log' h => Program.ensures_pure.2 ?_
      rw [h, List.append_assoc]
      rfl
    unfold Change.settleReady
    cases hfind : failures.find? (·.1 == i) with
    | some found =>
      refine ensures_log_bind fun _ effects heffects => ?_
      have heffects : effects = [.forgot [file.path]] := heffects
      rw [heffects]
      refine step ?_
      rw [settlement, hfind]
    | none =>
      refine ensures_log_bind fun _ effects heffects => ?_
      have heffects : effects = [.recorded file.path file.hash] := heffects
      rw [heffects]
      refine step ?_
      rw [settlement, hfind]

theorem ensures_upsertReady_log :
    (Change.upsertReady s ready).Ensures e.logs log fun _ log' =>
      ∃ failures size upserts,
        e.Upserted {} (segmentsOf size (Change.tagged ready)) failures upserts ∧
        log' = log ++ (upserts ++ ready.zipIdx.map (settlement failures.files)) := by
  unfold Change.upsertReady
  refine ensures_upsertSegments_log.bind fun failures log₁ ⟨upserts, hupserts, h₁⟩ => ?_
  refine ensures_settleReady_log.bind fun results log₂ h₂ => Program.ensures_pure.2 ?_
  refine ⟨failures, _, upserts, hupserts, ?_⟩
  rw [h₂, h₁, List.append_assoc]

/-- A batch of changes whose files were read has such a log, whatever fails. -/
theorem ensures_storing_log (serves : e.Serves s) {total : Nat} {tally : Change.Tally} :
    (Change.storing s total deleted tally).Ensures e.logs log fun _ log' =>
      ∃ new, e.Storing deleted tally.ready new ∧ log' = log ++ new := by
  have finish : ∀ {results : List ChangeResult} {error : Option String} {log' : List Effect},
      (∃ new, e.Storing deleted tally.ready new ∧ log' = log ++ new) → Program.Ensures e.logs (do
        Change.tellProgress total total none
        ask (.tellBatch (.finish results error))
        pure results) log' fun _ log' => ∃ new, e.Storing deleted tally.ready new ∧ log' = log ++ new := by
    intro results error log' h'
    refine ensures_log_idle_bind (fun _ _ hx => hx) fun _ => ?_
    exact ensures_log_idle_bind (fun _ _ hx => hx) fun _ => Program.ensures_pure.2 h'
  unfold Change.storing
  refine (ensures_deleteOld_log serves).bind fun error log₁ h₁ => ?_
  rcases h₁ with ⟨rfl, h₁⟩ | ⟨⟨message, rfl⟩, hfails, rfl⟩
  · refine ensures_settleDeleted_log.bind fun tally' log₂ h₂ => ?_
    obtain ⟨hready, h₂⟩ := h₂
    rw [hready]
    refine ensures_upsertReady_log.bind fun x log₃ h₃ => ?_
    obtain ⟨failures, size, upserts, hupserted, h₃⟩ := h₃
    refine Program.ensures_bind.2 (Program.ensures_pure.2 (finish ?_))
    rcases h₁ with ⟨hempty, rfl⟩ | rfl
    · obtain ⟨rfl, hnone⟩ := List.append_eq_nil_iff.1 hempty
      have hnone := List.map_eq_nil_iff.1 hnone
      have hsegments : segmentsOf size (Change.tagged tally.ready) = [] := by
        rw [hnone]
        show segmentsOf size [] = []
        rw [segmentsOf]
      rw [hsegments] at hupserted
      cases hupserted
      refine ⟨[], .idle ⟨rfl, hnone⟩, ?_⟩
      rw [h₃, h₂, hnone]
      simp
    · refine ⟨_, .filled hupserted, ?_⟩
      rw [h₃, h₂, filling, List.append_assoc, List.append_assoc]
      rfl
  · refine ensures_settleDeleted_log.bind fun tally' log₂ h₂ => ?_
    refine Program.ensures_bind.2 (Program.ensures_pure.2 (finish ⟨_, .refused hfails, ?_⟩))
    rw [h₂.2]
    exact List.append_nil _

/-! ## What it does to one file -/

section
variable {upserts : List Effect} {points : List Point}

theorem putsOf_forgotten : putsOf file (deleted.map fun path => .forgot [path]) = [] := by
  rw [putsOf, List.flatMap_eq_nil_iff]
  intro effect hmem
  obtain ⟨path, -, rfl⟩ := List.mem_map.1 hmem
  rfl

theorem putsOf_settlements {failures : List (Nat × String)} {entries : List (ReadyFile × Nat)} :
    putsOf file (entries.map (settlement failures)) = [] := by
  rw [putsOf, List.flatMap_eq_nil_iff]
  intro effect hmem
  obtain ⟨entry, -, rfl⟩ := List.mem_map.1 hmem
  unfold settlement
  split
  · rfl
  · rfl

theorem putsOf_filling : putsOf file (filling failures deleted ready upserts) = putsOf file upserts := by
  rw [filling, putsOf_append, putsOf_append, putsOf_forgotten, putsOf_settlements, List.nil_append,
    List.append_nil]

theorem brings_filling (h : Brings file points upserts) :
    Brings file points (filling failures deleted ready upserts) :=
  (h.idle_append putsOf_settlements).append_idle putsOf_forgotten

/-- Behind the deletion of the old points a batch wipes nothing. -/
theorem not_wipes_of_mem_filling {segments : List (List (Nat × Point))}
    (h : e.Upserted {} segments failures upserts) :
    ∀ effect ∈ filling failures deleted ready upserts, ¬effect.Wipes file := by
  unfold filling
  rw [List.forall_mem_append, List.forall_mem_append, List.forall_mem_map, List.forall_mem_map]
  refine ⟨fun _ _ => id, h.forall_mem (fun _ => id) fun _ => id, fun entry _ => ?_⟩
  unfold settlement
  split
  · exact id
  · exact id

/-- Segments put nothing but their points. -/
theorem Upserted.knows (h : e.Upserted failures segments failures' log)
    (hknown : ∀ p ∈ segments.flatten, e.Known p.2) : e.Knows log := by
  have hsegment : ∀ {segment : List (Nat × Point)} {segments : List (List (Nat × Point))},
      (∀ p ∈ (segment :: segments).flatten, e.Known p.2) → ∀ q ∈ segment.map (·.2), e.Known q := by
    intro segment segments hknown q hq
    obtain ⟨p, hp, rfl⟩ := List.mem_map.1 hq
    exact hknown p (List.mem_append_left _ hp)
  have hstrays : ∀ {segment : List (Nat × Point)} {strays : List (List Point)},
      (∀ part ∈ strays, part ⊆ segment.map (·.2)) → (∀ q ∈ segment.map (·.2), e.Known q) →
      e.Knows (strays.map .strayed) := by
    intro segment strays within hknown effect hmem q hq
    obtain ⟨part, hpart, rfl⟩ := List.mem_map.1 hmem
    exact hknown q (within part hpart hq)
  induction h with
  | nil failures => exact List.forall_mem_nil _
  | landed reliable within rest ih =>
    refine List.forall_mem_append.2 ⟨hstrays within (hsegment hknown), List.forall_mem_cons.2
      ⟨hsegment hknown, ih fun p hp => hknown p (List.mem_append_right _ hp)⟩⟩
  | lost fails within rest ih =>
    exact List.forall_mem_append.2 ⟨hstrays within (hsegment hknown),
      ih fun p hp => hknown p (List.mem_append_right _ hp)⟩

/-- A batch puts nothing but the points of its ready files. -/
theorem Storing.knows (h : e.Storing deleted ready log) (hready : ∀ file ∈ ready, e.Filed file) :
    e.Knows log := by
  cases h with
  | idle empty => exact List.forall_mem_nil _
  | refused fails => exact List.forall_mem_singleton.2 nofun
  | @filled failures size upserts upserted =>
    have hupserts : e.Knows upserts := upserted.knows fun p hp => by
      rw [flatten_segmentsOf] at hp
      exact (known_of_mem_tagged hready hp).1
    refine List.forall_mem_cons.2 ⟨nofun, List.forall_mem_append.2 ⟨?_,
      List.forall_mem_append.2 ⟨hupserts, ?_⟩⟩⟩
    · exact List.forall_mem_map.2 fun _ _ => nofun
    · refine List.forall_mem_map.2 fun entry _ => ?_
      unfold settlement
      split
      · exact nofun
      · exact nofun

/-- A hash that a batch enters is that of a ready file none of whose segments failed. -/
theorem exists_of_recorded_mem_filling {segments : List (List (Nat × Point))} {hash : String}
    (h : e.Upserted {} segments failures upserts)
    (hmem : .recorded path hash ∈ filling failures deleted ready upserts) :
    ∃ file j, (file, j) ∈ ready.zipIdx ∧ file.path = path ∧ file.hash = hash ∧
      ∀ message, (j, message) ∉ failures.files := by
  unfold filling at hmem
  rcases List.mem_append.1 hmem with hmem | hmem
  · obtain ⟨other, -, heq⟩ := List.mem_map.1 hmem
    cases heq
  rcases List.mem_append.1 hmem with hmem | hmem
  · exact absurd rfl (h.forall_mem (p := (· ≠ .recorded path hash)) (fun _ => nofun)
      (fun _ => nofun) _ hmem)
  · obtain ⟨⟨file, j⟩, hentry, heq⟩ := List.mem_map.1 hmem
    unfold settlement at heq
    split at heq
    · cases heq
    · rename_i hnone
      cases heq
      refine ⟨file, j, hentry, rfl, rfl, fun message hfailed => ?_⟩
      exact List.find?_eq_none.1 hnone _ hfailed (beq_self_eq_true j)

/-- A batch that enters the hash of a file first deletes its old points, then puts its new ones in order,
and wipes nothing any more. -/
theorem Storing.exists_brings (distinct : e.Distinct) (h : e.Storing deleted ready log)
    (hready : ∀ file ∈ ready, e.Filed file) (nodup : (ready.map (·.path)).Nodup) {hash : String}
    (hmem : .recorded path hash ∈ log) :
    ∃ file ∈ ready, file.path = path ∧ file.hash = hash ∧ ∃ names rest,
      log = .deleted names :: rest ∧ e.name path ∈ names ∧ Brings (e.name path) file.points rest ∧
        ∀ effect ∈ rest, ¬effect.Wipes (e.name path) := by
  cases h with
  | idle empty => cases hmem
  | refused fails => cases List.mem_singleton.1 hmem
  | @filled failures size upserts upserted =>
    have hmem := (List.mem_cons.1 hmem).resolve_left nofun
    obtain ⟨file, j, hentry, rfl, rfl, hclean⟩ := exists_of_recorded_mem_filling upserted hmem
    have hfile := List.fst_mem_of_mem_zipIdx hentry
    refine ⟨file, hfile, rfl, rfl, _, _, rfl, ?_, brings_filling ?_, not_wipes_of_mem_filling upserted⟩
    · exact List.mem_map_of_mem (List.mem_append_right _ (List.mem_map_of_mem hfile))
    · have hbrings : Brings (e.name file.path) _ upserts :=
        upserted.brings (fun p hp hname => ?_) hclean
      · rwa [flatten_segmentsOf, map_snd_tagged,
          pointsOf_flatMap_ready distinct hready nodup hfile] at hbrings
      · rw [flatten_segmentsOf] at hp
        exact number_of_mem_tagged distinct hready nodup hentry hp hname

/-- Where no call fails, a batch wipes a ready file and then lays down its points. -/
theorem Storing.lays (distinct : e.Distinct) (h : e.Storing deleted ready log)
    (reliable : ∀ a, ¬e.fails a) (hready : ∀ file ∈ ready, e.Filed file)
    (nodup : (ready.map (·.path)).Nodup) {file : ReadyFile} (hfile : file ∈ ready) :
    Lays (e.name file.path) file.points log ∧ (∃ effect ∈ log, effect.Wipes (e.name file.path)) ∧
      .recorded file.path file.hash ∈ log := by
  cases h with
  | idle empty =>
    rw [empty.2] at hfile
    cases hfile
  | refused fails =>
    obtain ⟨a, ha⟩ := fails
    exact absurd ha (reliable a)
  | @filled failures size upserts upserted =>
    obtain ⟨rfl, hputs⟩ := upserted.exact reliable (e.name file.path)
    refine ⟨⟨[_], filling _ deleted ready upserts, rfl, rfl, not_wipes_of_mem_filling upserted, ?_⟩,
      ⟨_, List.mem_cons_self, ?_⟩, ?_⟩
    · rw [putsOf_filling, hputs, flatten_segmentsOf, map_snd_tagged,
        pointsOf_flatMap_ready distinct hready nodup hfile]
    · exact List.mem_map_of_mem (List.mem_append_right _ (List.mem_map_of_mem hfile))
    · obtain ⟨j, hentry⟩ := exists_mem_zipIdx hfile
      refine List.mem_cons_of_mem _ (List.mem_append_right _ (List.mem_append_right _ ?_))
      exact List.mem_map.2 ⟨_, hentry, rfl⟩

/-- Where no call fails, a batch enters no hash of a ready file but that of the file. -/
theorem Storing.enters (h : e.Storing deleted ready log) (reliable : ∀ a, ¬e.fails a)
    (nodup : (ready.map (·.path)).Nodup) {file : ReadyFile} (hfile : file ∈ ready)
    (kept : file.path ∉ deleted) : ∀ effect ∈ log, Enters file.path file.hash effect := by
  cases h with
  | idle empty => exact List.forall_mem_nil _
  | refused fails => exact List.forall_mem_singleton.2 (Or.inl fun _ => rfl)
  | @filled failures size upserts upserted =>
    refine List.forall_mem_cons.2 ⟨Or.inl fun _ => rfl, List.forall_mem_append.2 ⟨?_,
      List.forall_mem_append.2 ⟨?_, ?_⟩⟩⟩
    · refine List.forall_mem_map.2 fun other hother => Or.inl fun _ => if_neg fun hin => ?_
      exact kept (List.mem_singleton.1 hin ▸ hother)
    · exact upserted.forall_mem (fun _ => Or.inl fun _ => rfl) fun _ => Or.inl fun _ => rfl
    · obtain ⟨rfl, -⟩ := upserted.exact reliable file.path
      refine List.forall_mem_map.2 fun ⟨other, j⟩ hentry => ?_
      by_cases heq : other.path = file.path
      · have hother := List.fst_mem_of_mem_zipIdx hentry
        have hsame : other = file := List.inj_on_of_nodup_map nodup hother hfile heq
        rw [hsame]
        exact Or.inr rfl
      · exact Or.inl fun _ => if_neg (Ne.symm heq)

end

end Premises

end SourceIndex
