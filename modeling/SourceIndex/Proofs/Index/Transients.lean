import SourceIndex.Proofs.Index.Displays
import SourceIndex.Proofs.Index.Provenance
import SourceIndex.Proofs.Program.Tracking
/-!
# Failures that leave no trace

A batch of a scan tries a segment again from the start, embedding included; a watcher embeds each file once
and only tries to store again. `flaky` are the rules of a service that fails no more than a number of times
between one upsert that succeeds and the next, also after part of the points were stored. As long as there are
more tries than that, a batch ends with the result and leaves the cache and the points that it would without
failures (`Batch.tracks_process`), and so does a watcher whose embeddings do not fail (`tracks_processChanges`).

The tries of a segment are counted for embedding and storing together. So failures of both kinds that each come
once can use them up (`seen_of_failing_once`).
-/

namespace SourceIndex

open Program (Guarded Tracks)

/-- Scenes with the same cache and the same points. -/
structure Scene.Alike (L L' : Scene) : Prop where
  hashes : L.hashes = L'.hashes
  points : ∀ q, q ∈ L.points ↔ q ∈ L'.points

namespace Scene.Alike

variable {L L' L'' : Scene} {points part : List Point}

theorem refl (L : Scene) : Alike L L :=
  ⟨rfl, fun _ => Iff.rfl⟩

theorem trans (h : Alike L L') (h' : Alike L' L'') : Alike L L'' :=
  ⟨h.hashes.trans h'.hashes, fun q => (h.points q).trans (h'.points q)⟩

theorem upsert (h : Alike L L') (points : List Point) : Alike (L.upsert points) (L'.upsert points) :=
  ⟨h.hashes, fun _ => MemoryStore.mem_foldl_put_congr h.points⟩

theorem deletePoints (h : Alike L L') (paths : List String) :
    Alike (L.deletePoints paths) (L'.deletePoints paths) where
  hashes := h.hashes
  points q := by
    rw [Scene.deletePoints, Scene.deletePoints, List.mem_filter, List.mem_filter, h.points]

theorem record (h : Alike L L') (path hash : String) : Alike (L.record path hash) (L'.record path hash) :=
  ⟨congrArg (·.put path hash) h.hashes, h.points⟩

theorem forget (h : Alike L L') (paths : List String) : Alike (L.forget paths) (L'.forget paths) :=
  ⟨congrArg (paths.foldl Hashes.erase) h.hashes, h.points⟩

/-- Storing some of the points first makes no difference. -/
theorem upsert_part (hsub : part ⊆ points) : Alike ((L.upsert part).upsert points) (L.upsert points) :=
  ⟨rfl, fun _ => MemoryStore.mem_foldl_put_foldl_put fun r hr => ⟨r, hsub hr, rfl⟩⟩

end Scene.Alike

namespace Transients

/-- An answer to every request. -/
abbrev Replies := (a : Action) → a.Answer

/-- Answer requests on a scene without failures of the store: `replies` are the answers that do not depend on
the scene. -/
def calm (replies : Replies) : Program.Handler indexing Scene
  | .upsert points, L => (.ok (), L.upsert points)
  | .deletePoints paths, L => (.ok (), L.deletePoints paths)
  | .hashes, L => (L.hashes, L)
  | .recordHash path hash, L => ((), L.record path hash)
  | .forgetHashes paths, L => ((), L.forget paths)
  | a, L => (replies a, L)

/-- An answer with a vector for every text. -/
def Whole (texts : List String) (x : (Action.embed texts).Answer) : Prop :=
  ∃ embeddings, x = .ok embeddings ∧ embeddings.vectors.length = texts.length

/-- The rules under which upserts may fail, and embeddings if they are `shaky`. Beside the scene stands how
many requests have failed since the last upsert that succeeded, of which there are at most `spare`. -/
def flaky (replies : Replies) (shaky : Bool) (spare : Nat) : Program.Rules indexing (Scene × Nat)
  | .embed texts, s, x, s' =>
    x = replies (.embed texts) ∧ s' = s ∨
      shaky = true ∧ ¬Whole texts x ∧ s.2 < spare ∧ s' = (s.1, s.2 + 1)
  | .upsert points, s, x, s' =>
    x = .ok () ∧ s' = (s.1.upsert points, 0) ∨
      (∃ failure, x = .error failure) ∧ s.2 < spare ∧
        ∃ part, part ⊆ points ∧ s' = (s.1.upsert part, s.2 + 1)
  | a, s, x, s' => x = (calm replies a s.1).1 ∧ s' = ((calm replies a s.1).2, s.2)

/-- The requests that may fail. -/
def Unsteady (shaky : Bool) : Action → Prop
  | .embed _ => shaky = true
  | .upsert _ => True
  | _ => False

/-- All failures have been made up for. -/
structure Level (s : Scene × Nat) (L : Scene) : Prop where
  alike : s.1.Alike L
  settled : s.2 = 0

/-- Points are about to be stored, and `n` more requests may fail before they are. -/
structure Pends (spare : Nat) (points : List Point) (n : Nat) (s : Scene × Nat) (L : Scene) : Prop where
  count : n + s.2 = spare
  alike : (s.1.upsert points).Alike (L.upsert points)

variable {replies : Replies} {shaky : Bool} {spare n : Nat} {s : Scene × Nat} {L : Scene}
  {points : List Point}

theorem Level.pends (h : Level s L) (points : List Point) : Pends spare points spare s L :=
  ⟨by rw [h.settled, Nat.add_zero], h.alike.upsert points⟩

/-- One failure more, and perhaps some of the points were stored. -/
theorem Pends.fail {part : List Point} (h : Pends spare points n s L) (hlt : s.2 < spare)
    (hsub : part ⊆ points) : ∃ m < n, Pends spare points m (s.1.upsert part, s.2 + 1) L := by
  have hcount := h.count
  refine ⟨n - 1, by omega, ⟨?_, (Scene.Alike.upsert_part hsub).trans h.alike⟩⟩
  change n - 1 + (s.2 + 1) = spare
  omega

theorem Pends.upsert (h : Pends spare points n s L) : Level (s.1.upsert points, 0) (L.upsert points) :=
  ⟨h.alike, rfl⟩

/-- Requests that cannot fail are answered as without failures. -/
theorem tracks_steady {a : Action} (h : ¬Unsteady shaky a) :
    (ask a).Tracks (flaky replies shaky spare) (calm replies) Level := by
  refine Program.tracks_ask fun s L x s' hlevel hx => ?_
  cases a with
  | embed texts =>
    rcases hx with ⟨rfl, rfl⟩ | ⟨hshaky, -⟩
    · exact ⟨rfl, hlevel⟩
    · exact absurd hshaky h
  | upsert points => exact absurd trivial h
  | deletePoints paths =>
    obtain ⟨rfl, rfl⟩ := hx
    exact ⟨rfl, hlevel.alike.deletePoints paths, hlevel.settled⟩
  | hashes =>
    obtain ⟨rfl, rfl⟩ := hx
    exact ⟨hlevel.alike.hashes, hlevel⟩
  | recordHash path hash =>
    obtain ⟨rfl, rfl⟩ := hx
    exact ⟨rfl, hlevel.alike.record path hash, hlevel.settled⟩
  | forgetHashes paths =>
    obtain ⟨rfl, rfl⟩ := hx
    exact ⟨rfl, hlevel.alike.forget paths, hlevel.settled⟩
  | _ =>
    obtain ⟨rfl, rfl⟩ := hx
    exact ⟨rfl, hlevel⟩

theorem tracks_never {α : Type} {p : Procedure α} (hp : p.Never (Unsteady shaky)) :
    p.Tracks (flaky replies shaky spare) (calm replies) Level :=
  hp.tracks fun _ h => tracks_steady h

/-- Waiting makes no difference. -/
theorem ensures_pause {post : Scene × Nat → Prop} (d : Nat) (h : post s) :
    (pause d).Ensures (flaky replies shaky spare) s fun _ s' => post s' :=
  Program.ensures_ask.2 fun _ _ hx => hx.2 ▸ h

/-- An upsert levels the states, or leaves one failure less. -/
theorem ensures_upsert (h : Pends spare points n s L) :
    (ask (.upsert points)).Ensures (flaky replies shaky spare) s fun x s' =>
      x = .ok () ∧ Level s' (L.upsert points) ∨
        (∃ failure, x = .error failure) ∧ ∃ m < n, Pends spare points m s' L := by
  refine Program.ensures_ask.2 fun x s' hx => ?_
  rcases hx with ⟨rfl, rfl⟩ | ⟨hfailure, hlt, part, hsub, rfl⟩
  · exact Or.inl ⟨rfl, h.upsert⟩
  · exact Or.inr ⟨hfailure, h.fail hlt hsub⟩

end Transients

open Transients

/-! ## Batches of a scan -/

namespace Batch

variable {α : Type} {strategy : BatchStrategy α} {limits : BatchLimits} {replies : Replies}
  {shaky : Bool} {spare : Nat} {progress : Nat → Nat → Procedure Unit}

/-- Without failures a segment is stored at the first try. -/
theorem run_embedAndUpsert_calm {segment : List α} {embeddings : Embed.Embeddings} {L : Scene}
    (hreply : replies (.embed (segment.map strategy.text)) = .ok embeddings)
    (hlength : embeddings.vectors.length = segment.length) :
    (embedAndUpsert strategy segment).run (calm replies) L =
      (.ok (), L.upsert (segment.zipWith strategy.point embeddings.vectors)) := by
  have hanswer : calm replies (.embed (segment.map strategy.text)) L = (.ok embeddings, L) :=
    Prod.ext hreply rfl
  have hkept : (embeddings.vectors.length != segment.length) = false := by simpa using hlength
  change Program.run (calm replies) (match (calm replies (.embed (segment.map strategy.text)) L).1 with
    | .error e => _
    | .ok _ => _) _ = _
  rw [hanswer]
  simp only [hkept]
  rfl

/-- A try stores a segment, or leaves one failure less. -/
theorem ensures_embedAndUpsert {segment : List α} {embeddings : Embed.Embeddings} {n : Nat}
    {s : Scene × Nat} {L : Scene}
    (hreply : replies (.embed (segment.map strategy.text)) = .ok embeddings)
    (hlength : embeddings.vectors.length = segment.length)
    (h : Pends spare (segment.zipWith strategy.point embeddings.vectors) n s L) :
    (embedAndUpsert strategy segment).Ensures (flaky replies shaky spare) s fun x s' =>
      x = .ok () ∧ Level s' (L.upsert (segment.zipWith strategy.point embeddings.vectors)) ∨
        (∃ failure, x = .error failure) ∧
          ∃ m < n, Pends spare (segment.zipWith strategy.point embeddings.vectors) m s' L := by
  unfold embedAndUpsert
  refine Program.ensures_bind.2 (Program.ensures_ask.2 fun x s₁ hx => ?_)
  rcases hx with ⟨rfl, rfl⟩ | ⟨-, hspoiled, hlt, rfl⟩
  · rw [hreply]
    refine Program.ensures_ite (fun hne => absurd hlength (by simpa using hne)) fun _ => ?_
    refine (ensures_upsert h).bind fun y s₂ hy => ?_
    rcases hy with ⟨rfl, hlevel⟩ | ⟨⟨failure, rfl⟩, hpends⟩
    · exact Program.ensures_pure.2 (Or.inl ⟨rfl, hlevel⟩)
    · exact Program.ensures_pure.2 (Or.inr ⟨⟨_, rfl⟩, hpends⟩)
  · -- nothing was stored, so the segment is as it was before the try
    have hpends : ∃ m < n, Pends spare _ m (s.1, s.2 + 1) L := h.fail hlt (List.nil_subset _)
    cases x with
    | error e => exact Program.ensures_pure.2 (Or.inr ⟨⟨_, rfl⟩, hpends⟩)
    | ok spoiled =>
      refine Program.ensures_ite (fun _ => Program.ensures_pure.2 (Or.inr ⟨⟨_, rfl⟩, hpends⟩)) fun hne => ?_
      refine absurd ⟨spoiled, rfl, ?_⟩ hspoiled
      rw [List.length_map]
      simpa using hne

theorem tracks_runSegment (serves : ∀ texts, Whole texts (replies (.embed texts)))
    (htries : spare < limits.retry.attempts) (segment : List α) :
    (runSegment strategy limits segment).Tracks (flaky replies shaky spare) (calm replies) Level := by
  obtain ⟨embeddings, hreply, hlength⟩ := serves (segment.map strategy.text)
  rw [List.length_map] at hlength
  unfold runSegment
  refine Tracks.bind (RetryPolicy.tracks_run
    (Pends spare (segment.zipWith strategy.point embeddings.vectors)) ?_ ?_ ?_) fun x => ?_
  · exact fun s L hlevel => ⟨spare, htries, hlevel.pends _⟩
  · exact fun n d s L h => ensures_pause d h
  · intro n s L h
    refine (ensures_embedAndUpsert hreply hlength h).mono fun x s' hx => hx.imp_left ?_
    rintro ⟨rfl, hlevel⟩
    rw [run_embedAndUpsert_calm hreply hlength]
    exact ⟨(), rfl, rfl, hlevel⟩
  · cases x with
    | ok => exact tracks_never (Guarded.bind (never_recordHashes fun _ _ => nofun) fun _ => trivial)
    | error e => exact Program.tracks_pure _

theorem tracks_runSegments (serves : ∀ texts, Whole texts (replies (.embed texts)))
    (htries : spare < limits.retry.attempts)
    (quiet : ∀ before size, (progress before size).Never (Unsteady shaky)) (r : BatchResult)
    (segments : List (List α)) :
    (runSegments strategy limits progress r segments).Tracks (flaky replies shaky spare) (calm replies)
      Level := by
  induction segments generalizing r with
  | nil => exact Program.tracks_pure r
  | cons segment segments ih =>
    exact Tracks.bind (tracks_runSegment serves htries segment) fun _ =>
      Tracks.bind (tracks_never (quiet _ _)) fun _ => ih _

/-- With more tries than failures a batch goes as it goes without failures. -/
theorem tracks_process (serves : ∀ texts, Whole texts (replies (.embed texts)))
    (htries : spare < limits.retry.attempts)
    (quiet : ∀ before size, (progress before size).Never (Unsteady shaky)) (items : List α) :
    (process strategy limits progress items).Tracks (flaky replies shaky spare) (calm replies) Level := by
  unfold process
  refine Program.tracks_ite (Program.tracks_pure _) ?_
  exact Tracks.bind (tracks_never (never_deleteStale nofun)) fun _ =>
    tracks_runSegments serves htries quiet _ _

end Batch

/-! ## Batches of changes -/

namespace Change

variable {replies : Replies} {spare : Nat}

theorem tracks_upsertSegments {retry : RetryPolicy} (htries : spare < retry.attempts)
    (failures : UpsertFailures) (segments : List (List (Nat × Point))) :
    (upsertSegments retry failures segments).Tracks (flaky replies false spare) (calm replies) Level := by
  induction segments generalizing failures with
  | nil => exact Program.tracks_pure failures
  | cons segment segments ih =>
    refine Tracks.bind (RetryPolicy.tracks_run (Pends spare (segment.map (·.2))) ?_ ?_ ?_) fun x => ?_
    · exact fun s L hlevel => ⟨spare, htries, hlevel.pends _⟩
    · exact fun n d s L h => ensures_pause d h
    · intro n s L h
      refine (ensures_upsert h).mono fun x s' hx => hx.imp_left ?_
      rintro ⟨rfl, hlevel⟩
      exact ⟨(), rfl, rfl, hlevel⟩
    · cases x with
      | ok => exact ih _
      | error e => exact ih _

theorem tracks_upsertReady {s : Services} (htries : spare < s.tuning.retryPolicy.attempts)
    (ready : List ReadyFile) :
    (upsertReady s ready).Tracks (flaky replies false spare) (calm replies) Level :=
  Tracks.bind (tracks_upsertSegments htries _ _) fun _ =>
    tracks_never (Guarded.bind (never_settleReady (fun _ _ => nofun) (fun _ => nofun) _ _ _) fun _ =>
      trivial)

end Change

open Change in
/-- With more tries than failures in a row, a watcher's batch goes as it goes without failures. -/
theorem tracks_processChanges {replies : Replies} {spare : Nat} {s : Services}
    (htries : spare < s.tuning.retryPolicy.attempts) (changes : Changes) :
    (processChanges s changes).Tracks (flaky replies false spare) (calm replies) Level := by
  have hspares : Spares (Unsteady false) := ⟨fun _ => nofun, fun _ => nofun, nofun, fun _ => nofun⟩
  refine Tracks.bind (tracks_steady nofun) fun _ => ?_
  refine Tracks.bind (tracks_never (never_processGroups hspares (fun _ => nofun) _ _ _)) fun tally => ?_
  refine Tracks.bind (tracks_never (never_deleteStale (fun _ => nofun) _)) fun deleteError => ?_
  refine Tracks.bind (tracks_never (never_settleDeleted (fun _ => nofun) (fun _ => nofun) _ _ _ _))
    fun tally' => ?_
  have hfinish : ∀ results error, (finishing changes.length results error).Tracks
      (flaky replies false spare) (calm replies) Level :=
    fun results error => tracks_never (never_finishing (fun _ => nofun) _ _ _)
  cases deleteError with
  | some e => exact hfinish _ _
  | none => exact Tracks.bind (tracks_upsertReady htries _) fun _ => hfinish _ _

/-! ## Both kinds of batches -/

/-- Every run in which failures stay within `spare` ends with the value of the run without failures, and leaves
the same cache and the same points. -/
def Transients.Invisible (replies : Replies) (shaky : Bool) (spare : Nat) (L : Scene) {α : Type}
    (p : Procedure α) : Prop :=
  p.Ensures (flaky replies shaky spare) (L, 0) fun a s' =>
    a = (p.run (calm replies) L).1 ∧ s'.1.Alike (p.run (calm replies) L).2

theorem Transients.invisible {replies : Replies} {shaky : Bool} {spare : Nat} {α : Type} {p : Procedure α}
    (h : p.Tracks (flaky replies shaky spare) (calm replies) Level) (L : Scene) :
    Invisible replies shaky spare L p :=
  (h (L, 0) L ⟨.refl L, rfl⟩).mono fun _ _ ⟨hvalue, hlevel⟩ => ⟨hvalue, hlevel.alike⟩

/-- The run without failures is one of those in which there may be some. -/
theorem Transients.ends_calm {replies : Replies} {shaky : Bool} {spare : Nat} {α : Type} (p : Procedure α)
    (L : Scene) : Program.Ends (flaky replies shaky spare) p (L, 0) (p.run (calm replies) L).1
      ((p.run (calm replies) L).2, 0) := by
  refine Program.ends_run (fun L => (L, 0)) (fun a L => ?_) p L
  cases a with
  | embed texts => exact Or.inl ⟨rfl, rfl⟩
  | upsert points => exact Or.inl ⟨rfl, rfl⟩
  | _ => exact ⟨rfl, rfl⟩

/-- In a batch of a scan, fewer failures of embedding and storing than tries between one upsert that succeeds
and the next leave no trace; in a batch of a watcher whose embeddings do not fail, fewer failed upserts in a row
than tries. -/
theorem transient_failures_invisible (replies : Replies) (spare : Nat) (L : Scene) :
    (∀ (α : Type) (strategy : BatchStrategy α) (limits : BatchLimits)
      (progress : Nat → Nat → Procedure Unit) (items : List α),
      (∀ texts, Whole texts (replies (.embed texts))) →
      (∀ before size, (progress before size).Never (Unsteady true)) →
      spare < limits.retry.attempts →
      Invisible replies true spare L (Batch.process strategy limits progress items)) ∧
    ∀ (s : Services) (changes : Changes), spare < s.tuning.retryPolicy.attempts →
      Invisible replies false spare L (processChanges s changes) :=
  ⟨fun _ _ _ _ items serves quiet htries => invisible (Batch.tracks_process serves htries quiet items) L,
    fun _ changes htries => invisible (tracks_processChanges htries changes) L⟩

/-- Answers about the small workspace. -/
def smallReplies : Replies := fun a =>
  (Premises.respond [] (fun _ => false) a smallScene).1

/-- A store that refuses a number of upserts in front of each that succeeds. -/
def reluctant (spare : Nat) : Program.Handler indexing (Scene × Nat)
  | .upsert points, s =>
    if s.2 < spare then (.error Premises.refusal, (s.1, s.2 + 1)) else (.ok (), (s.1.upsert points, 0))
  | a, s => ((calm smallReplies a s.1).1, ((calm smallReplies a s.1).2, s.2))

theorem rules_reluctant {shaky : Bool} {spare : Nat} (a : Action) (s : Scene × Nat) :
    flaky smallReplies shaky spare a s (reluctant spare a s).1 (reluctant spare a s).2 := by
  cases a with
  | embed texts => exact Or.inl ⟨rfl, rfl⟩
  | upsert points =>
    simp only [reluctant]
    split
    · exact Or.inr ⟨⟨_, rfl⟩, ‹_›, [], List.nil_subset _, rfl⟩
    · exact Or.inl ⟨rfl, rfl⟩
  | _ => exact ⟨rfl, rfl⟩

theorem ends_reluctant {shaky : Bool} {spare : Nat} {α : Type} (p : Procedure α) :
    Program.Ends (flaky smallReplies shaky spare) p (smallScene, 0)
      (p.run (reluctant spare) (smallScene, 0)).1 (p.run (reluctant spare) (smallScene, 0)).2 :=
  Program.ends_run id rules_reluctant p (smallScene, 0)

/-- A batch of a scan of the small workspace. -/
def smallBatch : Procedure BatchResult :=
  Batch.process (blockStrategy "/w") smallLimits Scan.tellSegment pendingFirst

/-- A batch of a watcher of the small workspace. -/
def smallChanges : Procedure (List ChangeResult) :=
  processChanges Premises.smallServices [("/w/a.rs", .changed)]

/-- Twice refused and then stored, the points of a file are those of an upsert that succeeds at once. -/
theorem transient_failures_invisible_small :
    ((Program.advance (reluctant 2) 5 smallBatch (smallScene, 0)).2.2.2 = 2 ∧
      (smallBatch.run (reluctant 2) (smallScene, 0)).1 =
        (smallBatch.run (calm smallReplies) smallScene).1 ∧
      (smallBatch.run (reluctant 2) (smallScene, 0)).2.1.Alike
        (smallBatch.run (calm smallReplies) smallScene).2) ∧
    (Program.advance (reluctant 2) 10 smallChanges (smallScene, 0)).2.2.2 = 2 ∧
      (smallChanges.run (reluctant 2) (smallScene, 0)).1 =
        (smallChanges.run (calm smallReplies) smallScene).1 ∧
      (smallChanges.run (reluctant 2) (smallScene, 0)).2.1.Alike
        (smallChanges.run (calm smallReplies) smallScene).2 := by
  obtain ⟨hbatch, hchanges⟩ := transient_failures_invisible smallReplies 2 smallScene
  refine ⟨⟨by decide +kernel, ?_⟩, by decide +kernel, ?_⟩
  · exact hbatch _ (blockStrategy "/w") smallLimits Scan.tellSegment pendingFirst
      (fun texts => ⟨_, rfl, List.length_map _⟩) (fun _ _ => Program.guarded_ask nofun) (by decide) _ _
      (ends_reluctant smallBatch)
  · exact hchanges Premises.smallServices [("/w/a.rs", .changed)] (by decide) _ _
      (ends_reluctant smallChanges)

/-- A watched workspace of one file whose services fail as they are told to. -/
def faltering (embed : List Scenario.EmbedOutcome) (upsert : List Bool) : Scenario.World :=
  { Standing.attended with
    script := { embed, store := fun call => if call = .upsert then upsert else [] } }

/-- A batch of the file that makes two tries. -/
def triedTwice : Procedure BatchResult :=
  Batch.process (blockStrategy "/w") { segmentSize := 60, retry := { maxAttempts := 2 } } Scan.tellSegment
    pendingFirst

/-- Where embedding and storing fail once each, two tries are not enough for a batch; and a watcher gives a file
up whose embedding fails once, with three tries as well. -/
theorem seen_of_failing_once :
    (Scenario.World.run triedTwice (faltering [] [])).1.failed = 0 ∧
    (Scenario.World.run triedTwice (faltering [.fail] [])).1.failed = 0 ∧
    (Scenario.World.run triedTwice (faltering [] [false])).1.failed = 0 ∧
    (Scenario.World.run triedTwice (faltering [.fail] [false])).1.failed = 1 ∧
    Premises.smallServices.tuning.maxRetries = 3 ∧
    (Scenario.World.run smallChanges (faltering [] [])).1 = [⟨"/w/a.rs", .stored⟩] ∧
    (Scenario.World.run smallChanges (faltering [.fail] [])).1 ≠ [⟨"/w/a.rs", .stored⟩] := by
  decide +kernel

end SourceIndex
