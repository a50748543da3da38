import SourceIndex.Proofs.Index.Storing
import SourceIndex.Proofs.Index.Turns
/-!
# Files all of whose points landed

The points of all ready files are put one after the other and cut into segments, whatever files they belong
to. Which files a lost segment concerns is told by numbers that the points carry. Here this is compared with
the places of the points: the place of a point among all points (`Change.placeOf`) gives the number of its
segment (`mem_getElem?_segmentsOf`), and a file is entered as failed just if the segment of one of these places
was lost (`Change.exists_entersLost_iff`).
-/

namespace SourceIndex

open Program (Exchange Follows Trail Yields)

/-! ## Places in segments -/

section
variable {α β : Type} {size k : Nat} {items segment : List α} {x : α}

/-- The segments of a list, by their numbers. -/
theorem getElem?_segmentsOf (hsize : 0 < size) (items : List α) (k : Nat) : (segmentsOf size items)[k]? =
    if k * size < items.length then some ((items.drop (k * size)).take size) else none := by
  induction k generalizing items with
  | zero =>
    cases items with
    | nil => simp [segmentsOf]
    | cons item items =>
      obtain ⟨n, rfl⟩ : ∃ n, size = n + 1 := ⟨size - 1, by omega⟩
      simp [segmentsOf]
  | succ k ih =>
    cases items with
    | nil => simp [segmentsOf]
    | cons item items =>
      obtain ⟨n, rfl⟩ : ∃ n, size = n + 1 := ⟨size - 1, by omega⟩
      rw [segmentsOf, List.getElem?_cons_succ, Nat.add_sub_cancel, ih, List.length_drop, List.drop_drop]
      have hplace : (k + 1) * (n + 1) = n + k * (n + 1) + 1 := by rw [Nat.succ_mul]; omega
      rw [hplace, List.drop_succ_cons, List.length_cons]
      by_cases h : n + k * (n + 1) < items.length
      · rw [if_pos (by omega), if_pos (by omega)]
      · rw [if_neg (by omega), if_neg (by omega)]

/-- In a segment stand the items whose places have its number. -/
theorem mem_getElem?_segmentsOf (hsize : 0 < size) (h : (segmentsOf size items)[k]? = some segment) :
    x ∈ segment ↔ ∃ j, j / size = k ∧ items[j]? = some x := by
  rw [getElem?_segmentsOf hsize] at h
  split at h
  · cases h
    rw [List.mem_iff_getElem?]
    constructor
    · rintro ⟨m, hm⟩
      rw [List.getElem?_take, List.getElem?_drop] at hm
      split at hm
      · rename_i hlt
        exact ⟨k * size + m, by rw [Nat.mul_comm, Nat.mul_add_div hsize, Nat.div_eq_of_lt hlt]; rfl, hm⟩
      · cases hm
    · rintro ⟨j, rfl, hj⟩
      refine ⟨j % size, ?_⟩
      rw [List.getElem?_take, List.getElem?_drop, if_pos (Nat.mod_lt _ hsize), Nat.mul_comm,
        Nat.div_add_mod, hj]
  · cases h

/-- Each item stands in the segment that its place says. -/
theorem exists_getElem?_segmentsOf (hsize : 0 < size) {j : Nat} (h : items[j]? = some x) :
    ∃ segment, (segmentsOf size items)[j / size]? = some segment ∧ x ∈ segment := by
  have hlt : j / size * size < items.length :=
    Nat.lt_of_le_of_lt (Nat.div_mul_le_self j size) (List.getElem?_eq_some_iff.1 h).1
  have hsegment := getElem?_segmentsOf hsize items (j / size)
  rw [if_pos hlt] at hsegment
  exact ⟨_, hsegment, (mem_getElem?_segmentsOf hsize hsegment).2 ⟨j, rfl, h⟩⟩

theorem segmentsOf_map (f : α → β) (size : Nat) (items : List α) :
    segmentsOf size (items.map f) = (segmentsOf size items).map (List.map f) := by
  fun_induction segmentsOf size items with
  | case1 => simp [segmentsOf]
  | case2 item items ih => simp [segmentsOf, List.map_take, ← ih, List.map_drop]

end

namespace Change

variable {s : Services} {retry : RetryPolicy} {ready : List ReadyFile} {file : ReadyFile} {i m : Nat}

/-- The place of the `j`-th point of the `i`-th file among the points of all files. -/
def placeOf (ready : List ReadyFile) (i j : Nat) : Nat :=
  ((ready.take i).flatMap (·.points)).length + j

theorem placeOf_zero (ready : List ReadyFile) (j : Nat) : placeOf ready 0 j = j := by
  rw [placeOf, List.take_zero, List.flatMap_nil, List.length_nil, Nat.zero_add]

theorem placeOf_cons (first : ReadyFile) (ready : List ReadyFile) (i j : Nat) :
    placeOf (first :: ready) (i + 1) j = first.points.length + placeOf ready i j := by
  rw [placeOf, List.take_succ_cons, List.flatMap_cons, List.length_append, Nat.add_assoc]
  rfl

/-- Points with the number of their file, where the first file has the number `n`. -/
def taggedFrom (n : Nat) (ready : List ReadyFile) : List (Nat × Point) :=
  (ready.zipIdx n).flatMap fun (file, i) => file.points.map fun point => (i, point)

theorem taggedFrom_cons (n : Nat) (first : ReadyFile) (ready : List ReadyFile) :
    taggedFrom n (first :: ready) =
      first.points.map (fun point => (n, point)) ++ taggedFrom (n + 1) ready :=
  rfl

theorem le_of_mem_taggedFrom {n : Nat} {p : Nat × Point} (h : p ∈ taggedFrom n ready) : n ≤ p.1 := by
  obtain ⟨⟨file, i⟩, hentry, hp⟩ := List.mem_flatMap.1 h
  obtain ⟨point, -, rfl⟩ := List.mem_map.1 hp
  exact (List.mem_zipIdx hentry).1

/-- A point bears the number of a file just if it stands at the place of one of the file's points. -/
theorem getElem?_taggedFrom_iff (h : ready[i]? = some file) (n : Nat) :
    (∃ point, (taggedFrom n ready)[m]? = some (n + i, point)) ↔
      ∃ j < file.points.length, m = placeOf ready i j := by
  induction ready generalizing i m n with
  | nil => cases h
  | cons first ready ih =>
    rw [taggedFrom_cons]
    by_cases hm : m < first.points.length
    · have hfirst : (first.points.map (fun point => (n, point)) ++ taggedFrom (n + 1) ready)[m]? =
          some (n, first.points[m]) := by
        rw [List.getElem?_append_left (by rwa [List.length_map]), List.getElem?_map,
          List.getElem?_eq_getElem hm, Option.map_some]
      simp only [hfirst, Option.some.injEq, Prod.mk.injEq]
      cases i with
      | zero =>
        obtain rfl : first = file := Option.some_inj.1 h
        exact iff_of_true ⟨_, rfl, rfl⟩ ⟨m, hm, (placeOf_zero _ m).symm⟩
      | succ i =>
        refine iff_of_false (by rintro ⟨_, hn, -⟩; omega) ?_
        rintro ⟨j, -, rfl⟩
        rw [placeOf_cons] at hm
        omega
    · rw [List.getElem?_append_right (by rw [List.length_map]; omega), List.length_map]
      cases i with
      | zero =>
        obtain rfl : first = file := Option.some_inj.1 h
        refine iff_of_false ?_ ?_
        · rintro ⟨point, hpoint⟩
          have hle := le_of_mem_taggedFrom (List.mem_of_getElem? hpoint)
          dsimp only at hle
          omega
        · rintro ⟨j, hj, rfl⟩
          rw [placeOf_zero] at hm
          exact hm hj
      | succ i =>
        have hrest := ih (m := m - first.points.length) h (n + 1)
        rw [Nat.add_right_comm, Nat.add_assoc n i 1] at hrest
        rw [hrest]
        refine exists_congr fun j => and_congr_right fun _ => ?_
        rw [placeOf_cons]
        omega

theorem getElem?_tagged_iff (h : ready[i]? = some file) :
    (∃ point, (tagged ready)[m]? = some (i, point)) ↔
      ∃ j < file.points.length, m = placeOf ready i j := by
  have hfrom := getElem?_taggedFrom_iff (m := m) h 0
  rwa [Nat.zero_add] at hfrom

/-! ## Segments that were stored and segments that were lost -/

/-- Upsert points, with retries. -/
def upserting (retry : RetryPolicy) (points : List Point) : Procedure (Except ServiceError Unit) :=
  retry.run pause (ask (.upsert points))

/-- Points are stored just if one of the attempts stores them. -/
theorem yields_upserting (retry : RetryPolicy) (points : List Point) :
    (upserting retry points).Yields fun x trace =>
      x = .ok () ↔ (⟨.upsert points, .ok ()⟩ : Exchange indexing) ∈ trace := by
  have go : ∀ more attempt, (retry.runFrom pause (ask (.upsert points)) attempt more :
      Procedure (Except ServiceError Unit)).Yields fun x trace =>
        x = .ok () ↔ (⟨.upsert points, .ok ()⟩ : Exchange indexing) ∈ trace := by
    intro more
    induction more with
    | zero =>
      refine fun attempt => Program.yields_ask fun x => ⟨fun hx => hx ▸ List.mem_cons_self, fun hmem => ?_⟩
      cases List.mem_singleton.1 hmem
      rfl
    | succ more ih =>
      refine fun attempt => Program.yields_ask_bind fun x => ?_
      cases x with
      | ok => exact Program.yields_pure (iff_of_true rfl List.mem_cons_self)
      | error e =>
        refine Program.yields_ask_bind fun _ => (ih _).mono fun x trace hok => ?_
        simp only [hok, List.mem_cons]
        exact ⟨fun h => Or.inr (Or.inr h), fun h => (h.resolve_left nofun).resolve_left nofun⟩
  exact go _ _

/-- What was exchanged for a segment, and what it came to. -/
structure SegmentRun where
  call : List (Exchange indexing)
  outcome : Except ServiceError Unit

/-- The run is one of upserting the points. -/
def SegmentRun.Upserts (r : SegmentRun) (retry : RetryPolicy) (points : List Point) : Prop :=
  Follows (upserting retry points) r.call (.done r.outcome)

/-- A segment is entered for each file that it has a point of, with the message of its error, just if it was
lost. -/
def EntersLost (segments : List (List (Nat × Point))) (runs : List SegmentRun) (i : Nat) (message : String) :
    Prop :=
  ∃ x ∈ segments.zip runs, i ∈ x.1.map (·.1) ∧ ∃ e, x.2.outcome = .error e ∧ message = e.message

theorem entersLost_cons {segment : List (Nat × Point)} {segments : List (List (Nat × Point))}
    {r : SegmentRun} {runs : List SegmentRun} {message : String} :
    EntersLost (segment :: segments) (r :: runs) i message ↔
      (i ∈ segment.map (·.1) ∧ ∃ e, r.outcome = .error e ∧ message = e.message) ∨
        EntersLost segments runs i message := by
  simp only [EntersLost, List.zip_cons_cons, List.mem_cons, exists_eq_or_imp]

/-- Each segment is upserted by a run of its own, and the files of those that are lost are entered. -/
theorem yields_upsertSegments (failures : UpsertFailures) (segments : List (List (Nat × Point))) :
    (upsertSegments retry failures segments).Yields fun failures' trace =>
      ∃ runs : List SegmentRun, trace = (runs.map (·.call)).flatten ∧
        List.Forall₂ (fun segment r => r.Upserts retry (segment.map (·.2))) segments runs ∧
        ∀ i message, (i, message) ∈ failures'.files ↔
          (i, message) ∈ failures.files ∨ EntersLost segments runs i message := by
  induction segments generalizing failures with
  | nil => exact Program.yields_pure ⟨[], rfl, .nil, by simp [EntersLost]⟩
  | cons segment segments ih =>
    intro failures' trace h
    obtain ⟨x, call, rest, rfl, hcall, hrest⟩ := Program.follows_bind_iff.1 h
    cases x with
    | ok =>
      obtain ⟨runs, rfl, hruns, hfiles⟩ := ih failures failures' rest hrest
      refine ⟨⟨call, .ok ()⟩ :: runs, rfl, .cons hcall hruns, fun i message => ?_⟩
      have hstored : ¬∃ e, (Except.ok () : Except ServiceError Unit) = .error e ∧ message = e.message :=
        nofun
      rw [hfiles, entersLost_cons, or_iff_right (a := _ ∧ _) fun h => hstored h.2]
    | error e =>
      obtain ⟨runs, rfl, hruns, hfiles⟩ := ih _ failures' rest hrest
      refine ⟨⟨call, .error e⟩ :: runs, rfl, .cons hcall hruns, fun i message => ?_⟩
      have hadd : (i, message) ∈ (failures.add (segment.map (·.1)) e.message).files ↔
          (i ∈ segment.map (·.1) ∧ message = e.message) ∨ (i, message) ∈ failures.files := by
        simp [UpsertFailures.add, eq_comm]
      have hlost : (∃ e', (Except.error e : Except ServiceError Unit) = .error e' ∧ message = e'.message) ↔
          message = e.message := by simp
      rw [hfiles, hadd, entersLost_cons, hlost]
      tauto

/-- All points of a file landed: the segments of their places were stored. -/
def Landed (size : Nat) (ready : List ReadyFile) (runs : List SegmentRun) (i : Nat) (file : ReadyFile) :
    Prop :=
  ∀ j < file.points.length, ∃ r, runs[placeOf ready i j / size]? = some r ∧ r.outcome = .ok ()

/-- A file is entered for a lost segment just if not all of its points landed. -/
theorem exists_entersLost_iff {size : Nat} (hsize : 0 < size) {runs : List SegmentRun}
    (hlength : runs.length = (segmentsOf size (tagged ready)).length) (h : ready[i]? = some file) :
    (∃ message, EntersLost (segmentsOf size (tagged ready)) runs i message) ↔
      ¬Landed size ready runs i file := by
  constructor
  · rintro ⟨message, ⟨segment, r⟩, hmem, hin, e, herror, -⟩ hlanded
    obtain ⟨k, hk⟩ := List.mem_iff_getElem?.1 hmem
    obtain ⟨hsegment, hr⟩ := List.getElem?_zip_eq_some.1 hk
    obtain ⟨⟨number, point⟩, hp, rfl⟩ := List.mem_map.1 hin
    obtain ⟨m, rfl, hm⟩ := (mem_getElem?_segmentsOf hsize hsegment).1 hp
    obtain ⟨j, hj, rfl⟩ := (getElem?_tagged_iff h).1 ⟨point, hm⟩
    obtain ⟨r', hr', hok⟩ := hlanded j hj
    rw [hr, Option.some_inj] at hr'
    rw [hr', hok] at herror
    cases herror
  · intro hnot
    rw [Landed] at hnot
    push Not at hnot
    obtain ⟨j, hj, hlost⟩ := hnot
    obtain ⟨point, hp⟩ := (getElem?_tagged_iff h).2 ⟨j, hj, rfl⟩
    obtain ⟨segment, hsegment, hin⟩ := exists_getElem?_segmentsOf hsize hp
    have hlt : placeOf ready i j / size < runs.length := by
      rw [hlength]
      exact (List.getElem?_eq_some_iff.1 hsegment).1
    have hr := List.getElem?_eq_getElem hlt
    cases houtcome : runs[placeOf ready i j / size].outcome with
    | ok => exact absurd houtcome (hlost _ hr)
    | error e =>
      refine ⟨e.message, (segment, _), ?_, List.mem_map_of_mem hin, e, houtcome, rfl⟩
      exact List.mem_of_getElem? (List.getElem?_zip_eq_some.2 ⟨hsegment, hr⟩)

/-! ## Results and hashes -/

/-- How a ready file ends. -/
def settledOutcome (failures : List (Nat × String)) (i : Nat) : ChangeOutcome :=
  match failures.find? (·.1 == i) with
  | some (_, message) => .failed message
  | none => .stored

/-- Each ready file has its result, in order, and its hash is entered or taken out. -/
theorem yields_settleReady (failures : List (Nat × String)) (i : Nat) (ready : List ReadyFile) :
    (settleReady failures i ready).Yields fun results trace =>
      results = (ready.zipIdx i).map (fun entry => ⟨entry.1.path, settledOutcome failures entry.2⟩) ∧
        trace.flatMap (fun x => Action.effects x.request x.answer) =
          (ready.zipIdx i).map (Premises.settlement failures) := by
  induction ready generalizing i with
  | nil => exact Program.yields_pure ⟨rfl, rfl⟩
  | cons file ready ih =>
    have step : ∀ {e : Exchange indexing} {outcome : ChangeOutcome},
        Action.effects e.request e.answer = [Premises.settlement failures (file, i)] →
        settledOutcome failures i = outcome →
        Yields (do
            let more ← settleReady failures (i + 1) ready
            pure (⟨file.path, outcome⟩ :: more) : Procedure (List ChangeResult)) fun results trace =>
          results = ((file :: ready).zipIdx i).map
              (fun entry => ⟨entry.1.path, settledOutcome failures entry.2⟩) ∧
            (e :: trace).flatMap (fun x => Action.effects x.request x.answer) =
              ((file :: ready).zipIdx i).map (Premises.settlement failures) := by
      rintro e outcome heffects rfl
      refine (ih (i + 1)).bind fun results rest ⟨hresults, hrest⟩ => Program.yields_pure ⟨?_, ?_⟩
      · rw [hresults, List.zipIdx_cons, List.map_cons]
      · rw [List.append_nil, List.flatMap_cons, heffects, hrest, List.zipIdx_cons, List.map_cons]
        rfl
    unfold settleReady
    cases hfind : failures.find? (·.1 == i) with
    | some failure =>
      refine Program.yields_ask_bind fun _ => step ?_ ?_
      · rw [Premises.settlement, hfind]
        rfl
      · rw [settledOutcome, hfind]
    | none =>
      refine Program.yields_ask_bind fun _ => step ?_ ?_
      · rw [Premises.settlement, hfind]
        rfl
      · rw [settledOutcome, hfind]

/-- The results of ready files are theirs, in their order. -/
theorem yields_settleReady_paths (failures : List (Nat × String)) (i : Nat) (ready : List ReadyFile) :
    (settleReady failures i ready).Yields fun results _ =>
      results.map (·.path) = ready.map (·.path) := by
  refine (yields_settleReady failures i ready).mono fun results _ ⟨hresults, _⟩ => ?_
  calc results.map (·.path)
    _ = ((ready.zipIdx i).map Prod.fst).map (·.path) := by
      rw [hresults, List.map_map, List.map_map]
      rfl
    _ = ready.map (·.path) := by rw [List.zipIdx_map_fst]

theorem settledOutcome_eq_stored_iff {failures : List (Nat × String)} :
    settledOutcome failures i = .stored ↔ ¬∃ message, (i, message) ∈ failures := by
  unfold settledOutcome
  cases hfind : failures.find? (·.1 == i) with
  | some failure =>
    refine iff_of_false nofun fun hnot => hnot ⟨failure.2, ?_⟩
    have hnumber : failure.1 = i := by simpa using List.find?_some hfind
    exact hnumber ▸ List.mem_of_find?_eq_some hfind
  | none =>
    refine iff_of_true rfl ?_
    rintro ⟨message, hmem⟩
    simpa using List.find?_eq_none.1 hfind _ hmem

/-- A file that does not end as stored ends with an error. -/
theorem exists_failed_of_ne {failures : List (Nat × String)} (h : settledOutcome failures i ≠ .stored) :
    ∃ message, settledOutcome failures i = .failed message := by
  unfold settledOutcome at h ⊢
  cases hfind : failures.find? (·.1 == i) with
  | some failure => exact ⟨failure.2, rfl⟩
  | none =>
    rw [hfind] at h
    exact absurd rfl h

/-- Settling a ready file enters its hash if it ends as stored, and else takes it out; it does nothing to
other files. -/
theorem onHash_settlement {failures : List (Nat × String)} {path : String} {base : Option String} :
    (Premises.settlement failures (file, i)).onHash path base =
      if path = file.path then if settledOutcome failures i = .stored then some file.hash else none
      else base := by
  unfold Premises.settlement settledOutcome
  cases hfind : failures.find? (·.1 == i) with
  | some failure => simp [Effect.onHash]
  | none => simp [Effect.onHash]

/-- Files of other paths leave a hash alone. -/
theorem foldl_settlement_of_ne {failures : List (Nat × String)} {path : String} {base : Option String}
    {entries : List (ReadyFile × Nat)} (h : ∀ entry ∈ entries, entry.1.path ≠ path) :
    (entries.map (Premises.settlement failures)).foldl (Effect.onHash path) base = base := by
  refine Premises.foldl_onHash_of_idle (List.forall_mem_map.2 fun entry hentry base => ?_)
  exact onHash_settlement.trans (if_neg (h entry hentry).symm)

/-- The last of the ready files with a path decides on its hash. -/
theorem foldl_settlement {failures : List (Nat × String)} {base : Option String}
    (h : ready[i]? = some file)
    (last : ∀ k other, i < k → ready[k]? = some other → other.path ≠ file.path) :
    (ready.zipIdx.map (Premises.settlement failures)).foldl (Effect.onHash file.path) base =
      if settledOutcome failures i = .stored then some file.hash else none := by
  have hentry : ready.zipIdx[i]? = some (file, i) := by
    rw [List.getElem?_zipIdx, h, Option.map_some, Nat.zero_add]
  obtain ⟨hlt, hget⟩ := List.getElem?_eq_some_iff.1 hentry
  have hsplit : ready.zipIdx = ready.zipIdx.take i ++ (file, i) :: ready.zipIdx.drop (i + 1) := by
    rw [← hget, List.getElem_cons_drop, List.take_append_drop]
  have hbehind : ∀ entry ∈ ready.zipIdx.drop (i + 1), entry.1.path ≠ file.path := by
    intro entry hmem
    obtain ⟨k, hk⟩ := List.mem_iff_getElem?.1 hmem
    rw [List.getElem?_drop, List.getElem?_zipIdx, Option.map_eq_some_iff] at hk
    obtain ⟨other, hother, rfl⟩ := hk
    exact last _ other (by omega) hother
  rw [hsplit, List.map_append, List.map_cons, List.foldl_append, List.foldl_cons,
    foldl_settlement_of_ne hbehind, onHash_settlement, if_pos rfl]

/-- The cache changes by what the exchanges of a run do. -/
theorem get?_of_trail {hashes hashes' : Hashes} {trace : List (Exchange indexing)}
    (h : Trail Scan.ledger hashes trace hashes') (path : String) : hashes'.get? path =
      (trace.flatMap fun x => Action.effects x.request x.answer).foldl (Effect.onHash path)
        (hashes.get? path) := by
  induction h with
  | nil => rfl
  | cons answer rest ih =>
    rw [ih, List.flatMap_cons, List.foldl_append]
    exact congrArg (List.foldl _ · _) (Scan.get?_ledger answer)

/-- Upserting enters no hash and takes none out. -/
theorem idle_of_mem_upsertSegments {failures failures' : UpsertFailures} {segments : List (List (Nat × Point))}
    {trace : List (Exchange indexing)}
    (h : Follows (upsertSegments retry failures segments) trace (.done failures')) {path : String} :
    ∀ effect ∈ trace.flatMap (fun x => Action.effects x.request x.answer),
      ∀ base, effect.onHash path base = base := by
  have hnever : ∀ x ∈ trace, ¬Action.May (fun effect => ∃ base, effect.onHash path base ≠ base) x.request :=
    h.never (never_upsertSegments (fun _ => Action.not_may fun _ => rfl)
      (fun _ => Scan.not_may_upsert (fun ⟨_, hne⟩ => hne rfl) fun ⟨_, hne⟩ => hne rfl) _ _)
  intro effect heffect base
  obtain ⟨x, hx, heffect⟩ := List.mem_flatMap.1 heffect
  by_contra hne
  exact hnever x hx ⟨x.answer, effect, heffect, base, hne⟩

/-- Storing what is ready upserts segment by segment and then settles the files, each by whether all of its
points landed. -/
theorem yields_upsertReady (ready : List ReadyFile) : (upsertReady s ready).Yields fun r trace =>
    ∃ (runs : List SegmentRun) (settling : List (Exchange indexing)) (failures : List (Nat × String)),
      let size := max s.tuning.batchThreshold 1
      trace = (runs.map (·.call)).flatten ++ settling ∧
        Follows (settleReady failures 0 ready) settling (.done r.1) ∧
        List.Forall₂ (fun points r => r.Upserts s.tuning.retryPolicy points)
          (segmentsOf size (ready.flatMap (·.points))) runs ∧
        (∀ path, ∀ effect ∈ (runs.map (·.call)).flatten.flatMap fun x => Action.effects x.request x.answer,
          ∀ base, effect.onHash path base = base) ∧
        ∀ i file, ready[i]? = some file →
          (settledOutcome failures i = .stored ↔ Landed size ready runs i file) := by
  intro r trace h
  obtain ⟨failures, upserts, rest, rfl, hupserts, hrest⟩ := Program.follows_bind_iff.1 h
  obtain ⟨settled, settling, last, rfl, hsettling, hlast⟩ := Program.follows_bind_iff.1 hrest
  obtain ⟨rfl, rfl⟩ := Program.follows_done_iff.1 hlast
  obtain ⟨runs, rfl, hruns, hfiles⟩ := yields_upsertSegments _ _ _ _ hupserts
  have hsize : 0 < max s.tuning.batchThreshold 1 :=
    Nat.lt_of_lt_of_le Nat.zero_lt_one (Nat.le_max_right _ _)
  refine ⟨runs, settling, failures.files, by rw [List.append_nil], hsettling, ?_,
    fun _ => idle_of_mem_upsertSegments hupserts, fun i file hfile => ?_⟩
  · rw [← Premises.map_snd_tagged, segmentsOf_map, List.forall₂_map_left_iff]
    exact hruns
  · rw [settledOutcome_eq_stored_iff]
    have hlost := exists_entersLost_iff hsize hruns.length_eq.symm hfile
    simp only [hfiles, List.not_mem_nil, false_or, hlost, not_not]

/-- Whatever segments the points are cut into and whichever of them are lost in the end, every ready file has
its one result, in order. A file all of whose points stand in stored segments ends as stored and has its new
hash then; any other one ends as failed and has no hash. -/
theorem stored_with_all_points {trace : List (Exchange indexing)} {results : List ChangeResult}
    {error : Option String} (h : Follows (upsertReady s ready) trace (.done (results, error))) :
    let size := max s.tuning.batchThreshold 1
    ∃ (runs : List SegmentRun) (settling : List (Exchange indexing)),
      trace = (runs.map (·.call)).flatten ++ settling ∧
      (∀ x ∈ settling, ¬Action.upserts x.request = true) ∧
      List.Forall₂ (fun points r => r.Upserts s.tuning.retryPolicy points ∧
          (r.outcome = .ok () ↔ ⟨.upsert points, .ok ()⟩ ∈ r.call))
        (segmentsOf size (ready.flatMap (·.points))) runs ∧
      results.map (·.path) = ready.map (·.path) ∧
      (∀ i file, ready[i]? = some file →
        Landed size ready runs i file ∧ results[i]? = some ⟨file.path, .stored⟩ ∨
        ¬Landed size ready runs i file ∧ ∃ message, results[i]? = some ⟨file.path, .failed message⟩) ∧
      ∀ before after, Trail Scan.ledger before trace after →
        (∀ i file, ready[i]? = some file →
          (∀ k other, i < k → ready[k]? = some other → other.path ≠ file.path) →
          (Landed size ready runs i file → after.get? file.path = some file.hash) ∧
          (¬Landed size ready runs i file → after.get? file.path = none)) ∧
        ∀ path, (∀ file ∈ ready, file.path ≠ path) → after.get? path = before.get? path := by
  intro size
  obtain ⟨runs, settling, failures, htrace, hsettles, hruns, hidle, hlanded⟩ := yields_upsertReady ready _ _ h
  obtain ⟨hresults, heffects⟩ := yields_settleReady _ _ _ _ _ hsettles
  replace hresults : results = _ := hresults
  have hnever : (settleReady failures 0 ready).Never fun a => Action.upserts a = true :=
    never_settleReady (fun _ _ => nofun) (fun _ => nofun) _ _ _
  refine ⟨runs, settling, htrace, hsettles.never hnever, ?_, yields_settleReady_paths _ _ _ _ _ hsettles,
    fun i file hfile => ?_, fun before after htrail =>
    ⟨fun i file hfile hlast => ?_, fun path hnone => ?_⟩⟩
  · exact hruns.imp fun points r hr => ⟨hr, yields_upserting _ _ _ _ hr⟩
  · have hresult : results[i]? = some ⟨file.path, settledOutcome failures i⟩ := by
      rw [hresults, List.getElem?_map, List.getElem?_zipIdx, hfile, Option.map_some, Option.map_some,
        Nat.zero_add]
    rw [hresult, ← hlanded i file hfile]
    by_cases hstored : settledOutcome failures i = .stored
    · exact Or.inl ⟨hstored, by rw [hstored]⟩
    · obtain ⟨message, hfailed⟩ := exists_failed_of_ne hstored
      exact Or.inr ⟨hstored, message, by rw [hfailed]⟩
  · have hafter := get?_of_trail htrail file.path
    rw [htrace, List.flatMap_append, List.foldl_append, heffects, foldl_settlement hfile hlast] at hafter
    rw [hafter, ← hlanded i file hfile]
    exact ⟨fun hstored => if_pos hstored, fun hnot => if_neg hnot⟩
  · have hafter := get?_of_trail htrail path
    rw [htrace, List.flatMap_append, List.foldl_append, heffects,
      Premises.foldl_onHash_of_idle (hidle path)] at hafter
    rw [hafter]
    exact foldl_settlement_of_ne fun entry hentry => hnone _ (List.fst_mem_of_mem_zipIdx hentry)

/-- A point of a line. -/
def linePoint (file : String) (line : Nat) : Point where
  id := pointKey file line line none
  vector := []
  payload :=
    { filePath := file, codeChunk := "", startLine := line, endLine := line, chunkSource := none,
      blockType := none, identifier := none, parentChain := [], hierarchyDisplay := none, pathSegments := [] }

/-- Three files, of which the second has a point in each of two segments and the third has none. -/
def straddling : List ReadyFile :=
  [⟨"/w/a.rs", "a", [linePoint "a.rs" 1]⟩, ⟨"/w/b.rs", "b", [linePoint "b.rs" 1, linePoint "b.rs" 2]⟩,
    ⟨"/w/c.rs", "c", []⟩]

/-- Services with segments of two points. -/
def pairing : Services :=
  { Premises.smallServices with tuning := { Premises.smallServices.tuning with batchThreshold := 2 } }

/-- Storing the three files when the segment of the last point is refused. -/
def halfStored : List (Exchange indexing) × Procedure (List ChangeResult × Option String) × Hashes :=
  Program.advance (Scan.attendCache (fun _ => none) [] (· matches .upsert [_])) 12
    (upsertReady pairing straddling) [("/w/b.rs", "old")]

theorem stored_with_all_points_straddling : ∃ results error,
    Follows (upsertReady pairing straddling) halfStored.1 (.done (results, error)) ∧
      results.map (·.path) = ["/w/a.rs", "/w/b.rs", "/w/c.rs"] ∧
      halfStored.2.2.get? "/w/a.rs" = some "a" ∧ halfStored.2.2.get? "/w/b.rs" = none ∧
      halfStored.2.2.get? "/w/c.rs" = some "c" := by
  have hdone : halfStored.2.1.result? = some ([⟨"/w/a.rs", .stored⟩,
      ⟨"/w/b.rs", .failed "HTTP error: refused"⟩, ⟨"/w/c.rs", .stored⟩],
      some "upsert failed: HTTP error: refused") := by
    decide +kernel
  have hfollows : Follows _ halfStored.1 halfStored.2.1 := Program.follows_advance
  rw [Program.eq_done_of_result? hdone] at hfollows
  obtain ⟨runs, settling, -, -, -, hpaths, hresults, hcache⟩ := stored_with_all_points hfollows
  have htrail : Trail Scan.ledger [("/w/b.rs", "old")] halfStored.1 halfStored.2.2 :=
    Program.trail_advance id (Scan.ledger_attendCache List.nodup_nil)
  have hdistinct : straddling.Pairwise fun file other => other.path ≠ file.path := by decide +kernel
  have hhashes : ∀ (i : Nat) file, straddling[i]? = some file →
      (Landed 2 straddling runs i file → halfStored.2.2.get? file.path = some file.hash) ∧
      (¬Landed 2 straddling runs i file → halfStored.2.2.get? file.path = none) := by
    intro i file hfile
    refine (hcache _ _ htrail).1 i file hfile fun k other hk hother => ?_
    obtain ⟨hi, rfl⟩ := List.getElem?_eq_some_iff.1 hfile
    obtain ⟨hk', rfl⟩ := List.getElem?_eq_some_iff.1 hother
    exact List.pairwise_iff_getElem.1 hdistinct i k hi hk' hk
  refine ⟨_, _, hfollows, hpaths, ?_, ?_, ?_⟩
  · rcases hresults 0 _ rfl with ⟨hlanded, -⟩ | ⟨-, message, hfailed⟩
    · exact (hhashes 0 _ rfl).1 hlanded
    · cases hfailed
  · rcases hresults 1 _ rfl with ⟨-, hstored⟩ | ⟨hlost, -⟩
    · cases hstored
    · exact (hhashes 1 _ rfl).2 hlost
  · rcases hresults 2 _ rfl with ⟨hlanded, -⟩ | ⟨-, message, hfailed⟩
    · exact (hhashes 2 _ rfl).1 hlanded
    · cases hfailed

end Change

end SourceIndex
