import Mathlib.Data.List.Flatten
import SourceIndex.Proofs.Index.Effects
import SourceIndex.Proofs.Index.Histories
/-!
# Which hashes a batch enters, and when

A batch records the hashes of a segment behind the call that stored it (`Premises.Worked` is the log of
segments, `ensures_runSegments_log`). So at every point of a run a file has got a hash of the batch
only if a segment with an item of the file has landed, and at the end it has got one if and only if such a
segment has (`recorded_behind_landed`). As long as all items of a file stand in one segment this means
that all of them have landed. A file whose items are spread over segments gets its hash with the first
one of them that lands, also while others are still to come or fail: `recorded_split_item`.
-/

namespace SourceIndex

/-- The items of one file. -/
def BatchStrategy.itemsOf {α : Type} (strategy : BatchStrategy α) (path : String)
    (items : List α) : List α :=
  items.filter fun item => strategy.filePath item == path

/-- The changes that enter the hashes of items. -/
def BatchStrategy.entries {α : Type} (strategy : BatchStrategy α) (items : List α) : List Effect :=
  items.map fun item => .recorded (strategy.filePath item) (strategy.fileHash item)

namespace Premises

variable {α : Type} {e : Premises} {strategy : BatchStrategy α} {limits : BatchLimits}
  {segment items : List α} {segments landed : List (List α)} {log seen : List Effect}
  {path hash : String}

/-- The log of segments of which those in `landed` were stored: each of them is stored by a call, perhaps
behind others that failed, and then its hashes are entered. -/
inductive Worked (e : Premises) (strategy : BatchStrategy α) :
    List (List α) → List (List α) → List Effect → Prop where
  | nil : Worked e strategy [] [] []
  | landed {segment : List α} {segments landed : List (List α)} {strays : List (List Point)}
      {vectors : List Vector32} {log : List Effect}
      (reliable : (∀ a, ¬e.fails a) → strays = []) (length : vectors.length = segment.length)
      (rest : Worked e strategy segments landed log) :
      Worked e strategy (segment :: segments) (segment :: landed)
        (strays.map .strayed ++ .stored (segment.zipWith strategy.point vectors) ::
          (strategy.entries segment ++ log))
  | lost {segment : List α} {segments landed : List (List α)} {strays : List (List Point)}
      {log : List Effect} (fails : ∃ a, e.fails a) (rest : Worked e strategy segments landed log) :
      Worked e strategy (segment :: segments) landed (strays.map .strayed ++ log)

/-- The calls of a log that stored points are those for the segments in `landed`. -/
def Stored (strategy : BatchStrategy α) (landed : List (List α)) (log : List Effect) : Prop :=
  List.Forall₂ (fun segment points => ∃ vectors : List Vector32,
    vectors.length = segment.length ∧ points = segment.zipWith strategy.point vectors)
    landed (storesOf log)

/-! ## Logs of segments -/

theorem storesOf_entries : storesOf (strategy.entries items) = [] := by
  simp [storesOf, BatchStrategy.entries]

theorem Worked.sublist (h : e.Worked strategy segments landed log) : landed.Sublist segments := by
  induction h with
  | nil => exact .slnil
  | landed reliable length rest ih => exact ih.cons_cons _
  | lost fails rest ih => exact ih.cons _

/-- The items of a file in two lists are those in the one and those in the other. -/
theorem itemsOf_append {more : List α} : strategy.itemsOf path (items ++ more) =
    strategy.itemsOf path items ++ strategy.itemsOf path more :=
  List.filter_append ..

/-- Nothing in a log stores points by a call that succeeds, or has to do with hashes. -/
def Idle (log : List Effect) : Prop :=
  ∀ effect ∈ log, (∀ points, effect ≠ .stored points) ∧
    ∀ path base, effect.onHash path base = base

theorem Idle.storesOf_eq_nil (h : Idle log) : storesOf log = [] := by
  unfold storesOf
  rw [List.filterMap_eq_nil_iff]
  intro effect hmem
  split
  · exact absurd rfl ((h _ hmem).1 _)
  · rfl

theorem Idle.foldl_onHash (h : Idle log) {base : Option String} :
    log.foldl (Effect.onHash path) base = base :=
  foldl_onHash_of_idle fun effect hmem => (h effect hmem).2 path

theorem Idle.of_prefix (h : Idle log) (hseen : seen <+: log) : Idle seen :=
  fun effect hmem => h effect (hseen.subset hmem)

theorem idle_strays (strays : List (List Point)) : Idle (strays.map .strayed) := by
  intro effect hmem
  obtain ⟨part, -, rfl⟩ := List.mem_map.1 hmem
  exact ⟨nofun, fun _ _ => rfl⟩

/-- When the hashes of items were entered, a file has the hash of its last item. -/
theorem foldl_onHash_entries {base : Option String} :
    (strategy.entries items).foldl (Effect.onHash path) base =
      ((strategy.itemsOf path items).getLast?.map strategy.fileHash).or base := by
  induction items generalizing base with
  | nil => rfl
  | cons item items ih =>
    refine ih.trans ?_
    unfold BatchStrategy.itemsOf
    rw [List.filter_cons]
    by_cases h : strategy.filePath item = path
    · rw [if_pos (beq_iff_eq.2 h), List.getLast?_cons, Effect.onHash, if_pos h.symm]
      cases (items.filter fun item => strategy.filePath item == path).getLast? with
      | none => rfl
      | some last => rfl
    · rw [if_neg (by simpa using h), Effect.onHash, if_neg (Ne.symm h)]

/-- Behind the log of segments a file has the hash of the last of its items that landed. -/
theorem Worked.foldl_onHash (h : e.Worked strategy segments landed log) {base : Option String} :
    log.foldl (Effect.onHash path) base =
      ((strategy.itemsOf path landed.flatten).getLast?.map strategy.fileHash).or base := by
  induction h generalizing base with
  | nil => rfl
  | @landed segment segments landed strays vectors log reliable length rest ih =>
    have hstored : Effect.onHash path base (.stored (segment.zipWith strategy.point vectors)) = base :=
      rfl
    rw [List.foldl_append, (idle_strays strays).foldl_onHash, List.foldl_cons, hstored,
      List.foldl_append, foldl_onHash_entries, ih, List.flatten_cons, itemsOf_append,
      List.getLast?_append]
    cases (strategy.itemsOf path landed.flatten).getLast? with
    | none => rfl
    | some last => rfl
  | @lost segment segments landed strays log fails rest ih =>
    rw [List.foldl_append, (idle_strays strays).foldl_onHash, ih]

theorem Worked.stored (h : e.Worked strategy segments landed log) : Stored strategy landed log := by
  induction h with
  | nil => exact .nil
  | @landed segment segments landed strays vectors log reliable length rest ih =>
    rw [Stored, storesOf_append, (idle_strays strays).storesOf_eq_nil, storesOf_stored,
      storesOf_append, storesOf_entries]
    exact .cons ⟨vectors, length, rfl⟩ ih
  | @lost segment segments landed strays log fails rest ih =>
    rw [Stored, storesOf_append, (idle_strays strays).storesOf_eq_nil]
    exact ih

/-! ## Beginnings of logs -/

/-- Some of the segments have landed, and a file has the hash it had or that of an item in these. -/
def Behind (strategy : BatchStrategy α) (segments : List (List α)) (log : List Effect) : Prop :=
  ∃ landed, landed.Sublist segments ∧ Stored strategy landed log ∧
    ∀ path base, log.foldl (Effect.onHash path) base = base ∨
      ∃ item ∈ strategy.itemsOf path landed.flatten,
        log.foldl (Effect.onHash path) base = some (strategy.fileHash item)

theorem Behind.nil : Behind strategy segments [] :=
  ⟨[], List.nil_sublist _, .nil, fun _ _ => Or.inl rfl⟩

/-- What stores nothing and enters no hash may stand in front. -/
theorem Behind.append_idle (h : Behind strategy segments log) (hidle : Idle seen) :
    Behind strategy segments (seen ++ log) := by
  obtain ⟨landed, hsub, hstored, hhashes⟩ := h
  refine ⟨landed, hsub, ?_, fun path base => ?_⟩
  · rw [Stored, storesOf_append, hidle.storesOf_eq_nil]
    exact hstored
  · rw [List.foldl_append, hidle.foldl_onHash]
    exact hhashes path base

theorem Behind.of_idle (hidle : Idle seen) : Behind strategy segments seen := by
  have h : Behind strategy segments [] := .nil
  have happend := h.append_idle hidle
  rwa [List.append_nil] at happend

theorem Behind.cons (h : Behind strategy segments log) :
    Behind strategy (segment :: segments) log := by
  obtain ⟨landed, hsub, hrest⟩ := h
  exact ⟨landed, hsub.cons _, hrest⟩

/-- A segment lands, and some of its hashes are entered. -/
theorem Behind.land {vectors : List Vector32} {entered : List Effect}
    (h : Behind strategy segments log) (length : vectors.length = segment.length)
    (hentered : entered <+: strategy.entries segment) :
    Behind strategy (segment :: segments)
      (.stored (segment.zipWith strategy.point vectors) :: (entered ++ log)) := by
  obtain ⟨landed, hsub, hstored, hhashes⟩ := h
  obtain ⟨part, hpart, rfl⟩ : ∃ part, part <+: segment ∧ entered = strategy.entries part := by
    refine ⟨segment.take entered.length, List.take_prefix _ _, ?_⟩
    rw [BatchStrategy.entries, List.map_take]
    exact List.prefix_iff_eq_take.1 hentered
  refine ⟨segment :: landed, hsub.cons_cons _, ?_, fun path base => ?_⟩
  · rw [Stored, storesOf_stored, storesOf_append, storesOf_entries]
    exact .cons ⟨vectors, length, rfl⟩ hstored
  · have hfold : (Effect.stored (segment.zipWith strategy.point vectors) ::
          (strategy.entries part ++ log)).foldl (Effect.onHash path) base =
        log.foldl (Effect.onHash path)
          (((strategy.itemsOf path part).getLast?.map strategy.fileHash).or base) := by
      rw [List.foldl_cons, List.foldl_append, ← foldl_onHash_entries]
      rfl
    rw [hfold, List.flatten_cons, itemsOf_append]
    rcases hhashes path (((strategy.itemsOf path part).getLast?.map strategy.fileHash).or base)
      with heq | ⟨item, hitem, heq⟩
    · rw [heq]
      cases hlast : (strategy.itemsOf path part).getLast? with
      | none => exact Or.inl rfl
      | some last =>
        refine Or.inr ⟨last, List.mem_append_left _ ?_, rfl⟩
        exact (hpart.filter _).subset (List.mem_of_getLast? hlast)
    · exact Or.inr ⟨item, List.mem_append_right _ hitem, heq⟩

/-- The beginning of two lists together is one of the first, or the first with a beginning of the second. -/
theorem prefix_append_cases {ε : Type} {seen first second : List ε} (h : seen <+: first ++ second) :
    seen <+: first ∨ ∃ rest, seen = first ++ rest ∧ rest <+: second := by
  rcases List.prefix_or_prefix_of_prefix h (List.prefix_append first second) with h' | ⟨rest, rfl⟩
  · exact Or.inl h'
  · exact Or.inr ⟨rest, rfl, (List.prefix_append_right_inj first).1 h⟩

/-- On its way the log of segments has only hashes of items in segments that have landed. -/
theorem Worked.behind (h : e.Worked strategy segments landed log) (hseen : seen <+: log) :
    Behind strategy segments seen := by
  induction h generalizing seen with
  | nil =>
    rw [List.prefix_nil.1 hseen]
    exact .nil
  | @landed segment segments landed strays vectors log reliable length rest ih =>
    have hidle := idle_strays strays
    rcases prefix_append_cases hseen with hstrays | ⟨tail, rfl, htail⟩
    · exact .of_idle (hidle.of_prefix hstrays)
    refine Behind.append_idle ?_ hidle
    rcases List.prefix_cons_iff.1 htail with rfl | ⟨entered, rfl, hentered⟩
    · exact .nil
    rcases prefix_append_cases hentered with hentered | ⟨more, rfl, hmore⟩
    · have hnil : Behind strategy segments [] := .nil
      have hland := hnil.land length hentered
      rwa [List.append_nil] at hland
    · exact (ih hmore).land length (List.prefix_refl _)
  | @lost segment segments landed strays log fails rest ih =>
    have hidle := idle_strays strays
    rcases prefix_append_cases hseen with hstrays | ⟨more, rfl, hmore⟩
    · exact .of_idle (hidle.of_prefix hstrays)
    · exact (ih hmore).cons.append_idle hidle

/-! ## Runs of a batch -/

/-- One try stores a segment, or fails and may leave strays. -/
theorem ensures_embedAndUpsert_log :
    (Batch.embedAndUpsert strategy segment).Ensures e.logs log fun x log' =>
      x = .ok () ∧ (∃ vectors : List Vector32, vectors.length = segment.length ∧
        log' = log ++ [.stored (segment.zipWith strategy.point vectors)]) ∨
      (∃ failure, x = .error failure) ∧ (∃ a, e.fails a) ∧
        ∃ strays : List (List Point), log' = log ++ strays.map .strayed := by
  unfold Batch.embedAndUpsert
  refine ensures_log_bind fun x effects ⟨heffects, hx⟩ => ?_
  rw [heffects, List.append_nil]
  have gaveUp : ∀ {failure : IndexError}, (∃ a, e.fails a) →
      Program.Ensures e.logs (pure (.error failure) : Procedure (Except IndexError Unit)) log
        fun x log' => x = .ok () ∧ (∃ vectors : List Vector32, vectors.length = segment.length ∧
            log' = log ++ [.stored (segment.zipWith strategy.point vectors)]) ∨
          (∃ failure, x = .error failure) ∧ (∃ a, e.fails a) ∧
            ∃ strays : List (List Point), log' = log ++ strays.map .strayed := fun hfails =>
    Program.ensures_pure.2 (Or.inr ⟨⟨_, rfl⟩, hfails, [], (List.append_nil log).symm⟩)
  cases x with
  | error failure =>
    rcases hx with ⟨_, hx, -⟩ | hfails
    · cases hx
    · exact gaveUp ⟨_, hfails⟩
  | ok embeddings =>
    refine Program.ensures_ite (fun hlen => ?_) fun hlen => ?_
    · rcases hx with ⟨_, hx, hlen'⟩ | hfails
      · cases hx
        rw [List.length_map] at hlen'
        simp [hlen'] at hlen
      · exact gaveUp ⟨_, hfails⟩
    · have hlen : embeddings.vectors.length = segment.length := by simpa using hlen
      refine ensures_log_bind fun y effects hy => ?_
      rcases hy with ⟨rfl, rfl⟩ | ⟨hfails, ⟨failure, rfl⟩, part, -, rfl⟩
      · exact Program.ensures_pure.2 (Or.inl ⟨rfl, embeddings.vectors, hlen, rfl⟩)
      · exact Program.ensures_pure.2 (Or.inr ⟨⟨_, rfl⟩, ⟨_, hfails⟩, [part], rfl⟩)

theorem ensures_recordHashes_log :
    (Batch.recordHashes strategy items).Ensures e.logs log fun _ log' =>
      log' = log ++ strategy.entries items := by
  induction items generalizing log with
  | nil => exact Program.ensures_pure.2 (List.append_nil log).symm
  | cons item items ih =>
    refine ensures_log_bind fun _ effects heffects => ?_
    have heffects : effects = [.recorded (strategy.filePath item) (strategy.fileHash item)] :=
      heffects
    rw [heffects]
    refine ih.mono fun _ log' h => ?_
    rw [h, List.append_assoc]
    rfl

/-- The log of one segment, and its result. -/
theorem ensures_runSegment_log :
    (Batch.runSegment strategy limits segment).Ensures e.logs log fun r log' =>
      ∃ strays : List (List Point), ((∀ a, ¬e.fails a) → strays = []) ∧
        (r = Batch.succeeded strategy segment ∧ (∃ vectors : List Vector32,
          vectors.length = segment.length ∧ log' = log ++ (strays.map .strayed ++
            .stored (segment.zipWith strategy.point vectors) :: strategy.entries segment)) ∨
        (∃ message, r = Batch.gaveUp strategy limits segment message) ∧ (∃ a, e.fails a) ∧
          log' = log ++ strays.map .strayed) := by
  unfold Batch.runSegment
  let again (log₁ : List Effect) : Prop := ∃ strays : List (List Point),
    ((∀ a, ¬e.fails a) → strays = []) ∧ log₁ = log ++ strays.map .strayed
  let post (x : Except IndexError Unit) (log₁ : List Effect) : Prop :=
    x = .ok () ∧ (∃ strays : List (List Point), ∃ vectors : List Vector32,
      ((∀ a, ¬e.fails a) → strays = []) ∧ vectors.length = segment.length ∧
        log₁ = log ++ strays.map .strayed ++ [.stored (segment.zipWith strategy.point vectors)]) ∨
    (∃ failure, x = .error failure) ∧ (∃ a, e.fails a) ∧ again log₁
  refine Program.Ensures.bind (RetryPolicy.ensures_run again post ?_ ?_
    ⟨[], fun _ => rfl, (List.append_nil log).symm⟩) ?_
  · refine fun d log₁ => ensures_log_ask fun _ effects heffects => ?_
    have heffects : effects = [] := heffects
    rw [heffects, List.append_nil]
  · rintro log₁ ⟨strays, hreliable, rfl⟩
    refine ensures_embedAndUpsert_log.mono fun x log₂ hx => ?_
    rcases hx with ⟨rfl, vectors, hlen, rfl⟩ | ⟨hfailure, hfails, more, rfl⟩
    · exact ⟨Or.inl ⟨rfl, strays, vectors, hreliable, hlen, rfl⟩, nofun⟩
    · have hboth : again (log ++ strays.map .strayed ++ more.map .strayed) := by
        obtain ⟨a, ha⟩ := hfails
        refine ⟨strays ++ more, fun reliable => absurd ha (reliable a), ?_⟩
        rw [List.map_append, List.append_assoc]
      exact ⟨Or.inr ⟨hfailure, hfails, hboth⟩, fun _ _ => hboth⟩
  · intro x log₁ hx
    rcases hx with ⟨rfl, strays, vectors, hreliable, hlen, rfl⟩ |
      ⟨⟨failure, rfl⟩, hfails, strays, hreliable, rfl⟩
    · refine ensures_recordHashes_log.bind fun _ log₂ h₂ => Program.ensures_pure.2 ?_
      refine ⟨strays, hreliable, Or.inl ⟨rfl, vectors, hlen, ?_⟩⟩
      rw [h₂, List.append_assoc, List.append_assoc]
      rfl
    · exact Program.ensures_pure.2 ⟨strays, hreliable, Or.inr ⟨⟨_, rfl⟩, hfails, rfl⟩⟩

/-- The log of segments, and the files that have lost items: those of which some did not land. -/
theorem ensures_runSegments_log {progress : Nat → Nat → Procedure Unit}
    (quiet : ∀ a b log, (progress a b).Ensures e.logs log fun _ log' => log' = log)
    (r : BatchResult) :
    (Batch.runSegments strategy limits progress r segments).Ensures e.logs log fun r' log' =>
      ∃ landed new, log' = log ++ new ∧ e.Worked strategy segments landed new ∧
        ∀ path, r'.Lost path ↔ r.Lost path ∨
          strategy.itemsOf path landed.flatten ≠ strategy.itemsOf path segments.flatten := by
  induction segments generalizing r log with
  | nil =>
    refine Program.ensures_pure.2 ⟨[], [], (List.append_nil log).symm, .nil, fun path => ?_⟩
    simp
  | cons segment segments ih =>
    refine ensures_runSegment_log.bind fun r₁ log₁ ⟨strays, hreliable, h₁⟩ => ?_
    refine (quiet _ _ log₁).bind fun _ log₂ h₂ => ?_
    rw [h₂]
    refine (ih (r.merge r₁)).mono fun r' log' ⟨landed, new, hlog, hworked, hlost⟩ => ?_
    rw [List.flatten_cons]
    rcases h₁ with ⟨rfl, ⟨vectors, hlen, rfl⟩⟩ | ⟨⟨message, rfl⟩, hfails, rfl⟩
    · refine ⟨segment :: landed, _, ?_, .landed hreliable hlen hworked, fun path => ?_⟩
      · rw [hlog, List.append_assoc, List.append_assoc, List.cons_append]
      · rw [hlost, BatchResult.lost_merge, or_iff_left Batch.not_lost_succeeded,
          List.flatten_cons, itemsOf_append, itemsOf_append, Ne, Ne, List.append_cancel_left_eq]
    · refine ⟨landed, strays.map .strayed ++ new, ?_, .lost hfails hworked, fun path => ?_⟩
      · rw [hlog, List.append_assoc]
      rw [hlost, BatchResult.lost_merge, Batch.lost_gaveUp, or_assoc, itemsOf_append]
      refine or_congr_right ?_
      have hsub : (strategy.itemsOf path landed.flatten).Sublist
          (strategy.itemsOf path segments.flatten) := hworked.sublist.flatten.filter _
      by_cases hin : ∃ item ∈ segment, strategy.filePath item = path
      · refine iff_of_true (Or.inl hin) fun heq => ?_
        obtain ⟨item, hitem, hpath⟩ := hin
        have hpos : 0 < (strategy.itemsOf path segment).length :=
          List.length_pos_of_mem (List.mem_filter.2 ⟨hitem, beq_iff_eq.2 hpath⟩)
        have hlen := hsub.length_le
        rw [heq, List.length_append] at hlen
        omega
      · have hnil : strategy.itemsOf path segment = [] :=
          List.filter_eq_nil_iff.2 fun item hitem heq => hin ⟨item, hitem, beq_iff_eq.1 heq⟩
        rw [hnil, List.nil_append, or_iff_right hin]

/-- What stands in the log of a batch in front of its segments: the deletion of the old points of replaced
files, made or refused. -/
inductive Opening (e : Premises) (strategy : BatchStrategy α) (items : List α) :
    List Effect → Prop where
  | idle (none : items = [] ∨ strategy.staleFiles items = []) : Opening e strategy items []
  | deleted : Opening e strategy items [.deleted (strategy.staleFiles items)]
  | refused (fails : ∃ a, e.fails a) :
      Opening e strategy items [.refused (strategy.staleFiles items)]

theorem ensures_deleteStale_log :
    (Batch.deleteStale (strategy.staleFiles items)).Ensures e.logs log fun _ log' =>
      ∃ opening, e.Opening strategy items opening ∧ log' = log ++ opening := by
  unfold Batch.deleteStale
  refine Program.ensures_ite (fun hempty => ?_) fun _ => ?_
  · exact Program.ensures_pure.2
      ⟨[], .idle (Or.inr (List.isEmpty_iff.1 hempty)), (List.append_nil log).symm⟩
  · refine ensures_log_bind fun x effects hx => ?_
    rcases hx with ⟨rfl, rfl⟩ | ⟨hfails, ⟨failure, rfl⟩, rfl⟩
    · exact Program.ensures_pure.2 ⟨_, .deleted, rfl⟩
    · exact Program.ensures_pure.2 ⟨_, .refused ⟨_, hfails⟩, rfl⟩

/-- The log of a batch, and the files that have lost items: those of which some did not land. -/
theorem ensures_process_log {progress : Nat → Nat → Procedure Unit}
    (quiet : ∀ a b log, (progress a b).Ensures e.logs log fun _ log' => log' = log) :
    (Batch.process strategy limits progress items).Ensures e.logs log fun r log' =>
      ∃ opening landed new, e.Opening strategy items opening ∧
        e.Worked strategy (segmentsOf limits.segmentSize items) landed new ∧
        log' = log ++ (opening ++ new) ∧
        ∀ path, r.Lost path ↔
          strategy.itemsOf path landed.flatten ≠ strategy.itemsOf path items := by
  unfold Batch.process
  refine Program.ensures_ite (fun hempty => ?_) fun _ => ?_
  · have hnil := List.isEmpty_iff.1 hempty
    subst hnil
    refine Program.ensures_pure.2 ⟨[], [], [], .idle (Or.inl rfl), ?_, (List.append_nil log).symm,
      fun path => iff_of_false (BatchResult.not_lost_empty path) fun hne => hne rfl⟩
    rw [segmentsOf]
    exact .nil
  · refine ensures_deleteStale_log.bind fun errors log₁ h₁ => ?_
    obtain ⟨opening, hopening, h₁⟩ := h₁
    refine (ensures_runSegments_log quiet _).mono fun r log' h' => ?_
    obtain ⟨landed, new, h', hworked, hlost⟩ := h'
    refine ⟨opening, landed, new, hopening, hworked, ?_, fun path => ?_⟩
    · rw [h', h₁, List.append_assoc]
    · rw [hlost, flatten_segmentsOf, or_iff_right]
      rintro ⟨_, hmem, -⟩
      cases hmem

/-- In front of the segments nothing is stored and no hash is entered. -/
theorem Opening.idle_log {opening : List Effect} (h : e.Opening strategy items opening) :
    Idle opening := by
  intro effect hmem
  cases h with
  | idle => cases hmem
  | deleted =>
    rw [List.mem_singleton.1 hmem]
    exact ⟨nofun, fun _ _ => rfl⟩
  | refused =>
    rw [List.mem_singleton.1 hmem]
    exact ⟨nofun, fun _ _ => rfl⟩

/-! ## Hashes and landed items -/

/-- If all items of a file stand in one segment, they have landed as soon as one of them has. -/
theorem itemsOf_landed_eq (hsub : landed.Sublist segments) (hin : segment ∈ segments)
    (hall : strategy.itemsOf path segment = strategy.itemsOf path segments.flatten)
    (hsome : strategy.itemsOf path landed.flatten ≠ []) :
    strategy.itemsOf path landed.flatten = strategy.itemsOf path segments.flatten := by
  have hflat : (strategy.itemsOf path landed.flatten).Sublist
      (strategy.itemsOf path segments.flatten) := hsub.flatten.filter _
  obtain ⟨before, behind, rfl⟩ := List.append_of_mem hin
  -- no other segment has items of the file
  have hnone : strategy.itemsOf path before.flatten = [] ∧
      strategy.itemsOf path behind.flatten = [] := by
    have hlen := congrArg List.length hall
    rw [List.flatten_append, List.flatten_cons, itemsOf_append, itemsOf_append, List.length_append,
      List.length_append] at hlen
    exact ⟨List.length_eq_zero_iff.1 (by omega), List.length_eq_zero_iff.1 (by omega)⟩
  have hmem : segment ∈ landed := by
    refine Classical.byContradiction fun hnot => hsome ?_
    obtain ⟨first, second, rfl, hfirst, hsecond⟩ := List.sublist_append_iff.1 hsub
    have hsecond : second.Sublist behind := by
      rcases List.sublist_cons_iff.1 hsecond with h | ⟨rest, rfl, -⟩
      · exact h
      · exact absurd (List.mem_append_right first List.mem_cons_self) hnot
    have h₁ : strategy.itemsOf path first.flatten = [] :=
      List.sublist_nil.1 (hnone.1 ▸ hfirst.flatten.filter _)
    have h₂ : strategy.itemsOf path second.flatten = [] :=
      List.sublist_nil.1 (hnone.2 ▸ hsecond.flatten.filter _)
    rw [List.flatten_append, itemsOf_append, h₁, h₂, List.append_nil]
  refine hflat.antisymm ?_
  rw [← hall]
  exact (List.sublist_flatten_of_mem hmem).filter _

/-- At every point of a batch, whatever fails, a file has the hash that it had before or that of one of its
items that have landed: that stand in segments which were stored by a call that succeeded. So a file
whose items all stand in one segment gets a hash only behind all of them. At the end each file has the
hash of the last of its items that landed, and it counts as failed if and only if some of its items did
not land: a file gets a new hash although it failed exactly if some, but not all of its items landed. -/
theorem recorded_behind_landed {progress : Nat → Nat → Procedure Unit} {L : Scene}
    (quiet : ∀ a b log, (progress a b).Ensures e.logs log fun _ log' => log' = log) :
    (∀ L', Program.Passes e.rules (Batch.process strategy limits progress items) L L' →
      ∃ landed log, L' = L.replay log ∧ landed.Sublist (segmentsOf limits.segmentSize items) ∧
        Stored strategy landed log ∧ ∀ path, L'.hashes.get? path ≠ L.hashes.get? path →
          (∃ item ∈ strategy.itemsOf path landed.flatten,
            L'.hashes.get? path = some (strategy.fileHash item)) ∧
          ((∃ segment ∈ segmentsOf limits.segmentSize items,
              strategy.itemsOf path segment = strategy.itemsOf path items) →
            strategy.itemsOf path landed.flatten = strategy.itemsOf path items)) ∧
    ∀ r L', Program.Ends e.rules (Batch.process strategy limits progress items) L r L' →
      ∃ landed log, L' = L.replay log ∧ landed.Sublist (segmentsOf limits.segmentSize items) ∧
        Stored strategy landed log ∧ ∀ path,
          L'.hashes.get? path =
            ((strategy.itemsOf path landed.flatten).getLast?.map strategy.fileHash).or
              (L.hashes.get? path) ∧
          (r.Lost path ↔ strategy.itemsOf path landed.flatten ≠ strategy.itemsOf path items) := by
  constructor
  · intro L' h
    obtain ⟨log, hpasses, hreplay⟩ := h.exists_log e.does []
    obtain ⟨r, whole, hends, hprefix⟩ := hpasses.exists_ends e.emits_total
    obtain ⟨opening, all, new, hopening, hworked, rfl, -⟩ := ensures_process_log quiet _ _ hends
    rw [List.nil_append, List.nil_append] at hprefix
    have hbehind : Behind strategy (segmentsOf limits.segmentSize items) log := by
      rcases prefix_append_cases hprefix with hopened | ⟨rest, rfl, hrest⟩
      · exact .of_idle (hopening.idle_log.of_prefix hopened)
      · exact (hworked.behind hrest).append_idle hopening.idle_log
    obtain ⟨landed, hsub, hstored, hhashes⟩ := hbehind
    refine ⟨landed, log, hreplay, hsub, hstored, fun path hne => ?_⟩
    have hget : L'.hashes.get? path = log.foldl (Effect.onHash path) (L.hashes.get? path) :=
      hreplay ▸ get?_replay
    obtain ⟨item, hitem, heq⟩ := (hhashes path (L.hashes.get? path)).resolve_left
      fun heq => hne (hget.trans heq)
    refine ⟨⟨item, hitem, hget.trans heq⟩, fun ⟨segment, hin, hall⟩ => ?_⟩
    have hflat := flatten_segmentsOf limits.segmentSize items
    have hlanded := itemsOf_landed_eq hsub hin (hflat.symm ▸ hall) (List.ne_nil_of_mem hitem)
    rwa [hflat] at hlanded
  · intro r L' h
    obtain ⟨log, hends, hreplay⟩ := h.exists_log e.does []
    obtain ⟨opening, landed, new, hopening, hworked, hlog, hlost⟩ :=
      ensures_process_log quiet _ _ hends
    rw [List.nil_append, List.nil_append] at hlog
    refine ⟨landed, log, hreplay, hworked.sublist, ?_, fun path => ⟨?_, hlost path⟩⟩
    · rw [Stored, hlog, storesOf_append, hopening.idle_log.storesOf_eq_nil]
      exact hworked.stored
    · have hget : L'.hashes.get? path = log.foldl (Effect.onHash path) (L.hashes.get? path) :=
        hreplay ▸ get?_replay
      rw [hget, hlog, List.foldl_append, hopening.idle_log.foldl_onHash, hworked.foldl_onHash]

/-! ### A file whose items lie in two segments -/

/-- A paragraph of a note, on a line of its own. -/
def paragraph (line : Nat) (content : String) : PendingBlock where
  block :=
    { filePath := "/w/a.md"
      identifier := none
      blockType := "t"
      startLine := line
      endLine := line
      lineOffset := none
      content
      fileHash := "new hash"
      segmentHash := "s"
      chunkSource := .fallback
      parentChain := []
      hierarchyDisplay := none }
  replaces := false

/-- Two paragraphs of one note. -/
def note : List PendingBlock :=
  [paragraph 1 "The first paragraph.", paragraph 2 "The second paragraph."]

/-- Segments of one item, each tried once. -/
def single : BatchLimits where
  segmentSize := 1
  retry := { maxAttempts := 1 }

/-- The batch of the note. -/
def noteBatch : Procedure BatchResult :=
  Batch.process (blockStrategy small.root) single (fun _ _ => pure ()) note

/-- Whether a request stores a point of the second line. -/
def storesSecond : Action → Bool
  | .upsert points => points.any (·.payload.startLine == 2)
  | _ => false

/-- What is left of the batch when the second paragraph cannot be stored. -/
def noteRun : BatchResult × Scene :=
  noteBatch.run (respond [] storesSecond) { files := fun _ => none }

theorem ends_noteRun :
    Program.Ends small.rules noteBatch { files := fun _ => none } noteRun.1 noteRun.2 := by
  refine ends_respond [] storesSecond List.nodup_nil (List.forall_mem_nil _) (fun a h => ?_) _ _
  cases a with
  | upsert points => exact trivial
  | _ => cases h

/-- The first paragraph lands and brings the hash of the note into the cache; the second one fails, and its
point is not in the store. -/
theorem recorded_split_item : ∃ r L',
    Program.Ends small.rules noteBatch { files := fun _ => none } r L' ∧
      L'.hashes.get? "/w/a.md" = some "new hash" ∧ r.Lost "/w/a.md" ∧
      ∃ item ∈ note, item.block.filePath = "/w/a.md" ∧
        ∀ q ∈ L'.points, q.id ≠ (small.itemPoint item []).id := by
  refine ⟨_, _, ends_noteRun, by decide +kernel, ?_, _, List.mem_cons_of_mem _ List.mem_cons_self, rfl,
    by decide +kernel⟩
  exact BatchResult.mem_failedFiles.1 (by decide +kernel)

/-- The batch of the note ends with the hash of its first paragraph, the only one that landed. -/
theorem recorded_behind_landed_note : ∃ landed log,
    noteRun.2 = Scene.replay { files := fun _ => none } log ∧ landed.Sublist [[note[0]], [note[1]]] ∧
      Stored (blockStrategy small.root) landed log ∧
      (noteRun.1.Lost "/w/a.md" ↔
        (blockStrategy small.root).itemsOf "/w/a.md" landed.flatten ≠ note) := by
  obtain ⟨landed, log, hreplay, hsub, hstored, hend⟩ := (recorded_behind_landed
    (fun _ _ _ => Program.ensures_pure.2 rfl)).2 _ _ ends_noteRun
  have hsegments : segmentsOf single.segmentSize note = [[note[0]], [note[1]]] := by decide +kernel
  exact ⟨landed, log, hreplay, hsegments ▸ hsub, hstored, (hend "/w/a.md").2⟩

end Premises

end SourceIndex
