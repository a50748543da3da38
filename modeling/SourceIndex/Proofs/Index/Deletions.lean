import SourceIndex.Proofs.Index.Accounts
import SourceIndex.Proofs.Index.Outcomes
/-!
# One deletion, in front of all upserts

A batch of changes reads and embeds all of its files before it touches the store. Then it deletes the old
points of the deleted files and of those that are ready, by one call, and upserts behind it. If the call is
refused, what is left of the batch only tells: `Premises.unchanged_of_trail` says that exchanges which do
nothing but being refused leave the cache and the stored points alone.
-/

namespace SourceIndex

open Program (Exchange Follows Never Reaches Trail)

/-- The files whose points a request deletes. -/
def Action.deletion? : Action → Option (List String)
  | .deletePoints names => some names
  | _ => none

/-- The exchange does nothing to store and cache, unless it is a deletion that is refused. -/
def Harmless (x : Exchange indexing) : Prop :=
  ∀ effect ∈ Action.effects x.request x.answer, ∃ names, effect = .refused names

/-- What may do nothing is harmless. -/
theorem harmless_of_not_may {x : Exchange indexing} (h : ¬Action.May (fun _ => True) x.request) : Harmless x :=
  fun effect heffect => absurd ⟨x.answer, effect, heffect, trivial⟩ h

namespace Premises

variable {e : Premises} {L L' : Scene} {trace : List (Exchange indexing)}

/-- A harmless exchange leaves cache and points as they were. -/
theorem unchanged_of_rules {a : Action} {x : a.Answer} (hx : Harmless ⟨a, x⟩) (h : e.rules a L x L') :
    L'.hashes = L.hashes ∧ L'.points = L.points := by
  have hnot : ∀ {effect : Effect}, Action.effects a x = [effect] → (∀ names, effect ≠ .refused names) →
      False := by
    intro effect heffects hne
    obtain ⟨names, hrefused⟩ := hx effect (heffects ▸ List.mem_singleton.2 rfl)
    exact hne names hrefused
  cases a with
  | upsert points =>
    cases x with
    | ok => exact (hnot rfl nofun).elim
    | error failure => exact (hnot rfl nofun).elim
  | deletePoints names =>
    cases x with
    | ok => exact (hnot rfl nofun).elim
    | error failure =>
      rcases h with ⟨hx, -⟩ | ⟨-, -, rfl⟩
      · cases hx
      · exact ⟨rfl, rfl⟩
  | prepareStore =>
    rcases h with ⟨rfl, -⟩ | ⟨-, rfl⟩ | ⟨-, -, rfl⟩
    · exact (hnot rfl nofun).elim
    · exact ⟨rfl, rfl⟩
    · exact ⟨rfl, rfl⟩
  | clearStore =>
    rcases h with ⟨rfl, -⟩ | ⟨-, -, rfl⟩
    · exact (hnot rfl nofun).elim
    · exact ⟨rfl, rfl⟩
  | dropStore =>
    rcases h with ⟨rfl, -⟩ | ⟨-, -, rfl⟩
    · exact (hnot rfl nofun).elim
    · exact ⟨rfl, rfl⟩
  | recordHash path hash => exact (hnot rfl nofun).elim
  | forgetHashes paths => exact (hnot rfl nofun).elim
  | clearCache => exact (hnot rfl nofun).elim
  | embed | storedPaths | listFiles | readFile | hashes =>
    cases h.1
    exact ⟨rfl, rfl⟩
  | _ =>
    cases h
    exact ⟨rfl, rfl⟩

theorem unchanged_of_trail (h : Trail e.rules L trace L') (harmless : ∀ x ∈ trace, Harmless x) :
    L'.hashes = L.hashes ∧ L'.points = L.points := by
  induction h with
  | nil s => exact ⟨rfl, rfl⟩
  | cons answer rest ih =>
    obtain ⟨hx, hrest⟩ := List.forall_mem_cons.1 harmless
    obtain ⟨hhashes, hpoints⟩ := unchanged_of_rules hx answer
    obtain ⟨hhashes', hpoints'⟩ := ih hrest
    exact ⟨hhashes'.trans hhashes, hpoints'.trans hpoints⟩

end Premises

namespace Change

variable {s : Services} {kind : Action → Prop}

/-- If old points could not be deleted, the deleted files are only told of. -/
theorem never_settleDeleted_refused (tell : ∀ event, ¬kind (.tellBatch event)) (total : Nat) (t : Tally)
    (paths : List String) : (settleDeleted total true t paths).Never kind := by
  induction paths generalizing t with
  | nil => trivial
  | cons path paths ih => exact Program.guarded_ask_bind (tell _) fun _ => Or.inr (ih _)

/-- No points are deleted while files are processed, and none while ready ones are filled in. -/
theorem spares_deletion : Spares fun a => a.deletion?.isSome = true where
  size _ := nofun
  read _ := nofun
  hashes := nofun
  embed _ := nofun

theorem never_deletes_fill (refusal : Option String) (ready : List ReadyFile) :
    (fill s refusal ready).Never fun a => (Action.deletion? a).isSome = true :=
  never_fill (fun _ => nofun) (fun _ => nofun) (fun _ _ => nofun) (fun _ => nofun) refusal ready

/-- If no file is ready, nothing is requested for any. -/
theorem never_fill_nil (refusal : Option String) : (fill s refusal []).Never kind := by
  cases refusal with
  | some e => trivial
  | none =>
    have hnone : segmentsOf (max s.tuning.batchThreshold 1) (tagged []) = [] := by
      rw [tagged, List.zipIdx_nil, List.flatMap_nil, segmentsOf]
    rw [fill, upsertReady, hnone]
    trivial

end Change

namespace Course

variable {s : Services} {turns : List String → List Nat} {changes : Changes}
  {trace before behind : List (Exchange indexing)} {results : List ChangeResult}

/-- The files whose old points a batch deletes: the deleted ones and those that are ready. -/
def stale (c : Course s turns changes trace results) : List String :=
  changes.deletedPaths ++ (Change.readyOf c.outcomes).map (·.path)

/-- Their names in the store. -/
def names (c : Course s turns changes trace results) : List String :=
  c.stale.map (Path.relativeTo s.root)

/-- What a batch exchanges up to the deletion. -/
def front (c : Course s turns changes trace results) : List (Exchange indexing) :=
  ⟨.tellBatch (.start (Path.sort (changes.map (·.1)))), ()⟩ :: (c.working ++ c.deletion)

variable (c : Course s turns changes trace results) {kind : Action → Prop} {e : Exchange indexing}
  {failure : ServiceError}

/-! ### The parts of a batch -/

theorem exists_trace_eq : ∃ closing, trace = c.front ++ (c.settling ++ (c.filling ++ closing)) :=
  ⟨_, c.trace_eq.trans (by rw [front, List.cons_append, List.append_assoc])⟩

theorem sublist_working : c.working.Sublist trace := by
  obtain ⟨closing, htrace⟩ := c.exists_trace_eq
  have hfront : c.working.Sublist c.front := (List.sublist_append_left ..).cons _
  have hsub := hfront.trans (List.sublist_append_left c.front (c.settling ++ (c.filling ++ closing)))
  rwa [← htrace] at hsub

/-- What is exchanged tells something, or belongs to one of the parts of the batch. -/
theorem mem_cases (h : e ∈ trace) : (∃ event, e.request = Action.tellBatch event) ∨
    e ∈ c.working ∨ e ∈ c.deletion ∨ e ∈ c.settling ∨ e ∈ c.filling := by
  rw [c.trace_eq] at h
  simp only [List.mem_cons, List.mem_append, List.not_mem_nil, or_false] at h
  rcases h with rfl | h | h | h | h | rfl | rfl
  · exact Or.inl ⟨_, rfl⟩
  · exact Or.inr (Or.inl h)
  · exact Or.inr (Or.inr (Or.inl h))
  · exact Or.inr (Or.inr (Or.inr (Or.inl h)))
  · exact Or.inr (Or.inr (Or.inr (Or.inr h)))
  · exact Or.inl ⟨_, rfl⟩
  · exact Or.inl ⟨_, rfl⟩

theorem never_working (spares : Change.Spares kind) (tell : ∀ event, ¬kind (.tellBatch event)) :
    ∀ e ∈ c.working, ¬kind e.request :=
  c.works.never (Change.guarded_processGroupsAbreast (Change.never_processFile spares) tell _ _ _)

theorem never_settling (kind : Action → Prop) (tell : ∀ event, ¬kind (.tellBatch event))
    (forget : ∀ paths, ¬kind (.forgetHashes paths)) : ∀ e ∈ c.settling, ¬kind e.request := by
  obtain ⟨t', hsettles⟩ := c.settles
  exact hsettles.never (Change.never_settleDeleted tell forget _ _ _ _)

/-- The deletion is one call, unless there is nothing to delete. -/
theorem deletion_cases : c.stale = [] ∧ c.deletion = [] ∧ c.refusal = none ∨
    c.stale ≠ [] ∧ ∃ x : Except ServiceError Unit, c.deletion = [⟨.deletePoints c.names, x⟩] ∧
      (c.refusal = none ↔ x = .ok ()) :=
  Change.yields_deleteStale_call _ _ _ c.deletes

/-- A refused batch fills in nothing. -/
theorem filling_eq_nil {message : String} (h : c.refusal = some message) : c.filling = [] ∧
    c.stored = (Change.readyOf c.outcomes).map fun file =>
      ⟨file.path, .failed "failed to delete old points"⟩ := by
  have hfills := c.fills
  rw [h] at hfills
  obtain ⟨hfilling, hstored⟩ := Program.follows_done_iff.1 hfills
  exact ⟨hfilling, (Prod.ext_iff.1 hstored).1.symm⟩

/-! ### Deletions and upserts -/

/-- A batch deletes once, if there is anything to delete. -/
theorem asked_deletion : asked Action.deletion? trace = if c.stale = [] then [] else [c.names] := by
  have hworks : asked Action.deletion? c.working = [] :=
    yields_asked_nil (Change.guarded_processGroupsAbreast (Change.never_processFile Change.spares_deletion)
      (fun _ => nofun) _ _ _) _ _ c.works
  obtain ⟨t', hsettles⟩ := c.settles
  have hsettles : asked Action.deletion? c.settling = [] :=
    yields_asked_nil (Change.never_settleDeleted (fun _ => nofun) (fun _ => nofun) _ _ _ _) _ _ hsettles
  have hfills : asked Action.deletion? c.filling = [] :=
    yields_asked_nil (Change.never_deletes_fill _ _) _ _ c.fills
  refine (congrArg (asked Action.deletion?) c.trace_eq).trans ?_
  change asked Action.deletion? (c.working ++ (c.deletion ++ (c.settling ++ (c.filling ++ _)))) = _
  simp only [asked_append, hworks, hsettles, hfills, List.nil_append]
  rcases c.deletion_cases with ⟨hnone, hdeletion, -⟩ | ⟨hsome, x, hdeletion, -⟩
  · rw [hdeletion, if_pos hnone]
    rfl
  · rw [hdeletion, if_neg hsome]
    rfl

/-- Nothing is upserted up to the deletion. -/
theorem not_upserts_of_mem_front : ∀ e ∈ c.front, ¬Action.upserts e.request = true := by
  have hspares : Change.Spares fun a => a.upserts = true :=
    ⟨fun _ => nofun, fun _ => nofun, nofun, fun _ => nofun⟩
  have hdeletes : (Change.deleteStale s c.stale).Never fun a => Action.upserts a = true :=
    Change.never_deleteStale (fun _ => nofun) _
  exact List.forall_mem_cons.2 ⟨nofun,
    List.forall_mem_append.2 ⟨c.never_working hspares fun _ => nofun, c.deletes.never hdeletes⟩⟩

/-- Only filling in upserts. -/
theorem mem_filling_of_upserts (he : Action.upserts e.request = true) (h : e ∈ trace) : e ∈ c.filling := by
  rcases c.mem_cases h with ⟨event, htell⟩ | hmem | hmem | hmem | hmem
  · rw [htell] at he
    cases he
  · exact absurd he (c.not_upserts_of_mem_front e
      (List.mem_cons_of_mem _ (List.mem_append_left _ hmem)))
  · exact absurd he (c.not_upserts_of_mem_front e
      (List.mem_cons_of_mem _ (List.mem_append_right _ hmem)))
  · exact absurd he (c.never_settling (fun a => a.upserts = true) (fun _ => nofun) (fun _ => nofun)
      e hmem)
  · exact hmem

/-- What is upserted stands behind the deletion. -/
theorem front_subset (he : Action.upserts e.request = true) (htrace : trace = before ++ e :: behind) :
    c.front ⊆ before := by
  obtain ⟨closing, hfront⟩ := c.exists_trace_eq
  rcases List.append_eq_append_iff.1 (hfront.symm.trans htrace) with
    ⟨more, rfl, -⟩ | ⟨more, hmore, hrest⟩
  · exact List.subset_append_left _ _
  · cases more with
    | nil =>
      rw [hmore, List.append_nil]
      exact List.Subset.refl _
    | cons first more =>
      obtain rfl := (List.cons_eq_cons.1 hrest).1
      exact absurd he (c.not_upserts_of_mem_front _ (hmore ▸ List.mem_append_right _ List.mem_cons_self))

/-- In front of every upsert stands the deletion, which succeeded. -/
theorem deletes_in_front (he : Action.upserts e.request = true) (htrace : trace = before ++ e :: behind) :
    (⟨.deletePoints c.names, .ok ()⟩ : Exchange indexing) ∈ before := by
  have hfilling := c.mem_filling_of_upserts he
    (htrace ▸ List.mem_append_right before (List.mem_cons_self (l := behind)))
  have hrefusal : c.refusal = none := by
    cases hrefusal : c.refusal with
    | none => rfl
    | some message =>
      rw [(c.filling_eq_nil hrefusal).1] at hfilling
      cases hfilling
  have hready : Change.readyOf c.outcomes ≠ [] := by
    intro hnone
    have hfills := c.fills
    rw [hnone] at hfills
    have hnever : (Change.fill s c.refusal []).Never fun a => Action.upserts a = true := Change.never_fill_nil _
    exact hfills.never hnever e hfilling he
  rcases c.deletion_cases with ⟨hnone, -, -⟩ | ⟨-, x, hdeletion, hx⟩
  · exact absurd (List.map_eq_nil_iff.1 (List.append_eq_nil_iff.1 hnone).2) hready
  · refine c.front_subset he htrace (List.mem_cons_of_mem _ (List.mem_append_right _ ?_))
    rw [hdeletion, hx.1 hrefusal]
    exact List.mem_cons_self

/-! ### A refused deletion -/

/-- An error of the deletion refuses the batch. -/
theorem exists_refusal {names : List String}
    (h : (⟨.deletePoints names, .error failure⟩ : Exchange indexing) ∈ trace) :
    ∃ message, c.refusal = some message := by
  rcases c.mem_cases h with ⟨event, htell⟩ | hmem | hmem | hmem | hmem
  · cases htell
  · exact absurd rfl (c.never_working Change.spares_deletion (fun _ => nofun) _ hmem)
  · rcases c.deletion_cases with ⟨-, hdeletion, -⟩ | ⟨-, x, hdeletion, hx⟩
    · rw [hdeletion] at hmem
      cases hmem
    · rw [hdeletion, List.mem_singleton] at hmem
      cases hmem
      exact Option.ne_none_iff_exists'.1 fun hnone => nomatch hx.1 hnone
  · exact absurd rfl (c.never_settling (fun a => a.deletion?.isSome = true) (fun _ => nofun)
      (fun _ => nofun) _ hmem)
  · exact absurd rfl (c.fills.never (Change.never_deletes_fill _ _) _ hmem)

/-- A refused batch does nothing to store and cache but being refused. -/
theorem harmless_of_refusal {message : String} (h : c.refusal = some message) :
    ∀ e ∈ trace, Harmless e := by
  have hnone : ∀ {a : Action}, (∀ x, a.effects x = []) → ¬a.May fun _ => True := Action.not_may
  have hspares : Change.Spares (Action.May fun _ => True) :=
    ⟨fun _ => hnone fun _ => rfl, fun _ => hnone fun _ => rfl, hnone fun _ => rfl,
      fun _ => hnone fun _ => rfl⟩
  have htells : ∀ event, ¬(Action.tellBatch event).May fun _ => True := fun _ => hnone fun _ => rfl
  intro e hmem
  rcases c.mem_cases hmem with ⟨event, htell⟩ | hmem | hmem | hmem | hmem
  · exact harmless_of_not_may (htell ▸ htells event)
  · exact harmless_of_not_may (c.never_working hspares htells e hmem)
  · rcases c.deletion_cases with ⟨-, hdeletion, -⟩ | ⟨-, x, hdeletion, hx⟩
    · rw [hdeletion] at hmem
      cases hmem
    · rw [hdeletion, List.mem_singleton] at hmem
      subst hmem
      cases x with
      | ok => exact absurd (hx.2 rfl) (by rw [h]; nofun)
      | error failure =>
        intro effect heffect
        exact ⟨c.names, List.mem_singleton.1 heffect⟩
  · obtain ⟨t', hsettles⟩ := c.settles
    rw [h] at hsettles
    exact harmless_of_not_may (hsettles.never (Change.never_settleDeleted_refused htells _ _ _) e hmem)
  · rw [(c.filling_eq_nil h).1] at hmem
    cases hmem

end Course

/-- However the files of each group interleave and however requests are answered, a batch deletes at most once,
namely the points of the deleted files and of those that are ready, and no upsert stands in front of that. If
the deletion is refused nothing is upserted, cache and points stay as they were, and all these files end with
an error. -/
theorem deletes_before_upserting {s : Services} {turns : List String → List Nat} {changes : Changes}
    {trace : List (Exchange indexing)} {results : List ChangeResult}
    (h : Follows (processChangesAbreast s turns changes) trace (.done results)) :
    ∃ outcomes, Reaches trace (changes.presentPaths.map (Change.processFile s)) outcomes ∧
      let ready := Change.readyOf outcomes
      let stale := changes.deletedPaths ++ ready.map (·.path)
      let names := stale.map (Path.relativeTo s.root)
      asked Action.deletion? trace = (if stale = [] then [] else [names]) ∧
        (∀ before points x behind, trace = before ++ (⟨.upsert points, x⟩ : Exchange indexing) :: behind →
          (⟨.deletePoints names, .ok ()⟩ : Exchange indexing) ∈ before) ∧
        ∀ failure, (⟨.deletePoints names, .error failure⟩ : Exchange indexing) ∈ trace →
          (∀ e ∈ trace, ¬Action.upserts e.request = true) ∧
          results = Change.resultsOf outcomes ++
            changes.deletedPaths.map (⟨·, .failed "failed to delete points"⟩) ++
              ready.map (fun file => ⟨file.path, .failed "failed to delete old points"⟩) ∧
          ∀ (e : Premises) (L L' : Scene), Trail e.rules L trace L' →
            L'.hashes = L.hashes ∧ L'.points = L.points := by
  obtain ⟨c⟩ := nonempty_course h
  refine ⟨c.outcomes, c.reaches.mono c.sublist_working, c.asked_deletion, ?_, ?_⟩
  · exact fun before points x behind htrace => c.deletes_in_front rfl htrace
  · intro failure hmem
    obtain ⟨message, hrefusal⟩ := c.exists_refusal hmem
    obtain ⟨hfilling, hstored⟩ := c.filling_eq_nil hrefusal
    refine ⟨fun e he hupserts => ?_, ?_, fun e L L' htrail => ?_⟩
    · exact absurd (c.mem_filling_of_upserts hupserts he) (hfilling ▸ List.not_mem_nil)
    · refine c.results_eq.trans ?_
      rw [hstored, hrefusal]
      rfl
    · exact Premises.unchanged_of_trail htrail (c.harmless_of_refusal hrefusal)

/-- A scene in which a file that is gone has a hash still. -/
def outlived : Scene :=
  { smallScene with hashes := [("/w/b.rs", "old")] }

/-- A batch of a changed and a deleted file of which the old points cannot be deleted. -/
def refusedBatch : List (Exchange indexing) × Procedure (List ChangeResult) × Scene :=
  Program.advance (Premises.respond [] fun a => a.deletion?.isSome) 12
    (processChangesAbreast Premises.smallServices (fun _ => [0, 0, 0])
      [("/w/a.rs", .changed), ("/w/b.rs", .deleted)]) outlived

/-- Whether an exchange refuses to delete the points of files. -/
def refuses (names : List String) (e : Exchange indexing) : Bool :=
  match e with
  | ⟨.deletePoints others, .error _⟩ => others == names
  | _ => false

theorem exists_eq_of_refuses {names : List String} {e : Exchange indexing} (h : refuses names e = true) :
    ∃ failure, e = ⟨.deletePoints names, .error failure⟩ := by
  unfold refuses at h
  split at h
  · rename_i others failure
    exact ⟨failure, by rw [eq_of_beq h]⟩
  · cases h

theorem deletes_before_upserting_refused : ∃ results,
    Follows (processChangesAbreast Premises.smallServices (fun _ => [0, 0, 0])
      [("/w/a.rs", .changed), ("/w/b.rs", .deleted)]) refusedBatch.1 (.done results) ∧
    results.map (·.path) = ["/w/b.rs", "/w/a.rs"] ∧
    (∀ e ∈ refusedBatch.1, ¬Action.upserts e.request = true) ∧
    refusedBatch.2.2.hashes = [("/w/b.rs", "old")] ∧ refusedBatch.2.2.points = [] := by
  have hdone : refusedBatch.2.1.result? = some [⟨"/w/b.rs", .failed "failed to delete points"⟩,
      ⟨"/w/a.rs", .failed "failed to delete old points"⟩] := by
    decide +kernel
  have hfollows : Follows _ refusedBatch.1 refusedBatch.2.1 := Program.follows_advance
  rw [Program.eq_done_of_result? hdone] at hfollows
  obtain ⟨outcomes, -, hasked, -, hrefused⟩ := deletes_before_upserting hfollows
  have hnames : asked Action.deletion? refusedBatch.1 = [["b.rs", "a.rs"]] := by decide +kernel
  have hany : refusedBatch.1.any (refuses ["b.rs", "a.rs"]) = true := by decide +kernel
  obtain ⟨e, hmem, he⟩ := List.any_eq_true.1 hany
  obtain ⟨failure, rfl⟩ := exists_eq_of_refuses he
  rw [hnames] at hasked
  split at hasked
  · cases hasked
  · rw [← (List.cons_eq_cons.1 hasked).1] at hrefused
    obtain ⟨hnone, -, hkept⟩ := hrefused failure hmem
    have htrail : Trail Premises.smallServices.lenient.rules outlived refusedBatch.1 refusedBatch.2.2 :=
      Program.trail_advance id (Premises.rules_respond List.nodup_nil nofun fun _ _ => trivial)
    obtain ⟨hhashes, hpoints⟩ := hkept _ _ _ htrail
    exact ⟨_, hfollows, rfl, hnone, hhashes, hpoints⟩

end SourceIndex
