import SourceIndex.Proofs.Index.Histories
import SourceIndex.Proofs.Index.Standing
/-!
# Calls of an index, one after the other

A start, a stop, a clearing and a batch of changes are `Call`s. What each of them leaves is said by one
lemma (`ensures_start`, `ensures_stop`, `ensures_clear`, `ensures_batch`), for every answer of the services,
of the cache file and of the making of a watcher.

Behind calls that came one after the other an index is at rest (`Standing.AtRest`): no scan is running,
what is published is not a scan, and a watcher is at work exactly if the index is published as complete.
-/

namespace SourceIndex

open Program (Ends)

namespace Standing

variable {s : Services} {d d' : Standing} {α : Type} {a : Action} {watching : Bool}

/-- What comes behind a request may rely on the rules of the request. -/
theorem ensures_ask_bind {f : a.Answer → Procedure α} {post : α → Standing → Prop}
    (h : ∀ x d', rules a d x d' → (f x).Ensures rules d' post) :
    (ask a >>= f).Ensures rules d post :=
  Program.ensures_bind.2 (Program.ensures_ask.2 h)

/-! ## During a scan -/

/-- A scan is running and published. -/
structure Scanning (watching : Bool) (d : Standing) : Prop where
  scanning : d.scanning = true
  state : d.state = .indexing
  watching : d.watching = watching

/-- What does not steer leaves a scan running and published: its progress says so, and batches are not
shown meanwhile. -/
theorem Scanning.keeps {x : a.Answer} (h : ¬a.Steers) (hrules : rules a d x d')
    (hd : Scanning watching d) : Scanning watching d' := by
  obtain ⟨hscanning, hwatching, hstatus⟩ := frame_of_not_steers h hrules
  refine ⟨hscanning.trans hd.scanning, ?_, hwatching.trans hd.watching⟩
  rcases hstatus with hsame | ⟨indexed, found, hreported⟩ | ⟨-, event, hshown⟩
  · exact (congrArg Status.state hsame).trans hd.state
  · exact congrArg Status.state hreported
  · rw [hd.scanning] at hshown
    exact (congrArg Status.state hshown).trans hd.state

theorem ensures_scanning {p : Procedure α} (h : p.Never Action.Steers) (hd : Scanning watching d) :
    p.Ensures rules d fun _ d' => Scanning watching d' :=
  h.ensures (fun _ _ _ _ => Scanning.keeps) hd

/-- The watcher is at work and the index is published as complete. -/
structure Watched (d : Standing) : Prop where
  watching : d.watching = true
  state : d.state = .indexed

/-- A whole run leaves the scan flag to be taken back. It succeeds only with a watcher at work. -/
theorem ensures_fullIndex (hd : Scanning watching d) :
    (Lifecycle.fullIndex s).Ensures rules d fun outcome d' =>
      d'.scanning = true ∧ (outcome = .ok () → Watched d') := by
  unfold Lifecycle.fullIndex
  refine (ensures_scanning Lifecycle.never_steers_reconcile hd).bind fun x d₁ h₁ => ?_
  cases x with
  | error e => exact Program.ensures_pure.2 ⟨h₁.scanning, nofun⟩
  | ok =>
    refine ensures_ask_bind fun _ d₂ h₂ => ?_
    have h₂ : Scanning watching d₂ := h₂ ▸ ⟨h₁.scanning, rfl, h₁.watching⟩
    refine (ensures_scanning (never_steers_scan ScanMode.observes_showScan) h₂).bind fun r d₃ h₃ => ?_
    cases hcheck : r.check with
    | error e => exact Program.ensures_pure.2 ⟨h₃.scanning, nofun⟩
    | ok =>
      refine ensures_ask_bind fun _ d₄ h₄ => ?_
      subst h₄
      refine ensures_ask_bind fun x d₅ h₅ => ?_
      rcases h₅ with ⟨rfl, rfl⟩ | ⟨-, ⟨failure, rfl⟩, rfl⟩
      · refine ensures_ask_bind fun _ d₆ h₆ => Program.ensures_pure.2 ?_
        subst h₆
        exact ⟨h₃.scanning, fun _ => ⟨rfl, rfl⟩⟩
      · exact Program.ensures_pure.2 ⟨h₃.scanning, nofun⟩

/-! ## Calls -/

/-- What a start that failed leaves: the error is published, the cache is empty, and nobody watches. -/
structure Failed (d : Standing) : Prop where
  state : d.state = .error
  hashes : d.hashes = []
  watching : d.watching = false

/-- Giving up takes everything back, whatever fails meanwhile. -/
theorem ensures_giveUp (e : IndexError) : (Lifecycle.giveUp e).Ensures rules d fun _ d' =>
    d'.scanning = d.scanning ∧ Failed d' := by
  unfold Lifecycle.giveUp
  refine ensures_ask_bind fun _ d₁ h₁ => ensures_ask_bind fun _ d₂ h₂ => ?_
  refine ensures_ask_bind fun _ d₃ h₃ => Program.ensures_ask.2 fun _ d₄ h₄ => ?_
  subst h₁ h₂ h₃ h₄
  exact ⟨rfl, rfl, rfl, rfl⟩

/-- A start beside a scan, or beside a batch that is published, does nothing. -/
theorem ensures_start_busy (h : d.scanning = true ∨ d.state = .indexing) :
    (Lifecycle.start s).Ensures rules d fun outcome d' => outcome = .ok () ∧ d' = d := by
  unfold Lifecycle.start
  refine ensures_ask_bind fun running d₁ ⟨hrunning, h₁⟩ => ?_
  subst hrunning h₁
  refine Program.ensures_ite (fun hscanning => Program.ensures_pure.2 ⟨rfl, ?_⟩) fun hidle => ?_
  · rw [← hscanning]
  have hidle : d.scanning = false := Bool.eq_false_iff.2 hidle
  have hstate : d.state = .indexing := h.resolve_left (hidle ▸ Bool.false_ne_true)
  refine ensures_ask_bind fun state d₂ ⟨hread, h₂⟩ => ?_
  subst hread h₂
  refine Program.ensures_ite (fun _ => ?_) fun hnot => absurd hstate hnot
  refine ensures_ask_bind fun _ d₃ h₃ => Program.ensures_pure.2 ⟨rfl, ?_⟩
  rw [show d₃ = { d with scanning := false } from h₃, ← hidle]

/-- Any other start scans. It ends with a watcher at work, or it fails and leaves nothing behind. -/
theorem ensures_start (hidle : d.scanning = false) (hstate : d.state ≠ .indexing) :
    (Lifecycle.start s).Ensures rules d fun outcome d' => d'.scanning = false ∧
      (outcome = .ok () ∧ Watched d' ∨ (∃ e, outcome = .error e) ∧ Failed d') := by
  unfold Lifecycle.start
  refine ensures_ask_bind fun running d₁ ⟨hrunning, h₁⟩ => ?_
  subst hrunning h₁
  refine Program.ensures_ite (fun hscanning => absurd hscanning (hidle ▸ Bool.false_ne_true)) fun _ => ?_
  refine ensures_ask_bind fun state d₂ ⟨hread, h₂⟩ => ?_
  subst hread h₂
  refine Program.ensures_ite (fun hindexing => absurd hindexing hstate) fun _ => ?_
  refine ensures_ask_bind fun _ d₃ h₃ => ?_
  have h₃ : Scanning d.watching d₃ := h₃ ▸ ⟨rfl, rfl, rfl⟩
  refine (ensures_fullIndex h₃).bind fun outcome d₄ ⟨_, h₄⟩ => ensures_ask_bind fun _ d₅ h₅ => ?_
  subst h₅
  cases outcome with
  | ok =>
    have hwatched := h₄ rfl
    exact Program.ensures_pure.2 ⟨rfl, Or.inl ⟨rfl, hwatched.watching, hwatched.state⟩⟩
  | error e =>
    refine (ensures_giveUp e).bind fun _ d₆ ⟨h₆, hfailed⟩ => Program.ensures_pure.2 ?_
    exact ⟨h₆, Or.inr ⟨⟨e, rfl⟩, hfailed⟩⟩

/-- A stop ends the watching and publishes it, unless an error is published. -/
theorem ensures_stop : Lifecycle.stop.Ensures rules d fun _ d' => d'.scanning = d.scanning ∧
    d'.watching = false ∧ d'.state = if d.state = .error then .error else .standby := by
  unfold Lifecycle.stop
  refine ensures_ask_bind fun _ d₁ h₁ => ensures_ask_bind fun state d₂ ⟨hread, h₂⟩ => ?_
  subst h₁ hread h₂
  refine Program.ensures_ite (fun hnot => ?_) fun herror => Program.ensures_pure.2 ⟨rfl, rfl, ?_⟩
  · refine Program.ensures_ask.2 fun _ d₃ h₃ => ?_
    subst h₃
    exact ⟨rfl, rfl, (if_neg hnot).symm⟩
  · have herror : d.state = .error := Classical.not_not.1 herror
    rw [if_pos herror]
    exact herror

/-- What is published of a clearing with an outcome. -/
def clearedState : Except IndexError Unit → IndexState
  | .ok () => .standby
  | .error _ => .error

/-- Clearing ends the watching and empties the cache. What it could not do is published as an error. -/
theorem ensures_clear : Lifecycle.clear.Ensures rules d fun outcome d' => d'.scanning = d.scanning ∧
    d'.watching = false ∧ d'.hashes = [] ∧ d'.state = clearedState outcome := by
  unfold Lifecycle.clear
  refine ensures_ask_bind fun _ d₁ h₁ => ensures_ask_bind fun dropped d₂ h₂ => ?_
  refine ensures_ask_bind fun cleared d₃ h₃ => ?_
  subst h₁ h₂ h₃
  have hpublish : ∀ message outcome,
      (do
        ask (.setState (clearedState outcome) message)
        return outcome : Procedure (Except IndexError Unit)).Ensures rules
          { d with watching := false, hashes := [] } fun x d' => d'.scanning = d.scanning ∧
            d'.watching = false ∧ d'.hashes = [] ∧ d'.state = clearedState x := by
    intro message outcome
    refine ensures_ask_bind fun _ d₄ h₄ => Program.ensures_pure.2 ?_
    subst h₄
    exact ⟨rfl, rfl, rfl, rfl⟩
  cases dropped with
  | error failure => exact hpublish _ (.error (.service failure))
  | ok =>
    cases cleared with
    | error failure => exact hpublish _ (.error failure)
    | ok => exact hpublish _ (.ok ())

/-! ### Batches -/

/-- A batch of the watcher is under way, and no error is published. -/
structure Batching (d : Standing) : Prop where
  scanning : d.scanning = false
  watching : d.watching = true
  state : d.state ≠ .error

theorem Batching.keeps {x : a.Answer} (h : ¬a.Steers) (hrules : rules a d x d') (hd : Batching d) :
    Batching d' := by
  obtain ⟨hscanning, hwatching, hstatus⟩ := frame_of_not_steers h hrules
  refine ⟨hscanning.trans hd.scanning, hwatching.trans hd.watching, ?_⟩
  rcases hstatus with hsame | ⟨indexed, found, hreported⟩ | ⟨-, event, hshown⟩
  · rw [Standing.state, hsame]
    exact hd.state
  · rw [Standing.state, hreported]
    exact nofun
  · rw [Standing.state, hshown, hd.scanning]
    have hfiles : ∀ processed total current,
        (d.status.reportFiles processed total current).state ≠ .error := by
      intro processed total current
      unfold Status.reportFiles
      split
      · exact nofun
      · exact nofun
    cases event with
    | start paths => exact hfiles 0 paths.length none
    | progress processed total current => exact hfiles processed total current
    | finish results error =>
      unfold Status.showBatchEvent
      dsimp only
      rw [if_neg Bool.false_ne_true, if_neg hd.state]
      exact nofun

/-- The last that a watcher tells of a batch is that it is finished. -/
theorem ensures_finish {total : Nat} {results : List ChangeResult} {error : Option String}
    (hd : Batching d) :
    (Change.finishing total results error).Ensures rules d fun _ d' =>
      d'.scanning = false ∧ Watched d' := by
  refine ensures_ask_bind fun _ d₁ h₁ => ?_
  have h₁ : Batching d₁ := hd.keeps id h₁
  refine ensures_ask_bind fun _ d₂ h₂ => Program.ensures_pure.2 ?_
  have h₂ : d₂ = { d₁ with
      status := d₁.status.setState .indexed s!"Processed {results.length} changed files." } := by
    have hshown : d₁.status.showBatchEvent d₁.scanning (.finish results error) =
        d₁.status.setState .indexed s!"Processed {results.length} changed files." := by
      unfold Status.showBatchEvent
      rw [h₁.scanning, if_neg Bool.false_ne_true]
      exact if_neg h₁.state
    rw [← hshown]
    exact h₂.trans (if_pos h₁.watching)
  subst h₂
  exact ⟨h₁.scanning, h₁.watching, rfl⟩

/-- A batch of the watcher leaves the index published as complete. -/
theorem ensures_batch (hidle : d.scanning = false) (hd : Watched d) (changes : Changes) :
    (processChanges s changes).Ensures rules d fun _ d' => d'.scanning = false ∧ Watched d' := by
  have hkeeps : ∀ {β : Type} {p : Procedure β} {d : Standing}, p.Never Action.Governs → Batching d →
      p.Ensures rules d fun _ d' => Batching d' :=
    fun h hd => h.ensures (fun _ _ _ _ hnot => Batching.keeps fun hsteers => hnot hsteers.governs) hd
  have hd : Batching d := ⟨hidle, hd.watching, hd.state ▸ nofun⟩
  refine ensures_ask_bind fun _ d₁ h₁ => ?_
  have h₁ : Batching d₁ := hd.keeps id h₁
  refine (hkeeps (Change.never_governs_processGroups _ _ _) h₁).bind fun tally d₂ h₂ => ?_
  refine (hkeeps (Change.never_governs_deleteStale _) h₂).bind fun failure d₃ h₃ => ?_
  refine (hkeeps (Change.never_governs_settleDeleted _ _ _ _) h₃).bind fun tally d₄ h₄ => ?_
  cases failure with
  | some e => exact ensures_finish h₄
  | none =>
    refine (hkeeps (Change.never_governs_upsertReady _) h₄).bind fun _ d₅ h₅ => ?_
    exact ensures_finish h₅

end Standing

/-! ## One call after the other -/

/-- What may be asked of an index, and what its watcher does. -/
inductive Call where
  | start
  | stop
  | clear
  | batch (changes : Changes)

namespace Call

/-- What is done for a call. -/
def program (s : Services) : Call → Procedure (Except IndexError Unit)
  | start => Lifecycle.start s
  | stop => do
    Lifecycle.stop
    return .ok ()
  | clear => Lifecycle.clear
  | batch changes => do
    let _ ← processChanges s changes
    return .ok ()

/-- Batches come only from a watcher at work; everything else may come at any time. -/
def Comes : Call → Standing → Prop
  | batch _, d => d.watching = true
  | _, _ => True

end Call

namespace Standing

variable {s : Services} {d d' : Standing} {call : Call} {outcome : Except IndexError Unit}

/-- No scan is running, none is published, and a watcher is at work exactly if the index is published as
complete. -/
structure AtRest (d : Standing) : Prop where
  scanning : d.scanning = false
  state : d.state ≠ .indexing
  watching : d.watching = true ↔ d.state = .indexed

theorem Watched.atRest (hidle : d.scanning = false) (hd : Watched d) : AtRest d where
  scanning := hidle
  state := hd.state ▸ nofun
  watching := ⟨fun _ => hd.state, fun _ => hd.watching⟩

/-- Without a watcher an index is at rest if what is published says so. -/
theorem atRest_of_unwatched (hidle : d.scanning = false) (hwatching : d.watching = false)
    (hstate : d.state = .standby ∨ d.state = .error) : AtRest d where
  scanning := hidle
  state := by rcases hstate with h | h <;> exact h ▸ nofun
  watching := by rcases hstate with h | h <;> simp [h, hwatching]

/-- What one call does to an index at rest. -/
structure Answered (call : Call) (d : Standing) (outcome : Except IndexError Unit) (d' : Standing) :
    Prop where
  rests : AtRest d'
  started : call = .start → outcome = .ok () ∧ Watched d' ∨ (∃ e, outcome = .error e) ∧ Failed d'
  error : d.state = .error → d'.state ≠ .error → call = .start ∨ call = .clear

/-- Each call is answered and finds the index at rest again. -/
theorem AtRest.answered (hd : AtRest d) (comes : call.Comes d)
    (ends : Ends rules (call.program s) d outcome d') : Answered call d outcome d' := by
  cases call with
  | start =>
    obtain ⟨hidle, h⟩ := ensures_start hd.scanning hd.state outcome d' ends
    refine ⟨?_, fun _ => h, fun _ _ => Or.inl rfl⟩
    rcases h with ⟨-, hwatched⟩ | ⟨-, hfailed⟩
    · exact hwatched.atRest hidle
    · exact atRest_of_unwatched hidle hfailed.watching (Or.inr hfailed.state)
  | stop =>
    obtain ⟨_, d₁, hrun, hdone⟩ := Program.ends_bind_iff.1 ends
    obtain ⟨rfl, rfl⟩ := Program.ends_done_iff.1 hdone
    obtain ⟨hidle, hwatching, hstate⟩ := ensures_stop _ _ hrun
    have hstate' : d'.state = .standby ∨ d'.state = .error := by
      rw [hstate]
      split
      · exact Or.inr rfl
      · exact Or.inl rfl
    refine ⟨atRest_of_unwatched (hidle.trans hd.scanning) hwatching hstate', nofun, fun herror hnot => ?_⟩
    rw [hstate, if_pos herror] at hnot
    exact absurd rfl hnot
  | clear =>
    obtain ⟨hidle, hwatching, -, hstate⟩ := ensures_clear outcome d' ends
    have hstate' : d'.state = .standby ∨ d'.state = .error := by
      cases outcome with
      | ok => exact Or.inl hstate
      | error e => exact Or.inr hstate
    exact ⟨atRest_of_unwatched (hidle.trans hd.scanning) hwatching hstate', nofun, fun _ _ => Or.inr rfl⟩
  | batch changes =>
    have hwatched : Watched d := ⟨comes, hd.watching.1 comes⟩
    obtain ⟨_, d₁, hrun, hdone⟩ := Program.ends_bind_iff.1 ends
    obtain ⟨rfl, rfl⟩ := Program.ends_done_iff.1 hdone
    obtain ⟨hidle, h⟩ := ensures_batch hd.scanning hwatched changes _ _ hrun
    refine ⟨h.atRest hidle, nofun, fun herror => ?_⟩
    rw [hwatched.state] at herror
    cases herror

/-- Where an index may stand behind calls that came one after the other, the first of them on a fresh one. -/
inductive Reached : Standing → Prop where
  | fresh {d : Standing} (scanning : d.scanning = false) (state : d.state = .standby)
    (watching : d.watching = false) : Reached d
  | call {s : Services} {call : Call} {d d' : Standing} {outcome : Except IndexError Unit}
    (before : Reached d) (comes : call.Comes d) (ends : Ends rules (call.program s) d outcome d') :
    Reached d'

theorem Reached.atRest (h : Reached d) : AtRest d := by
  induction h with
  | fresh scanning state watching => exact atRest_of_unwatched scanning watching (Or.inl state)
  | call before comes ends ih => exact (ih.answered comes ends).rests

/-- Behind each of the calls that came one after the other no scan is running or published, and a watcher is
at work exactly if the index is published as complete. A start has scanned and watches now, or it has
failed and left nothing behind, and only a start or a clearing takes an error back. -/
theorem answered_of_reached (before : Reached d) (comes : call.Comes d)
    (ends : Ends rules (call.program s) d outcome d') : Answered call d outcome d' :=
  before.atRest.answered comes ends

/-! ### A start that failed, and another one -/

/-- A call in a world is one of those that may be made where the world stands. -/
theorem ends_world (call : Call) (w : Scenario.World) :
    Ends rules (call.program s) w.standing (Scenario.World.run (call.program s) w).1
      (Scenario.World.run (call.program s) w).2.standing :=
  Program.ends_run Scenario.World.standing Scenario.World.rules_answer (call.program s) w

/-- A workspace of one file, whose collection cannot be prepared at first. -/
def refusing : Scenario.World where
  disk := { tree := .dir [("w", .dir [("a.rs", .file "fn first() {}".toUTF8)])] }
  cache := { file := "/cache.json", debounce := 1 }
  script := { store := fun call => if call = .prepare then [false] else [] }
  services := Premises.smallServices

/-- The world behind some calls. -/
def behind (calls : List Call) (w : Scenario.World) : Scenario.World :=
  calls.foldl (fun w call => (Scenario.World.run (call.program w.services) w).2) w

/-- The first start fails and leaves an error, a stop lets it stand, and the next start takes it back. -/
theorem answered_of_reached_refusing :
    ((behind [.start] refusing).standing.state = .error ∧
      (behind [.start, .stop] refusing).standing.state = .error ∧
      (behind [.start, .stop, .start] refusing).standing.state = .indexed) ∧
    Answered .start (behind [.start, .stop] refusing).standing
      (Scenario.World.run (Call.start.program Premises.smallServices)
        (behind [.start, .stop] refusing)).1
      (behind [.start, .stop, .start] refusing).standing := by
  refine ⟨by decide +kernel, answered_of_reached (s := Premises.smallServices) ?_ trivial (ends_world _ _)⟩
  have hfresh : Reached refusing.standing := .fresh rfl rfl rfl
  have hstart : Reached (behind [.start] refusing).standing :=
    hfresh.call (show Call.start.Comes _ from trivial) (ends_world _ _)
  exact hstart.call (show Call.stop.Comes _ from trivial) (ends_world _ _)

end Standing

end SourceIndex
