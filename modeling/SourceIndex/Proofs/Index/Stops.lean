import SourceIndex.Proofs.Index.Lineages
/-!
# Stopping beside a start

A start that succeeds makes its watcher and publishes the index as complete at the very end, one that fails
does neither (`Lifecycle.Course`, `Lifecycle.yields_start`). Nothing in between looks at what was published
meanwhile. So whether a stop, a clearing or a disposal is `Lineage.Final` depends on what is left of the other
orders when it has come to its end:

- what is left of orders that end with the index at rest, of starts that are over, and of batches whose watcher
  was stopped, shows nothing any more (`Lineage.final_of_never`, `Lineage.Settled`);
- a start that is at work undoes the stop when it succeeds (`Lineage.ends_of_begun`).
-/

namespace SourceIndex

open Program (Ends Exchange Follows Guarded Trail)

/-! ## The course of a start -/

namespace Action

/-- The request that publishes an index as complete, and the one that takes a scan flag down: behind them
nothing comes of a start that its index would be shown by. -/
def Closes (a : Action) : Prop :=
  (∃ message, a = .setState .indexed message) ∨ a = .endScan

/-- The requests that a start makes when its scan has succeeded. -/
def Heralds (a : Action) : Prop :=
  a = .startWatcher ∨ a.Closes

/-- The requests that show an index or make a watcher. -/
def Raises (a : Action) : Prop :=
  a.Rouses ∧ ¬a.Flags

theorem Heralds.steers {a : Action} (h : a.Heralds) : a.Steers := by
  rcases h with rfl | ⟨message, rfl⟩ | rfl
  · trivial
  · trivial
  · trivial

theorem not_raises {a : Action} (h : ¬a.Rouses) : ¬a.Raises :=
  fun hraises => h hraises.1

end Action

namespace Lifecycle

variable {s : Services}

/-- What a start exchanges from its beginning to its end. -/
inductive Course : Except IndexError Unit → List (Exchange indexing) → Prop where
  | ignored {trace : List (Exchange indexing)} (silent : ∀ e ∈ trace, ¬e.request.Raises) :
    Course (.ok ()) trace
  | finished {front : List (Exchange indexing)} (message : String)
    (plain : ∀ e ∈ front, ¬e.request.Heralds) :
    Course (.ok ()) (front ++
      [⟨.startWatcher, .ok ()⟩, ⟨.setState .indexed message, ()⟩, ⟨.endScan, ()⟩])
  | failed (e : IndexError) {front : List (Exchange indexing)} (dropped : Except ServiceError Unit)
    (cleared : Except IndexError Unit) (message : String)
    (plain : ∀ e ∈ front, ¬e.request.Closes) :
    Course (.error e) (front ++ [⟨.endScan, ()⟩, ⟨.clearStore, dropped⟩, ⟨.clearCache, cleared⟩,
      ⟨.stopWatcher, ()⟩, ⟨.setState .error message, ()⟩])

/-- How a whole run ends: it makes a watcher and publishes the index as complete at the very end, or it fails
and does not. -/
inductive Concludes : Except IndexError Unit → List (Exchange indexing) → Prop where
  | succeeded {front : List (Exchange indexing)} (message : String)
    (plain : ∀ e ∈ front, ¬e.request.Heralds) :
    Concludes (.ok ()) (front ++ [⟨.startWatcher, .ok ()⟩, ⟨.setState .indexed message, ()⟩])
  | failed (e : IndexError) {trace : List (Exchange indexing)}
    (plain : ∀ e ∈ trace, ¬e.request.Closes) : Concludes (.error e) trace

theorem yields_fullIndex : (fullIndex s).Yields Concludes := by
  refine Program.Yields.bind never_steers_reconcile.yields fun x first hfirst => ?_
  have hfirst : ∀ e ∈ first, ¬e.request.Heralds := fun e he h => hfirst e he h.steers
  cases x with
  | error e =>
    refine Program.yields_pure (.failed e fun e he h => ?_)
    rw [List.append_nil] at he
    exact hfirst e he (Or.inr h)
  | ok =>
    refine Program.yields_ask_bind fun published => ?_
    refine Program.Yields.bind (never_steers_scan ScanMode.observes_showScan).yields
      fun r second hsecond => ?_
    have hfront : ∀ e ∈ first ++ ⟨.setState .indexing "Services ready. Starting workspace scan...",
        published⟩ :: second, ¬e.request.Heralds := by
      intro e he h
      rcases List.mem_append.1 he with he | he
      · exact hfirst e he h
      rcases List.mem_cons.1 he with rfl | he
      · rcases h with h | ⟨message, h⟩ | h <;> cases h
      · exact hsecond e he h.steers
    generalize hsplit : first ++ _ :: second = front at hfront
    have hwhole : ∀ third, first ++ _ :: (second ++ third) = front ++ third := fun third => by
      rw [← hsplit, List.append_assoc, List.cons_append]
    cases r.check with
    | error e =>
      refine Program.yields_pure ?_
      rw [hwhole, List.append_nil]
      exact .failed e fun e he h => hfront e he (Or.inr h)
    | ok =>
      refine Program.yields_ask_bind fun flushed => Program.yields_ask_bind fun watched => ?_
      cases watched with
      | error e =>
        refine Program.yields_pure ?_
        rw [hwhole]
        refine .failed e fun e he h => ?_
        rcases List.mem_append.1 he with he | he
        · exact hfront e he (Or.inr h)
        · simp only [List.mem_cons, List.not_mem_nil, or_false] at he
          rcases he with rfl | rfl <;> rcases h with ⟨message, h⟩ | h <;> cases h
      | ok =>
        refine Program.yields_ask_bind fun _ => Program.yields_pure ?_
        rw [hwhole, List.append_cons]
        refine .succeeded _ fun e he h => ?_
        rcases List.mem_append.1 he with he | he
        · exact hfront e he h
        · obtain rfl := List.mem_singleton.1 he
          rcases h with h | ⟨message, h⟩ | h <;> cases h

theorem yields_giveUp (e : IndexError) : (giveUp e).Yields fun _ trace => ∃ dropped cleared message,
    trace = [⟨.clearStore, dropped⟩, ⟨.clearCache, cleared⟩, ⟨.stopWatcher, ()⟩,
      ⟨.setState .error message, ()⟩] := by
  refine Program.yields_ask_bind fun dropped => Program.yields_ask_bind fun cleared => ?_
  refine Program.yields_ask_bind fun _ => Program.yields_ask fun _ => ?_
  exact ⟨dropped, cleared, _, rfl⟩

theorem yields_start : (start s).Yields Course := by
  refine Program.yields_ask_bind fun running => ?_
  cases running with
  | true =>
    refine Program.yields_pure (.ignored fun e he h => ?_)
    obtain rfl := List.mem_singleton.1 he
    exact h.2 trivial
  | false =>
    refine Program.yields_ask_bind fun (state : IndexState) => ?_
    refine Program.yields_ite (fun _ => ?_) fun _ => ?_
    · refine Program.yields_ask_bind fun _ => Program.yields_pure (.ignored fun e he h => ?_)
      simp only [List.mem_cons, List.not_mem_nil, or_false] at he
      rcases he with rfl | rfl | rfl
      · exact h.2 trivial
      · exact h.1
      · exact h.2 trivial
    refine Program.yields_ask_bind fun published => ?_
    refine yields_fullIndex.bind fun outcome run hrun => ?_
    refine Program.yields_ask_bind fun (ended : Unit) => ?_
    cases ended
    have hopening : ∀ e ∈ [(⟨.beginScan, false⟩ : Exchange indexing), ⟨.state, state⟩,
        ⟨.setState .indexing "Initializing services...", published⟩], ¬e.request.Heralds := by
      intro e he h
      simp only [List.mem_cons, List.not_mem_nil, or_false] at he
      rcases he with rfl | rfl | rfl <;> rcases h with h | ⟨message, h⟩ | h <;> cases h
    cases hrun with
    | succeeded message plain =>
      refine Program.yields_pure ?_
      have hplain := fun e he => (List.mem_append.1 he).elim (hopening e) (plain e)
      simpa using Course.finished message hplain
    | failed e plain =>
      refine (yields_giveUp e).bind fun _ given ⟨dropped, cleared, message, hgiven⟩ =>
        Program.yields_pure ?_
      subst hgiven
      have hplain := fun e he => (List.mem_append.1 he).elim (fun h hcloses =>
        hopening e h (Or.inr hcloses)) (plain e)
      simpa using Course.failed e dropped cleared message hplain

theorem yields_managerStart {m : Manager} : m.start.Yields Course := by
  unfold Manager.start
  split
  · exact yields_start
  · exact Program.yields_pure (.ignored fun _ he => absurd he List.not_mem_nil)

end Lifecycle

namespace Lineage

variable {S S' S₀ : Lineage} {α : Type} {g k : Nat} {m : Manager}

/-! ## With one generation -/

/-- An exchange without the generation that it was with. -/
def plain (e : Exchange serving) : Exchange indexing :=
  ⟨e.request.2, e.answer.2⟩

/-- A procedure that installs nothing is served by one generation. -/
theorem yields_serve {p : Procedure α} {post : α → List (Exchange indexing) → Prop}
    (hp : p.Never fun (a : Action) => a.installs = true) (h : p.Yields post) :
    (serve g p).Yields fun x trace => (∀ e ∈ trace, e.request.1 = g) ∧ post x.2 (trace.map plain) := by
  intro x trace hfollows
  induction p generalizing trace post with
  | done a =>
    obtain ⟨rfl, rfl⟩ := Program.follows_done_iff.1 hfollows
    exact ⟨fun _ he => absurd he List.not_mem_nil, h a [] (.nil _)⟩
  | call a next ih =>
    obtain ⟨y, rest, rfl, hrest⟩ := Program.follows_call_iff.1 hfollows
    rw [if_neg hp.1] at hrest
    have hnext : (next y.2).Yields fun b trace => post b (⟨a, y.2⟩ :: trace) :=
      fun b trace h' => h b _ (.cons (r := a) y.2 h')
    obtain ⟨hg, hpost⟩ := ih y.2 ((hp.2 _).resolve_left id) hnext rest hrest
    exact ⟨List.forall_mem_cons.2 ⟨rfl, hg⟩, hpost⟩

theorem never_installs_start : m.start.Never fun (a : Action) => a.installs = true := by
  have hmono : ∀ {β : Type} {p : Procedure β}, p.Never Action.Shifts →
      p.Never fun (a : Action) => a.installs = true :=
    fun h => h.mono (fun _ => id) fun _ => shifts_of_installs
  unfold Manager.start
  split
  · refine Program.guarded_ask_bind Bool.false_ne_true fun (running : Bool) => Or.inr ?_
    refine Program.guarded_ite (fun _ => trivial) fun _ => ?_
    refine Program.guarded_ask_bind Bool.false_ne_true fun (state : IndexState) => Or.inr ?_
    refine Program.guarded_ite (fun _ => ?_) fun _ => ?_
    · exact Program.guarded_ask_bind Bool.false_ne_true fun _ => Or.inr trivial
    refine Program.guarded_ask_bind Bool.false_ne_true fun _ => Or.inr ?_
    refine Guarded.bind (hmono never_shifts_fullIndex) fun outcome => ?_
    refine Program.guarded_ask_bind Bool.false_ne_true fun _ => Or.inr ?_
    cases outcome with
    | ok => trivial
    | error e => exact Guarded.bind (hmono (never_shifts_giveUp e)) fun _ => trivial
  · trivial

/-! ## What is left of a start -/

section
variable (t : Hand)

/-- The start has published that it is at work. -/
def Begun : Prop :=
  ∃ e ∈ t.trace, ∃ message, e.request.2 = .setState .indexing message

/-- The start has asked for a watcher. -/
def Armed : Prop :=
  ∃ e ∈ t.trace, e.request.2 = .startWatcher

/-- The start has published the index as complete, or has taken its flag down. -/
def Over : Prop :=
  ∃ e ∈ t.trace, e.request.2.Closes

/-- All is done. -/
def Ended : Prop :=
  t.rest.result?.isSome

end

variable {t : Hand} {more : List (Exchange serving)} {outcome : Except IndexError Unit}

/-- However a start goes on, it will have gone its course. -/
theorem course_of_start (order : t.job.order = .start) (sound : crew.Sound t)
    (h : Follows t.rest more (.done (k, outcome))) :
    (∀ e ∈ t.trace ++ more, e.request.1 = t.job.generation) ∧
      Lifecycle.Course outcome ((t.trace ++ more).map plain) := by
  have hwhole : Follows (crew.program t.job) (t.trace ++ more) (.done (k, outcome)) := sound.trans h
  have hprogram : crew.program t.job = serve t.job.generation t.job.manager.start := by
    change serve _ (t.job.order.program _) = _
    rw [order]
    rfl
  rw [hprogram] at hwhole
  exact yields_serve never_installs_start Lifecycle.yields_managerStart _ _ hwhole

/-- What does not stand in the first part stands in the second, with all that stands behind it. -/
theorem exists_of_append_eq {β : Type} {first second front last : List β} {x : β}
    (h : first ++ second = front ++ x :: last) (hx : x ∉ first) : ∃ between, second = between ++ x :: last := by
  rcases List.append_eq_append_iff.1 h with ⟨between, -, hsecond⟩ | ⟨rest, hfirst, hrest⟩
  · exact ⟨between, hsecond⟩
  · cases rest with
    | nil => exact ⟨[], hrest.symm⟩
    | cons y rest =>
      obtain rfl : x = y := (List.cons_eq_cons.1 hrest).1
      exact absurd (hfirst ▸ List.mem_append_right _ List.mem_cons_self) hx

section
variable {r : Nat × Action} {x : Nat × r.2.Answer}

theorem rules_of_not_installs (h : rules r S x S') (hr : r.2.installs = false) :
    Standing.rules r.2 (S.standing r.1) x.2 (S'.standing r.1) ∧
      ∀ g, g ≠ r.1 → S'.generations g = S.generations g := by
  unfold rules at h
  rw [if_neg (by simp [hr])] at h
  exact ⟨h.1, h.2.2⟩

end

/-- A watcher stays at work if it does for the generation that a request is made to. -/
theorem watching_of_standing {j : Nat} (hothers : ∀ g, g ≠ j → S'.generations g = S.generations g)
    (h : (S'.standing j).watching = (S.standing j).watching) (g : Nat) :
    (S'.generations g).watching = (S.generations g).watching := by
  by_cases hg : g = j
  · exact hg ▸ h
  · rw [hothers g hg]

theorem publishes {e : Exchange serving} {state : IndexState} {message : String}
    (h : rules e.request S e.answer S') (he : plain e = ⟨.setState state message, ()⟩) :
    S'.status.state = state ∧ ∀ g, (S'.generations g).watching = (S.generations g).watching := by
  obtain ⟨⟨j, a⟩, x⟩ := e
  cases he
  obtain ⟨hrules, hothers⟩ := rules_of_not_installs h rfl
  have hrules : S'.standing j =
      { S.standing j with status := (S.standing j).status.setState state message } := hrules
  have hwatching := congrArg Standing.watching hrules
  exact ⟨congrArg Standing.state hrules, watching_of_standing hothers hwatching⟩

theorem takes_down {e : Exchange serving} (h : rules e.request S e.answer S')
    (he : plain e = ⟨.endScan, ()⟩) :
    S'.status = S.status ∧ ∀ g, (S'.generations g).watching = (S.generations g).watching := by
  obtain ⟨⟨j, a⟩, x⟩ := e
  cases he
  obtain ⟨hrules, hothers⟩ := rules_of_not_installs h rfl
  have hrules : S'.standing j = { S.standing j with scanning := false } := hrules
  have hwatching := congrArg Standing.watching hrules
  exact ⟨congrArg Standing.status hrules, watching_of_standing hothers hwatching⟩

theorem watches {e : Exchange serving} (h : rules e.request S e.answer S')
    (he : plain e = ⟨.startWatcher, .ok ()⟩) : (S'.generations e.request.1).watching = true := by
  obtain ⟨⟨j, a⟩, n, x⟩ := e
  cases he
  rcases (rules_of_not_installs h rfl).1 with ⟨-, hrules⟩ | ⟨-, ⟨failure, hfailure⟩, -⟩
  · exact congrArg Standing.watching hrules
  · cases hfailure

/-- What a start still does from when it publishes the index as complete. -/
theorem trail_announcing {message : String} (h : Trail rules S more S')
    (hmore : more.map plain = [⟨.setState .indexed message, ()⟩, ⟨.endScan, ()⟩]) :
    S'.status.state = .indexed ∧ ∀ g, (S'.generations g).watching = (S.generations g).watching := by
  obtain ⟨e, more, rfl, he, hmore⟩ := List.map_eq_cons_iff.1 hmore
  obtain ⟨e', more, rfl, he', hmore⟩ := List.map_eq_cons_iff.1 hmore
  obtain rfl := List.map_eq_nil_iff.1 hmore
  obtain ⟨S₁, answer, h⟩ := Program.trail_cons_iff.1 h
  obtain ⟨S₂, answer', h⟩ := Program.trail_cons_iff.1 h
  cases h
  obtain ⟨hstate, hwatching⟩ := publishes answer he
  obtain ⟨hstatus, hwatching'⟩ := takes_down answer' he'
  exact ⟨hstatus ▸ hstate, fun g => (hwatching' g).trans (hwatching g)⟩

/-- A start that is at work and succeeds publishes the index as complete, whatever was published meanwhile, if
it is not over yet; and it leaves its watcher at work if it has not made it already. -/
theorem ends_of_begun (order : t.job.order = .start) (sound : crew.Sound t) (begun : Begun t)
    (under : ¬Over t) (ends : Ends rules t.rest S (k, .ok ()) S') :
    S'.status.state = .indexed ∧
      (¬Armed t → (S'.generations t.job.generation).watching = true) := by
  obtain ⟨more, hfollows, htrail⟩ := ends.exists_follows
  obtain ⟨hgeneration, hcourse⟩ := course_of_start order sound hfollows
  generalize houtcome : (Except.ok () : Except IndexError Unit) = outcome at hcourse
  generalize hwhole : (t.trace ++ more).map plain = whole at hcourse
  rw [List.map_append] at hwhole
  cases hcourse with
  | ignored silent =>
    obtain ⟨e, he, message, hrequest⟩ := begun
    have hmem : plain e ∈ whole := hwhole ▸ List.mem_append_left _ (List.mem_map_of_mem he)
    refine absurd ?_ (silent _ hmem)
    rw [show (plain e).request = .setState .indexing message from hrequest]
    exact ⟨Or.inl rfl, id⟩
  | failed e dropped cleared message plain => cases houtcome
  | @finished front message hplain =>
    have hlate : (⟨.setState .indexed message, ()⟩ : Exchange indexing) ∉ t.trace.map plain := by
      intro hmem
      obtain ⟨e, he, heq⟩ := List.mem_map.1 hmem
      exact under ⟨e, he, Or.inl ⟨message, congrArg Exchange.request heq⟩⟩
    constructor
    · have hsplit : t.trace.map plain ++ more.map plain = (front ++ [⟨.startWatcher, .ok ()⟩]) ++
          [⟨.setState .indexed message, ()⟩, ⟨.endScan, ()⟩] := hwhole.trans (List.append_cons ..)
      obtain ⟨between, hmore⟩ := exists_of_append_eq hsplit hlate
      obtain ⟨first, second, rfl, -, hsecond⟩ := List.map_eq_append_iff.1 hmore
      obtain ⟨S₁, -, htrail⟩ := Program.trail_append_iff.1 htrail
      exact (trail_announcing htrail hsecond).1
    · intro unarmed
      have hlater : (⟨.startWatcher, .ok ()⟩ : Exchange indexing) ∉ t.trace.map plain := by
        intro hmem
        obtain ⟨e, he, heq⟩ := List.mem_map.1 hmem
        exact unarmed ⟨e, he, congrArg Exchange.request heq⟩
      obtain ⟨between, hmore⟩ := exists_of_append_eq hwhole hlater
      obtain ⟨first, second, rfl, -, hsecond⟩ := List.map_eq_append_iff.1 hmore
      obtain ⟨e, second, rfl, he, hrest⟩ := List.map_eq_cons_iff.1 hsecond
      obtain ⟨S₁, -, htrail⟩ := Program.trail_append_iff.1 htrail
      obtain ⟨S₂, answer, htrail⟩ := Program.trail_cons_iff.1 htrail
      have hin : e ∈ t.trace ++ (first ++ e :: second) := by simp
      rw [(trail_announcing htrail hrest).2, ← hgeneration e hin]
      exact watches answer he

/-! ## When stopping is final -/

end Lineage

/-- An index is published as one that is worked on, or as complete. -/
def Status.Shown (s : Status) : Prop :=
  s.state = .indexing ∨ s.state = .indexed

/-- Any other request shows nothing that was not shown, and makes no watcher. -/
theorem Standing.keeps_of_not_raises {d d' : Standing} {a : Action} {x : a.Answer}
    (h : ¬a.Raises) (hrules : rules a d x d') :
    (d'.status.Shown → d.status.Shown) ∧ (d'.watching = true → d.watching = true) := by
  cases a with
  | startWatcher | reportBlocks | tellBatch => exact absurd ⟨trivial, id⟩ h
  | setState state message =>
    cases hrules
    exact ⟨fun hshown => absurd ⟨hshown, id⟩ h, id⟩
  | stopWatcher =>
    cases hrules
    exact ⟨id, nofun⟩
  | install =>
    obtain ⟨hashes, rfl⟩ := hrules
    exact ⟨id, nofun⟩
  | hashes | state | beginScan =>
    cases hrules.2
    exact ⟨id, id⟩
  | _ =>
    cases hrules
    exact ⟨id, id⟩

namespace Lineage

variable {S S' S₀ : Lineage} {t : Hand} {ts : List Hand} {m : Manager} {k : Nat}

/-- However threads go on, an index that is not shown stays so, and no watcher comes to work. -/
def Final (ts : List Hand) (S : Lineage) : Prop :=
  ∀ log ts' S', crew.Runs rules ts S log ts' S' → (S'.status.Shown → S.status.Shown) ∧
    ∀ g, (S'.generations g).watching = true → (S.generations g).watching = true

theorem keeps_of_not_raises {r : Nat × Action} {x : Nat × r.2.Answer} (h : ¬r.2.Raises)
    (hrules : rules r S x S') : (S'.status.Shown → S.status.Shown) ∧
      ∀ g, (S'.generations g).watching = true → (S.generations g).watching = true := by
  by_cases hinstalls : r.2.installs
  · unfold rules at hrules
    rw [if_pos hinstalls] at hrules
    obtain ⟨-, hashes, rfl⟩ := hrules
    refine ⟨id, fun g hg => ?_⟩
    dsimp only at hg
    by_cases hbuilt : g = S.built
    · subst hbuilt
      rwa [Function.update_self] at hg
    · rwa [Function.update_of_ne hbuilt] at hg
  · obtain ⟨hrules, hothers⟩ := rules_of_not_installs hrules (Bool.eq_false_iff.2 hinstalls)
    obtain ⟨hshown, hwatching⟩ := Standing.keeps_of_not_raises h hrules
    refine ⟨hshown, fun g hg => ?_⟩
    by_cases hr : g = r.1
    · exact hr ▸ hwatching (hr ▸ hg)
    · rwa [hothers g hr] at hg

/-- The requests that may show an index or make a watcher, in view of the watchers that are at work: what a
batch tells is shown only while its watcher is. -/
def Stirs (S : Lineage) (r : Nat × Action) : Prop :=
  r.2.Raises ∧ ¬((∃ event, r.2 = .tellBatch event) ∧ (S.generations r.1).watching = false)

/-- Nobody shows what a batch tells when its watcher was stopped. -/
theorem shows_nothing {g : Nat} {event : BatchEvent} {x : Nat × (Action.tellBatch event).Answer}
    (hrules : rules (g, .tellBatch event) S x S') (unwatched : (S.generations g).watching = false) :
    S'.status = S.status ∧ ∀ k, (S'.generations k).watching = (S.generations k).watching := by
  obtain ⟨hrules, hothers⟩ := rules_of_not_installs hrules rfl
  have hrules : S'.standing g = S.standing g :=
    hrules.trans (if_neg (show ¬(S.generations g).watching = true from Bool.eq_false_iff.1 unwatched))
  exact ⟨congrArg Standing.status hrules,
    watching_of_standing hothers (congrArg Standing.watching hrules)⟩

/-- Stopping is final where nothing is left that may show an index or make a watcher. -/
theorem final_of_never (h : ∀ t ∈ ts, t.rest.Never (Stirs S)) : Final ts S := by
  intro log ts' S' run
  let inv (S' : Lineage) : Prop := (S'.status.Shown → S.status.Shown) ∧
    ∀ g, (S'.generations g).watching = true → (S.generations g).watching = true
  refine run.keeps inv (fun r S₁ x S₂ hr hrules hS₁ => ?_) h
    (fun _ _ job hjob => absurd hjob List.not_mem_nil) ⟨id, fun _ => id⟩
  by_cases hraises : r.2.Raises
  · obtain ⟨g, a⟩ := r
    obtain ⟨⟨event, rfl⟩, hdown⟩ := Classical.not_not.1 fun hnot => hr ⟨hraises, hnot⟩
    have hstill : (S₁.generations g).watching = false :=
      Bool.eq_false_iff.2 fun hup => Bool.false_ne_true (hdown ▸ hS₁.2 g hup)
    obtain ⟨hstatus, hwatching⟩ := shows_nothing hrules hstill
    exact ⟨fun h => hS₁.1 (hstatus ▸ h), fun g hg => hS₁.2 g (hwatching g ▸ hg)⟩
  · obtain ⟨hshown, hwatching⟩ := keeps_of_not_raises hraises hrules
    exact ⟨fun h => hS₁.1 (hshown h), fun g hg => hS₁.2 g (hwatching g hg)⟩

/-! ### What is left -/

/-- Orders that take an index to its rest. New settings that no services can be built from do. -/
def Halts : Manager.Order → Prop
  | .start => False
  | .batch _ => False
  | .change _ settings => (settings.enabled && settings.isConfigured) = false
  | _ => True

/-- Services that were given up are gone. -/
theorem yields_dispose : m.dispose.Yields fun m' _ => m'.running = none := by
  refine Program.yields_ite (fun hnone => Program.yields_pure (Option.isNone_iff_eq_none.1 hnone)) fun _ => ?_
  refine Program.Yields.bind (fun _ _ _ => trivial) fun _ _ _ => ?_
  refine Program.yields_ask_bind fun (state : IndexState) => ?_
  refine Program.yields_ite (fun _ => ?_) fun _ => Program.yields_pure rfl
  exact Program.yields_ask_bind fun _ => Program.yields_pure rfl

theorem yields_configure {n : Network} {settings : Settings}
    (unusable : (settings.enabled && settings.isConfigured) = false) :
    (m.configure n settings).Yields fun x _ => x.2.running = none := by
  have hidle : (!settings.enabled || !settings.isConfigured) = true := by
    rw [← Bool.not_and, unusable]
    rfl
  unfold Manager.configure
  rw [if_pos hidle]
  refine Program.Yields.bind ?_ fun m' _ (h : m'.running = none) => Program.yields_pure h
  refine yields_dispose.bind fun m' _ h => ?_
  exact Program.yields_ask_bind fun _ => Program.yields_pure h

theorem never_rouses_of_halts {order : Manager.Order} (h : Halts order) :
    (order.program m).Never Action.Rouses := by
  cases order with
  | start | batch => exact h.elim
  | stop =>
    refine Guarded.bind ?_ fun _ => trivial
    exact Program.guarded_ite (fun _ => never_rouses_stop) fun _ => trivial
  | clear => exact Program.guarded_ite (fun _ => never_rouses_clear) fun _ => trivial
  | dispose => exact Guarded.bind never_rouses_dispose fun _ => trivial
  | change n settings =>
    refine Guarded.bind (Program.guarded_ite (fun _ => trivial) fun _ => ?_) fun _ => trivial
    refine Guarded.bind_of_yields never_rouses_configure ((yields_configure h).mono fun x _ hnone => ?_)
    obtain ⟨e | _, m'⟩ := x
    · exact Or.inr trivial
    · have hstart : m'.start = pure (.ok ()) := by
        unfold Manager.start
        rw [show m'.running = none from hnone]
      refine Or.inr ?_
      dsimp only
      rw [hstart]
      trivial

/-- What installs nothing is all asked of one generation. -/
theorem never_serve {α : Type} {g : Nat} {p : Procedure α} {kind : Nat × Action → Prop}
    (h : p.Never fun (a : Action) => kind (g, a) ∨ a.installs = true) : (serve g p).Never kind := by
  induction p with
  | done a => trivial
  | call a next ih =>
    refine ⟨fun hkind => h.1 (Or.inl hkind), fun x => Or.inr ?_⟩
    change (serve (if a.installs = true then x.1 else g) (next x.2)).Never kind
    rw [if_neg fun hinstalls => h.1 (Or.inr hinstalls)]
    exact ih x.2 ((h.2 x.2).resolve_left id)

/-- What is asked of nobody is asked of no generation. -/
theorem never_serve_of_forall {α : Type} {g : Nat} {p : Procedure α} {kind : Action → Prop}
    (h : p.Never kind) : (serve g p).Never fun r : Nat × Action => kind r.2 := by
  induction p generalizing g with
  | done a => trivial
  | call a next ih => exact ⟨h.1, fun x => Or.inr (ih x.2 ((h.2 x.2).resolve_left id))⟩

/-- The batch of a watcher that was stopped stirs nothing. -/
theorem never_stirs_processBatch {g : Nat} {changes : Changes}
    (unwatched : (S.generations g).watching = false) :
    (serve g (m.processBatch changes)).Never (Stirs S) := by
  refine never_serve (never_governs_processBatch.mono (fun _ => id) fun a h => ?_)
  rcases h with ⟨hraises, hnot⟩ | hinstalls
  · cases a with
    | setState | startWatcher | reportBlocks => trivial
    | tellBatch event => exact absurd ⟨⟨event, rfl⟩, unwatched⟩ hnot
    | beginScan | endScan => exact absurd trivial hraises.2
    | _ => exact hraises.1.elim
  · cases a with
    | install => trivial
    | _ => cases hinstalls

theorem nonempty_answer (r : Nat × Action) : Nonempty (serving.Answer r) :=
  ⟨0, (Premises.respond [] (fun _ => false) r.2 { files := fun _ => none }).1⟩

/-- Where the rest of a list begins with all that has a property, nothing in front of it has. -/
theorem exists_of_mem_first {β : Type} {P : β → Prop} {first second front last : List β} {e : β}
    (h : first ++ second = front ++ last) (he : e ∈ first) (hP : P e) (hfront : ∀ e ∈ front, ¬P e) :
    ∃ y between, last = y :: (between ++ second) := by
  rcases List.append_eq_append_iff.1 h with ⟨between, rfl, -⟩ | ⟨between, rfl, hlast⟩
  · exact absurd hP (hfront e (List.mem_append_left _ he))
  · cases between with
    | nil => exact absurd hP (hfront e (by simpa using he))
    | cons y between => exact ⟨y, between, hlast⟩

/-- In the course of a start that is over nothing comes behind that shows an index or makes a watcher. -/
theorem not_raises_of_course {first second : List (Exchange indexing)} {e x : Exchange indexing}
    (h : Lifecycle.Course outcome (first ++ second)) (he : e ∈ first) (hcloses : e.request.Closes)
    (hx : x ∈ second) : ¬x.request.Raises := by
  generalize hwhole : first ++ second = whole at h
  cases h with
  | ignored silent => exact silent x (hwhole ▸ List.mem_append_right _ hx)
  | failed failure dropped cleared message plain =>
    obtain ⟨y, between, hlast⟩ := exists_of_mem_first hwhole he hcloses plain
    have hin : x ∈ between ++ second := List.mem_append_right _ hx
    rw [← (List.cons.inj hlast).2] at hin
    simp only [List.mem_cons, List.not_mem_nil, or_false] at hin
    rcases hin with rfl | rfl | rfl | rfl
    · exact Action.not_raises id
    · exact Action.not_raises id
    · exact Action.not_raises id
    · exact Action.not_raises fun h => by rcases h with h | h <;> cases h
  | @finished front message plain =>
    have hfront : ∀ e ∈ front ++ [⟨.startWatcher, .ok ()⟩], ¬e.request.Closes := by
      intro e he h
      rcases List.mem_append.1 he with he | he
      · exact plain e he (Or.inr h)
      · obtain rfl := List.mem_singleton.1 he
        rcases h with ⟨message, h⟩ | h <;> cases h
    obtain ⟨y, between, hlast⟩ :=
      exists_of_mem_first (hwhole.trans (List.append_cons ..)) he hcloses hfront
    have hin : x ∈ between ++ second := List.mem_append_right _ hx
    rw [← (List.cons.inj hlast).2] at hin
    obtain rfl := List.mem_singleton.1 hin
    exact fun h => h.2 trivial

/-- A start that is over shows nothing any more. -/
theorem never_raises_of_over (order : t.job.order = .start) (sound : crew.Sound t) (ending : Over t) :
    t.rest.Never fun r : Nat × Action => r.2.Raises := by
  refine Program.never_of_follows fun more r next hmore hraises => ?_
  obtain ⟨x⟩ := nonempty_answer r
  obtain ⟨rest, ⟨k, outcome⟩, hrest⟩ := Program.exists_follows_done nonempty_answer (next x)
  obtain ⟨-, hcourse⟩ := course_of_start order sound ((hmore.concat x).trans hrest)
  obtain ⟨e, he, hcloses⟩ := ending
  rw [List.map_append] at hcourse
  have hin : plain ⟨r, x⟩ ∈ (more ++ [(⟨r, x⟩ : Exchange serving)] ++ rest).map plain :=
    List.mem_map_of_mem (List.mem_append_left _ (List.mem_append_right _ List.mem_cons_self))
  exact not_raises_of_course hcourse (List.mem_map_of_mem he) hcloses hin hraises

/-! ## Orders beside a start -/

/-- What may be left of an order where stopping is final: the order has ended, it takes the index to its rest,
it is a start that is over, or it is a batch whose watcher was stopped. -/
def Settled (S : Lineage) (t : Hand) : Prop :=
  Ended t ∨ Halts t.job.order ∨ t.job.order = .start ∧ Over t ∨
    (∃ changes, t.job.order = .batch changes) ∧ (S.generations t.job.generation).watching = false

theorem Settled.never_stirs (h : Settled S t) (sound : crew.Sound t) : t.rest.Never (Stirs S) := by
  have hraises : t.rest.Never (fun r : Nat × Action => r.2.Raises) → t.rest.Never (Stirs S) :=
    fun h => h.mono (fun _ => id) fun _ hstirs => hstirs.1
  rcases h with ended | hhalts | ⟨order, ending⟩ | ⟨⟨changes, order⟩, unwatched⟩
  · obtain ⟨x, hx⟩ := Option.isSome_iff_exists.1 ended
    rw [Program.eq_done_of_result? hx]
    trivial
  · have hprogram : (crew.program t.job).Never fun r : Nat × Action => r.2.Raises :=
      never_serve_of_forall ((never_rouses_of_halts hhalts).mono (fun _ => id) fun _ h => h.1)
    exact hraises (hprogram.follows sound)
  · exact hraises (never_raises_of_over order sound ending)
  · have hprogram : crew.program t.job = serve t.job.generation (t.job.manager.processBatch changes) := by
      change serve _ (t.job.order.program _) = _
      rw [order]
      rfl
    have hnever : (crew.program t.job).Never (Stirs S) := hprogram ▸ never_stirs_processBatch unwatched
    exact hnever.follows sound

/-- Whatever a manager is told, its orders and the batches of its watchers being carried out beside each other,
and wherever they stand:

- with the services of one generation at most one start is scanning;
- if all that is left is settled, then stopping is final: nothing is shown any more, and no watcher comes to
  work;
- if a start is at work and not over yet, then stopping is final only if it fails: when it succeeds it publishes
  the index as complete, whatever was published meanwhile, and it leaves its watcher at work if it has not made
  it before.
-/
theorem orders_beside_start {errands : List Manager.Errand} {log : List (Nat × Exchange serving)}
    (run : crew.Runs rules (errands.map crew.start) S₀ log ts S) :
    (∀ (g i j : Nat) (t u : Hand), ts[i]? = some t → ts[j]? = some u → Scans g t.trace →
      Scans g u.trace → i = j) ∧
    ((∀ t ∈ ts, Settled S t) → Final ts S) ∧
    ∀ t ∈ ts, t.job.order = .start → Begun t → ¬Over t →
      ∀ k S', Ends rules t.rest S (k, .ok ()) S' → S'.status.state = .indexed ∧
        (¬Armed t → (S'.generations t.job.generation).watching = true) ∧
        (¬S.status.Shown → ¬Final ts S) := by
  have hsound : ∀ t ∈ ts, crew.Sound t := run.sound fun t ht => by
    obtain ⟨errand, -, rfl⟩ := List.mem_map.1 ht
    exact .nil _
  refine ⟨(excludes run).one, fun h => final_of_never fun t ht => (h t ht).never_stirs (hsound t ht),
    fun t ht order begun under k S' ends => ?_⟩
  obtain ⟨hstate, hwatching⟩ := ends_of_begun order (hsound t ht) begun under ends
  refine ⟨hstate, hwatching, fun hshown hfinal => ?_⟩
  obtain ⟨i, hi⟩ := List.mem_iff_getElem?.1 ht
  obtain ⟨log, ts', hrun⟩ := Program.Crew.Runs.of_ends hi ends
  exact hshown ((hfinal log ts' S' hrun).1 (Or.inr hstate))

/-! ### A start that is stopped -/

instance (g : Nat) (trace : List (Exchange serving)) : Decidable (Scans g trace) :=
  inferInstanceAs (Decidable (_ = _))

/-- Answer the requests to a generation of services as a world does in which the index stands as theirs. -/
def attend (w : Scenario.World) : Program.Handler serving Lineage := fun r S =>
  let answered := Scenario.World.respond r.2 (w.place (S.standing r.1))
  let d := answered.2.standing
  if r.2.installs then
    ((S.built, answered.1), { S with
      built := S.built + 1
      generations := Function.update S.generations S.built
        { S.generations S.built with hashes := d.hashes } })
  else
    ((r.1, answered.1), { S with
      status := d.status
      generations := Function.update S.generations r.1 ⟨d.scanning, d.watching, d.hashes⟩ })

theorem rules_attend (w : Scenario.World) (r : Nat × Action) (S : Lineage) :
    rules r S (attend w r S).1 (attend w r S).2 := by
  unfold rules attend
  dsimp only
  by_cases h : r.2.installs
  · rw [if_pos h, if_pos h]
    exact ⟨rfl, _, rfl⟩
  · rw [if_neg h, if_neg h]
    have hrules := Scenario.World.rules_respond r.2 (w.place (S.standing r.1))
    rw [Scenario.World.standing_place] at hrules
    refine ⟨?_, rfl, fun g hg => Function.update_of_ne hg ..⟩
    unfold standing at hrules ⊢
    dsimp only
    rwa [Function.update_self]

/-- A workspace of one file. -/
def workspace : Scenario.World where
  disk := { tree := .dir [("w", .dir [("a.rs", .file "fn first() {}".toUTF8)])] }
  cache := { file := "/cache.json", debounce := 1 }
  script := {}
  services := Premises.smallServices

/-- Its manager. -/
def keeper : Manager where
  root := "/w"
  cacheDir := "/cache"
  trees := Premises.smallServices.trees
  settings := { embed := { provider := .ollama } }
  running := some ⟨Premises.smallServices, {}⟩

/-- Orders for which nothing was done yet, in a workspace that was not indexed yet. -/
def given (orders : List Manager.Order) : List Hand × Lineage :=
  ((orders.map fun order => ⟨keeper, 0, order⟩).map crew.start, {})

/-- Go on with orders, which take turns. -/
def goOn (turns : List Nat) (now : List Hand × Lineage) : List Hand × Lineage :=
  (Program.Crew.takeTurns (attend workspace) crew turns now.1 now.2).2

theorem runs_goOn (turns : List Nat) (now : List Hand × Lineage) :
    ∃ log, crew.Runs rules now.1 now.2 log (goOn turns now).1 (goOn turns now).2 :=
  ⟨_, Program.Crew.runs_takeTurns (rules_attend workspace) crew turns now.1 now.2⟩

theorem map_job_goOn (turns : List Nat) (now : List Hand × Lineage) :
    (goOn turns now).1.map (·.job) = now.1.map (·.job) := by
  obtain ⟨log, run⟩ := runs_goOn turns now
  have hnone : log.flatMap (fun e => crew.spawns e.2.request) = [] :=
    List.flatMap_eq_nil_iff.2 fun _ _ => rfl
  rw [run.map_job, hnone, List.append_nil]

/-- A start has come to its end, and a batch of its watcher has made three requests, when a stop comes. -/
def overtaken : List Hand × Lineage :=
  goOn (List.replicate 20 0 ++ List.replicate 3 1 ++ List.replicate 3 2)
    (given [.start, .batch [("/w/a.rs", .changed)], .stop])

/-- This stop is final: the batch that goes on shows nothing. -/
theorem orders_beside_start_overtaken :
    overtaken.1.map (·.rest.result?.isSome) = [true, false, true] ∧
      overtaken.2.status.state = .standby ∧ Final overtaken.1 overtaken.2 := by
  obtain ⟨log, run⟩ := runs_goOn (List.replicate 20 0 ++ List.replicate 3 1 ++ List.replicate 3 2)
    (given [.start, .batch [("/w/a.rs", .changed)], .stop])
  have hended : overtaken.1.map (·.rest.result?.isSome) = [true, false, true] := by decide +kernel
  have hwatching : (overtaken.2.generations 0).watching = false := by decide +kernel
  refine ⟨hended, by decide +kernel, (orders_beside_start run).2.1 fun t ht => ?_⟩
  have hjobs : overtaken.1.map (·.job) = [⟨keeper, 0, .start⟩,
      ⟨keeper, 0, .batch [("/w/a.rs", .changed)]⟩, ⟨keeper, 0, .stop⟩] := map_job_goOn ..
  obtain ⟨t₀, ts, hts, -, hjobs⟩ := List.map_eq_cons_iff.1 hjobs
  obtain ⟨t₁, ts, rfl, hbatch, hjobs⟩ := List.map_eq_cons_iff.1 hjobs
  obtain ⟨t₂, ts, rfl, -, hjobs⟩ := List.map_eq_cons_iff.1 hjobs
  obtain rfl := List.map_eq_nil_iff.1 hjobs
  change t ∈ overtaken.1 at ht
  rw [hts] at hended ht
  simp only [List.map_cons, List.map_nil, List.cons.injEq, and_true] at hended
  simp only [List.mem_cons, List.not_mem_nil, or_false] at ht
  rcases ht with rfl | rfl | rfl
  · exact Or.inl hended.1
  · refine Or.inr (Or.inr (Or.inr ⟨⟨_, congrArg Manager.Errand.order hbatch⟩, ?_⟩))
    rw [hbatch]
    exact hwatching
  · exact Or.inl hended.2.2

/-- An order that comes when a start has made its first eight requests. -/
def interrupted (order : Manager.Order) : List Hand × Lineage :=
  goOn (List.replicate 8 0 ++ List.replicate 18 1) (given [.start, order])

/-- The start that was interrupted goes on. -/
def resumed (order : Manager.Order) : List Hand × Lineage :=
  goOn (List.replicate 12 0) (interrupted order)

/-- A stop, a clearing or a disposal has come to its end while the start was scanning. No other start comes,
and yet the index is published as complete at the end, with a watcher at work. And beside a change of settings
two starts of one manager are scanning at the same time. -/
theorem shown_behind_stop :
    (∀ order ∈ [Manager.Order.stop, .clear, .dispose],
      (interrupted order).1.map (·.rest.result?.isSome) = [false, true] ∧
      (interrupted order).2.status.state = .standby ∧
      ((interrupted order).2.generations 0).watching = false ∧
      (resumed order).1.map (·.rest.result?.isSome) = [true, true] ∧
      (resumed order).2.status.state = .indexed ∧
      ((resumed order).2.generations 0).watching = true) ∧
    (interrupted (.change .down { embed := { provider := .ollama, baseUrl := some "http://localhost:4000" } })).1.map
      (fun t => (decide (Scans 0 t.trace), decide (Scans 1 t.trace))) = [(true, false), (false, true)] := by
  decide +kernel

end Lineage

end SourceIndex
