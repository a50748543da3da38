import SourceIndex.Proofs.Index.Calls
/-!
# What is shown of a batch of changes

A batch tells of each of its files, of a changed one when it was read and of a deleted one when the old
points are gone. What is published goes by these numbers alone: it is `indexing` as long as there are files
left to tell of, and `indexed` from then on (`Standing.Shown`).

So the deletion of old points is shown only for the sake of the deleted files, and the upserts never are
(`Standing.shown_before_request`): a start that comes beside them is let through.
-/

namespace SourceIndex

open Program (Exchange Follows Guarded Heeds Trail counting)

/-- Whether a request tells of a file of a batch of changes. -/
def Action.counts : Action → Bool
  | .tellBatch (.progress _ _ (some _)) => true
  | _ => false

/-- The requests by which what is published may change. -/
def Action.Displays : Action → Prop
  | .tellBatch _ => True
  | a => a.Governs

/-- The requests of a batch that change the store. -/
def Action.Alters : Action → Prop
  | .deletePoints _ => True
  | .upsert _ => True
  | _ => False

/-- How many files exchanges told of. -/
def counted (trace : List (Exchange indexing)) : Nat :=
  trace.countP (Action.counts ·.request)

namespace Standing

variable {s : Services} {d d' : Standing} {a : Action} {total n : Nat} {tally : Change.Tally}

/-- A batch of `total` files is under way, `n` of them have been told of, and what is published says whether
there are more. -/
structure Shown (total n : Nat) (d : Standing) : Prop where
  scanning : d.scanning = false
  watching : d.watching = true
  state : d.state = if n < total then .indexing else .indexed

/-- What does not display anything leaves what is published alone. -/
theorem Shown.keeps {x : a.Answer} (h : ¬a.Displays) (hrules : rules a d x d') (hd : Shown total n d) :
    Shown total n d' := by
  have hsame : d'.scanning = d.scanning ∧ d'.watching = d.watching ∧ d'.status = d.status := by
    cases a with
    | setState | beginScan | endScan | startWatcher | stopWatcher | install | reportBlocks | tellBatch =>
      exact absurd trivial h
    | hashes | state =>
      cases hrules.2
      exact ⟨rfl, rfl, rfl⟩
    | _ =>
      cases hrules
      exact ⟨rfl, rfl, rfl⟩
  exact ⟨hsame.1.trans hd.scanning, hsame.2.1.trans hd.watching,
    (congrArg Status.state hsame.2.2).trans hd.state⟩

/-- While a batch is under way what it tells of files is published. -/
theorem shown_of_files {event : BatchEvent} (idle : d.scanning = false) (watching : d.watching = true)
    (hrules : rules (.tellBatch event) d () d') {current : Option String}
    (hevent : d.status.showBatchEvent false event = d.status.reportFiles n total current) :
    Shown total n d' := by
  have hd' : d' = { d with status := d.status.reportFiles n total current } := by
    rw [show d' = _ from hrules, if_pos watching, idle, hevent]
  subst hd'
  refine ⟨idle, watching, ?_⟩
  change (d.status.reportFiles n total current).state = _
  unfold Status.reportFiles
  split
  · rfl
  · rfl

/-! ## The parts of a batch -/

section

/-- What a request of a batch needs: what is published is what was told. The old points are deleted when
all but `deleted` of the files have been told of, and points are upserted when all have. -/
structure Fits (total deleted : Nat) (a : Action) (d : Standing × Nat) : Prop where
  shown : Shown total d.2 d.1
  delete : ∀ paths, a = .deletePoints paths → d.2 + deleted = total
  upsert : ∀ points, a = .upsert points → d.2 = total

/-- Where a batch has counted `n` files. -/
def Stands (total n : Nat) (d : Standing × Nat) : Prop :=
  Shown total d.2 d.1 ∧ d.2 = n

variable {deleted : Nat} {here : Standing × Nat}

theorem Fits.of_stands (hd : Stands total n here) (h : ¬a.Alters) : Fits total deleted a here := by
  refine ⟨hd.1, ?_, ?_⟩
  · rintro paths rfl
    exact absurd trivial h
  · rintro points rfl
    exact absurd trivial h

/-- Requests that neither display nor count anything leave a batch where it stands. -/
theorem Stands.keeps {there : Standing × Nat} {x : a.Answer} (h : ¬a.Displays)
    (hrules : counting rules Action.counts a here x there) (hd : Stands total n here) :
    Stands total n there := by
  obtain ⟨hrules, hcount⟩ := hrules
  have hzero : (Action.counts a).toNat = 0 := by
    cases a with
    | tellBatch event => exact absurd trivial h
    | _ => rfl
  rw [hzero, Nat.add_zero] at hcount
  exact ⟨hcount ▸ hd.1.keeps h hrules, hcount.trans hd.2⟩

theorem heeds_never {α : Type} {p : Procedure α}
    (hp : p.Never fun (a : Action) => a.Displays ∨ a.Alters) (hd : Stands total n here) :
    p.Heeds (counting rules Action.counts) (Fits total deleted) here fun _ there =>
      Stands total n there :=
  hp.heeds (fun _ _ h hd => .of_stands hd fun halters => h (Or.inr halters))
    (fun _ _ _ _ h answer hd => hd.keeps (fun hdisplays => h (Or.inl hdisplays)) answer) hd

/-- Telling of one more file. -/
theorem heeds_tellProgress {α : Type} {f : Unit → Procedure α} {post : α → Standing × Nat → Prop}
    {path : String} (hd : Stands total n here)
    (h : ∀ there, Stands total (n + 1) there →
      (f ()).Heeds (counting rules Action.counts) (Fits total deleted) there post) :
    (Change.tellProgress (n + 1) total (some path) >>= f).Heeds (counting rules Action.counts)
      (Fits total deleted) here post := by
  refine Program.heeds_ask_bind (.of_stands hd id) fun _ there ⟨answer, hcount⟩ => h there ?_
  have hcount : there.2 = n + 1 := by rw [hcount, hd.2]; rfl
  refine ⟨?_, hcount⟩
  rw [hcount]
  have hshows : here.1.status.showBatchEvent false (.progress (n + 1) total (some path)) =
      here.1.status.reportFiles (n + 1) total (some path) := rfl
  exact shown_of_files hd.1.scanning hd.1.watching answer hshows

theorem heeds_count (outcomes : List FileOutcome) (hd : Stands total tally.processed here) :
    (Change.count total tally outcomes).Heeds (counting rules Action.counts) (Fits total deleted) here
      fun tally' there => Stands total tally'.processed there ∧
        tally'.processed = tally.processed + outcomes.length := by
  induction outcomes generalizing tally here with
  | nil => exact Program.heeds_pure ⟨hd, rfl⟩
  | cons outcome outcomes ih =>
    have hadd : (tally.add outcome).processed = tally.processed + 1 := by
      cases outcome with
      | result r => rfl
      | ready f => rfl
    refine heeds_tellProgress hd fun there h => (ih (hadd ▸ h)).mono fun tally' _ h' => ⟨h'.1, ?_⟩
    rw [h'.2, hadd, List.length_cons]
    omega

theorem yields_processAll (paths : List String) :
    (Change.processAll s paths).Yields fun outcomes _ => outcomes.length = paths.length := by
  induction paths with
  | nil => exact Program.yields_pure rfl
  | cons path paths ih =>
    refine Program.Yields.bind (fun _ _ _ => trivial) fun _ _ _ => ?_
    exact ih.bind fun _ _ h => Program.yields_pure (congrArg Nat.succ h)

/-- Neither reading nor embedding files shows anything or changes the store. -/
theorem spares_displays : Change.Spares fun a => a.Displays ∨ a.Alters where
  size _ := (Or.elim · id id)
  read _ := (Or.elim · id id)
  hashes := (Or.elim · id id)
  embed _ := (Or.elim · id id)

theorem heeds_processGroups (groups : List (List String)) (hd : Stands total tally.processed here) :
    (Change.processGroups s total tally groups).Heeds (counting rules Action.counts)
      (Fits total deleted) here fun tally' there => Stands total tally'.processed there ∧
        tally'.processed = tally.processed + groups.flatten.length := by
  induction groups generalizing tally here with
  | nil => exact Program.heeds_pure ⟨hd, rfl⟩
  | cons group groups ih =>
    refine ((heeds_never (Change.never_processAll spares_displays group) hd).and_yields
      (yields_processAll group)).bind fun outcomes here₁ ⟨h₁, hlength⟩ => ?_
    refine (heeds_count outcomes h₁).bind fun tally₁ here₂ ⟨h₂, hcount⟩ => ?_
    refine (ih h₂).mono fun tally' _ ⟨h', htotal⟩ => ⟨h', ?_⟩
    rw [htotal, hcount, hlength, List.flatten_cons, List.length_append, Nat.add_assoc]

/-- The old points are deleted once all but the deleted files have been told of. -/
theorem heeds_deleteStale {paths : List String} (hd : Stands total n here) (hn : n + deleted = total) :
    (Change.deleteStale s paths).Heeds (counting rules Action.counts) (Fits total deleted) here
      fun _ there => Stands total n there := by
  unfold Change.deleteStale
  refine Program.heeds_ite (fun _ => Program.heeds_pure hd) fun _ => ?_
  refine Program.heeds_ask_bind ⟨hd.1, fun _ _ => hd.2 ▸ hn, nofun⟩ fun x there answer => ?_
  have hthere : Stands total n there := hd.keeps id answer
  cases x with
  | ok => exact Program.heeds_pure hthere
  | error e => exact Program.heeds_pure hthere

theorem heeds_settleDeleted {failed : Bool} (paths : List String)
    (hd : Stands total tally.processed here) :
    (Change.settleDeleted total failed tally paths).Heeds (counting rules Action.counts)
      (Fits total deleted) here fun tally' there => Stands total tally'.processed there ∧
        tally'.processed = tally.processed + paths.length := by
  induction paths generalizing tally here with
  | nil => exact Program.heeds_pure ⟨hd, rfl⟩
  | cons path paths ih =>
    refine heeds_tellProgress hd fun there h => ?_
    have hrest : ∀ (outcome : ChangeOutcome) (there : Standing × Nat),
        Stands total (tally.processed + 1) there →
        (Change.settleDeleted total failed (tally.add (.of path outcome)) paths).Heeds
          (counting rules Action.counts) (Fits total deleted) there fun tally' there =>
            Stands total tally'.processed there ∧
              tally'.processed = tally.processed + (path :: paths).length := by
      refine fun outcome there hthere => (ih hthere).mono fun tally' _ ⟨h', htotal⟩ => ⟨h', ?_⟩
      change _ = tally.processed + 1 + paths.length at htotal
      rw [htotal, List.length_cons]
      omega
    refine Program.heeds_ite (fun _ => ?_) fun _ => hrest _ there h
    exact Program.heeds_ask_bind (.of_stands h id) fun _ there' answer => hrest _ there' (h.keeps id answer)

/-- Points are upserted once all files have been told of. -/
theorem heeds_upsertReady {ready : List ReadyFile} (hd : Stands total total here) :
    (Change.upsertReady s ready).Heeds (counting rules Action.counts) (Fits total deleted) here
      fun _ there => Stands total total there := by
  let kind (a : Action) : Prop := a.Displays ∨ ∃ paths, a = .deletePoints paths
  have hother : ∀ {a : Action}, ¬a.Displays → (∀ paths, a ≠ .deletePoints paths) → ¬kind a := by
    rintro a hdisplays hne (h | ⟨paths, h⟩)
    · exact hdisplays h
    · exact hne paths h
  have hnever : (Change.upsertReady s ready).Never kind :=
    Change.never_upsertReady (fun _ => hother id nofun) (fun _ => hother id nofun)
      (fun _ _ => hother id nofun) (fun _ => hother id nofun) ready
  refine hnever.heeds (fun a here h hd => ⟨hd.1, ?_, fun _ _ => hd.2⟩)
    (fun _ _ _ _ h answer hd => hd.keeps (fun hdisplays => h (Or.inl hdisplays)) answer) hd
  exact fun paths ha => absurd (Or.inr ⟨paths, ha⟩) h

/-- What a batch ends with is told when all files have been told of. -/
theorem heeds_finish {results : List ChangeResult} {error : Option String}
    (hd : Stands total total here) :
    (Change.finishing total results error).Heeds (counting rules Action.counts)
      (Fits total deleted) here fun _ _ => True := by
  refine Program.heeds_ask_bind (.of_stands hd id) fun _ there ⟨answer, hcount⟩ => ?_
  have hshows : here.1.status.showBatchEvent false (.progress total total none) =
      here.1.status.reportFiles total total none := rfl
  have hthere : there.2 = total := hcount.trans hd.2
  have hshown : Stands total total there :=
    ⟨hthere.symm ▸ shown_of_files hd.1.scanning hd.1.watching answer hshows, hthere⟩
  exact Program.heeds_ask_bind (.of_stands hshown id) fun _ _ _ => Program.heeds_pure trivial

end

/-- The deleted files of a batch. -/
def deletedOf (changes : Changes) : Changes :=
  changes.filter (·.2 = .deleted)

theorem length_deletedOf_pos {changes : Changes} :
    0 < (deletedOf changes).length ↔ ∃ c ∈ changes, c.2 = .deleted := by
  rw [List.length_pos_iff_exists_mem]
  simp only [deletedOf, List.mem_filter, decide_eq_true_eq]

/-- Behind its first request a batch makes each request where it fits. -/
theorem heeds_processChanges (changes : Changes) : ∃ f : Unit → Procedure (List ChangeResult),
    processChanges s changes = ask (.tellBatch (.start (Path.sort (changes.map (·.1))))) >>= f ∧
      ∀ here, Stands changes.length 0 here → (f ()).Heeds (counting rules Action.counts)
        (Fits changes.length (deletedOf changes).length) here fun _ _ => True := by
  refine ⟨_, rfl, fun here hd => ?_⟩
  let present := changes.filter (·.2 ≠ .deleted)
  have hlength : changes.length = present.length + (deletedOf changes).length := by
    rw [List.length_eq_length_filter_add fun c => decide (c.2 ≠ .deleted)]
    congr 2
    exact List.filter_congr fun c _ => by simp
  have hsorted : ∀ files : Changes, (Path.sort (files.map (·.1))).length = files.length :=
    fun files => by rw [Path.sort, List.length_mergeSort, List.length_map]
  have hstart : Stands changes.length ({} : Change.Tally).processed here := hd
  refine (heeds_processGroups _ hstart).bind fun tally here₁ hgroups => ?_
  obtain ⟨h₁, hcount⟩ := hgroups
  rw [flatten_segmentsOf, hsorted, Nat.zero_add] at hcount
  have hrest : tally.processed + (deletedOf changes).length = changes.length := by
    rw [hcount, hlength]
  refine (heeds_deleteStale h₁ hrest).bind fun deleteError here₂ h₂ => ?_
  refine (heeds_settleDeleted _ h₂).bind fun tally' here₃ hdeleted => ?_
  obtain ⟨h₃, hcount'⟩ := hdeleted
  rw [hsorted] at hcount'
  rw [hcount'.trans hrest] at h₃
  cases deleteError with
  | some e => exact heeds_finish h₃
  | none => exact (heeds_upsertReady h₃).bind fun _ _ h₄ => heeds_finish h₄

/-! ## Starts beside a batch -/

/-- A start beside no scan asks for the collection unless a batch is published. -/
theorem prepares_iff {trace : List (Exchange indexing)} {outcome : Except IndexError Unit}
    (idle : d.scanning = false) (follows : Follows (Lifecycle.start s) trace (.done outcome))
    (trail : Trail rules d trace d') :
    (∃ e ∈ trace, e.request = Action.prepareStore) ↔ d.state ≠ .indexing := by
  unfold Lifecycle.start at follows
  obtain ⟨running, trace₁, rfl, follows₁⟩ := Program.follows_ask_bind_iff.1 follows
  obtain ⟨d₁, ⟨hrunning, hd₁⟩, trail₁⟩ := Program.trail_cons_iff.1 trail
  have hrunning : running = false := hrunning.trans idle
  rw [hrunning, if_neg Bool.false_ne_true] at follows₁
  obtain ⟨state, trace₂, rfl, follows₂⟩ := Program.follows_ask_bind_iff.1 follows₁
  obtain ⟨d₂, ⟨hstate, -⟩, -⟩ := Program.trail_cons_iff.1 trail₁
  have hstate : state = d.state := hstate.trans (by rw [hd₁])
  rw [hstate] at follows₂
  by_cases hindexing : d.state = .indexing
  · rw [if_pos hindexing] at follows₂
    obtain ⟨_, trace₃, rfl, follows₃⟩ := Program.follows_ask_bind_iff.1 follows₂
    obtain ⟨rfl, -⟩ := Program.follows_done_iff.1 follows₃
    refine iff_of_false ?_ (not_not_intro hindexing)
    rintro ⟨e, hmem, he⟩
    simp only [List.mem_cons, List.not_mem_nil, or_false] at hmem
    rcases hmem with rfl | rfl | rfl
    · cases he
    · cases he
    · cases he
  · rw [if_neg hindexing] at follows₂
    obtain ⟨_, trace₃, rfl, follows₃⟩ := Program.follows_ask_bind_iff.1 follows₂
    obtain ⟨_, full, more, rfl, hfull, -⟩ := Program.follows_bind_iff.1 follows₃
    obtain ⟨_, first, second, rfl, hreconcile, -⟩ := Program.follows_bind_iff.1 hfull
    obtain ⟨x, rest, rfl, -⟩ := Program.follows_ask_bind_iff.1 hreconcile
    exact iff_of_true ⟨⟨.prepareStore, x⟩, by simp, rfl⟩ hindexing

/-- What is shown while a request of a batch is about to be made. -/
structure Displayed (changes : Changes) (trace : List (Exchange indexing)) (a : Action) (d : Standing) :
    Prop where
  state : d.state = if counted trace < changes.length then .indexing else .indexed
  delete : ∀ paths, a = .deletePoints paths → (d.state = .indexing ↔ ∃ c ∈ changes, c.2 = .deleted)
  upsert : ∀ points, a = .upsert points → d.state = .indexed
  ignored : counted trace < changes.length → ∀ s : Services,
    (Lifecycle.start s).Ensures rules d fun outcome d' => outcome = .ok () ∧ d' = d
  scans : changes.length ≤ counted trace → ∀ (s : Services) more outcome d',
    Follows (Lifecycle.start s) more (.done outcome) → Trail rules d more d' →
      ∃ e ∈ more, e.request = Action.prepareStore

/-- Beside no scan, from the first thing that a batch tells to the last one, it is published as `indexing` as
long as there are files that it has not told of, and as `indexed` from then on. So the deletion of old
points is shown only if there are deleted files, and no upsert is: a start beside it scans. -/
theorem shown_before_request {changes : Changes} {trace : List (Exchange indexing)}
    {next : a.Answer → Procedure (List ChangeResult)} (idle : d.scanning = false)
    (watching : d.watching = true) (follows : Follows (processChanges s changes) trace (.call a next))
    (begun : trace ≠ []) (trail : Trail rules d trace d') : Displayed changes trace a d' := by
  obtain ⟨f, hf, hheeds⟩ := heeds_processChanges (s := s) changes
  rw [hf] at follows
  obtain ⟨x, rest, rfl, hbehind⟩ := follows.of_ask_bind begun
  obtain ⟨d₁, hstart, hrest⟩ := Program.trail_cons_iff.1 trail
  -- the first thing that is told shows the batch with none of its files
  have hshows : d.status.showBatchEvent false (.start (Path.sort (changes.map (·.1)))) =
      d.status.reportFiles 0 changes.length none := by
    have hlength : (Path.sort (changes.map (·.1))).length = changes.length := by
      rw [Path.sort, List.length_mergeSort, List.length_map]
    rw [← hlength]
    rfl
  have hstands : Stands changes.length 0 (d₁, 0) := ⟨shown_of_files idle watching hstart hshows, rfl⟩
  have hfits := (hheeds _ hstands).of_follows hbehind (Program.trail_counting hrest 0)
  rw [Nat.zero_add] at hfits
  change Fits _ _ a (d', counted (⟨.tellBatch (.start (Path.sort (changes.map (·.1)))), x⟩ :: rest)) at hfits
  refine ⟨hfits.shown.state, fun paths ha => ?_, fun points ha => ?_, fun hmore s' => ?_,
    fun hdone s' more outcome d'' hfollows htrail => ?_⟩
  · have hsum := hfits.delete paths ha
    rw [hfits.shown.state, ← length_deletedOf_pos]
    split
    · exact iff_of_true rfl (by omega)
    · exact iff_of_false (by decide) (by omega)
  · rw [hfits.shown.state, if_neg (Nat.not_lt.2 (Nat.le_of_eq (hfits.upsert points ha).symm))]
  · exact ensures_start_busy (Or.inr (hfits.shown.state.trans (if_pos hmore)))
  · refine (prepares_iff hfits.shown.scanning hfollows htrail).2 ?_
    rw [hfits.shown.state, if_neg (Nat.not_lt.2 hdone)]
    decide

/-- A workspace of one file that is watched and was indexed. -/
def attended : Scenario.World where
  disk := { tree := .dir [("w", .dir [("a.rs", .file "fn first() {}".toUTF8)])] }
  cache := { file := "/cache.json", debounce := 1 }
  status := { state := .indexed }
  watch := some { services := Premises.smallServices }
  services := Premises.smallServices

/-- A batch of the file, up to its upsert. -/
def halfway : List (Exchange indexing) × Procedure (List ChangeResult) × Scenario.World :=
  Program.advance Scenario.World.answer 7 (processChanges Premises.smallServices [("/w/a.rs", .changed)])
    attended

theorem exists_upsert_halfway : ∃ points next, halfway.2.1 = .call (.upsert points) next :=
  exists_eq_call_upsert (by decide +kernel)

theorem follows_halfway : Follows (processChanges Premises.smallServices [("/w/a.rs", .changed)]) halfway.1
    halfway.2.1 :=
  Program.follows_advance

theorem trail_halfway : Trail rules attended.standing halfway.1 halfway.2.2.standing :=
  Program.trail_advance Scenario.World.standing Scenario.World.rules_answer

/-- When the points of a changed file are about to be upserted, the batch is published as done. -/
theorem shown_before_request_halfway : ∃ points,
    Displayed [("/w/a.rs", .changed)] halfway.1 (.upsert points) halfway.2.2.standing ∧
      halfway.2.2.standing.state = .indexed := by
  obtain ⟨points, next, hnext⟩ := exists_upsert_halfway
  have hbegun : halfway.1 ≠ [] := by
    have hlength : halfway.1.length = 7 := by decide +kernel
    intro hnil
    rw [hnil] at hlength
    cases hlength
  refine ⟨points, ?_, by decide +kernel⟩
  exact shown_before_request rfl rfl (hnext ▸ follows_halfway) hbegun trail_halfway

/-- A batch that is still to upsert points need not be published as under way, and a start beside it asks for
the collection. -/
theorem start_beside_upsert : attended.standing.scanning = false ∧ attended.standing.watching = true ∧
    ∃ trace points next d',
    Follows (processChanges Premises.smallServices [("/w/a.rs", .changed)]) trace
      (.call (.upsert points) next) ∧
    Trail rules attended.standing trace d' ∧ d'.state ≠ .indexing ∧
    ∃ more outcome d'', Follows (Lifecycle.start Premises.smallServices) more (.done outcome) ∧
      Trail rules d' more d'' ∧ ∃ e ∈ more, e.request = Action.prepareStore := by
  obtain ⟨points, next, hnext⟩ := exists_upsert_halfway
  have hshown : halfway.2.2.standing.state ≠ .indexing := by decide +kernel
  have hidle : halfway.2.2.standing.scanning = false := by decide +kernel
  obtain ⟨more, hfollows, htrail⟩ := (ends_world .start halfway.2.2).exists_follows
  exact ⟨rfl, rfl, halfway.1, points, next, halfway.2.2.standing, hnext ▸ follows_halfway, trail_halfway, hshown,
    more, _, _, hfollows, htrail, (prepares_iff hidle hfollows htrail).2 hshown⟩

end Standing

end SourceIndex
