import SourceIndex.Proofs.Index.Crashes
import SourceIndex.Proofs.Index.Outdated
import SourceIndex.Proofs.Index.Vanishing
/-!
# Starting again after a crash

A start that was cut off is followed by one that reads the cache file again and in which nothing fails. It
compares hashes only: it brings every file up to date whose hash is not in the cache file, and for the others
it relies on what is in the store (`recovered_iff`). If the cut-off start began with cache and store in
agreement, then a hash in the cache file has its points behind it, with three exceptions. The store was
emptied and the cache file was not, as yet (`unrecovered_behind_cut`); of several blocks not all were stored
when the hash was written; or the store had refused to delete older points.
-/

namespace SourceIndex

/-- An index at rest: the cache file has the hashes in memory, and nothing was refused so far. -/
def Durable.atRest (L : Scene) : Durable where
  scene := { L with refused := [] }
  saved := L.hashes

/-- The answers where the collection is new, or is not. -/
def Action.Opens (created : Bool) : (a : Action) → a.Answer → Prop
  | .prepareStore, x => x = .ok created
  | _, _ => True

namespace Premises

section Definitions
variable (e : Premises) (listed : List String) (size : String → Nat) (created : Bool)

/-- The same workspace when no call fails. -/
def unfailing : Premises :=
  { e with fails := fun _ => False }

/-- The rules of a start in which nothing fails and which finds a collection, or makes one. -/
def restartRules : Program.Rules indexing Scene :=
  fun a L x L' => e.unfailing.cleanRules listed size a L x L' ∧ a.Opens created x

end Definitions

variable {e : Premises} {listed : List String} {size : String → Nat} {created : Bool}
  {L L' L₁ : Scene} {D : Durable} {path text : String} {s : Services}

/-! ## Restarts -/

section
variable {α : Type} {p : Procedure α} {a : Action} {f : a.Answer → Procedure α}
  {post : α → Scene → Prop}

theorem restart_of_clean (h : p.Ensures (e.unfailing.cleanRules listed size) L post) :
    p.Ensures (e.restartRules listed size created) L post :=
  h.of_rules fun _ _ _ _ answer => answer.1

theorem ensures_restart_bind
    (h : ∀ x L', e.unfailing.rules a L x L' → Clean listed size a L x → a.Opens created x →
      (f x).Ensures (e.restartRules listed size created) L' post) :
    (ask a >>= f).Ensures (e.restartRules listed size created) L post :=
  Program.ensures_bind.2 (Program.ensures_ask.2 fun x L' answer =>
    h x L' answer.1.1 answer.1.2 answer.2)

end

theorem unfailing_distinct (distinct : e.Distinct) : e.unfailing.Distinct :=
  ⟨distinct.names, distinct.normalized, distinct.keys⟩

theorem orderly_unfailing : e.unfailing.Orderly L ↔ e.Orderly L :=
  ⟨fun h => ⟨h.texts, h.ids, h.known, h.cached⟩, fun h => ⟨h.texts, h.ids, h.known, h.cached⟩⟩

/-- Answers among which there is a collection are those of such a start. -/
theorem ends_restart_answer {α : Type} (nodup : listed.Nodup) (paths : ∀ path ∈ listed, e.paths path)
    (p : Procedure α) (L : Scene) : Program.Ends (e.restartRules listed size false) p L
      (p.run (answer listed size) L).1 (p.run (answer listed size) L).2 := by
  refine Program.ends_run id (fun a L => ⟨?_, ?_⟩) p L
  · exact @cleanRules_answer e.unfailing listed size nodup paths a L
  · cases a with
    | prepareStore => exact rfl
    | _ => exact trivial

/-- What a scan finds after a start that made a new collection, or found one. -/
inductive Reopened (e : Premises) (created : Bool) (L L₁ : Scene) : Prop where
  | new (hcreated : created = true) (scene : L₁ = L.clearPoints.forgetAll)
  | old (hcreated : created = false) (reconciled : e.unfailing.Reconciled L L₁)

theorem ensures_restart_reconcile (distinct : e.Distinct) (serves : e.Serves s) (ho : e.Orderly L) :
    (Lifecycle.reconcile s).Ensures (e.restartRules listed size created) L fun x L₁ =>
      x = .ok () ∧ e.Orderly L₁ ∧ e.Reopened created L L₁ := by
  unfold Lifecycle.reconcile
  refine ensures_restart_bind fun x L₁ hx _ hopens => ?_
  obtain rfl : x = .ok created := hopens
  cases created with
  | true =>
    obtain ⟨-, rfl⟩ := hx.resolve_right fun h => h.elim (fun h => nomatch h.1) fun h => h.1
    refine Program.ensures_ask.2 fun y L₂ hy => ?_
    obtain rfl : L₂ = L.clearPoints.forgetAll := hy.1.1
    exact ⟨hy.1.2, ho.clearPoints.forgetAll, .new rfl rfl⟩
  | false =>
    obtain ⟨-, rfl⟩ := (hx.resolve_left fun h => nomatch h.1).resolve_right fun h => h.1
    refine Program.Ensures.bind (restart_of_clean (clean_of_ensures (ensures_removeOrphans
      (unfailing_distinct distinct) serves (orderly_unfailing.2 ho)))) fun _ L₂ h₂ => ?_
    exact Program.ensures_pure.2 ⟨rfl, orderly_unfailing.1 h₂.orderly, .old rfl h₂⟩

/-- The scan of a restart does to every file what its listing, its size and its text say. -/
theorem ensures_restart_scanAndWatch (distinct : e.Distinct) (serves : e.Serves s) (ho : e.Orderly L) :
    (Lifecycle.scanAndWatch s).Ensures (e.restartRules listed size created) L fun x L' =>
      x = .ok () ∧ e.Orderly L' ∧ ∀ {path}, e.paths path →
        e.unfailing.Cleaned size s.tuning.maxFileSize (listed.filter s.rules.accepts) L L' path := by
  unfold Lifecycle.scanAndWatch
  refine ensures_restart_bind fun _ L₁ hL _ _ => ?_
  obtain rfl : L₁ = L := hL
  refine Program.Ensures.bind (restart_of_clean (ensures_scan_clean (fun _ h => h)
    (unfailing_distinct distinct) serves quiet_showScan rfl (orderly_unfailing.2 ho)))
    fun result L₂ h₂ => ?_
  obtain ⟨ho₂, hcheck, hcleaned⟩ := h₂
  rw [hcheck]
  refine ensures_restart_bind fun _ L₃ hL _ _ => ?_
  obtain rfl : L₃ = L₂ := hL
  refine ensures_restart_bind fun y L₄ hL hwatches _ => ?_
  obtain rfl : L₄ = L₃ := hL
  obtain rfl : y = .ok () := hwatches
  refine ensures_restart_bind fun _ L₅ hL _ _ => ?_
  obtain rfl : L₅ = L₄ := hL
  exact Program.ensures_pure.2 ⟨rfl, orderly_unfailing.1 ho₂, hcleaned⟩

theorem ensures_restart_fullIndex (distinct : e.Distinct) (serves : e.Serves s) (ho : e.Orderly L) :
    (Lifecycle.fullIndex s).Ensures (e.restartRules listed size created) L fun x L' =>
      x = .ok () ∧ ∃ L₁, e.Reopened created L L₁ ∧ e.Orderly L' ∧
        ∀ {path}, e.paths path → e.unfailing.Cleaned size s.tuning.maxFileSize
          (listed.filter s.rules.accepts) L₁ L' path := by
  unfold Lifecycle.fullIndex
  refine Program.Ensures.bind (ensures_restart_reconcile distinct serves ho) fun x L₁ h₁ => ?_
  obtain ⟨rfl, ho₁, hreopened⟩ := h₁
  refine (ensures_restart_scanAndWatch distinct serves ho₁).mono fun x L' h => ?_
  exact ⟨h.1, L₁, hreopened, h.2⟩

/-- A start in which nothing fails ends well and does to every file what a scan does. -/
theorem ensures_restart (distinct : e.Distinct) (serves : e.Serves s) (ho : e.Orderly L) :
    (Lifecycle.start s).Ensures (e.restartRules listed size created) L fun x L' =>
      x = .ok () ∧ ∃ L₁, e.Reopened created L L₁ ∧ e.Orderly L' ∧
        ∀ {path}, e.paths path → e.unfailing.Cleaned size s.tuning.maxFileSize
          (listed.filter s.rules.accepts) L₁ L' path := by
  unfold Lifecycle.start
  refine ensures_restart_bind fun (running : Bool) L₁ hL hrunning _ => ?_
  obtain rfl : L₁ = L := hL
  obtain rfl : running = false := hrunning
  refine Program.ensures_ite (fun h => Bool.noConfusion h) fun _ => ?_
  refine ensures_restart_bind fun (state : IndexState) L₂ hL hstate _ => ?_
  obtain rfl : L₂ = L₁ := hL
  refine Program.ensures_ite (fun h => absurd h hstate) fun _ => ?_
  refine ensures_restart_bind fun _ L₃ hL _ _ => ?_
  obtain rfl : L₃ = L₂ := hL
  refine (ensures_restart_fullIndex distinct serves ho).bind fun x L₄ h₄ => ?_
  refine ensures_restart_bind fun _ L₅ hL _ _ => ?_
  obtain rfl : L₅ = L₄ := hL
  obtain ⟨rfl, hrest⟩ := h₄
  exact Program.ensures_pure.2 ⟨rfl, hrest⟩

/-! ## What a restart relies on -/

/-- Whether a store holds the points of a text depends on the points of its file only. -/
theorem holds_congr (ho : (L.points.map (·.id)).Nodup) (ho' : (L'.points.map (·.id)).Nodup)
    (hmem : ∀ q, q ∈ L'.pointsOf (e.name path) ↔ q ∈ L.pointsOf (e.name path)) :
    e.Holds L' path text ↔ e.Holds L path text := by
  have hperm : (L'.pointsOf (e.name path)).Perm (L.pointsOf (e.name path)) :=
    MemoryStore.perm_of_mem_iff (MemoryStore.nodup_pointsOf ho') (MemoryStore.nodup_pointsOf ho) hmem
  exact exists_congr fun _ => and_congr_right fun _ => ⟨hperm.symm.trans, hperm.trans⟩

theorem Reopened.files (h : e.Reopened created L L₁) : L₁.files = L.files := by
  cases h with
  | new hcreated scene => rw [scene]; rfl
  | old hcreated reconciled => exact reconciled.files

/-- New points are put over nothing, since no deletion is refused and what the cache does not know is removed
first. -/
theorem Reopened.base_eq_nil (h : e.Reopened created L L₁) (hpath : e.paths path) {base : List Point}
    (beneath : e.unfailing.Beneath path L₁ L' base) : base = [] := by
  cases beneath with
  | deleted cached refused => rfl
  | unknown uncached refused =>
    cases h with
    | new hcreated scene => rw [scene]; rfl
    | old hcreated reconciled =>
      rw [reconciled.hashes] at uncached
      exact reconciled.unknown (fun _ h => h) (fun h => h) hpath uncached
  | refused cached refused fails =>
    obtain ⟨_, hfails⟩ := fails
    exact hfails.elim

/-- A restart leaves a listed file with exactly the points of its text, unless the hash of the text was read
without these points being there. -/
theorem Reopened.holds_iff (h : e.Reopened created L L₁) (ho : e.Orderly L) (ho' : e.Orderly L')
    (hpath : e.paths path) (file : L.files path = some text)
    (hhash : L'.hashes.get? path = some (contentHash text))
    (hscanned : e.unfailing.Scanned path L₁ L') :
    e.Holds L' path text ↔
      created = true ∨ (L.hashes.get? path = some (contentHash text) → e.Holds L path text) := by
  cases hscanned with
  | kept hash points =>
    rw [hash] at hhash
    cases h with
    | new hcreated scene =>
      rw [scene] at hhash
      cases hhash
    | old hcreated reconciled =>
      rw [reconciled.hashes] at hhash
      have hsame := reconciled.known hpath (by rw [hhash]; rfl)
      have hholds : e.Holds L' path text ↔ e.Holds L path text :=
        holds_congr ho.ids ho'.ids fun q => (points q).trans (hsame.points q)
      simp [hcreated, hhash, hholds]
  | @stored other vectors base file' changed hash length beneath points =>
    rw [h.files, file, Option.some_inj] at file'
    subst file'
    obtain rfl := h.base_eq_nil hpath beneath
    have hholds : e.Holds L' path text := ⟨vectors, length, MemoryStore.perm_of_mem_iff
      (MemoryStore.nodup_pointsOf ho'.ids) (MemoryStore.nodup_foldl_put List.nodup_nil) points⟩
    refine iff_of_true hholds ?_
    cases h with
    | new hcreated scene => exact Or.inl hcreated
    | old hcreated reconciled =>
      exact Or.inr fun hget => absurd (by rw [reconciled.hashes]; exact hget) changed

/-- Some points of the file are stored, all of them for blocks of the text, which has several. -/
structure Partial (e : Premises) (L : Scene) (path text : String) : Prop where
  several : 2 ≤ (e.blocks path text).length
  stored : L.pointsOf (e.name path) ≠ []
  fresh : e.Fresh path text L

/-- All points of a text with one block have one identifier, so that any of them is the only one. -/
theorem Fresh.holds (h : e.Fresh path text L) (ho : e.Orderly L) {block : Block}
    (hblocks : e.blocks path text = [block]) (hstored : L.pointsOf (e.name path) ≠ []) :
    e.Holds L path text := by
  have hown : ∀ q ∈ L.pointsOf (e.name path), ∃ vector, q = Point.ofBlock e.root block vector := by
    intro q hq
    obtain ⟨own, hown, hvector⟩ := h q hq
    rw [hblocks] at hown
    exact List.mem_singleton.1 hown ▸ hvector
  obtain ⟨q, hq⟩ := List.exists_mem_of_ne_nil _ hstored
  obtain ⟨vector, rfl⟩ := hown q hq
  have hpoints : e.points path text [vector] = [Point.ofBlock e.root block vector] := by
    rw [points, hblocks]
    rfl
  refine ⟨[vector], by rw [hblocks]; rfl, ?_⟩
  rw [hpoints]
  refine MemoryStore.perm_of_mem_iff (MemoryStore.nodup_pointsOf ho.ids) (List.nodup_singleton _)
    fun r => ⟨fun hr => List.mem_singleton.2 ?_, fun hr => List.mem_singleton.1 hr ▸ hq⟩
  obtain ⟨other, rfl⟩ := hown r hr
  exact List.inj_on_of_nodup_map (MemoryStore.nodup_pointsOf ho.ids) hr hq rfl

/-- If a file has points of its text only, and some of them, then these are all of them, or the text has
several blocks. -/
theorem holds_or_partial (ho : e.Orderly L) (fresh : e.Fresh path text L) (shown : e.Shown path text L) :
    e.Holds L path text ∨ e.Partial L path text := by
  cases hblocks : e.blocks path text with
  | nil =>
    have hnil : L.pointsOf (e.name path) = [] := List.eq_nil_iff_forall_not_mem.2 fun q hq => by
      obtain ⟨block, hblock, -⟩ := fresh q hq
      rw [hblocks] at hblock
      cases hblock
    refine Or.inl ⟨[], by rw [hblocks]; rfl, ?_⟩
    rw [hnil, points, hblocks]
    exact .nil
  | cons block rest =>
    have hstored := shown (hblocks ▸ List.cons_ne_nil _ _)
    cases rest with
    | nil => exact Or.inl (fresh.holds ho hblocks hstored)
    | cons other rest =>
      refine Or.inr ⟨?_, hstored, fresh⟩
      rw [hblocks]
      exact Nat.le_add_left ..

/-- A file of which the store holds the points has points of its text, and no others. -/
theorem Holds.fresh_and_shown (h : e.Holds L path text) : e.Fresh path text L ∧ e.Shown path text L := by
  refine ⟨fun q hq => ?_, fun hne hnil => ?_⟩
  · obtain ⟨vectors, -, hperm⟩ := h
    have hmem := MemoryStore.mem_or_mem_of_mem_foldl_put (hperm.mem_iff.1 hq)
    exact exists_of_mem_zipWith (hmem.resolve_right List.not_mem_nil)
  · obtain ⟨block, hblock⟩ := List.exists_mem_of_ne_nil _ hne
    obtain ⟨q, hq, -⟩ := h.mem_ids.2 (List.mem_map_of_mem hblock)
    exact List.ne_nil_of_mem hq hnil

/-- A file in step is resting when a start begins. -/
theorem resting_atRest (unmistaken : e.Unmistaken) (ho : e.Orderly L) (hpath : e.paths path)
    (step : e.InStep L path) (file : L.files path = some text) :
    e.Resting path text (.atRest L) := by
  refine ⟨⟨⟨ho.texts, ho.ids, ho.known, ho.cached⟩, file, ho.cached⟩, rfl, fun hget => ?_, step.absent⟩
  exact ((step.backed hget).holds unmistaken (ho.texts hpath file)).fresh_and_shown

/-- After a start was cut off anywhere, one in which nothing fails ends well, and it leaves a listed file that
can be read and is not too large with exactly the points of its text, if the collection is new, or the hash
of the text is not in the cache file, or exactly these points were in the store when the start was cut off.
If the cut-off start began with cache and store in agreement, and the hash is in the cache file without
these points, then the store is empty, or it has points of this text only, for some of its blocks, or it had
refused to delete points of the file. -/
theorem recovered_iff (distinct : e.Distinct) (unmistaken : e.Unmistaken) (serves : e.Serves s)
    (ho : e.Orderly L) (steps : ∀ {path}, e.paths path → e.InStep L path)
    (cut : Program.Passes (e.durableRules listed) (Lifecycle.start s) (.atRest L) D)
    (hpath : e.paths path) (hlisted : path ∈ listed) (accepts : s.rules.accepts path = true)
    (file : L.files path = some text) (hsize : size path ≤ s.tuning.maxFileSize) :
    ((Lifecycle.start s).Ensures (e.restartRules listed size created) D.reopened fun x L' =>
      x = .ok () ∧ (e.Holds L' path text ↔ created = true ∨
        (D.saved.get? path = some (contentHash text) → e.Holds D.scene path text))) ∧
    (D.saved.get? path = some (contentHash text) → e.Holds D.scene path text ∨
      D.scene.points = [] ∨ e.Partial D.scene path text ∨ e.name path ∈ D.scene.refused) := by
  have hsecure := (upholds_start distinct hpath serves (resting_atRest unmistaken ho hpath
    (steps hpath) file) hlisted accepts).passes D cut
  have horderly : e.Orderly D.reopened := ⟨hsecure.lasting.orderly.texts, hsecure.lasting.orderly.ids,
    hsecure.lasting.orderly.known, hsecure.lasting.saved⟩
  have hin : path ∈ listed.filter s.rules.accepts := List.mem_filter.2 ⟨hlisted, accepts⟩
  refine ⟨(ensures_restart distinct serves horderly).mono fun x L' h => ?_, fun hsaved => ?_⟩
  · obtain ⟨hok, L₁, hreopened, ho', hcleaned⟩ := h
    obtain ⟨hhash, hscanned⟩ := (hcleaned hpath).current hin
      (hreopened.files ▸ hsecure.lasting.file) hsize
    exact ⟨hok, hreopened.holds_iff horderly ho' hpath hsecure.lasting.file hhash hscanned⟩
  · -- behind a refused deletion there may be points of any text
    by_cases hspared : e.Spared path D
    · rcases hsecure.marked hspared (Or.inr hsaved) with hempty | ⟨hfresh, hshown⟩
      · exact Or.inr (Or.inl hempty)
      · exact (holds_or_partial hsecure.lasting.orderly hfresh hshown).imp_right
          fun hpartial => Or.inr (Or.inl hpartial)
    · exact Or.inr (Or.inr (Or.inr (Classical.not_not.1 hspared)))

/-! ### A start that is cut off behind the preparation of the store -/

theorem small_unmistaken : small.Unmistaken :=
  fun htext hother _ => Eq.trans htext (Eq.symm hother)

theorem inStep_secondIndexed (hpath : small.paths path) : small.InStep secondIndexed path := by
  rcases List.mem_pair.1 hpath with rfl | rfl
  · refine ⟨fun hget => ?_, fun _ => List.isEmpty_iff.1 (by decide +kernel)⟩
    have hnone : secondIndexed.hashes.get? "/w/a.rs" = none := by decide +kernel
    rw [hnone] at hget
    cases hget
  · have hget : secondIndexed.hashes.get? "/w/b.rs" = some (contentHash (smallText "/w/b.rs")) := rfl
    have hpoints : secondIndexed.points = small.points "/w/b.rs" (smallText "/w/b.rs") [[]] := rfl
    refine .of_points orderly_secondIndexed hget rfl ?_ hpoints
    decide +kernel

/-- The second file is indexed, and the start makes a new collection, as it does for vectors of another size,
and is cut off there. -/
def behindPreparation : Durable where
  scene := secondIndexed.clearPoints
  saved := secondIndexed.hashes

theorem passes_behindPreparation :
    Program.Passes (small.durableRules ["/w/a.rs", "/w/b.rs"]) (Lifecycle.start smallServices)
      (.atRest secondIndexed) behindPreparation := by
  have idle {a : Action} {x : a.Answer} (rules : small.rules a secondIndexed x secondIndexed)
      (lists : a.Lists ["/w/a.rs", "/w/b.rs"] x) (kept : ¬a.Saves x) :
      small.durableRules ["/w/a.rs", "/w/b.rs"] a (.atRest secondIndexed) x (.atRest secondIndexed) :=
    ⟨rules, lists, Or.inr ⟨rfl, kept⟩⟩
  have prepared : small.durableRules ["/w/a.rs", "/w/b.rs"] .prepareStore (.atRest secondIndexed)
      (.ok true) behindPreparation :=
    ⟨Or.inl ⟨rfl, rfl⟩, trivial, Or.inr ⟨rfl, id⟩⟩
  unfold Lifecycle.start
  refine .ask_bind false (idle rfl trivial id) ?_
  refine .ask_bind IndexState.standby (idle rfl trivial id) ?_
  refine .ask_bind () (idle rfl trivial id) ?_
  exact .ask_bind (.ok true) prepared (.here _ _)

/-- The start behind it, with files as large as a function of one line. -/
def restartBehind : Except IndexError Unit × Scene :=
  (Lifecycle.start smallServices).run (answer ["/w/a.rs", "/w/b.rs"] fun _ => 14)
    behindPreparation.reopened

theorem recovered_iff_behind_cut :
    behindPreparation.saved.get? "/w/b.rs" = some (contentHash (smallText "/w/b.rs")) ∧
      (Lifecycle.start smallServices).Ensures
        (small.restartRules ["/w/a.rs", "/w/b.rs"] (fun _ => 14) true) behindPreparation.reopened
        (fun x L' => x = .ok () ∧ small.Holds L' "/w/b.rs" (smallText "/w/b.rs")) ∧
      (Lifecycle.start smallServices).Ensures
        (small.restartRules ["/w/a.rs", "/w/b.rs"] (fun _ => 14) false) behindPreparation.reopened
        (fun x L' => x = .ok () ∧ ¬small.Holds L' "/w/b.rs" (smallText "/w/b.rs")) := by
  have hsaved : behindPreparation.saved.get? "/w/b.rs" = some (contentHash (smallText "/w/b.rs")) := rfl
  have hpath : small.paths "/w/b.rs" := List.mem_cons_of_mem _ List.mem_cons_self
  have serves : small.Serves smallServices := ⟨rfl, rfl, rfl⟩
  have accepts : smallServices.rules.accepts "/w/b.rs" = true := by decide +kernel
  have hsize : 14 ≤ smallServices.tuning.maxFileSize := by decide +kernel
  have hlost : ¬small.Holds behindPreparation.scene "/w/b.rs" (smallText "/w/b.rs") := fun h =>
    h.fresh_and_shown.2 (List.ne_nil_of_length_pos (by decide +kernel)) rfl
  have hrestart (created : Bool) := (@recovered_iff small _ (fun _ => 14) created _ _ _ _ _ small_distinct
    small_unmistaken serves orderly_secondIndexed inStep_secondIndexed passes_behindPreparation hpath
    (List.mem_cons_of_mem _ List.mem_cons_self) accepts rfl hsize).1
  refine ⟨hsaved, (hrestart true).mono fun x L' h => ?_, (hrestart false).mono fun x L' h => ?_⟩
  · exact ⟨h.1, h.2.2 (Or.inl rfl)⟩
  · exact ⟨h.1, fun hholds => hlost (((h.2.1 hholds).resolve_left nofun) hsaved)⟩

/-- A start is cut off when it has made a new collection, with the cache file as it was. The next start, in
which nothing fails, ends well, and the second file has no point. -/
theorem unrecovered_behind_cut :
    small.Orderly secondIndexed ∧ (∀ path, small.paths path → small.InStep secondIndexed path) ∧
      Program.Passes (small.durableRules ["/w/a.rs", "/w/b.rs"]) (Lifecycle.start smallServices)
        (.atRest secondIndexed) behindPreparation ∧
      Program.Ends (small.restartRules ["/w/a.rs", "/w/b.rs"] (fun _ => 14) false)
        (Lifecycle.start smallServices) behindPreparation.reopened restartBehind.1 restartBehind.2 ∧
      smallServices.rules.accepts "/w/b.rs" = true ∧ 14 ≤ smallServices.tuning.maxFileSize ∧
      restartBehind.1 = .ok () ∧ restartBehind.2.files "/w/b.rs" = some (smallText "/w/b.rs") ∧
      restartBehind.2.pointsOf (small.name "/w/b.rs") = [] ∧
      ¬small.Holds restartBehind.2 "/w/b.rs" (smallText "/w/b.rs") := by
  have hnil : restartBehind.2.pointsOf (small.name "/w/b.rs") = [] :=
    List.isEmpty_iff.1 (by decide +kernel)
  refine ⟨orderly_secondIndexed, fun _ => inStep_secondIndexed, passes_behindPreparation,
    ends_restart_answer (by decide) (fun _ h => h) _ _, by decide +kernel, by decide +kernel,
    by decide +kernel, by decide +kernel, hnil, fun h => ?_⟩
  exact h.fresh_and_shown.2 (List.ne_nil_of_length_pos (by decide +kernel)) hnil

end Premises

end SourceIndex
