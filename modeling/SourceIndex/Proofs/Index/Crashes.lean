import SourceIndex.Proofs.Index.Durability
import SourceIndex.Proofs.Index.Histories
/-!
# A start that is cut off

`Premises.Underway` is what a scan that has come to some file keeps of one file: it is in one of its two
phases, and resting as long as the scan has not come to it. `upholds_start` follows a whole start, also one
that fails: the file is `Premises.Secure` in every state at which the start may be cut off. The store may
have been emptied in front of its cache there, and a deletion may have been refused.
-/

namespace SourceIndex.Premises

variable {e : Premises} {listed seen : List String} {path text other content : String}
  {D D' D₀ : Durable} {state state' : ScanState} {batch : List PendingBlock}
  {s : Services} {mode : ScanMode} {α : Type}

/-- A run on what outlasts it is a run on the scene. -/
theorem ensures_of_scene {p : Procedure α} {post : α → Scene → Prop}
    (h : p.Ensures e.rules D.scene post) :
    p.Ensures (e.durableRules listed) D fun a D' => post a D'.scene :=
  fun a _ run => h a _ (run.of_view Durable.scene fun _ _ _ _ hx => hx.rules)

/-- A scan that indexes, and that does nothing to the file by telling what happens. -/
structure Discreet (e : Premises) (listed : List String) (path text : String) (mode : ScanMode) :
    Prop where
  indexes : mode.indexes = true
  quiet : e.Quiet mode
  tells : ∀ event D, e.Secure path text D → (mode.tell event).Upholds (e.durableRules listed)
    (e.Secure path text) D fun _ D' =>
      D'.scene = D.scene ∧ e.Lasting path text D' ∧ e.Still path D D'

/-- A request that changes nothing but may have the hashes written. -/
theorem upholds_idle_ask {a : Action} (idle : ∀ x L L', e.rules a L x L' → L' = L)
    (h : e.Secure path text D) : (ask a).Upholds (e.durableRules listed) (e.Secure path text) D
      fun _ D' => D'.scene = D.scene ∧ e.Lasting path text D' ∧ e.Still path D D' := by
  refine .ask h fun x D' hx => ?_
  have hscene := idle _ _ _ hx.rules
  exact ⟨h.idle hx hscene, hscene, h.lasting.idle hx hscene⟩

theorem discreet_showScan : e.Discreet listed path text { tell := Lifecycle.showScan } := by
  refine ⟨rfl, quiet_showScan, fun event D h => ?_⟩
  cases event with
  | parsed path blocks indexed found => exact upholds_idle_ask (fun _ _ _ hx => hx) h
  | indexed indexed found => exact upholds_idle_ask (fun _ _ _ hx => hx) h
  | error message => exact .pure h ⟨rfl, h.lasting, .refl ..⟩

/-! ## A scan on its way -/

/-- What a scan that looked at the files in `seen` keeps of the file at `path`, whose blocks may wait in the
buffer. -/
structure Underway (e : Premises) (path text : String) (seen : List String) (state : ScanState)
    (D : Durable) : Prop where
  entering : e.Entering path text state.buffer D
  unseen : path ∉ seen → e.Resting path text D
  pends : ∀ item ∈ state.buffer, e.Pends item ∧ item.block.filePath ∈ seen
  lost : state.batches.Lost path → e.Working path text D

/-- In front of the hash of a text without blocks the points of older texts are gone. -/
inductive Emptied (e : Premises) (path text other : String) (D D' : Durable) : Prop where
  | own (eq : path = other) (working : e.Working path text D')
  | others (ne : path ≠ other) (lasting : e.Lasting path text D') (still : e.Still path D D')

theorem Emptied.secure (h : e.Emptied path text other D D') (h₀ : e.Guarded path text D) :
    e.Secure path text D' := by
  cases h with
  | own eq working => exact working.secure
  | others ne lasting still => exact (h₀.still still lasting).secure

namespace Underway

theorem start (h : e.Resting path text D) : e.Underway path text [] {} D where
  entering := .idle rfl (Or.inl h)
  unseen _ := h
  pends := nofun
  lost h := absurd h (BatchResult.not_lost_empty _)

theorem guarded (h : e.Underway path text seen state D) : e.Guarded path text D :=
  h.entering.guarded

theorem secure (h : e.Underway path text seen state D) : e.Secure path text D :=
  h.guarded.secure

theorem lasting (h : e.Underway path text seen state D) : e.Lasting path text D :=
  h.guarded.lasting

theorem still (h : e.Underway path text seen state D) (hl : e.Lasting path text D')
    (hs : e.Still path D D') : e.Underway path text seen state D' where
  entering := by
    cases h.entering with
    | idle nil guarded => exact .idle nil (guarded.still hs hl)
    | busy ne resting changed waits =>
      refine .busy ne (hs.resting resting hl) (hs.same.hash ▸ changed) ?_
      rwa [hs.same.hash]
  unseen hunseen := hs.resting (h.unseen hunseen) hl
  pends := h.pends
  lost hlost := hs.working (h.lost hlost) hl

theorem idle_step (h : e.Underway path text seen state D) {a : Action} {x : a.Answer}
    (hx : e.DurableStep listed a D x D') (hscene : D'.scene = D.scene) :
    e.Underway path text seen state D' := by
  obtain ⟨hl, hstill⟩ := h.lasting.idle hx hscene
  exact h.still hl hstill

/-- Changing the other counters of a scan does not touch its invariant. -/
theorem of_eq (h : e.Underway path text seen state D) (hbuffer : state'.buffer = state.buffer)
    (hbatches : state'.batches = state.batches) : e.Underway path text seen state' D :=
  ⟨hbuffer ▸ h.entering, h.unseen, hbuffer ▸ h.pends, hbatches ▸ h.lost⟩

/-- A file may be looked at and left alone. -/
theorem pass (h : e.Underway path text seen state D) (other : String) :
    e.Underway path text (seen ++ [other]) state D where
  entering := h.entering
  unseen hunseen := h.unseen fun hin => hunseen (List.mem_append_left _ hin)
  pends item hitem := (h.pends item hitem).imp_right (List.mem_append_left _)
  lost := h.lost

theorem itemsOf_eq_nil (h : e.Underway path text seen state D) (hunseen : other ∉ seen) :
    itemsOf other state.buffer = [] :=
  Premises.itemsOf_eq_nil fun item hitem heq => hunseen (heq ▸ (h.pends item hitem).2)

/-- Work on a file without blocks is done at once. -/
theorem work (h : e.Underway path text seen state D) (hunseen : path ∉ seen)
    (hworking : e.Working path text D') : e.Underway path text (seen ++ [path]) state D' where
  entering := .idle (h.itemsOf_eq_nil hunseen) (Or.inr hworking)
  unseen hnot := absurd (List.mem_append_right _ List.mem_cons_self) hnot
  pends item hitem := (h.pends item hitem).imp_right (List.mem_append_left _)
  lost _ := hworking

/-- The blocks of a new or changed file come to wait behind the others. -/
theorem join (h : e.Underway path text seen state D) (hother : e.paths other)
    (hunseen : other ∉ seen) (file : D.scene.files other = some content)
    (changed : D.scene.hashes.get? other ≠ some (contentHash content))
    (hblocks : e.blocks other content ≠ []) :
    e.Underway path text (seen ++ [other])
      { state with
        buffer := state.buffer ++ (e.blocks other content).map fun block =>
          ⟨block, (D.scene.hashes.get? other).isSome⟩ } D := by
  have hitems : itemsOf path (state.buffer ++ (e.blocks other content).map fun block =>
        (⟨block, (D.scene.hashes.get? other).isSome⟩ : PendingBlock)) =
      itemsOf path state.buffer ++ if path = other then (e.blocks other content).map fun block =>
        ⟨block, (D.scene.hashes.get? other).isSome⟩ else [] := by
    rw [← itemsOf_blocks]
    exact List.filter_append ..
  refine ⟨?_, fun hnot => (h.pass other).unseen hnot, fun item hitem => ?_, h.lost⟩
  · by_cases heq : path = other
    · subst heq
      have hresting := h.unseen hunseen
      rw [hresting.lasting.file, Option.some_inj] at file
      subst file
      rw [if_pos rfl, h.itemsOf_eq_nil hunseen, List.nil_append] at hitems
      refine .busy ?_ hresting changed ?_
      · rw [hitems]
        exact fun hnil => hblocks (List.map_eq_nil_iff.1 hnil)
      · rw [hitems]
        exact List.forall_mem_map.2 fun block hblock => ⟨hblock, rfl⟩
    · rw [if_neg heq, List.append_nil] at hitems
      cases h.entering with
      | idle nil guarded => exact .idle (hitems.trans nil) guarded
      | busy ne resting changed waits =>
        exact .busy (hitems ▸ ne) resting changed (by rwa [hitems])
  · rcases List.mem_append.1 hitem with hitem | hitem
    · exact (h.pass other).pends item hitem
    · obtain ⟨block, hblock, rfl⟩ := List.mem_map.1 hitem
      have hfile := filePath_of_mem_blocks hblock
      refine ⟨⟨content, ?_, ?_⟩, ?_⟩
      · exact hfile.symm ▸ ⟨hother, h.lasting.orderly.texts hother file⟩
      · exact hfile.symm ▸ hblock
      · exact List.mem_append_right _ (hfile ▸ List.mem_cons_self)

/-- The file at `other` gets the hash of its text, which has no blocks. -/
theorem recorded (h : e.Underway path text seen state D₀) (hother : e.paths other)
    (hunseen : other ∉ seen) (file : D₀.scene.files other = some content)
    (hblocks : e.blocks other content = []) (hD : e.Emptied path text other D₀ D) {x : Unit}
    (hx : e.DurableStep listed (.recordHash other (contentHash content)) D x D') :
    e.Underway path text (seen ++ [other]) state D' := by
  have hscene : D'.scene = D.scene.record other (contentHash content) := hx.rules
  have proper : e.Proper (.recordHash other (contentHash content)) := hother
  cases hD with
  | own heq working =>
    subst heq
    rw [h.lasting.file, Option.some_inj] at file
    refine h.work hunseen ⟨working.lasting.step proper hx, fun hspared => ?_,
      fun _ _ hne => absurd (file ▸ hblocks) hne⟩
    rw [Spared, hscene] at hspared
    rw [hscene]
    exact working.fresh hspared
  | others hne lasting still =>
    have hsame : e.Same path D.scene D'.scene := hscene ▸ .record hne
    exact (h.still (lasting.step proper hx) (still.trans (hx.still hsame))).pass other

/-- The file at `other` is left without points, those of its text being not there yet. -/
theorem emptied (h : e.Underway path text seen state D) (hunseen : other ∉ seen)
    (file : D.scene.files other = some content)
    (changed : D.scene.hashes.get? other ≠ some (contentHash content)) (hl : e.Lasting path text D')
    (hhashes : D'.scene.hashes = D.scene.hashes)
    (hsaved : D'.saved.get? path = D.saved.get? path ∨ D'.saved.get? path = D.scene.hashes.get? path)
    (own : path = other → e.Spared path D' → D'.scene.pointsOf (e.name path) = [])
    (others : path ≠ other → e.Still path D D') : e.Emptied path text other D D' := by
  by_cases heq : path = other
  · subst heq
    rw [h.lasting.file, Option.some_inj] at file
    subst file
    exact .own rfl ((h.unseen hunseen).wiped changed hl (by rw [hhashes]) hsaved (own rfl))
  · exact .others heq hl (others heq)

/-- The points of the file at `other` were deleted. -/
theorem deleted (h : e.Underway path text seen state D) (distinct : e.Distinct)
    (hpath : e.paths path) (hother : e.paths other) (hunseen : other ∉ seen)
    (file : D.scene.files other = some content)
    (changed : D.scene.hashes.get? other ≠ some (contentHash content))
    {names : List String} (hnames : names = [e.name other]) {x : (Action.deletePoints names).Answer}
    (hx : e.DurableStep listed (.deletePoints names) D x D') : e.Emptied path text other D D' := by
  subst hnames
  obtain ⟨hhashes, kept, gone⟩ := hx.deletePoints path
  have hl : e.Lasting path text D' := h.lasting.step (a := .deletePoints _) trivial hx
  refine h.emptied hunseen file changed hl hhashes (hx.get?_saved (by rw [hhashes]))
    (fun heq => gone (heq ▸ List.mem_cons_self)) fun hne => kept fun hin => hne ?_
  exact distinct.names hpath hother (List.mem_singleton.1 hin)

/-- The file at `other` has no points, since the cache does not know it. -/
theorem uncached (h : e.Underway path text seen state D) (hunseen : other ∉ seen)
    (file : D.scene.files other = some content)
    (changed : D.scene.hashes.get? other ≠ some (contentHash content))
    (hnone : D.scene.hashes.get? other = none) : e.Emptied path text other D D := by
  refine h.emptied hunseen file changed h.lasting rfl (Or.inl rfl) (fun heq _ => ?_) fun _ => .refl ..
  subst heq
  exact (h.unseen hunseen).absent hnone

/-- The file at `other` keeps its points, since the deletion was refused. -/
theorem refused (h : e.Underway path text seen state D) (distinct : e.Distinct)
    (hpath : e.paths path) (hother : e.paths other) (hunseen : other ∉ seen)
    {names : List String} (hnames : names = [e.name other]) {failure : ServiceError}
    (hx : e.DurableStep listed (.deletePoints names) D (.error failure) D') :
    e.Underway path text (seen ++ [other]) state D' := by
  subst hnames
  have hl : e.Lasting path text D' := h.lasting.step (a := .deletePoints _) trivial hx
  obtain ⟨-, -, hscene⟩ := hx.rules.resolve_left fun hok => nomatch hok.1
  by_cases heq : path = other
  · subst heq
    have hnot : ¬e.Spared path D' := fun hspared => by
      rw [Spared, hscene] at hspared
      exact hspared (List.mem_append_right _ List.mem_cons_self)
    exact h.work hunseen ⟨hl, fun hspared => absurd hspared hnot, fun hspared => absurd hspared hnot⟩
  · have hnot : e.name path ∉ [e.name other] :=
      fun hin => heq (distinct.names hpath hother (List.mem_singleton.1 hin))
    exact (h.still hl ((hx.deletePoints path).2.1 hnot)).pass other

/-- Files with failed blocks leave the cache. -/
theorem forgotten (h : e.Underway path text seen state D)
    {x : Unit} (hx : e.DurableStep listed (.forgetHashes state.batches.failedFiles) D x D') :
    e.Guarded path text D' := by
  have hscene : D'.scene = D.scene.forget state.batches.failedFiles := hx.rules
  have hl : e.Lasting path text D' := h.lasting.step (a := .forgetHashes _) trivial hx
  by_cases hin : path ∈ state.batches.failedFiles
  · have hworking := h.lost (BatchResult.mem_failedFiles.1 hin)
    have hspared : e.Spared path D' → e.Spared path D := fun hkept => by rwa [Spared, hscene] at hkept
    refine Or.inr ⟨hl, fun hkept => ?_, fun hkept hmarked => ?_⟩
    · rw [hscene]
      exact hworking.fresh (hspared hkept)
    · have hnone : D'.scene.hashes.get? path = none := by
        rw [hscene, Scene.get?_forget, if_pos hin]
      rw [hscene]
      exact hworking.shown (hspared hkept) (hx.marked_of_none hnone hmarked)
  · exact h.guarded.still (hx.still (hscene ▸ .forget hin)) hl

end Underway

section
variable (distinct : e.Distinct) (hpath : e.paths path) (serves : e.Serves s)
  (discreet : e.Discreet listed path text mode)
include distinct hpath serves discreet

/-- A batch that is sent off keeps the invariant, and nothing waits behind it. -/
theorem upholds_submit (h : e.Underway path text seen { state with buffer := batch } D) :
    (Scan.submit s mode { state with buffer := [] } batch).Upholds (e.durableRules listed)
      (e.Secure path text) D fun state' D' =>
        state'.buffer = [] ∧ e.Underway path text seen state' D' := by
  have hs : ∀ item ∈ batch, e.Pends item := fun item hitem => (h.pends item hitem).1
  unfold Scan.submit
  rw [serves.1]
  refine ((upholds_process distinct hpath hs (fun _ _ D hD => (discreet.tells _ D hD).mono
      fun _ _ _ h => h.2) h.entering).and_ensures (ensures_of_scene (ensures_process distinct
      (fun _ _ => discreet.quiet _) hs h.lasting.orderly))).bind
    fun r D' ⟨hhandled, L₁, _, hbatched⟩ => ?_
  refine .pure (hhandled.secure h.guarded) ⟨rfl, ?_, fun hunseen => ?_, nofun, fun hlost => ?_⟩
  · refine .idle rfl ?_
    cases hhandled with
    | idle nil lasting still => exact h.guarded.still still lasting
    | working ne own working => exact Or.inr working
  · cases hhandled with
    | idle nil lasting still => exact still.resting (h.unseen hunseen) lasting
    | working ne own working => exact absurd (h.itemsOf_eq_nil hunseen) ne
  · cases hhandled with
    | idle nil lasting still =>
      have hlost := (BatchResult.lost_merge.1 hlost).resolve_right fun hr =>
        (hbatched.fails hr).elim (BatchResult.not_lost_empty _) fun hne => hne.1 nil
      exact still.working (h.lost hlost) lasting
    | working ne own working => exact working

theorem upholds_gather {blocks : List PendingBlock}
    (h : e.Underway path text seen { state with buffer := state.buffer ++ blocks } D) :
    (Scan.gather s mode state blocks).Upholds (e.durableRules listed) (e.Secure path text) D
      fun state' D' => e.Underway path text seen state' D' := by
  unfold Scan.gather
  dsimp only
  refine .ite (fun _ => ?_) fun _ => .pure h.secure h
  exact (upholds_submit distinct hpath serves discreet h).mono fun _ _ _ h' => h'.2

omit distinct hpath serves discreet in
/-- A file without blocks gets the hash of its text when it has no points of older ones. -/
theorem upholds_record (h : e.Underway path text seen state D₀) (hother : e.paths other)
    (hunseen : other ∉ seen) (file : D₀.scene.files other = some content)
    (hblocks : e.blocks other content = []) (hemptied : e.Emptied path text other D₀ D)
    (hbuffer : state'.buffer = state.buffer) (hbatches : state'.batches = state.batches) :
    Program.Upholds (e.durableRules listed) (e.Secure path text) (do
      ask (.recordHash other (contentHash content))
      pure (state', (none : Option IndexError))) D
      fun x D' => e.Underway path text (seen ++ [other]) x.1 D' := by
  refine .ask_bind (hemptied.secure h.guarded) fun x D' hx => ?_
  have h' := h.recorded hother hunseen file hblocks hemptied hx
  exact .pure h'.secure (h'.of_eq hbuffer hbatches)

/-- Taking the blocks of a new or changed file keeps the invariant, and the file was looked at. -/
theorem upholds_takeBlocks (h : e.Underway path text seen state D) (hother : e.paths other)
    (hunseen : other ∉ seen) (file : D.scene.files other = some content)
    (changed : D.scene.hashes.get? other ≠ some (contentHash content)) :
    (Scan.takeBlocks s mode state other (contentHash content) (D.scene.hashes.get? other).isSome
      (e.blocks other content)).Upholds (e.durableRules listed) (e.Secure path text) D
        fun x D' => e.Underway path text (seen ++ [other]) x.1 D' := by
  have hnames : [Path.relativeTo s.root other] = [e.name other] := by
    rw [serves.1]
    rfl
  unfold Scan.takeBlocks
  refine (discreet.tells _ D h.secure).bind fun _ D₁ ⟨hscene, hl, hstill⟩ => ?_
  have h₁ := h.still hl hstill
  rw [← hscene] at file changed ⊢
  simp only [discreet.indexes, Bool.not_true, Bool.false_eq_true, if_false]
  refine .ite (fun hempty => ?_) fun hsome => ?_
  · have hblocks := List.isEmpty_iff.1 hempty
    refine .ite (fun _ => .ask_bind h₁.secure fun x D₂ hx => ?_) fun huncached => ?_
    · cases x with
      | ok _ =>
        have hemptied := h₁.deleted distinct hpath hother hunseen file changed hnames hx
        exact upholds_record h₁ hother hunseen file hblocks hemptied rfl rfl
      | error failure =>
        have h₂ := h₁.refused distinct hpath hother hunseen hnames hx
        exact .pure h₂.secure (h₂.of_eq rfl rfl)
    · have hnone : D₁.scene.hashes.get? other = none := by simpa using huncached
      have hemptied := h₁.uncached hunseen file changed hnone
      exact upholds_record h₁ hother hunseen file hblocks hemptied rfl rfl
  · have hblocks : e.blocks other content ≠ [] := fun hnone => hsome (List.isEmpty_iff.2 hnone)
    refine Program.Upholds.bind (upholds_gather distinct hpath serves discreet
      ((h₁.join hother hunseen file changed hblocks).of_eq rfl rfl)) fun state' D₂ h₂ => ?_
    exact .pure h₂.secure h₂

/-- Scanning a file keeps the invariant, and the file was looked at. -/
theorem upholds_scanFile (h : e.Underway path text seen state D) (hother : e.paths other)
    (hunseen : other ∉ seen) :
    (Scan.scanFile s mode state other).Upholds (e.durableRules listed) (e.Secure path text) D
      fun x D' => e.Underway path text (seen ++ [other]) x.1 D' := by
  unfold Scan.scanFile
  refine .ask_bind h.secure fun x D₁ hx => ?_
  have h₁ := h.idle_step hx hx.rules
  have hpass := h₁.pass other
  cases x with
  | error failure => exact .pure hpass.secure hpass
  | ok size =>
    refine .ite (fun _ => .pure hpass.secure (hpass.of_eq rfl rfl)) fun _ => ?_
    refine .ask_bind h₁.secure fun y D₂ hy => ?_
    have h₂ := h₁.idle_step hy hy.rules.1
    have hpass := h₂.pass other
    cases y with
    | error failure => exact .pure hpass.secure hpass
    | ok content =>
      refine .ask_bind h₂.secure fun hashes D₃ hz => ?_
      obtain ⟨hscene, hhashes⟩ := hz.rules
      have h₃ := h₂.idle_step hz hscene
      have hpass := h₃.pass other
      rw [← hscene] at hhashes
      subst hhashes
      refine .ite (fun _ => .pure hpass.secure (hpass.of_eq rfl rfl)) fun hchanged => ?_
      have file : D₃.scene.files other = some content := by
        rw [hscene, hy.rules.1]
        exact hy.rules.2 content rfl
      have hblocks : Chunk.parse s.trees s.tuning.chunk other content (contentHash content) =
          e.blocks other content := by
        rw [serves.2.1, serves.2.2]
        rfl
      rw [hblocks]
      exact upholds_takeBlocks distinct hpath serves discreet h₃ hother hunseen file
        (by simpa using hchanged)

/-- Scanning files one after the other keeps the invariant, and all of them were looked at. -/
theorem upholds_scanFiles {todo : List String} (h : e.Underway path text seen state D)
    (hpaths : ∀ other ∈ todo, e.paths other) (hnodup : (seen ++ todo).Nodup) :
    (Scan.scanFiles s mode state todo).Upholds (e.durableRules listed) (e.Secure path text) D
      fun state' D' => e.Underway path text (seen ++ todo) state' D' := by
  induction todo generalizing seen state D with
  | nil => exact .pure h.secure (by rwa [List.append_nil])
  | cons other todo ih =>
    unfold Scan.scanFiles
    have hunseen : other ∉ seen := fun hin =>
      (List.nodup_append.1 hnodup).2.2 other hin other List.mem_cons_self rfl
    rw [List.append_cons] at hnodup ⊢
    obtain ⟨hother, hrest⟩ := List.forall_mem_cons.1 hpaths
    refine (upholds_scanFile distinct hpath serves discreet h hother hunseen).bind
      fun x D₁ h₁ => ?_
    obtain ⟨state₁, error⟩ := x
    cases error with
    | none => exact ih h₁ hrest hnodup
    | some error =>
      refine (discreet.tells _ D₁ h₁.secure).bind fun _ D₂ h₂ => ?_
      obtain ⟨-, hl, hstill⟩ := h₂
      exact ih (h₁.still hl hstill) hrest hnodup

/-! ## The end of a scan -/

omit distinct hpath serves in
theorem upholds_tellErrors {messages : List String} (h : e.Secure path text D) :
    (Scan.tellErrors mode messages).Upholds (e.durableRules listed) (e.Secure path text) D
      fun _ D' => e.Lasting path text D' ∧ e.Still path D D' := by
  induction messages generalizing D with
  | nil => exact .pure h ⟨h.lasting, .refl ..⟩
  | cons message messages ih =>
    unfold Scan.tellErrors
    refine ((discreet.tells _ D h).mono fun _ _ hinv hx => And.intro hinv hx).bind
      fun _ D₁ ⟨hinv, hscene, hl, hstill⟩ => ?_
    exact (ih hinv).mono fun _ D' _ ⟨hl', hstill'⟩ => ⟨hl', hstill.trans hstill'⟩

omit distinct hpath serves in
/-- A file that leaves the cache because of a failed block has been worked on. -/
theorem upholds_settle (h : e.Underway path text seen state D) :
    (Scan.settle mode state.batches).Upholds (e.durableRules listed) (e.Secure path text) D
      fun _ D' => e.Guarded path text D' := by
  unfold Scan.settle
  refine (upholds_tellErrors discreet h.secure).bind fun _ D₁ ⟨hl, hstill⟩ => ?_
  have h₁ := h.still hl hstill
  refine .ite (fun _ => .ask h₁.secure fun x D₂ hx => ?_) fun _ => .pure h₁.secure h₁.guarded
  have hguarded : e.Guarded path text D₂ := h₁.forgotten hx
  exact ⟨hguarded.secure, hguarded⟩

/-- A listed file is not among those that vanished. -/
theorem upholds_removeVanished {found : List String} (h : e.Guarded path text D)
    (hfound : path ∈ found) :
    (Scan.removeVanished s mode found).Upholds (e.durableRules listed) (e.Secure path text) D
      fun _ D' => e.Guarded path text D' := by
  have hname : Path.relativeTo s.root = e.name := by
    rw [serves.1]
    rfl
  unfold Scan.removeVanished
  refine .ask_bind h.secure fun hashes D₁ hx => ?_
  obtain ⟨hscene, hhashes⟩ := hx.rules
  have h₁ := h.idle_step hx hscene
  rw [← hscene] at hhashes
  subst hhashes
  have hkept : path ∉ (D₁.scene.hashes.map (·.1)).filter fun other => !found.contains other := by
    simp [hfound]
  have hcached : ∀ other ∈ (D₁.scene.hashes.map (·.1)).filter fun other => !found.contains other,
      (D₁.scene.hashes.get? other).isSome :=
    fun other hother => Hashes.isSome_get?_iff.2 (List.mem_of_mem_filter hother)
  have hnot : e.name path ∉ ((D₁.scene.hashes.map (·.1)).filter fun other =>
      !found.contains other).map (Path.relativeTo s.root) := by
    rw [hname]
    exact name_notMem_map distinct h₁.lasting.orderly hpath hcached hkept
  refine .ite (fun _ => .pure h₁.secure h₁) fun _ => ?_
  refine .ite (fun _ => ?_) fun hoff => absurd discreet.indexes hoff
  refine .ask_bind h₁.secure fun y D₂ hy => ?_
  have hl : e.Lasting path text D₂ := h₁.lasting.step (a := .deletePoints _) trivial hy
  have h₂ := h₁.still ((hy.deletePoints path).2.1 hnot) hl
  cases y with
  | error failure =>
    exact (discreet.tells _ D₂ h₂.secure).mono fun _ D₃ _ ⟨_, hl, hstill⟩ => h₂.still hstill hl
  | ok _ =>
    refine .ask h₂.secure fun z D₃ hz => ?_
    have hl : e.Lasting path text D₃ := h₂.lasting.step (a := .forgetHashes _) trivial hz
    have hscene : D₃.scene = D₂.scene.forget _ := hz.rules
    have h₃ := h₂.still (hz.still (hscene ▸ .forget hkept)) hl
    exact ⟨h₃.secure, h₃⟩

/-- A scan that lists the file leaves it in one of its phases. -/
theorem upholds_scan (h : e.Resting path text D) (hlisted : path ∈ listed)
    (accepts : s.rules.accepts path = true) :
    (scan s mode).Upholds (e.durableRules listed) (e.Secure path text) D
      fun _ D' => e.Guarded path text D' := by
  unfold scan
  refine .ask_bind h.secure fun (found : List String) D₁ hx => ?_
  obtain ⟨hscene, hnodup, hfound⟩ := hx.rules
  obtain rfl : found = listed := hx.lists
  obtain ⟨hl, hstill⟩ := h.lasting.idle hx hscene
  have hin : path ∈ found.filter s.rules.accepts := List.mem_filter.2 ⟨hlisted, accepts⟩
  refine (upholds_scanFiles distinct hpath serves discreet (.start (hstill.resting h hl))
    (fun other hother => hfound other (List.mem_of_mem_filter hother)) (hnodup.filter _)).bind
    fun state D₂ h₂ => ?_
  have hend : ∀ (state' : ScanState) D₃, e.Underway path text ([] ++ found.filter s.rules.accepts) state' D₃ →
      ∀ result : ScanResult, Program.Upholds (e.durableRules found) (e.Secure path text) (do
        Scan.settle mode state'.batches
        Scan.removeVanished s mode (found.filter s.rules.accepts)
        pure result) D₃ fun _ D' => e.Guarded path text D' := by
    intro state' D₃ h₃ result
    refine (upholds_settle discreet h₃).bind fun _ D₄ h₄ => ?_
    refine (upholds_removeVanished distinct hpath serves discreet h₄ hin).bind fun _ D₅ h₅ => ?_
    exact .pure h₅.secure h₅
  split
  · exact hend state D₂ h₂ _
  · refine (upholds_submit distinct hpath serves discreet (h₂.of_eq rfl rfl)).bind
      fun state' D₃ h₃ => hend state' D₃ h₃.2 _

end

/-! ## Starts -/

section
variable (distinct : e.Distinct) (hpath : e.paths path) (serves : e.Serves s)
include distinct hpath serves

omit distinct hpath in
/-- A file that the cache does not know has no points that could be removed. -/
theorem upholds_removeOrphans (h : e.Resting path text D) :
    (Lifecycle.removeOrphans s).Upholds (e.durableRules listed) (e.Secure path text) D
      fun _ D' => e.Resting path text D' := by
  have hname : Path.relativeTo s.root = e.name := by
    rw [serves.1]
    rfl
  unfold Lifecycle.removeOrphans
  refine .ask_bind h.secure fun (stored : List String) D₁ hx => ?_
  have h₁ := h.idle_step hx hx.rules.1
  refine .ite (fun _ => .pure h₁.secure h₁) fun _ => ?_
  refine .ask_bind h₁.secure fun hashes D₂ hy => ?_
  obtain ⟨hscene, hhashes⟩ := hy.rules
  have h₂ := h₁.idle_step hy hscene
  rw [← hscene] at hhashes
  subst hhashes
  refine .ite (fun _ => .pure h₂.secure h₂) fun _ => ?_
  refine .ask_bind h₂.secure fun z D₃ hz => ?_
  have h₃ := h₂.deletePoints hz fun hcached => by
    rw [hname]
    exact not_mem_orphansOf hcached
  exact .pure h₃.secure h₃

omit distinct hpath in
/-- A store that could be prepared is followed by a scan with the file resting. -/
theorem upholds_reconcile (h : e.Resting path text D) :
    (Lifecycle.reconcile s).Upholds (e.durableRules listed) (e.Secure path text) D
      fun x D' => x = .ok () → e.Resting path text D' := by
  unfold Lifecycle.reconcile
  refine .ask_bind h.secure fun x D₁ hx => ?_
  rcases hx.rules with ⟨rfl, hscene⟩ | ⟨rfl, hscene⟩ | ⟨-, ⟨failure, rfl⟩, hscene⟩
  · -- the store is emptied in front of its cache
    have hl : e.Lasting path text D₁ := h.lasting.step (a := .prepareStore) trivial hx
    have hnil : D₁.scene.points = [] := by rw [hscene]; rfl
    refine .ask ⟨hl, fun _ _ => Or.inl hnil⟩ fun y D₂ hy => ?_
    have hscene₂ : D₂.scene = D₁.scene.forgetAll := hy.rules
    have hl₂ : e.Lasting path text D₂ := hl.step (a := .clearCache) trivial hy
    have hnil₂ : D₂.scene.points = [] := by rw [hscene₂]; exact hnil
    refine ⟨⟨hl₂, fun _ _ => Or.inl hnil₂⟩, fun hok => ⟨hl₂, ?_, fun hget => ?_, fun _ => ?_⟩⟩
    · rw [hy.saved.resolve_right fun hkept => hkept.2 hok]
    · rw [hscene₂] at hget
      cases hget
    · rw [Scene.pointsOf, hnil₂]
      rfl
  · refine (upholds_removeOrphans serves (h.idle_step hx hscene)).bind fun _ D₂ h₂ => ?_
    exact .pure h₂.secure fun _ => h₂
  · refine .pure (h.idle_step hx hscene).secure fun hok => ?_
    cases hok

/-- A scan with what is done around it. -/
theorem upholds_scanAndWatch (h : e.Resting path text D) (hlisted : path ∈ listed)
    (accepts : s.rules.accepts path = true) :
    (Lifecycle.scanAndWatch s).Upholds (e.durableRules listed) (e.Secure path text) D
      fun _ _ => True := by
  unfold Lifecycle.scanAndWatch
  refine .ask_bind h.secure fun _ D₁ hx => ?_
  refine (upholds_scan distinct hpath serves discreet_showScan (h.idle_step hx hx.rules) hlisted
    accepts).bind fun result D₂ h₂ => ?_
  split
  · exact .pure h₂.secure trivial
  · refine .ask_bind h₂.secure fun _ D₃ hy => ?_
    have h₃ := h₂.idle_step hy hy.rules
    refine .ask_bind h₃.secure fun z D₄ hz => ?_
    have h₄ := h₃.idle_step hz hz.rules
    cases z with
    | error failure => exact .pure h₄.secure trivial
    | ok _ =>
      refine .ask_bind h₄.secure fun _ D₅ hw => ?_
      exact .pure (h₄.idle_step hw hw.rules).secure trivial

theorem upholds_fullIndex (h : e.Resting path text D) (hlisted : path ∈ listed)
    (accepts : s.rules.accepts path = true) :
    (Lifecycle.fullIndex s).Upholds (e.durableRules listed) (e.Secure path text) D
      fun _ D' => e.Secure path text D' := by
  unfold Lifecycle.fullIndex
  refine Program.Upholds.bind ((upholds_reconcile serves h).mono
    fun _ _ hinv hx => And.intro hinv hx) fun x D₁ ⟨hinv, hx⟩ => ?_
  cases x with
  | error failure => exact .pure hinv hinv
  | ok _ =>
    exact (upholds_scanAndWatch distinct hpath serves (hx rfl) hlisted accepts).mono
      fun _ _ hinv _ => hinv

omit distinct hpath serves in
/-- When a run fails the store is emptied, or stays, and then the cache is emptied. -/
theorem upholds_giveUp {failure : IndexError} (h : e.Secure path text D) :
    (Lifecycle.giveUp failure).Upholds (e.durableRules listed) (e.Secure path text) D
      fun _ D' => e.Secure path text D' := by
  unfold Lifecycle.giveUp
  refine .ask_bind h fun x D₁ hx => ?_
  have h₁ : e.Secure path text D₁ := by
    rcases hx.rules with ⟨-, hscene⟩ | ⟨-, -, hscene⟩
    · refine ⟨h.lasting.step (a := .clearStore) trivial hx, fun _ _ => Or.inl ?_⟩
      rw [hscene]
      rfl
    · exact h.idle hx hscene
  refine .ask_bind h₁ fun y D₂ hy => ?_
  have h₂ := h₁.clearCache hy
  refine .ask_bind h₂ fun _ D₃ hz => ?_
  have h₃ := h₂.idle hz hz.rules
  refine .ask h₃ fun _ D₄ hw => ?_
  exact ⟨h₃.idle hw hw.rules, h₃.idle hw hw.rules⟩

/-- A whole start keeps a listed file secure, whatever fails. -/
theorem upholds_start (h : e.Resting path text D) (hlisted : path ∈ listed)
    (accepts : s.rules.accepts path = true) :
    (Lifecycle.start s).Upholds (e.durableRules listed) (e.Secure path text) D
      fun _ _ => True := by
  unfold Lifecycle.start
  refine .ask_bind h.secure fun (running : Bool) D₁ hx => ?_
  have h₁ := h.idle_step hx hx.rules
  refine .ite (fun _ => .pure h₁.secure trivial) fun _ => ?_
  refine .ask_bind h₁.secure fun (state : IndexState) D₂ hy => ?_
  have h₂ := h₁.idle_step hy hy.rules
  refine .ite (fun _ => ?_) fun _ => ?_
  · refine .ask_bind h₂.secure fun _ D₃ hz => ?_
    exact .pure (h₂.idle_step hz hz.rules).secure trivial
  refine .ask_bind h₂.secure fun _ D₃ hz => ?_
  refine (upholds_fullIndex distinct hpath serves (h₂.idle_step hz hz.rules) hlisted accepts).bind
    fun x D₄ h₄ => ?_
  refine .ask_bind h₄ fun _ D₅ hw => ?_
  have h₅ := h₄.idle hw hw.rules
  cases x with
  | ok _ => exact .pure h₅ trivial
  | error failure => exact (upholds_giveUp h₅).bind fun _ D₆ h₆ => .pure h₆ trivial

end

end SourceIndex.Premises
