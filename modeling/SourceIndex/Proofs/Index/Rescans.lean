import SourceIndex.Proofs.Index.Scans
import SourceIndex.Proofs.Index.Steady
/-!
# A scan of a steady workspace

Where nothing fails and the embedder is a function of each text, a scan brings every file up to date
(`ensures_scan_steady`). The invariant is `Rescanning`: of the files, those that were not looked at yet and
those whose blocks wait for a batch have kept their hashes and points, and all others were renewed
(`Premises.Standing`). Looking at a file, sending a batch off and removing what vanished keep it.
-/

namespace SourceIndex.Premises

variable {e : Premises} {vectorOf : String → Vector32} {L₀ L L' : Scene} {path text : String}
  {items : List PendingBlock} {seen : List String} {state state' : ScanState}

/-! ## Batches of a scan -/

/-- Behind the items of a file's blocks the file has the hash of its text. -/
theorem getLast?_fileHash {replaces : Bool} (h : e.blocks path text ≠ []) :
    ((e.blocks path text).map fun block => (⟨block, replaces⟩ : PendingBlock)).getLast?.map
      (·.block.fileHash) = some (contentHash text) := by
  rw [List.getLast?_map, Option.map_map, List.getLast?_eq_some_getLast h, Option.map_some]
  exact congrArg some (Chunk.fileHash_of_mem_parse (List.getLast_mem h))

/-- A batch does nothing to files without items in it. -/
theorem stays_of_batch (distinct : e.Distinct) (ho : e.Orderly L) (hs : ∀ item ∈ items, e.Pends item)
    (hpath : e.paths path) (hitems : itemsOf path items = []) :
    e.Stays path L (e.land vectorOf items (L.deletePoints (e.staleOf items))) := by
  have hkept : e.name path ∉ e.staleOf items := by
    rw [name_mem_staleOf distinct hs hpath, hitems]
    rintro ⟨item, hitem, -⟩
    cases hitem
  refine ⟨?_, ?_⟩
  · rw [land, get?_recordAll, hitems]
    rfl
  · rw [pointsOf_land distinct ho.deletePoints hs hpath, hitems, Scene.pointsOf_deletePoints,
      if_neg hkept]
    rfl

/-- A batch renews a file all of whose blocks are in it, whether it was indexed before or not. -/
theorem renewed_of_batch (distinct : e.Distinct) (ho : e.Orderly L)
    (hs : ∀ item ∈ items, e.Pends item) (hpath : e.paths path) (hstep : e.InStep L₀ path)
    (hstays : e.Stays path L₀ L) (file : L₀.files path = some text)
    (changed : L₀.hashes.get? path ≠ some (contentHash text)) (hblocks : e.blocks path text ≠ [])
    (hitems : itemsOf path items =
      (e.blocks path text).map fun block => ⟨block, (L₀.hashes.get? path).isSome⟩) :
    e.Renewed vectorOf path L₀ (e.land vectorOf items (L.deletePoints (e.staleOf items))) := by
  have hstale : e.name path ∈ e.staleOf items ↔ (L₀.hashes.get? path).isSome = true := by
    rw [name_mem_staleOf distinct hs hpath, hitems]
    exact exists_replaces_iff hblocks
  have hclean : (L.deletePoints (e.staleOf items)).pointsOf (e.name path) = [] := by
    rw [Scene.pointsOf_deletePoints]
    split
    · rfl
    · rename_i hkept
      have huncached : L₀.hashes.get? path = none := by
        simpa using fun hcached => hkept (hstale.2 hcached)
      rw [hstays.points, hstep.absent huncached]
  refine .of_changed file changed ?_ ?_
  · rw [land, get?_recordAll, hitems, getLast?_fileHash hblocks]
    rfl
  · rw [pointsOf_land distinct ho.deletePoints hs hpath, hclean, hitems, List.map_map]
    rfl

/-- Files that left the cache with their points leave the others alone. -/
theorem stays_of_not_mem (distinct : e.Distinct) (ho : e.Orderly L) (hpath : e.paths path)
    {vanished : List String} (hcached : ∀ other ∈ vanished, (L.hashes.get? other).isSome)
    (hnot : path ∉ vanished) :
    e.Stays path L ((L.deletePoints (vanished.map e.name)).forget vanished) := by
  refine (Stays.deletePoints fun hin => hnot ?_).trans (.forget hnot)
  obtain ⟨other, hother, heq⟩ := List.mem_map.1 hin
  obtain ⟨hash, hhash⟩ := Option.isSome_iff_exists.1 (hcached other hother)
  exact distinct.names (ho.cached hhash) hpath heq ▸ hother

/-! ## The invariant -/

/-- How far a scan that began in `L₀` has come with a file, when the files in `seen` were looked at and the
items in `buffer` wait for a batch. -/
inductive Standing (e : Premises) (vectorOf : String → Vector32) (L₀ : Scene) (path : String)
    (seen : List String) (buffer : List PendingBlock) (L : Scene) : Prop where
  | ahead (unseen : path ∉ seen) (stays : e.Stays path L₀ L)
  | waiting {text : String} (file : L₀.files path = some text)
      (changed : L₀.hashes.get? path ≠ some (contentHash text)) (blocks : e.blocks path text ≠ [])
      (items : itemsOf path buffer =
        (e.blocks path text).map fun block => ⟨block, (L₀.hashes.get? path).isSome⟩)
      (stays : e.Stays path L₀ L)
  | renewed (looked : path ∈ seen) (none : itemsOf path buffer = [])
      (renewed : e.Renewed vectorOf path L₀ L)

/-- The invariant of a scan of a steady workspace that began in `L₀`. -/
structure Rescanning (e : Premises) (vectorOf : String → Vector32) (L₀ : Scene) (seen : List String)
    (state : ScanState) (L : Scene) : Prop where
  orderly : e.Orderly L
  files : L.files = L₀.files
  whole : ∀ path, ¬state.batches.Lost path
  pends : ∀ item ∈ state.buffer, e.Pends item ∧ item.block.filePath ∈ seen
  standing : ∀ {path}, e.paths path → e.Standing vectorOf L₀ path seen state.buffer L

namespace Rescanning

theorem start (ho : e.Orderly L) : e.Rescanning vectorOf L [] {} L where
  orderly := ho
  files := rfl
  whole := BatchResult.not_lost_empty
  pends := nofun
  standing _ := .ahead List.not_mem_nil (.refl ..)

/-- Changing the counters of a scan does not touch its invariant. -/
theorem of_eq (h : e.Rescanning vectorOf L₀ seen state L) (hbuffer : state'.buffer = state.buffer)
    (hbatches : state'.batches = state.batches) : e.Rescanning vectorOf L₀ seen state' L :=
  ⟨h.orderly, h.files, hbatches ▸ h.whole, hbuffer ▸ h.pends, hbuffer ▸ h.standing⟩

theorem itemsOf_eq_nil (h : e.Rescanning vectorOf L₀ seen state L) (hunseen : path ∉ seen) :
    itemsOf path state.buffer = [] :=
  Premises.itemsOf_eq_nil fun item hitem heq => hunseen (heq ▸ (h.pends item hitem).2)

/-- A file that was not looked at has kept its hash and its points. -/
theorem stays (h : e.Rescanning vectorOf L₀ seen state L) (hpath : e.paths path)
    (hunseen : path ∉ seen) : e.Stays path L₀ L := by
  cases h.standing hpath with
  | ahead unseen stays => exact stays
  | waiting file changed blocks items stays => exact stays
  | renewed looked none renewed => exact absurd looked hunseen

/-- A file may be looked at and renewed at once, as long as nothing happens to the others. -/
theorem renew (h : e.Rescanning vectorOf L₀ seen state L) (hunseen : path ∉ seen)
    (ho : e.Orderly L') (hfiles : L'.files = L.files)
    (hothers : ∀ {other}, e.paths other → other ≠ path → e.Stays other L L')
    (hrenewed : e.Renewed vectorOf path L₀ L') :
    e.Rescanning vectorOf L₀ (seen ++ [path]) state L' where
  orderly := ho
  files := hfiles.trans h.files
  whole := h.whole
  pends item hitem := (h.pends item hitem).imp_right (List.mem_append_left _)
  standing {other} hother := by
    by_cases heq : other = path
    · subst heq
      exact .renewed (List.mem_append_right _ List.mem_cons_self) (h.itemsOf_eq_nil hunseen) hrenewed
    · have hstays := hothers hother heq
      cases h.standing hother with
      | ahead unseen stays =>
        refine .ahead (fun hin => ?_) (stays.trans hstays)
        exact (List.mem_append.1 hin).elim unseen fun hin => heq (List.mem_singleton.1 hin)
      | waiting file changed blocks items stays =>
        exact .waiting file changed blocks items (stays.trans hstays)
      | renewed looked none renewed =>
        exact .renewed (List.mem_append_left _ looked) none (renewed.stays hstays)

/-- The blocks of a new or changed file come to wait behind the others. -/
theorem join (h : e.Rescanning vectorOf L₀ seen state L) (hpath : e.paths path)
    (hunseen : path ∉ seen) (file : L₀.files path = some text)
    (changed : L₀.hashes.get? path ≠ some (contentHash text)) (hblocks : e.blocks path text ≠ []) :
    e.Rescanning vectorOf L₀ (seen ++ [path]) { state with
      buffer := state.buffer ++
        (e.blocks path text).map fun block => ⟨block, (L₀.hashes.get? path).isSome⟩ } L := by
  have happ : ∀ {other} {more : List PendingBlock}, itemsOf other (state.buffer ++ more) =
      itemsOf other state.buffer ++ itemsOf other more := List.filter_append ..
  refine ⟨h.orderly, h.files, h.whole, fun item hitem => ?_, fun {other} hother => ?_⟩
  · rcases List.mem_append.1 hitem with hitem | hitem
    · exact (h.pends item hitem).imp_right (List.mem_append_left _)
    · obtain ⟨block, hb, rfl⟩ := List.mem_map.1 hitem
      have hown : block.filePath = path := filePath_of_mem_blocks hb
      refine ⟨⟨text, ?_, ?_⟩, List.mem_append_right _ (List.mem_singleton.2 hown)⟩
      · rw [hown]
        exact ⟨hpath, h.orderly.texts hpath (h.files ▸ file)⟩
      · rwa [hown]
  · by_cases heq : other = path
    · subst heq
      refine .waiting file changed hblocks ?_ (h.stays hpath hunseen)
      rw [happ, h.itemsOf_eq_nil hunseen, itemsOf_blocks, if_pos rfl, List.nil_append]
    · have hsame : ∀ {replaces}, itemsOf other (state.buffer ++ (e.blocks path text).map fun block =>
          ⟨block, replaces⟩) = itemsOf other state.buffer := by
        intro replaces
        rw [happ, itemsOf_blocks, if_neg heq, List.append_nil]
      cases h.standing hother with
      | ahead unseen stays =>
        refine .ahead (fun hin => ?_) stays
        exact (List.mem_append.1 hin).elim unseen fun hin => heq (List.mem_singleton.1 hin)
      | waiting file changed blocks items stays =>
        exact .waiting file changed blocks (hsame.trans items) stays
      | renewed looked none renewed =>
        exact .renewed (List.mem_append_left _ looked) (hsame.trans none) renewed

/-- A file without blocks loses the points that it had, and gets its hash. -/
theorem empty (distinct : e.Distinct) (h : e.Rescanning vectorOf L₀ seen state L)
    (hpath : e.paths path) (hunseen : path ∉ seen) (hstep : e.InStep L₀ path)
    (file : L₀.files path = some text) (changed : L₀.hashes.get? path ≠ some (contentHash text))
    (hblocks : e.blocks path text = []) {L₁ : Scene}
    (hdeleted : (L₀.hashes.get? path).isSome = true ∧ L₁ = L.deletePoints [e.name path] ∨
      (L₀.hashes.get? path).isSome = false ∧ L₁ = L) :
    e.Rescanning vectorOf L₀ (seen ++ [path]) state (L₁.record path (contentHash text)) := by
  have hstays := h.stays hpath hunseen
  have hclean : e.Orderly L₁ ∧ L₁.files = L.files ∧ L₁.pointsOf (e.name path) = [] ∧
      ∀ {other}, e.paths other → other ≠ path → e.Stays other L L₁ := by
    rcases hdeleted with ⟨-, rfl⟩ | ⟨huncached, rfl⟩
    · refine ⟨h.orderly.deletePoints, rfl, ?_, fun hother hne => .deletePoints fun hin => hne ?_⟩
      · rw [Scene.pointsOf_deletePoints, if_pos (List.mem_singleton_self _)]
      · exact distinct.names hother hpath (List.mem_singleton.1 hin)
    · exact ⟨h.orderly, rfl, hstays.points.trans (hstep.absent (by simpa using huncached)),
        fun _ _ => .refl ..⟩
  obtain ⟨ho, hfiles, hpoints, hothers⟩ := hclean
  refine h.renew hunseen (ho.record hpath) hfiles
    (fun hother hne => (hothers hother hne).trans (.record hne)) (.of_changed file changed ?_ ?_)
  · rw [Scene.get?_record, if_pos rfl]
  · rw [freshPoints, hblocks]
    exact hpoints

/-- A batch that is sent off renews the files whose blocks are in it, and nothing waits behind it. -/
theorem submit (distinct : e.Distinct) (hsteps : ∀ {path}, e.paths path → e.InStep L₀ path)
    {batch : List PendingBlock} (h : e.Rescanning vectorOf L₀ seen { state with buffer := batch } L)
    (hbuffer : state'.buffer = []) (hwhole : ∀ path, ¬state'.batches.Lost path) :
    e.Rescanning vectorOf L₀ seen state'
      (e.land vectorOf batch (L.deletePoints (e.staleOf batch))) := by
  have hs : ∀ item ∈ batch, e.Pends item := fun item hitem => (h.pends item hitem).1
  refine ⟨h.orderly.deletePoints.land hs, files_land.trans h.files, hwhole, ?_, fun {path} hpath => ?_⟩
  · rw [hbuffer]
    exact List.forall_mem_nil _
  · rw [hbuffer]
    have hidle : itemsOf path batch = [] →
        e.Stays path L (e.land vectorOf batch (L.deletePoints (e.staleOf batch))) :=
      stays_of_batch distinct h.orderly hs hpath
    cases h.standing hpath with
    | ahead unseen stays => exact .ahead unseen (stays.trans (hidle (h.itemsOf_eq_nil unseen)))
    | waiting file changed blocks items stays =>
      have hlooked : path ∈ seen := by
        by_contra hunseen
        rw [h.itemsOf_eq_nil hunseen] at items
        exact blocks (List.map_eq_nil_iff.1 items.symm)
      exact .renewed hlooked rfl
        (renewed_of_batch distinct h.orderly hs hpath (hsteps hpath) stays file changed blocks items)
    | renewed looked none renewed => exact .renewed looked rfl (renewed.stays (hidle none))

end Rescanning

/-! ## Runs of a scan -/

section
variable {s : Services} {mode : ScanMode} {limit : Nat}

/-- A scene from which services can keep up a steady workspace: no call fails, cache and store agree about
every file, and the files that are there can be listed and may be indexed. -/
structure Undisturbed (e : Premises) (s : Services) (L : Scene) : Prop where
  distinct : e.Distinct
  serves : e.Serves s
  reliable : ∀ a, ¬e.fails a
  orderly : e.Orderly L
  steps : ∀ {path}, e.paths path → e.InStep L path
  accepts : ∀ {path}, e.paths path → (L.files path).isSome → s.rules.accepts path = true
  listed : ∃ listed : List String, listed.Nodup ∧
    ∀ path, path ∈ listed ↔ e.paths path ∧ (L.files path).isSome

variable (undisturbed : e.Undisturbed s L₀) (quiet : e.Quiet mode)
include undisturbed quiet

theorem ensures_submit_steady {batch : List PendingBlock}
    (h : e.Rescanning vectorOf L₀ seen { state with buffer := batch } L) :
    (Scan.submit s mode { state with buffer := [] } batch).Ensures (e.steadyRules vectorOf limit) L
      fun state' L' => state'.buffer = [] ∧ e.Rescanning vectorOf L₀ seen state' L' := by
  unfold Scan.submit
  rw [undisturbed.serves.1]
  refine (ensures_process_steady undisturbed.reliable fun _ _ => quiet _).bind fun r L' hr => ?_
  obtain ⟨hlost, rfl⟩ := hr
  refine Program.ensures_pure.2 ⟨rfl, h.submit undisturbed.distinct undisturbed.steps rfl fun path hl => ?_⟩
  exact (BatchResult.lost_merge.1 hl).elim (h.whole path) (hlost path)

theorem ensures_gather_steady {blocks : List PendingBlock}
    (h : e.Rescanning vectorOf L₀ seen { state with buffer := state.buffer ++ blocks } L) :
    (Scan.gather s mode state blocks).Ensures (e.steadyRules vectorOf limit) L fun state' L' =>
      e.Rescanning vectorOf L₀ seen state' L' := by
  unfold Scan.gather
  dsimp only
  refine Program.ensures_ite (fun _ => ?_) fun _ => Program.ensures_pure.2 h
  exact (ensures_submit_steady undisturbed quiet h).mono fun _ _ h' => h'.2

/-- Taking the blocks of a new or changed file keeps the invariant, and the file was looked at. -/
theorem ensures_takeBlocks_steady (indexes : mode.indexes = true)
    (h : e.Rescanning vectorOf L₀ seen state L) (hpath : e.paths path) (hunseen : path ∉ seen)
    (file : L₀.files path = some text)
    (changed : L₀.hashes.get? path ≠ some (contentHash text)) :
    (Scan.takeBlocks s mode state path (contentHash text) (L₀.hashes.get? path).isSome
      (e.blocks path text)).Ensures (e.steadyRules vectorOf limit) L fun x L' =>
        e.Rescanning vectorOf L₀ (seen ++ [path]) x.1 L' := by
  have hname : Path.relativeTo s.root path = e.name path := by
    rw [undisturbed.serves.1]
    rfl
  unfold Scan.takeBlocks
  refine (steady_of_ensures (quiet _ L)).bind fun _ L₁ h₁ => ?_
  subst h₁
  simp only [indexes, Bool.not_true, Bool.false_eq_true, if_false]
  refine Program.ensures_ite (fun hempty => ?_) fun hsome => ?_
  · refine steady_of_ensures (ensures_deleteIf_bind (fun L₂ hdeleted => ?_) fun _ hfails => ?_)
    · refine ensures_record_bind (Program.ensures_pure.2 ?_)
      rw [hname] at hdeleted
      exact (h.empty undisturbed.distinct hpath hunseen (undisturbed.steps hpath) file changed
        (List.isEmpty_iff.1 hempty) hdeleted).of_eq rfl rfl
    · obtain ⟨paths, hfails⟩ := hfails
      exact absurd hfails (undisturbed.reliable _)
  · have hblocks : e.blocks path text ≠ [] := fun hnone => hsome (List.isEmpty_iff.2 hnone)
    refine Program.Ensures.bind (ensures_gather_steady undisturbed quiet
      ((h.join hpath hunseen file changed hblocks).of_eq rfl rfl)) fun state' L₂ h₂ => ?_
    exact Program.ensures_pure.2 h₂

/-- Scanning a file keeps the invariant, and the file was looked at. -/
theorem ensures_scanFile_steady (indexes : mode.indexes = true)
    (h : e.Rescanning vectorOf L₀ seen state L) (hpath : e.paths path) (hunseen : path ∉ seen)
    (file : L₀.files path = some text) :
    (Scan.scanFile s mode state path).Ensures (e.steadyRules vectorOf s.tuning.maxFileSize) L
      fun x L' => e.Rescanning vectorOf L₀ (seen ++ [path]) x.1 L' := by
  have hfile : L.files path = some text := h.files ▸ file
  have hstays := h.stays hpath hunseen
  unfold Scan.scanFile
  refine ensures_steady_bind fun x L₁ hL hsteady => ?_
  obtain ⟨size, rfl, hsize⟩ := hsteady (hfile ▸ rfl)
  have hL : L₁ = L := hL
  rw [hL]
  dsimp only
  rw [if_neg (Nat.not_lt.2 hsize)]
  refine ensures_steady_bind fun y L₂ hread hsteady => ?_
  obtain rfl := hsteady text hfile
  rw [hread.1]
  refine ensures_steady_bind fun hashes L₃ hhashes _ => ?_
  obtain ⟨rfl, rfl⟩ := hhashes
  refine Program.ensures_ite (fun hsame => ?_) fun hchanged => ?_
  · have hsame : L₀.hashes.get? path = some (contentHash text) := by
      rw [← hstays.hash]
      exact beq_iff_eq.1 hsame
    have hlooked : e.Rescanning vectorOf L₀ (seen ++ [path]) state L₃ :=
      h.renew hunseen h.orderly rfl (fun _ _ => .refl ..) (.of_unchanged file hsame hstays)
    exact Program.ensures_pure.2 (hlooked.of_eq rfl rfl)
  · have hblocks : Chunk.parse s.trees s.tuning.chunk path text (contentHash text) =
        e.blocks path text := by
      rw [undisturbed.serves.2.1, undisturbed.serves.2.2]
      rfl
    rw [hblocks, hstays.hash]
    refine ensures_takeBlocks_steady undisturbed quiet indexes h hpath hunseen file ?_
    rw [← hstays.hash]
    exact fun heq => hchanged (beq_iff_eq.2 heq)

/-- Scanning files one after the other keeps the invariant, and all of them were looked at. -/
theorem ensures_scanFiles_steady (indexes : mode.indexes = true) {todo : List String}
    (h : e.Rescanning vectorOf L₀ seen state L)
    (htodo : ∀ path ∈ todo, e.paths path ∧ (L₀.files path).isSome) (hnodup : (seen ++ todo).Nodup) :
    (Scan.scanFiles s mode state todo).Ensures (e.steadyRules vectorOf s.tuning.maxFileSize) L
      fun state' L' => e.Rescanning vectorOf L₀ (seen ++ todo) state' L' := by
  induction todo generalizing seen state L with
  | nil => exact Program.ensures_pure.2 (by rwa [List.append_nil])
  | cons path todo ih =>
    unfold Scan.scanFiles
    have hunseen : path ∉ seen := fun hin =>
      (List.nodup_append.1 hnodup).2.2 path hin path List.mem_cons_self rfl
    rw [List.append_cons] at hnodup ⊢
    obtain ⟨⟨hpath, hsome⟩, hrest⟩ := List.forall_mem_cons.1 htodo
    obtain ⟨text, file⟩ := Option.isSome_iff_exists.1 hsome
    refine (ensures_scanFile_steady undisturbed quiet indexes h hpath hunseen file).bind
      fun x L₁ h₁ => ?_
    obtain ⟨state₁, error⟩ := x
    cases error with
    | none => exact Program.ensures_bind.2 (Program.ensures_pure.2 (ih h₁ hrest hnodup))
    | some error =>
      refine (steady_of_ensures (quiet _ L₁)).bind fun _ L₂ h₂ => ?_
      rw [h₂]
      exact ih h₁ hrest hnodup

/-- Files that vanished lose their points and leave the cache, and with that all files are renewed. -/
theorem ensures_removeVanished_steady (indexes : mode.indexes = true) {listed : List String}
    (h : e.Rescanning vectorOf L₀ listed state L) (hbuffer : state.buffer = [])
    (hlisted : ∀ path, path ∈ listed ↔ e.paths path ∧ (L₀.files path).isSome) :
    (Scan.removeVanished s mode listed).Ensures (e.steadyRules vectorOf limit) L fun _ L' =>
      e.Orderly L' ∧ ∀ path, e.paths path → e.Renewed vectorOf path L₀ L' := by
  refine (steady_of_ensures (ensures_removeVanished undisturbed.serves quiet indexes)).mono
    fun _ L' h' => ?_
  obtain ⟨vanished, hvanished, rfl | ⟨⟨_, hfails⟩, -⟩⟩ := h'
  · have hcached := fun path hin => ((hvanished path).1 hin).1
    refine ⟨h.orderly.deletePoints.forget, fun path hpath => ?_⟩
    cases h.standing hpath with
    | ahead unseen stays =>
      have hgone : L₀.files path = none := by
        simpa using fun hsome => unseen ((hlisted path).2 ⟨hpath, hsome⟩)
      by_cases hin : path ∈ vanished
      · refine .gone hgone (by rw [Scene.get?_forget, if_pos hin]) ?_
        show (L.deletePoints _).pointsOf _ = []
        rw [Scene.pointsOf_deletePoints, if_pos (List.mem_map_of_mem hin)]
      · have huncached : L₀.hashes.get? path = none := by
          rw [← stays.hash]
          simpa using fun hcached => hin ((hvanished path).2 ⟨hcached, unseen⟩)
        exact .of_absent hgone huncached (undisturbed.steps hpath)
          (stays.trans (stays_of_not_mem undisturbed.distinct h.orderly hpath hcached hin))
    | waiting file changed blocks items stays =>
      rw [hbuffer] at items
      exact absurd (List.map_eq_nil_iff.1 items.symm) blocks
    | renewed looked none renewed =>
      have hnot : path ∉ vanished := fun hin => ((hvanished path).1 hin).2 looked
      exact renewed.stays (stays_of_not_mem undisturbed.distinct h.orderly hpath hcached hnot)
  · exact absurd hfails (undisturbed.reliable _)

/-- A scan of a steady workspace renews every file. -/
theorem ensures_scan_steady (indexes : mode.indexes = true) :
    (scan s mode).Ensures (e.steadyRules vectorOf s.tuning.maxFileSize) L₀ fun _ L' =>
      e.Orderly L' ∧ ∀ path, e.paths path → e.Renewed vectorOf path L₀ L' := by
  unfold scan
  refine ensures_steady_bind fun (found : List String) L₁ hlist hfound => ?_
  obtain ⟨rfl, hnodup, -⟩ := hlist
  have hlisted : ∀ path, path ∈ List.filter s.rules.accepts found ↔
      e.paths path ∧ (L₁.files path).isSome := by
    intro path
    rw [List.mem_filter, hfound path]
    exact and_iff_left_of_imp fun h => undisturbed.accepts h.1 h.2
  refine (ensures_scanFiles_steady undisturbed quiet indexes (.start undisturbed.orderly)
    (fun path hin => (hlisted path).1 hin) (hnodup.filter _)).bind fun state L₂ h₂ => ?_
  have hend : ∀ {state' : ScanState} {L₃}, state'.buffer = [] →
      e.Rescanning vectorOf L₁ (List.filter s.rules.accepts found) state' L₃ →
      ∀ {post : ScanResult}, Program.Ensures (e.steadyRules vectorOf s.tuning.maxFileSize) (do
        Scan.settle mode state'.batches
        Scan.removeVanished s mode (List.filter s.rules.accepts found)
        pure post) L₃ fun _ L' =>
          e.Orderly L' ∧ ∀ path, e.paths path → e.Renewed vectorOf path L₁ L' := by
    intro state' L₃ hbuffer h₃ post
    refine (steady_of_ensures (ensures_settle quiet)).bind fun _ L₄ h₄ => ?_
    have hnone : state'.batches.failedFiles = [] :=
      List.eq_nil_iff_forall_not_mem.2 fun path hin =>
        h₃.whole path (BatchResult.mem_failedFiles.1 hin)
    rw [hnone] at h₄
    rw [h₄]
    refine (ensures_removeVanished_steady undisturbed quiet indexes h₃ hbuffer hlisted).bind
      fun _ L₅ h₅ => ?_
    exact Program.ensures_pure.2 h₅
  split
  · rename_i hempty
    exact hend (List.isEmpty_iff.1 hempty) h₂
  · refine (ensures_submit_steady undisturbed quiet (h₂.of_eq rfl rfl)).bind fun state' L₃ h₃ => ?_
    exact hend h₃.1 h₃.2

end

end SourceIndex.Premises
