import SourceIndex.Proofs.Index.Changes
import SourceIndex.Proofs.Index.Responses
import SourceIndex.Proofs.Index.Scans
/-!
# Histories of an index

A start first removes the points of files that the cache does not know (`ensures_removeOrphans`), so that
every file is in step when the scan begins, and what the scan leaves agrees again (`ensures_start`).

`Premises.Reachable` are the scenes that edits, starts, batches of changes and clearing lead to from
an empty index. In all of them the cache and the store agree (`agrees_of_reachable`).
-/

namespace SourceIndex.Premises

variable {e : Premises} {s : Services} {L L' : Scene} {path : String}

/-- What bringing store and cache together leaves: nothing happened to the files in the cache, and if
nothing was refused every other file has lost its points. -/
structure Reconciled (e : Premises) (L L' : Scene) : Prop where
  orderly : e.Orderly L'
  files : L'.files = L.files
  hashes : L'.hashes = L.hashes
  known : ∀ {path}, e.paths path → (L.hashes.get? path).isSome → e.Same path L L'
  unknown : (∀ paths, ¬e.fails (.deletePoints paths)) → ¬e.fails .storedPaths →
    ∀ {path}, e.paths path → L.hashes.get? path = none → L'.pointsOf (e.name path) = []

theorem mem_sortDistinct {x : String} {xs : List String} : x ∈ Text.sortDistinct xs ↔ x ∈ xs := by
  simp [Text.sortDistinct, Text.sort]

/-- A file without stored points does not have its name among those of the stored points. -/
theorem pointsOf_eq_nil_of_not_mem {file : String}
    (h : file ∉ Text.sortDistinct (L.points.map (·.payload.filePath))) : L.pointsOf file = [] :=
  MemoryStore.pointsOf_eq_nil fun q hq heq =>
    h (mem_sortDistinct.2 (List.mem_map.2 ⟨q, hq, heq⟩))

/-- The names of stored files that no path in the cache has. -/
def orphansOf (e : Premises) (L : Scene) (stored : List String) : List String :=
  stored.filter fun file => !(L.hashes.map fun entry => e.name entry.1).contains file

theorem mem_orphansOf {stored : List String} {file : String} : file ∈ e.orphansOf L stored ↔
    file ∈ stored ∧ ∀ path, (L.hashes.get? path).isSome → e.name path ≠ file := by
  simp only [orphansOf, List.mem_filter, Hashes.isSome_get?_iff]
  refine and_congr_right fun _ => ?_
  simp

/-- Whatever becomes of orphans, nothing happens to the files in the cache. -/
theorem not_mem_orphansOf {stored : List String} (hcached : (L.hashes.get? path).isSome) :
    e.name path ∉ e.orphansOf L stored :=
  fun hin => (mem_orphansOf.1 hin).2 path hcached rfl

/-- A file that the cache does not know is an orphan or has no points. -/
theorem pointsOf_eq_nil_of_not_orphan (distinct : e.Distinct) (ho : e.Orderly L)
    (hpath : e.paths path) (hnone : L.hashes.get? path = none)
    (hnot : e.name path ∉ e.orphansOf L (Text.sortDistinct (L.points.map (·.payload.filePath)))) :
    L.pointsOf (e.name path) = [] := by
  refine pointsOf_eq_nil_of_not_mem fun hin => hnot (mem_orphansOf.2 ⟨hin, ?_⟩)
  intro other hcached heq
  obtain ⟨hash, hhash⟩ := Option.isSome_iff_exists.1 hcached
  rw [distinct.names (ho.cached hhash) hpath heq, hnone] at hcached
  cases hcached

/-- Removing the points of files that the cache does not know leaves the others alone. -/
theorem ensures_removeOrphans (distinct : e.Distinct) (serves : e.Serves s) (ho : e.Orderly L) :
    (Lifecycle.removeOrphans s).Ensures e.rules L fun _ L' => e.Reconciled L L' := by
  have hname : Path.relativeTo s.root = e.name := by
    rw [serves.1]
    rfl
  unfold Lifecycle.removeOrphans
  refine ensures_ask_bind fun (stored : List String) L₁ ⟨hL, hstored⟩ => ?_
  subst hL
  have hlisting : ¬e.fails .storedPaths →
      stored = Text.sortDistinct (L₁.points.map (·.payload.filePath)) :=
    fun hlists => hstored.resolve_right fun h => hlists h.1
  refine Program.ensures_ite (fun hempty => Program.ensures_pure.2 ?_) fun _ => ?_
  · refine ⟨ho, rfl, rfl, fun _ _ => Same.refl .., fun _ hlists path _ _ => ?_⟩
    refine pointsOf_eq_nil_of_not_mem ?_
    rw [← hlisting hlists, List.isEmpty_iff.1 hempty]
    exact List.not_mem_nil
  refine ensures_ask_bind fun hashes L₂ ⟨h₂, hhashes⟩ => ?_
  subst hhashes
  rw [h₂, hname]
  refine Program.ensures_ite (fun hempty => Program.ensures_pure.2 ?_) fun _ => ?_
  · refine ⟨ho, rfl, rfl, fun _ _ => Same.refl .., fun _ hlists path hpath hnone => ?_⟩
    refine pointsOf_eq_nil_of_not_orphan distinct ho hpath hnone ?_
    rw [← hlisting hlists, orphansOf, List.isEmpty_iff.1 hempty]
    exact List.not_mem_nil
  refine ensures_ask_bind fun x L₃ hx => Program.ensures_pure.2 ?_
  have hx : L₃ = L₁.deletePoints (e.orphansOf L₁ stored) ∨
      (∃ paths, e.fails (.deletePoints paths)) ∧ L₃ = L₁.refuse (e.orphansOf L₁ stored) :=
    hx.imp And.right fun h => ⟨⟨_, h.1⟩, h.2.2⟩
  rcases hx with rfl | ⟨⟨paths, hfails⟩, rfl⟩
  · refine ⟨ho.deletePoints, rfl, rfl, fun _ h => Same.deletePoints (not_mem_orphansOf h),
      fun _ hlists path hpath hnone => ?_⟩
    rw [Scene.pointsOf_deletePoints]
    split
    · rfl
    · rename_i hnot
      exact pointsOf_eq_nil_of_not_orphan distinct ho hpath hnone (hlisting hlists ▸ hnot)
  · exact ⟨ho.refuse, rfl, rfl, fun _ h => Same.refuse (not_mem_orphansOf h),
      fun hdeletes => absurd hfails (hdeletes paths)⟩

/-! ## Starting -/

/-- The scene that a scan begins in: store and cache were brought together, or both are new and empty. -/
inductive Begun (e : Premises) (L L₁ : Scene) : Prop where
  | reconciled (h : e.Reconciled L L₁)
  | emptied (orderly : e.Orderly L₁) (files : L₁.files = L.files) (hashes : L₁.hashes = [])
      (points : L₁.points = []) (refused : L₁.refused = L.refused)

theorem Begun.orderly {L₁ : Scene} (h : e.Begun L L₁) : e.Orderly L₁ := by
  cases h with
  | reconciled h => exact h.orderly
  | emptied orderly files hashes points refused => exact orderly

theorem Begun.files {L₁ : Scene} (h : e.Begun L L₁) : L₁.files = L.files := by
  cases h with
  | reconciled h => exact h.files
  | emptied orderly files hashes points refused => exact files

/-- When a scan begins every file is in step, if the cache agreed with the store before. -/
theorem Begun.inStep {L₁ : Scene} (h : e.Begun L L₁) (ho : e.Orderly L) (hagrees : e.Agrees L)
    (deletes : ∀ paths, ¬e.fails (.deletePoints paths)) (lists : ¬e.fails .storedPaths)
    (hpath : e.paths path) : e.InStep L₁ path := by
  cases h with
  | reconciled h =>
    refine ⟨fun hget => ?_, fun hnone => ?_⟩
    · rw [h.hashes] at hget
      exact (hagrees path _ hget).congr ho h.orderly (h.known hpath (hget ▸ rfl)).points
    · exact h.unknown deletes lists hpath (h.hashes ▸ hnone)
  | emptied orderly files hashes points refused =>
    refine ⟨fun hget => ?_, fun _ => ?_⟩
    · rw [hashes] at hget
      cases hget
    · rw [Scene.pointsOf, points]
      rfl

/-- A store that could be prepared leaves a scene for a scan to begin in. -/
theorem ensures_reconcile (distinct : e.Distinct) (serves : e.Serves s) (ho : e.Orderly L) :
    (Lifecycle.reconcile s).Ensures e.rules L fun x L₁ =>
      e.Orderly L₁ ∧ L₁.files = L.files ∧ (x = .ok () → e.Begun L L₁) := by
  unfold Lifecycle.reconcile
  refine ensures_ask_bind fun x L₁ hx => ?_
  rcases hx with ⟨rfl, rfl⟩ | ⟨rfl, rfl⟩ | ⟨-, ⟨failure, rfl⟩, rfl⟩
  · refine ensures_ask fun y L₂ hy => ?_
    have h₂ : L₂ = L.clearPoints.forgetAll := hy
    rw [h₂]
    exact ⟨ho.clearPoints.forgetAll, rfl, fun _ =>
      .emptied ho.clearPoints.forgetAll rfl rfl rfl rfl⟩
  · refine (ensures_removeOrphans distinct serves ho).bind fun _ L₂ h₂ => ?_
    exact Program.ensures_pure.2 ⟨h₂.orderly, h₂.files, fun _ => .reconciled h₂⟩
  · exact Program.ensures_pure.2 ⟨ho, rfl, nofun⟩

theorem quiet_showScan : e.Quiet { tell := Lifecycle.showScan } := by
  intro event L
  cases event with
  | parsed path blocks indexed found => exact ensures_ask fun _ _ h => h
  | indexed indexed found => exact ensures_ask fun _ _ h => h
  | error message => exact Program.ensures_pure.2 rfl

theorem ensures_scanAndWatch (distinct : e.Distinct) (serves : e.Serves s) (ho : e.Orderly L) :
    (Lifecycle.scanAndWatch s).Ensures e.rules L fun _ L' => e.Swept L L' := by
  unfold Lifecycle.scanAndWatch
  refine ensures_idle_bind (fun _ _ hx => hx) fun _ => ?_
  refine (ensures_scan distinct serves quiet_showScan rfl ho).bind fun result L' ⟨h, _⟩ => ?_
  split
  · exact Program.ensures_pure.2 h
  · refine ensures_idle_bind (fun _ _ hx => hx) fun _ => ?_
    refine ensures_idle_bind (fun _ _ hx => hx) fun x => ?_
    cases x with
    | error failure => exact Program.ensures_pure.2 h
    | ok _ => exact ensures_idle_bind (fun _ _ hx => hx) fun _ => Program.ensures_pure.2 h

/-- A whole run that succeeds begins in order and then scans. -/
theorem ensures_fullIndex (distinct : e.Distinct) (serves : e.Serves s) (ho : e.Orderly L) :
    (Lifecycle.fullIndex s).Ensures e.rules L fun x L' => e.Orderly L' ∧ L'.files = L.files ∧
      (x = .ok () → ∃ L₁, e.Begun L L₁ ∧ e.Swept L₁ L') := by
  unfold Lifecycle.fullIndex
  refine (ensures_reconcile distinct serves ho).bind fun x L₁ ⟨ho₁, hfiles, hbegun⟩ => ?_
  cases x with
  | error failure => exact Program.ensures_pure.2 ⟨ho₁, hfiles, nofun⟩
  | ok _ =>
    refine (ensures_scanAndWatch distinct serves ho₁).mono fun y L' h => ?_
    exact ⟨h.orderly, h.files.trans hfiles, fun _ => ⟨L₁, hbegun rfl, h⟩⟩

/-- Whether the store could be cleared or not, the scene is in order and the files are as they were. -/
theorem Orderly.cleared (ho : e.Orderly L) (h : L' = L.clearPoints ∨ L' = L) :
    e.Orderly L' ∧ L'.files = L.files := by
  rcases h with rfl | rfl
  · exact ⟨ho.clearPoints, rfl⟩
  · exact ⟨ho, rfl⟩

/-- What is done when a run fails empties the cache. -/
theorem ensures_giveUp {failure : IndexError} (ho : e.Orderly L) :
    (Lifecycle.giveUp failure).Ensures e.rules L fun _ L' =>
      e.Orderly L' ∧ L'.files = L.files ∧ L'.hashes = [] := by
  unfold Lifecycle.giveUp
  refine ensures_ask_bind fun x L₁ hx => ?_
  have h₁ := ho.cleared (hx.imp And.right fun h => h.2.2)
  refine ensures_ask_bind fun y L₂ hy => ?_
  have h₂ : L₂ = L₁.forgetAll := hy
  rw [h₂]
  refine ensures_idle_bind (fun _ _ hx => hx) fun _ => ensures_ask fun _ L₃ h₃ => ?_
  have h₃ : L₃ = L₁.forgetAll := h₃
  rw [h₃]
  exact ⟨h₁.1.forgetAll, h₁.2, rfl⟩

/-- A start does nothing, or begins in order and scans, or fails and empties the cache. -/
theorem ensures_start (distinct : e.Distinct) (serves : e.Serves s) (ho : e.Orderly L) :
    (Lifecycle.start s).Ensures e.rules L fun x L' => L' = L ∨
      x = .ok () ∧ (∃ L₁, e.Begun L L₁ ∧ e.Swept L₁ L') ∨
      (∃ failure, x = .error failure) ∧ e.Orderly L' ∧ L'.files = L.files ∧ L'.hashes = [] := by
  unfold Lifecycle.start
  refine ensures_idle_bind (fun _ _ hx => hx) fun (running : Bool) => ?_
  refine Program.ensures_ite (fun _ => Program.ensures_pure.2 (Or.inl rfl)) fun _ => ?_
  refine ensures_idle_bind (fun _ _ hx => hx) fun (state : IndexState) => ?_
  refine Program.ensures_ite (fun _ => ?_) fun _ => ?_
  · exact ensures_idle_bind (fun _ _ hx => hx) fun _ => Program.ensures_pure.2 (Or.inl rfl)
  refine ensures_idle_bind (fun _ _ hx => hx) fun _ => ?_
  refine (ensures_fullIndex distinct serves ho).bind fun x L₁ ⟨ho₁, hfiles, hdone⟩ => ?_
  refine ensures_idle_bind (fun _ _ hx => hx) fun _ => ?_
  cases x with
  | ok _ => exact Program.ensures_pure.2 (Or.inr (Or.inl ⟨rfl, hdone rfl⟩))
  | error failure =>
    refine (ensures_giveUp ho₁).bind fun _ L₂ ⟨ho₂, hfiles₂, hempty⟩ => ?_
    exact Program.ensures_pure.2
      (Or.inr (Or.inr ⟨⟨failure, rfl⟩, ho₂, hfiles₂.trans hfiles, hempty⟩))

/-- Clearing empties the cache, whatever becomes of the collection. -/
theorem ensures_clear (ho : e.Orderly L) :
    Lifecycle.clear.Ensures e.rules L fun _ L' =>
      e.Orderly L' ∧ L'.files = L.files ∧ L'.hashes = [] := by
  unfold Lifecycle.clear
  refine ensures_idle_bind (fun _ _ hx => hx) fun _ => ?_
  refine ensures_ask_bind fun x L₁ hx => ?_
  have h₁ := ho.cleared (hx.imp And.right fun h => h.2.2)
  refine ensures_ask_bind fun y L₂ hy => ?_
  have h₂ : L₂ = L₁.forgetAll := hy
  rw [h₂]
  have hempty : e.Orderly L₁.forgetAll ∧ L₁.forgetAll.files = L.files ∧ L₁.forgetAll.hashes = [] :=
    ⟨h₁.1.forgetAll, h₁.2, rfl⟩
  cases x with
  | error failure => exact ensures_idle_bind (fun _ _ hx => hx) fun _ => Program.ensures_pure.2 hempty
  | ok _ =>
    cases y with
    | error failure =>
      exact ensures_idle_bind (fun _ _ hx => hx) fun _ => Program.ensures_pure.2 hempty
    | ok _ => exact ensures_idle_bind (fun _ _ hx => hx) fun _ => Program.ensures_pure.2 hempty

/-! ## Histories -/

/-- The scenes that a history leads to from an empty index: files are edited, an index is started, batches
of changes are worked through, and an index is cleared, one after the other and each with any outcome. -/
inductive Reachable (e : Premises) : Scene → Prop where
  | empty {files : String → Option String}
      (versions : ∀ {path text}, e.paths path → files path = some text → e.texts path text) :
      Reachable e { files }
  | edit {L : Scene} {files : String → Option String} (reached : Reachable e L)
      (versions : ∀ {path text}, e.paths path → files path = some text → e.texts path text) :
      Reachable e { L with files }
  | start {L L' : Scene} {s : Services} {outcome : Except IndexError Unit}
      (reached : Reachable e L) (serves : e.Serves s)
      (run : Program.Ends e.rules (Lifecycle.start s) L outcome L') : Reachable e L'
  | change {L L' : Scene} {s : Services} {changes : Changes} {results : List ChangeResult}
      (reached : Reachable e L) (serves : e.Serves s) (paths : ∀ c ∈ changes, e.paths c.1)
      (once : (changes.map (·.1)).Nodup)
      (run : Program.Ends e.rules (processChanges s changes) L results L') : Reachable e L'
  | clear {L L' : Scene} {outcome : Except IndexError Unit} (reached : Reachable e L)
      (run : Program.Ends e.rules Lifecycle.clear L outcome L') : Reachable e L'

/-- A cache that is empty agrees with every store. -/
theorem agrees_of_hashes_eq_nil (h : L.hashes = []) : e.Agrees L := by
  intro path hash hget
  rw [h] at hget
  cases hget

/-- A scan that began with every file in step leaves a cache that agrees with the store. -/
theorem Swept.agrees {L₁ : Scene} (h : e.Swept L₁ L') (ho₁ : e.Orderly L₁)
    (deletes : ∀ paths, ¬e.fails (.deletePoints paths))
    (hstep : ∀ {path}, e.paths path → e.InStep L₁ path) : e.Agrees L' := by
  intro path hash hget
  have hpath := h.orderly.cached hget
  have hscanned := (h.scanned hpath).resolve_left fun hnone => by
    rw [hget] at hnone
    cases hnone.1
  exact (hscanned.inStep hpath ho₁ h.orderly deletes (hstep hpath)).backed hget

/-- One step of a history leads from an orderly scene that agrees to another one. -/
theorem orderly_and_agrees_of_reachable (distinct : e.Distinct)
    (deletes : ∀ paths, ¬e.fails (.deletePoints paths)) (lists : ¬e.fails .storedPaths)
    (h : e.Reachable L) : e.Orderly L ∧ e.Agrees L := by
  induction h with
  | empty versions =>
    exact ⟨⟨versions, List.nodup_nil, nofun, nofun⟩, agrees_of_hashes_eq_nil rfl⟩
  | @edit L files reached versions ih =>
    obtain ⟨ho, hagrees⟩ := ih
    have ho' : e.Orderly { L with files } := ⟨versions, ho.ids, ho.known, ho.cached⟩
    exact ⟨ho', fun path hash hget => (hagrees path hash hget).congr ho ho' fun _ => Iff.rfl⟩
  | start reached serves run ih =>
    obtain ⟨ho, hagrees⟩ := ih
    rcases ensures_start distinct serves ho _ _ run with
      rfl | ⟨-, L₁, hbegun, hswept⟩ | ⟨-, ho', -, hempty⟩
    · exact ⟨ho, hagrees⟩
    · exact ⟨hswept.orderly, hswept.agrees hbegun.orderly deletes
        (hbegun.inStep ho hagrees deletes lists)⟩
    · exact ⟨ho', agrees_of_hashes_eq_nil hempty⟩
  | change reached serves paths once run ih =>
    obtain ⟨ho', -, hagrees'⟩ :=
      ensures_processChanges distinct serves paths once ih.1 ih.2 _ _ run
    exact ⟨ho', hagrees'⟩
  | clear reached run ih =>
    obtain ⟨ho', -, hempty⟩ := ensures_clear ih.1 _ _ run
    exact ⟨ho', agrees_of_hashes_eq_nil hempty⟩

/-- In every scene of a history in which deletions and the listing of the store succeed, whatever else
fails, each hash in the cache is backed: the stored points of its file are exactly those of the blocks
of the text with that hash. -/
theorem agrees_of_reachable (distinct : e.Distinct)
    (deletes : ∀ paths, ¬e.fails (.deletePoints paths)) (lists : ¬e.fails .storedPaths)
    (h : e.Reachable L) : e.Agrees L :=
  (orderly_and_agrees_of_reachable distinct deletes lists h).2

/-! ### A history of two files -/

/-- What the two files of a small workspace hold: one function each. -/
def smallText : String → String
  | "/w/a.rs" => "fn first() {}"
  | _ => "fn second() {}"

/-- The tree of a text that is one function. -/
def functionTree (text : String) : Syntax.Tree :=
  .node ⟨"source_file", true, 0, text.utf8ByteSize, none⟩
    [.node ⟨"function_item", true, 0, text.utf8ByteSize, none⟩ []]

/-- A workspace of two files, in which embedding and storing may fail. -/
def small : Premises where
  root := "/w"
  trees _ text := some (functionTree text)
  policy := { minBlock := 10 }
  paths path := path ∈ ["/w/a.rs", "/w/b.rs"]
  texts path text := text = smallText path
  fails
    | .embed _ => True
    | .upsert _ => True
    | _ => False

def smallServices : Services where
  root := small.root
  tuning := { chunk := small.policy }
  trees := small.trees
  rules := { root := small.root }

theorem small_key {key : String} (h : small.IsKey key) : key = "/w/a.rs:1:1" ∨ key = "/w/b.rs:1:1" := by
  obtain ⟨path, text, block, ⟨hpath, rfl⟩, hblock, rfl⟩ := h
  have hmem : block.key ∈ (small.blocks path (smallText path)).map Block.key :=
    List.mem_map_of_mem hblock
  have ha : (small.blocks "/w/a.rs" (smallText "/w/a.rs")).map Block.key = ["/w/a.rs:1:1"] := by
    decide +kernel
  have hb : (small.blocks "/w/b.rs" (smallText "/w/b.rs")).map Block.key = ["/w/b.rs:1:1"] := by
    decide +kernel
  rcases List.mem_pair.1 hpath with rfl | rfl
  · rw [ha] at hmem
    exact Or.inl (List.mem_singleton.1 hmem)
  · rw [hb] at hmem
    exact Or.inr (List.mem_singleton.1 hmem)

theorem small_distinct : small.Distinct := by
  have hname : small.name "/w/a.rs" ≠ small.name "/w/b.rs" := by decide +kernel
  have hnormal : Path.normalize "/w/a.rs" ≠ Path.normalize "/w/b.rs" := by decide +kernel
  have hid : Digest.nameId Digest.pointNamespace "/w/a.rs:1:1" ≠
      Digest.nameId Digest.pointNamespace "/w/b.rs:1:1" := by
    decide +kernel
  refine ⟨fun hp hq h => ?_, fun hp hq h => ?_, fun hk hl h => ?_⟩
  · rcases List.mem_pair.1 hp with rfl | rfl <;> rcases List.mem_pair.1 hq with rfl | rfl
    · rfl
    · exact absurd h hname
    · exact absurd h.symm hname
    · rfl
  · rcases List.mem_pair.1 hp with rfl | rfl <;> rcases List.mem_pair.1 hq with rfl | rfl
    · rfl
    · exact absurd h hnormal
    · exact absurd h.symm hnormal
    · rfl
  · rcases small_key hk with rfl | rfl <;> rcases small_key hl with rfl | rfl
    · rfl
    · exact absurd h hid
    · exact absurd h.symm hid
    · rfl

/-- A start on the small workspace leads to a scene in which the hash of its second file is in the cache,
and with it, as always, the points. -/
theorem agrees_of_reachable_small : ∃ L, small.Reachable L ∧
    L.hashes.get? "/w/b.rs" = some (contentHash (smallText "/w/b.rs")) ∧ small.Agrees L := by
  let files (path : String) : Option String := some (smallText path)
  have hempty : small.Reachable { files } :=
    .empty fun {path text} _ h => (Option.some_inj.1 h).symm
  have hstart := hempty.start (s := smallServices) ⟨rfl, rfl, rfl⟩
    (ends_respond ["/w/a.rs", "/w/b.rs"] (fun _ => false) (by decide) (fun _ h => h) nofun
      (Lifecycle.start smallServices) { files })
  refine ⟨_, hstart, by decide +kernel, ?_⟩
  exact agrees_of_reachable small_distinct (fun _ h => h) (fun h => h) hstart

end SourceIndex.Premises
