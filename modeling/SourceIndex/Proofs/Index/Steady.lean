import SourceIndex.Proofs.Index.Batches
import SourceIndex.Proofs.Index.Responses
/-!
# A steady workspace

`Premises.steadyRules` are the rules of a workspace in which every file that is there is listed, readable and
not too large, and in which the vector of a text is a function of the text. When no call fails either,
what is left of a scene does not depend on the answers: a batch leaves the points of all of its items
and their hashes (`ensures_process_steady`).

`Premises.Renewed` says that a file was brought up to date: it has the hash of its text, and its points
were kept if it had this hash before, else replaced by those of the blocks of its text. Two scenes in
which every file was renewed from the same scene have the same cache and the same points
(`same_of_renewed`).
-/

namespace SourceIndex.Premises

section Definitions
variable (e : Premises) (vectorOf : String → Vector32) (limit : Nat)

/-- What is known of the answers in a steady workspace: the embedder is a function of each text, and the
files that are there are listed, no larger than the limit, and readable. -/
def Steady : (a : Action) → Scene → a.Answer → Prop
  | .embed texts, _, x => ∃ embeddings, x = .ok embeddings ∧ embeddings.vectors = texts.map vectorOf
  | .listFiles _ _, L, (x : List String) => ∀ path, path ∈ x ↔ e.paths path ∧ (L.files path).isSome
  | .fileSize path, L, x => (L.files path).isSome → ∃ size, x = .ok size ∧ size ≤ limit
  | .readFile path, L, x => ∀ text, L.files path = some text → x = .ok text
  | _, _, _ => True

/-- The rules of a steady workspace. -/
def steadyRules : Program.Rules indexing Scene :=
  fun a L x L' => e.rules a L x L' ∧ e.Steady vectorOf limit a L x

/-- The points of a file that holds `text`. -/
def freshPoints (path text : String) : List Point :=
  (e.blocks path text).map fun block =>
    Point.ofBlock e.root block (vectorOf (Text.trim block.content))

/-- The points that a file is to have in the end: none if it is gone, those it had if its text is the one
that was indexed, and else those of its text. -/
def renewal (L : Scene) (path : String) : List Point :=
  match L.files path with
  | none => []
  | some text =>
    if L.hashes.get? path = some (contentHash text) then L.pointsOf (e.name path)
    else (e.freshPoints vectorOf path text).foldl MemoryStore.put []

/-- From one scene to another a file keeps its hash and its points. -/
structure Stays (path : String) (L L' : Scene) : Prop where
  hash : L'.hashes.get? path = L.hashes.get? path
  points : L'.pointsOf (e.name path) = L.pointsOf (e.name path)

/-- From one scene to another a file was brought up to date. -/
structure Renewed (path : String) (L L' : Scene) : Prop where
  hash : L'.hashes.get? path = (L.files path).map contentHash
  points : L'.pointsOf (e.name path) = e.renewal vectorOf L path

/-- The point of an item, with the vector of its text. -/
def freshPoint (item : PendingBlock) : Point :=
  e.itemPoint item (vectorOf (Text.trim item.block.content))

/-- The scene after the points of items were stored and their hashes entered. -/
def land (items : List PendingBlock) (L : Scene) : Scene :=
  recordAll items (L.upsert (items.map (e.freshPoint vectorOf)))

end Definitions

variable {e : Premises} {vectorOf : String → Vector32} {limit : Nat} {L L' L₁ L₂ : Scene}
  {items segment : List PendingBlock} {path text : String}

/-! ## Requests -/

section
variable {α : Type} {p : Procedure α} {a : Action} {f : a.Answer → Procedure α}
  {post : α → Scene → Prop}

/-- What holds under the rules holds in a steady workspace. -/
theorem steady_of_ensures (h : p.Ensures e.rules L post) :
    p.Ensures (e.steadyRules vectorOf limit) L post :=
  h.of_rules fun _ _ _ _ answer => answer.1

/-- What comes behind a request may rely on what is known of its answer. -/
theorem ensures_steady_bind
    (h : ∀ x L', e.rules a L x L' → e.Steady vectorOf limit a L x →
      (f x).Ensures (e.steadyRules vectorOf limit) L' post) :
    (ask a >>= f).Ensures (e.steadyRules vectorOf limit) L post :=
  Program.ensures_bind.2 (Program.ensures_ask.2 fun x L' answer => h x L' answer.1 answer.2)

/-- What comes behind a request that changes nothing finds the scene as it was, whatever the answer. -/
theorem ensures_steady_idle_bind (idle : ∀ x L', e.rules a L x L' → L' = L)
    (h : ∀ x, (f x).Ensures (e.steadyRules vectorOf limit) L post) :
    (ask a >>= f).Ensures (e.steadyRules vectorOf limit) L post := by
  refine ensures_steady_bind fun x L' hx _ => ?_
  rw [idle x L' hx]
  exact h x

end

/-! ## Answers -/

/-- Answer requests in a steady workspace in which the files in `listed` are there. -/
def attend (vectorOf : String → Vector32) (listed : List String) : Program.Handler indexing Scene
  | .embed texts, L => (.ok { vectors := texts.map vectorOf }, L)
  | a, L => respond listed (fun _ => false) a L

section
variable {listed : List String}

theorem files_attend (a : Action) : (attend vectorOf listed a L).2.files = L.files := by
  cases a with
  | readFile path =>
    simp only [attend, respond]
    split
    · rfl
    · rfl
  | _ => rfl

theorem rules_attend (nodup : listed.Nodup) (paths : ∀ path ∈ listed, e.paths path) (a : Action) :
    e.rules a L (attend vectorOf listed a L).1 (attend vectorOf listed a L).2 := by
  have hrules := @rules_respond e listed (fun _ => false) nodup paths (fun _ h => Bool.noConfusion h) a L
  cases a with
  | embed texts => exact ⟨rfl, Or.inl ⟨_, rfl, List.length_map _⟩⟩
  | _ => exact hrules

theorem steady_attend (hlisted : ∀ path, path ∈ listed ↔ e.paths path ∧ (L.files path).isSome)
    (a : Action) : e.Steady vectorOf limit a L (attend vectorOf listed a L).1 := by
  cases a with
  | embed texts => exact ⟨_, rfl, rfl⟩
  | listFiles rules bound => exact hlisted
  | fileSize path => exact fun _ => ⟨0, rfl, Nat.zero_le limit⟩
  | readFile path =>
    intro text file
    simp only [attend, respond, file]
    rfl
  | _ => exact trivial

/-- A workspace whose files can be listed can be steady: every procedure has a run in it. -/
theorem ends_attend {α : Type} (nodup : listed.Nodup)
    (hlisted : ∀ path, path ∈ listed ↔ e.paths path ∧ (L.files path).isSome) (p : Procedure α) :
    Program.Ends (e.steadyRules vectorOf limit) p L (p.run (attend vectorOf listed) L).1
      (p.run (attend vectorOf listed) L).2 := by
  refine Program.ends_run_of id (·.files = L.files) (fun a L₁ hfiles => ?_) p rfl
  have hrules := @rules_attend e vectorOf L₁ listed nodup (fun path hin => ((hlisted path).1 hin).1) a
  have hsteady : e.Steady vectorOf limit a L₁ (attend vectorOf listed a L₁).1 := by
    refine steady_attend (fun path => ?_) a
    rw [hlisted, hfiles]
  exact ⟨⟨hrules, hsteady⟩, (files_attend a).trans hfiles⟩

end

/-! ## What is left of a batch -/

/-- The points of items that land are known, and those of a file are those of its items. -/
theorem known_freshPoints (hs : ∀ item ∈ items, e.Pends item) :
    ∀ q ∈ items.map (e.freshPoint vectorOf), e.Known q :=
  List.forall_mem_map.2 fun item hitem => (hs item hitem).known _

theorem pointsOf_freshPoints (distinct : e.Distinct) (hs : ∀ item ∈ items, e.Pends item)
    (hpath : e.paths path) :
    MemoryStore.pointsOf (e.name path) (items.map (e.freshPoint vectorOf)) =
      (itemsOf path items).map (e.freshPoint vectorOf) := by
  rw [MemoryStore.pointsOf, itemsOf, List.filter_map]
  refine congrArg (List.map _) (List.filter_congr fun item hitem => ?_)
  have hname : (e.freshPoint vectorOf item).payload.filePath = e.name item.block.filePath :=
    (hs item hitem).filePath _
  by_cases h : item.block.filePath = path
  · simp [hname, h]
  · have hne : e.name item.block.filePath ≠ e.name path :=
      fun heq => h (distinct.names (hs item hitem).paths hpath heq)
    simp [hname, h, hne]

theorem recordAll_upsert {ps : List Point} : (recordAll items L).upsert ps = recordAll items (L.upsert ps) := by
  induction items generalizing L with
  | nil => rfl
  | cons item items ih => exact ih

/-- Items land together as they do one after the other. -/
theorem land_append {more : List PendingBlock} :
    e.land vectorOf (items ++ more) L = e.land vectorOf more (e.land vectorOf items L) := by
  unfold land
  rw [recordAll_upsert, recordAll, List.foldl_append, List.map_append, Scene.upsert, Scene.upsert,
    List.foldl_append]
  rfl

theorem files_land : (e.land vectorOf items L).files = L.files :=
  recordAll_files

theorem Orderly.land (h : e.Orderly L) (hs : ∀ item ∈ items, e.Pends item) :
    e.Orderly (e.land vectorOf items L) :=
  (h.upsert (known_freshPoints hs)).recordAll hs

/-- Items that land add the points of their file to those it has. -/
theorem pointsOf_land (distinct : e.Distinct) (ho : e.Orderly L) (hs : ∀ item ∈ items, e.Pends item)
    (hpath : e.paths path) : (e.land vectorOf items L).pointsOf (e.name path) =
      ((itemsOf path items).map (e.freshPoint vectorOf)).foldl MemoryStore.put
        (L.pointsOf (e.name path)) := by
  rw [Scene.pointsOf, land, recordAll_points, ← pointsOf_freshPoints distinct hs hpath]
  exact MemoryStore.pointsOf_foldl_put (apart distinct) ho.known (known_freshPoints hs)

section
variable (reliable : ∀ a, ¬e.fails a)
include reliable

theorem ensures_embedAndUpsert_steady :
    (Batch.embedAndUpsert (blockStrategy e.root) segment).Ensures (e.steadyRules vectorOf limit) L
      fun x L' => x = .ok () ∧ L' = L.upsert (segment.map (e.freshPoint vectorOf)) := by
  unfold Batch.embedAndUpsert
  refine ensures_steady_bind fun x L₁ hanswer hsteady => ?_
  obtain ⟨embeddings, rfl, hvectors⟩ := hsteady
  obtain ⟨rfl, -⟩ := hanswer
  dsimp only
  have hlen : embeddings.vectors.length = segment.length := by
    rw [hvectors, List.length_map, List.length_map]
  have hpoints : segment.zipWith (blockStrategy e.root).point embeddings.vectors =
      segment.map (e.freshPoint vectorOf) := by
    rw [hvectors, List.map_map, List.zipWith_map_right, List.zipWith_self]
    rfl
  rw [if_neg (by simpa using hlen), hpoints]
  refine ensures_steady_bind fun y L₂ hy _ => ?_
  rcases hy with ⟨rfl, rfl⟩ | ⟨hfails, -⟩
  · exact Program.ensures_pure.2 ⟨rfl, rfl⟩
  · exact absurd hfails (reliable _)

theorem ensures_runSegment_steady {limits : BatchLimits} :
    (Batch.runSegment (blockStrategy e.root) limits segment).Ensures (e.steadyRules vectorOf limit) L
      fun r L' => r = Batch.succeeded (blockStrategy e.root) segment ∧
        L' = e.land vectorOf segment L := by
  unfold Batch.runSegment
  let stored (x : Except IndexError Unit) (L₁ : Scene) : Prop :=
    x = .ok () ∧ L₁ = L.upsert (segment.map (e.freshPoint vectorOf))
  refine Program.Ensures.bind (RetryPolicy.ensures_run (· = L) stored ?_ ?_ rfl) ?_
  · exact fun d L₁ => steady_of_ensures (ensures_ask fun _ _ h => h)
  · rintro L₁ rfl
    refine (ensures_embedAndUpsert_steady reliable).mono fun x L₂ hx => ⟨hx, fun failure heq => ?_⟩
    rw [hx.1] at heq
    cases heq
  · rintro x L₁ ⟨rfl, rfl⟩
    refine (steady_of_ensures ensures_recordHashes).bind fun _ L₂ h₂ => ?_
    exact Program.ensures_pure.2 ⟨rfl, h₂⟩

theorem ensures_runSegments_steady {limits : BatchLimits} {progress : Nat → Nat → Procedure Unit}
    (quiet : ∀ a b L, (progress a b).Ensures e.rules L fun _ L' => L' = L)
    {segments : List (List PendingBlock)} {r : BatchResult} :
    (Batch.runSegments (blockStrategy e.root) limits progress r segments).Ensures
      (e.steadyRules vectorOf limit) L fun r' L' =>
        (∀ path, r'.Lost path → r.Lost path) ∧ L' = e.land vectorOf segments.flatten L := by
  induction segments generalizing r L with
  | nil => exact Program.ensures_pure.2 ⟨fun _ => id, rfl⟩
  | cons segment segments ih =>
    refine (ensures_runSegment_steady reliable).bind fun r₁ L₁ h₁ => ?_
    obtain ⟨rfl, rfl⟩ := h₁
    refine (steady_of_ensures (quiet _ _ _)).bind fun _ L₂ h₂ => ?_
    rw [h₂]
    refine ih.mono fun r' L' h' => ⟨fun path hlost => ?_, ?_⟩
    · exact (BatchResult.lost_merge.1 (h'.1 path hlost)).resolve_right Batch.not_lost_succeeded
    · rw [h'.2, List.flatten_cons, land_append]

/-- A batch deletes the old points of replaced files, and then all of its items land. -/
theorem ensures_process_steady {limits : BatchLimits} {progress : Nat → Nat → Procedure Unit}
    (quiet : ∀ a b L, (progress a b).Ensures e.rules L fun _ L' => L' = L) :
    (Batch.process (blockStrategy e.root) limits progress items).Ensures
      (e.steadyRules vectorOf limit) L fun r L' =>
        (∀ path, ¬r.Lost path) ∧ L' = e.land vectorOf items (L.deletePoints (e.staleOf items)) := by
  unfold Batch.process
  refine Program.ensures_ite (fun hempty => ?_) fun _ => ?_
  · rw [List.isEmpty_iff.1 hempty, staleOf_nil, Scene.deletePoints_nil]
    exact Program.ensures_pure.2 ⟨BatchResult.not_lost_empty, rfl⟩
  · refine (steady_of_ensures ensures_deleteStale).bind fun errors L₁ h₁ => ?_
    obtain rfl := h₁.resolve_right fun ⟨⟨_, hfails⟩, _⟩ => reliable _ hfails
    refine (ensures_runSegments_steady reliable quiet).mono fun r L' h' => ⟨fun path hlost => ?_, ?_⟩
    · obtain ⟨item, hitem, -⟩ := h'.1 path hlost
      cases hitem
    · rw [h'.2, flatten_segmentsOf]
      rfl

end

/-! ## Renewed files -/

theorem freshPoints_eq : e.freshPoints vectorOf path text = e.points path text
    ((e.blocks path text).map fun block => vectorOf (Text.trim block.content)) := by
  rw [points, List.zipWith_map_right, List.zipWith_self]
  rfl

theorem renewal_of_gone (file : L.files path = none) : e.renewal vectorOf L path = [] := by
  rw [renewal, file]

theorem renewal_of_unchanged (file : L.files path = some text)
    (unchanged : L.hashes.get? path = some (contentHash text)) :
    e.renewal vectorOf L path = L.pointsOf (e.name path) := by
  rw [renewal, file]
  exact if_pos unchanged

theorem renewal_of_changed (file : L.files path = some text)
    (changed : L.hashes.get? path ≠ some (contentHash text)) :
    e.renewal vectorOf L path = (e.freshPoints vectorOf path text).foldl MemoryStore.put [] := by
  rw [renewal, file]
  exact if_neg changed

namespace Stays

theorem refl (e : Premises) (path : String) (L : Scene) : e.Stays path L L :=
  ⟨rfl, rfl⟩

theorem trans (h : e.Stays path L₁ L) (h' : e.Stays path L L₂) : e.Stays path L₁ L₂ :=
  ⟨h'.hash.trans h.hash, h'.points.trans h.points⟩

theorem deletePoints {names : List String} (h : e.name path ∉ names) :
    e.Stays path L (L.deletePoints names) :=
  ⟨rfl, by rw [Scene.pointsOf_deletePoints, if_neg h]⟩

theorem record {other hash : String} (h : path ≠ other) : e.Stays path L (L.record other hash) :=
  ⟨by rw [Scene.get?_record, if_neg h], rfl⟩

theorem forget {paths : List String} (h : path ∉ paths) : e.Stays path L (L.forget paths) :=
  ⟨by rw [Scene.get?_forget, if_neg h], rfl⟩

end Stays

namespace Renewed

/-- A file that is gone was renewed once it has neither hash nor points. -/
theorem gone (file : L.files path = none) (hash : L'.hashes.get? path = none)
    (points : L'.pointsOf (e.name path) = []) : e.Renewed vectorOf path L L' :=
  ⟨by rw [hash, file, Option.map_none], points.trans (renewal_of_gone file).symm⟩

/-- A file that is gone and was not indexed is renewed by leaving it alone. -/
theorem of_absent (file : L.files path = none) (uncached : L.hashes.get? path = none)
    (hstep : e.InStep L path) (h : e.Stays path L L') : e.Renewed vectorOf path L L' :=
  .gone file (h.hash.trans uncached) (h.points.trans (hstep.absent uncached))

/-- A file whose text was indexed is renewed by leaving it alone. -/
theorem of_unchanged (file : L.files path = some text)
    (unchanged : L.hashes.get? path = some (contentHash text)) (h : e.Stays path L L') :
    e.Renewed vectorOf path L L' :=
  ⟨by rw [h.hash, unchanged, file, Option.map_some],
    h.points.trans (renewal_of_unchanged file unchanged).symm⟩

/-- A file whose text was not indexed is renewed by the points of its text. -/
theorem of_changed (file : L.files path = some text)
    (changed : L.hashes.get? path ≠ some (contentHash text))
    (hash : L'.hashes.get? path = some (contentHash text))
    (points : L'.pointsOf (e.name path) =
      (e.freshPoints vectorOf path text).foldl MemoryStore.put []) : e.Renewed vectorOf path L L' :=
  ⟨by rw [hash, file, Option.map_some], points.trans (renewal_of_changed file changed).symm⟩

/-- A renewed file stays renewed as long as it keeps its hash and its points. -/
theorem stays (h : e.Renewed vectorOf path L L') (hs : e.Stays path L' L₁) :
    e.Renewed vectorOf path L L₁ :=
  ⟨hs.hash.trans h.hash, hs.points.trans h.points⟩

/-- A file that was in step is in step once it was renewed, so that the index can be kept up from there. -/
theorem inStep (h : e.Renewed vectorOf path L L') (ho : e.Orderly L) (ho' : e.Orderly L')
    (hpath : e.paths path) (hstep : e.InStep L path) : e.InStep L' path := by
  obtain ⟨hhash, hpoints⟩ := h
  cases file : L.files path with
  | none =>
    rw [file, Option.map_none] at hhash
    rw [renewal_of_gone file] at hpoints
    refine ⟨fun hget => ?_, fun _ => hpoints⟩
    rw [hhash] at hget
    cases hget
  | some text =>
    rw [file, Option.map_some] at hhash
    by_cases hsame : L.hashes.get? path = some (contentHash text)
    · rw [renewal_of_unchanged file hsame] at hpoints
      exact hstep.congr ho ho' (hhash.trans hsame.symm) fun q => by rw [hpoints]
    · rw [renewal_of_changed file hsame, freshPoints_eq] at hpoints
      exact .of_mem ho' hhash (ho.texts hpath file) (List.length_map _) fun q => by rw [hpoints]

end Renewed

/-- Two scenes in which all files were renewed from the same scene have the same hashes and the same
points. -/
theorem same_of_renewed (ho₁ : e.Orderly L₁) (ho₂ : e.Orderly L₂)
    (h₁ : ∀ path, e.paths path → e.Renewed vectorOf path L L₁)
    (h₂ : ∀ path, e.paths path → e.Renewed vectorOf path L L₂) :
    (∀ path, L₁.hashes.get? path = L₂.hashes.get? path) ∧ L₁.points.Perm L₂.points := by
  have hpoints : ∀ path, e.paths path → L₁.pointsOf (e.name path) = L₂.pointsOf (e.name path) :=
    fun path hpath => (h₁ path hpath).points.trans (h₂ path hpath).points.symm
  have hmem : ∀ {L L' : Scene}, e.Orderly L →
      (∀ path, e.paths path → L.pointsOf (e.name path) = L'.pointsOf (e.name path)) →
      ∀ q ∈ L.points, q ∈ L'.points := by
    intro L L' ho heq q hq
    obtain ⟨path, text, block, vector, version, hblock, rfl⟩ := ho.known q hq
    have hown : Point.ofBlock e.root block vector ∈ L.pointsOf (e.name path) :=
      MemoryStore.mem_pointsOf.2 ⟨hq, filePath_ofBlock hblock vector⟩
    rw [heq path version.1] at hown
    exact (MemoryStore.mem_pointsOf.1 hown).1
  refine ⟨fun path => ?_, MemoryStore.perm_of_mem_iff ho₁.ids ho₂.ids fun q => ?_⟩
  · by_cases hpath : e.paths path
    · rw [(h₁ path hpath).hash, (h₂ path hpath).hash]
    · have hnone : ∀ {L : Scene}, e.Orderly L → L.hashes.get? path = none := fun ho =>
        Option.eq_none_iff_forall_not_mem.2 fun hash hget => hpath (ho.cached hget)
      rw [hnone ho₁, hnone ho₂]
  · exact ⟨hmem ho₁ hpoints q, hmem ho₂ (fun path hpath => (hpoints path hpath).symm) q⟩

end SourceIndex.Premises
