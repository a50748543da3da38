import SourceIndex.Proofs.Index.Scans
import SourceIndex.Proofs.Program.Upholding
/-!
# What outlasts a run that is cut off

When indexing is cut off, the hashes in memory are lost; the store and the cache file stay. A `Durable` has
all three, and `Premises.durableRules` says how they change: the cache file gets the hashes in memory when it
is flushed or cleared, and it may get them behind any other request, since changes are written after a time.
Writing it is one step, as the file that was written is renamed in the end.

One file with its text is followed through such a run. A file is `Resting` until something is done about its
text, and `Working` from then on. In both cases, whenever the hash of the text is in memory or in the cache
file, the store has no points of the file but those of the text, and some of these if there are any
(`Secure`). What a batch does to the file is followed by `Handled`, one request after the other
(`upholds_process`).
-/

namespace SourceIndex

/-- What indexing works on, with what of the cache is in its file. -/
structure Durable where
  scene : Scene
  saved : Hashes := []

/-- What is found when the hashes in memory were lost and those in the cache file were read again. -/
def Durable.reopened (D : Durable) : Scene :=
  { D.scene with hashes := D.saved }

/-- The answers which say that the cache file was written. -/
def Action.Saves : (a : Action) → a.Answer → Prop
  | .clearCache, x => x = .ok ()
  | .flushCache, x => x = .ok ()
  | _, _ => False

/-- The answers in a workspace with these files. -/
def Action.Lists (listed : List String) : (a : Action) → a.Answer → Prop
  | .listFiles _ _, (x : List String) => x = listed
  | _, _ => True

namespace Premises

section Definitions
variable (e : Premises) (listed : List String) (path text : String)

/-- A request with its answer, in a workspace with the files in `listed`. -/
structure DurableStep (a : Action) (D : Durable) (x : a.Answer) (D' : Durable) : Prop where
  rules : e.rules a D.scene x D'.scene
  lists : a.Lists listed x
  saved : D'.saved = D'.scene.hashes ∨ D'.saved = D.saved ∧ ¬a.Saves x

/-- The rules of what outlasts a run. -/
def durableRules : Program.Rules indexing Durable :=
  fun a D x D' => e.DurableStep listed a D x D'

/-- No deletion of the file's points was refused. -/
def Spared (D : Durable) : Prop :=
  e.name path ∉ D.scene.refused

/-- The stored points of the file are those of blocks of the text. -/
def Fresh (L : Scene) : Prop :=
  ∀ q ∈ L.pointsOf (e.name path), ∃ block ∈ e.blocks path text, ∃ vector,
    q = Point.ofBlock e.root block vector

/-- Some point of the file is stored, if the text has blocks. -/
def Shown (L : Scene) : Prop :=
  e.blocks path text ≠ [] → L.pointsOf (e.name path) ≠ []

/-- The hash of the text is in memory or in the cache file. -/
def Marked (D : Durable) : Prop :=
  D.scene.hashes.get? path = some (contentHash text) ∨ D.saved.get? path = some (contentHash text)

/-- The file holds the text, in a scene in order, and only files are in the cache file. -/
structure Lasting (D : Durable) : Prop where
  orderly : e.Orderly D.scene
  file : D.scene.files path = some text
  saved : ∀ {other hash}, D.saved.get? other = some hash → e.paths other

/-- If the hash of the text is anywhere, the store is empty or has points of the text for the file, and no
others, unless a deletion was refused. -/
structure Secure (D : Durable) : Prop where
  lasting : e.Lasting path text D
  marked : e.Spared path D → Marked path text D →
    D.scene.points = [] ∨ e.Fresh path text D.scene ∧ e.Shown path text D.scene

/-- Nothing was done about the text yet: cache and cache file have one hash of the file, with points of the
text behind the hash of the text, and no points behind none. -/
structure Resting (D : Durable) : Prop where
  lasting : e.Lasting path text D
  saved : D.saved.get? path = D.scene.hashes.get? path
  current : D.scene.hashes.get? path = some (contentHash text) →
    e.Fresh path text D.scene ∧ e.Shown path text D.scene
  absent : D.scene.hashes.get? path = none → D.scene.pointsOf (e.name path) = []

/-- What there was of other texts is gone, unless the deletion was refused, and the hash of the text comes
behind its first points. -/
structure Working (D : Durable) : Prop where
  lasting : e.Lasting path text D
  fresh : e.Spared path D → e.Fresh path text D.scene
  shown : e.Spared path D → Marked path text D → e.Shown path text D.scene

/-- Nothing happens to a file; its hash may be written. -/
structure Still (D D' : Durable) : Prop where
  same : e.Same path D.scene D'.scene
  saved : D'.saved.get? path = D.saved.get? path ∨ D'.saved.get? path = D.scene.hashes.get? path

/-- A request that stores known points, or enters the hash of a file, or does something else. -/
def Proper : Action → Prop
  | .upsert points => ∀ q ∈ points, e.Known q
  | .recordHash other _ => e.paths other
  | _ => True

end Definitions

variable {e : Premises} {listed : List String} {path text : String} {a : Action} {x : a.Answer}
  {D D' D₀ : Durable} {L L' : Scene}

/-! ## Steps -/

/-- A proper request keeps a scene in order and leaves the files alone. -/
theorem Orderly.of_rules (ho : e.Orderly L) (proper : e.Proper a) (h : e.rules a L x L') :
    e.Orderly L' ∧ L'.files = L.files := by
  cases a with
  | prepareStore =>
    rcases h with ⟨-, rfl⟩ | ⟨-, rfl⟩ | ⟨-, -, rfl⟩
    · exact ⟨ho.clearPoints, rfl⟩
    · exact ⟨ho, rfl⟩
    · exact ⟨ho, rfl⟩
  | upsert points =>
    rcases h with ⟨-, rfl⟩ | ⟨-, -, part, hpart, rfl⟩
    · exact ⟨ho.upsert proper, rfl⟩
    · exact ⟨ho.upsert fun q hq => proper q (hpart hq), rfl⟩
  | deletePoints names =>
    rcases h with ⟨-, rfl⟩ | ⟨-, -, rfl⟩
    · exact ⟨ho.deletePoints, rfl⟩
    · exact ⟨ho.refuse, rfl⟩
  | clearStore =>
    rcases h with ⟨-, rfl⟩ | ⟨-, -, rfl⟩
    · exact ⟨ho.clearPoints, rfl⟩
    · exact ⟨ho, rfl⟩
  | dropStore =>
    rcases h with ⟨-, rfl⟩ | ⟨-, -, rfl⟩
    · exact ⟨ho.clearPoints, rfl⟩
    · exact ⟨ho, rfl⟩
  | recordHash other hash =>
    obtain rfl : L' = L.record other hash := h
    exact ⟨ho.record proper, rfl⟩
  | forgetHashes others =>
    obtain rfl : L' = L.forget others := h
    exact ⟨ho.forget, rfl⟩
  | clearCache =>
    obtain rfl : L' = L.forgetAll := h
    exact ⟨ho.forgetAll, rfl⟩
  | embed | storedPaths | listFiles | readFile | hashes =>
    obtain rfl : L' = L := h.1
    exact ⟨ho, rfl⟩
  | _ =>
    obtain rfl : L' = L := h
    exact ⟨ho, rfl⟩

theorem Lasting.step (h : e.Lasting path text D) (proper : e.Proper a)
    (hx : e.DurableStep listed a D x D') : e.Lasting path text D' := by
  obtain ⟨ho, hfiles⟩ := h.orderly.of_rules proper hx.rules
  refine ⟨ho, hfiles ▸ h.file, fun {other hash} hget => ?_⟩
  rcases hx.saved with heq | ⟨heq, -⟩
  · exact ho.cached (heq ▸ hget)
  · exact h.saved (heq ▸ hget)

/-- If a request leaves the hash of a file alone, only this hash may be written. -/
theorem DurableStep.get?_saved (hx : e.DurableStep listed a D x D')
    (hhash : D'.scene.hashes.get? path = D.scene.hashes.get? path) :
    D'.saved.get? path = D.saved.get? path ∨ D'.saved.get? path = D.scene.hashes.get? path := by
  rcases hx.saved with heq | ⟨heq, -⟩
  · exact Or.inr (heq ▸ hhash)
  · exact Or.inl (by rw [heq])

/-- The hash of a text does not come by a request that leaves the hash of the file alone. -/
theorem DurableStep.marked (hx : e.DurableStep listed a D x D')
    (hhash : D'.scene.hashes.get? path = D.scene.hashes.get? path) (h : Marked path text D') :
    Marked path text D := by
  rcases h with hget | hget
  · exact Or.inl (hhash ▸ hget)
  · rcases hx.get?_saved hhash with heq | heq
    · exact Or.inr (heq ▸ hget)
    · exact Or.inl (heq ▸ hget)

/-- Behind a request that takes the hash of the file away it can only be in the cache file, from before. -/
theorem DurableStep.marked_of_none (hx : e.DurableStep listed a D x D')
    (hnone : D'.scene.hashes.get? path = none) (h : Marked path text D') : Marked path text D := by
  rcases h with hget | hget
  · rw [hnone] at hget
    cases hget
  · rcases hx.saved with heq | ⟨heq, -⟩
    · rw [heq, hnone] at hget
      cases hget
    · exact Or.inr (heq ▸ hget)

/-- If a request does nothing to a file, the file stays as it is. -/
theorem DurableStep.still (hx : e.DurableStep listed a D x D') (hs : e.Same path D.scene D'.scene) :
    e.Still path D D' :=
  ⟨hs, hx.get?_saved hs.hash⟩

/-- A request that changes nothing but may have the hashes written. -/
theorem Lasting.idle (h : e.Lasting path text D) (hx : e.DurableStep listed a D x D')
    (hscene : D'.scene = D.scene) : e.Lasting path text D' ∧ e.Still path D D' := by
  refine ⟨⟨hscene ▸ h.orderly, hscene ▸ h.file, fun {other hash} hget => ?_⟩,
    hx.still (hscene ▸ .refl ..)⟩
  rcases hx.saved with heq | ⟨heq, -⟩
  · exact h.orderly.cached (by rwa [heq, hscene] at hget)
  · exact h.saved (heq ▸ hget)

/-! ## Phases -/

theorem Fresh.congr (h : e.Fresh path text L)
    (hmem : ∀ q, q ∈ L'.pointsOf (e.name path) ↔ q ∈ L.pointsOf (e.name path)) :
    e.Fresh path text L' :=
  fun q hq => h q ((hmem q).1 hq)

theorem Shown.congr (h : e.Shown path text L)
    (hmem : ∀ q, q ∈ L'.pointsOf (e.name path) ↔ q ∈ L.pointsOf (e.name path)) :
    e.Shown path text L' := by
  intro hblocks hnil
  refine h hblocks (List.eq_nil_iff_forall_not_mem.2 fun q hq => ?_)
  have hq' := (hmem q).2 hq
  rw [hnil] at hq'
  cases hq'

theorem Resting.secure (h : e.Resting path text D) : e.Secure path text D where
  lasting := h.lasting
  marked _ hmarked := by
    rw [Marked, h.saved, or_self] at hmarked
    exact Or.inr (h.current hmarked)

/-- A request that changes nothing leaves the file secure. -/
theorem Secure.idle (h : e.Secure path text D) (hx : e.DurableStep listed a D x D')
    (hscene : D'.scene = D.scene) : e.Secure path text D' := by
  refine ⟨(h.lasting.idle hx hscene).1, fun hspared hmarked => ?_⟩
  rw [Spared, hscene] at hspared
  rw [hscene]
  exact h.marked hspared (hx.marked (by rw [hscene]) hmarked)

/-- Emptying the cache leaves the file secure, also when the cache file stays as it was. -/
theorem Secure.clearCache (h : e.Secure path text D) {x : Action.clearCache.Answer}
    (hx : e.DurableStep listed .clearCache D x D') : e.Secure path text D' := by
  have hscene : D'.scene = D.scene.forgetAll := hx.rules
  refine ⟨h.lasting.step (a := .clearCache) trivial hx, fun hspared hmarked => ?_⟩
  rw [Spared, hscene] at hspared
  rw [hscene]
  exact h.marked hspared (hx.marked_of_none (by rw [hscene]; rfl) hmarked)

theorem Working.secure (h : e.Working path text D) : e.Secure path text D :=
  ⟨h.lasting, fun hspared hmarked => Or.inr ⟨h.fresh hspared, h.shown hspared hmarked⟩⟩

namespace Still

theorem refl (e : Premises) (path : String) (D : Durable) : e.Still path D D :=
  ⟨.refl .., Or.inl rfl⟩

theorem trans (h : e.Still path D₀ D) (h' : e.Still path D D') : e.Still path D₀ D' := by
  refine ⟨h.same.trans h'.same, ?_⟩
  rcases h'.saved with heq | heq
  · rw [heq]
    exact h.saved
  · exact Or.inr (heq.trans h.same.hash)

/-- The hash of a text does not come to a file to which nothing happens. -/
theorem marked (h : e.Still path D D') (hmarked : Marked path text D') : Marked path text D := by
  rcases hmarked with hget | hget
  · exact Or.inl (h.same.hash ▸ hget)
  · rcases h.saved with heq | heq
    · exact Or.inr (heq ▸ hget)
    · exact Or.inl (heq ▸ hget)

theorem resting (h : e.Still path D D') (hD : e.Resting path text D) (hl : e.Lasting path text D') :
    e.Resting path text D' where
  lasting := hl
  saved := by
    rw [h.same.hash, ← hD.saved]
    exact h.saved.elim id fun heq => heq.trans hD.saved.symm
  current hget := by
    obtain ⟨hfresh, hshown⟩ := hD.current (h.same.hash ▸ hget)
    exact ⟨hfresh.congr h.same.points, hshown.congr h.same.points⟩
  absent hget := by
    refine List.eq_nil_iff_forall_not_mem.2 fun q hq => ?_
    rw [h.same.points, hD.absent (h.same.hash ▸ hget)] at hq
    cases hq

theorem working (h : e.Still path D D') (hD : e.Working path text D) (hl : e.Lasting path text D') :
    e.Working path text D' where
  lasting := hl
  fresh hspared := (hD.fresh fun hin => hspared (h.same.refused.2 hin)).congr h.same.points
  shown hspared hmarked :=
    (hD.shown (fun hin => hspared (h.same.refused.2 hin)) (h.marked hmarked)).congr h.same.points

end Still

theorem Resting.idle_step (h : e.Resting path text D) (hx : e.DurableStep listed a D x D')
    (hscene : D'.scene = D.scene) : e.Resting path text D' := by
  obtain ⟨hl, hstill⟩ := h.lasting.idle hx hscene
  exact hstill.resting h hl

/-- Once a file whose text is not indexed has no points, work on it may begin. -/
theorem Resting.wiped (h : e.Resting path text D)
    (hchanged : D.scene.hashes.get? path ≠ some (contentHash text)) (hl : e.Lasting path text D')
    (hhash : D'.scene.hashes.get? path = D.scene.hashes.get? path)
    (hsaved : D'.saved.get? path = D.saved.get? path ∨ D'.saved.get? path = D.scene.hashes.get? path)
    (hnil : e.Spared path D' → D'.scene.pointsOf (e.name path) = []) : e.Working path text D' := by
  refine ⟨hl, fun hspared q hq => ?_, fun _ hmarked => ?_⟩
  · rw [hnil hspared] at hq
    cases hq
  · have hget : D'.saved.get? path = D.scene.hashes.get? path :=
      hsaved.elim (fun heq => heq.trans h.saved) id
    rw [Marked, hhash, hget, or_self] at hmarked
    exact absurd hmarked hchanged

/-- Of a file that is named all points are deleted, unless this is refused; to others nothing happens. -/
theorem DurableStep.deletePoints (path : String) {names : List String} {x : (Action.deletePoints names).Answer}
    (hx : e.DurableStep listed (.deletePoints names) D x D') :
    D'.scene.hashes = D.scene.hashes ∧ (e.name path ∉ names → e.Still path D D') ∧
      (e.name path ∈ names → e.Spared path D' → D'.scene.pointsOf (e.name path) = []) := by
  rcases hx.rules with ⟨-, hscene⟩ | ⟨-, -, hscene⟩
  · refine ⟨by rw [hscene]; rfl, fun hnot => hx.still (hscene ▸ .deletePoints hnot), fun hin _ => ?_⟩
    rw [hscene, Scene.pointsOf_deletePoints, if_pos hin]
  · refine ⟨by rw [hscene]; rfl, fun hnot => hx.still (hscene ▸ .refuse hnot), fun hin hspared => ?_⟩
    rw [Spared, hscene] at hspared
    exact absurd (List.mem_append_right _ hin) hspared

/-- Deleting points does nothing to a resting file, unless there is a hash of it and it is named. -/
theorem Resting.deletePoints (h : e.Resting path text D) {names : List String}
    {x : (Action.deletePoints names).Answer} (hx : e.DurableStep listed (.deletePoints names) D x D')
    (kept : (D.scene.hashes.get? path).isSome → e.name path ∉ names) : e.Resting path text D' := by
  have hl : e.Lasting path text D' := h.lasting.step (a := .deletePoints names) trivial hx
  obtain ⟨hhashes, still, -⟩ := hx.deletePoints path
  by_cases hin : e.name path ∈ names
  · have hnone : D.scene.hashes.get? path = none := by
      simpa using fun hcached => kept hcached hin
    refine ⟨hl, ?_, fun hget => ?_, fun _ => ?_⟩
    · rw [hhashes]
      exact (hx.get?_saved (by rw [hhashes])).elim (fun heq => heq.trans h.saved) id
    · rw [hhashes, hnone] at hget
      cases hget
    · rcases hx.rules with ⟨-, hscene⟩ | ⟨-, -, hscene⟩
      · rw [hscene, Scene.pointsOf_deletePoints, if_pos hin]
      · rw [hscene]
        exact h.absent hnone
  · exact (still hin).resting h hl

/-- A file in one of its two phases. -/
def Guarded (e : Premises) (path text : String) (D : Durable) : Prop :=
  e.Resting path text D ∨ e.Working path text D

theorem Guarded.secure (h : e.Guarded path text D) : e.Secure path text D :=
  h.elim Resting.secure Working.secure

theorem Guarded.lasting (h : e.Guarded path text D) : e.Lasting path text D :=
  h.secure.lasting

theorem Guarded.still (h : e.Guarded path text D) (hs : e.Still path D D')
    (hl : e.Lasting path text D') : e.Guarded path text D' :=
  h.imp (fun h => hs.resting h hl) fun h => hs.working h hl

theorem Guarded.idle_step (h : e.Guarded path text D) (hx : e.DurableStep listed a D x D')
    (hscene : D'.scene = D.scene) : e.Guarded path text D' := by
  obtain ⟨hl, hstill⟩ := h.lasting.idle hx hscene
  exact h.still hstill hl

/-- A point that is put or that was there leaves its file with a point. -/
theorem pointsOf_upsert_ne_nil (distinct : e.Distinct) (ho : e.Orderly L) {ps : List Point}
    (hps : ∀ q ∈ ps, e.Known q) {r : Point} (hr : r ∈ L.points ∨ r ∈ ps) :
    (L.upsert ps).pointsOf r.payload.filePath ≠ [] := by
  have hknown : e.Known r := hr.elim (ho.known r) (hps r)
  obtain ⟨q, hq, hid⟩ := MemoryStore.exists_id_foldl_put.2
    (hr.imp (fun h => ⟨r, h, rfl⟩) fun h => ⟨r, h, rfl⟩)
  have hfile := apart distinct q r ((ho.upsert hps).known q hq) hknown hid
  exact List.ne_nil_of_mem (MemoryStore.mem_pointsOf.2 ⟨hq, hfile⟩)

/-! ## Batches -/

/-- What a batch with `items` finds: the file has no items, or the text is not indexed yet and the items are
blocks of it, which tell whether there is another hash of the file. -/
inductive Entering (e : Premises) (path text : String) (items : List PendingBlock) (D : Durable) :
    Prop where
  | idle (nil : itemsOf path items = []) (guarded : e.Guarded path text D)
  | busy (ne : itemsOf path items ≠ []) (resting : e.Resting path text D)
      (changed : D.scene.hashes.get? path ≠ some (contentHash text))
      (waits : ∀ item ∈ itemsOf path items, item.block ∈ e.blocks path text ∧
        item.replaces = (D.scene.hashes.get? path).isSome)

/-- What a batch with `items` does to the file: nothing if it has no items; otherwise its items are blocks of
the text and what was there of other texts is gone. -/
inductive Handled (e : Premises) (path text : String) (items : List PendingBlock)
    (D₀ D : Durable) : Prop where
  | idle (nil : itemsOf path items = []) (lasting : e.Lasting path text D)
      (still : e.Still path D₀ D)
  | working (ne : itemsOf path items ≠ [])
      (own : ∀ item ∈ itemsOf path items, item.block ∈ e.blocks path text)
      (working : e.Working path text D)

section
variable {items segment : List PendingBlock} {part : List Point}

theorem Entering.guarded (h : e.Entering path text items D) : e.Guarded path text D := by
  cases h with
  | idle nil guarded => exact guarded
  | busy ne resting changed waits => exact Or.inl resting

theorem Handled.secure (h : e.Handled path text items D₀ D) (h₀ : e.Guarded path text D₀) :
    e.Secure path text D := by
  cases h with
  | idle nil lasting still => exact (h₀.still still lasting).secure
  | working ne own working => exact working.secure

theorem Handled.still (h : e.Handled path text items D₀ D) (hl : e.Lasting path text D')
    (hs : e.Still path D D') : e.Handled path text items D₀ D' := by
  cases h with
  | idle nil lasting still => exact .idle nil hl (still.trans hs)
  | working ne own working => exact .working ne own (hs.working working hl)

theorem Handled.lasting (h : e.Handled path text items D₀ D) : e.Lasting path text D := by
  cases h with
  | idle nil lasting still => exact lasting
  | working ne own working => exact working.lasting

/-- A request that does nothing to the file. -/
theorem Handled.same (h : e.Handled path text items D₀ D) (hx : e.DurableStep listed a D x D')
    (proper : e.Proper a) (hs : e.Same path D.scene D'.scene) :
    e.Handled path text items D₀ D' :=
  h.still (h.lasting.step proper hx) (hx.still hs)

/-- A request that changes nothing. -/
theorem Handled.idle_step (h : e.Handled path text items D₀ D) (hx : e.DurableStep listed a D x D')
    (hscene : D'.scene = D.scene) : e.Handled path text items D₀ D' := by
  obtain ⟨hl, hstill⟩ := h.lasting.idle hx hscene
  exact h.still hl hstill

/-- A request that stores points of items. -/
theorem Handled.upsert (h : e.Handled path text items D₀ D) (distinct : e.Distinct)
    (hpath : e.paths path) (hs : ∀ item ∈ items, e.Pends item)
    (hx : e.DurableStep listed a D x D') (proper : e.Proper a) (hpart : e.PartOf items part)
    (hscene : D'.scene = D.scene.upsert part) : e.Handled path text items D₀ D' := by
  have hname : ∀ item ∈ items, ∀ vector,
      (e.itemPoint item vector).payload.filePath = e.name path → item ∈ itemsOf path items := by
    intro item hitem vector heq
    rw [(hs item hitem).filePath] at heq
    exact List.mem_filter.2
      ⟨hitem, beq_iff_eq.2 (distinct.names (hs item hitem).paths hpath heq)⟩
  cases h with
  | idle nil lasting still =>
    refine .idle nil (lasting.step proper hx) (still.trans (hx.still ?_))
    rw [hscene]
    refine ⟨rfl, fun q => ?_, Iff.rfl⟩
    rw [pointsOf_upsert_of_ne distinct lasting.orderly (hpart.known hs)]
    intro r hr heq
    obtain ⟨item, hitem, vector, rfl⟩ := hpart r hr
    have hown := hname item hitem vector heq
    rw [nil] at hown
    cases hown
  | working ne own working =>
    have hspared : e.Spared path D' → e.Spared path D := fun hkept => by rwa [Spared, hscene] at hkept
    refine .working ne own ⟨working.lasting.step proper hx, fun hkept q hq => ?_,
      fun hkept hmarked hblocks => ?_⟩
    · rw [hscene] at hq
      obtain ⟨hq, heq⟩ := MemoryStore.mem_pointsOf.1 hq
      rcases MemoryStore.mem_or_mem_of_mem_foldl_put hq with hq | hq
      · obtain ⟨item, hitem, vector, rfl⟩ := hpart q hq
        exact ⟨item.block, own item (hname item hitem vector heq), vector, rfl⟩
      · exact working.fresh (hspared hkept) q (MemoryStore.mem_pointsOf.2 ⟨hq, heq⟩)
    · have hmarked : Marked path text D := hx.marked (by rw [hscene]; rfl) hmarked
      obtain ⟨r, hr⟩ := List.exists_mem_of_ne_nil _ (working.shown (hspared hkept) hmarked hblocks)
      obtain ⟨hr, heq⟩ := MemoryStore.mem_pointsOf.1 hr
      rw [hscene, ← heq]
      exact pointsOf_upsert_ne_nil distinct working.lasting.orderly (hpart.known hs) (Or.inl hr)

/-- A request that enters the hash of an item, behind a point of its file. -/
theorem Handled.record (h : e.Handled path text items D₀ D) {item : PendingBlock}
    (hitem : item ∈ items) (hx : e.DurableStep listed a D x D') (proper : e.Proper a)
    (hshown : item.block.filePath = path → D.scene.pointsOf (e.name path) ≠ [])
    (hscene : D'.scene = D.scene.record item.block.filePath item.block.fileHash) :
    e.Handled path text items D₀ D' := by
  by_cases hfile : item.block.filePath = path
  · have hown : item ∈ itemsOf path items := List.mem_filter.2 ⟨hitem, beq_iff_eq.2 hfile⟩
    cases h with
    | idle nil lasting still =>
      rw [nil] at hown
      cases hown
    | working ne own working =>
      refine .working ne own ⟨working.lasting.step proper hx, fun hspared => ?_, fun _ _ _ => ?_⟩
      · rw [Spared, hscene] at hspared
        rw [hscene]
        exact working.fresh hspared
      · rw [hscene]
        exact hshown hfile
  · exact h.same hx proper (hscene ▸ .record (Ne.symm hfile))

/-- The deletion in front of a batch makes way for the points of the text. -/
theorem Entering.handled (h : e.Entering path text items D) (distinct : e.Distinct)
    (hpath : e.paths path) (hs : ∀ item ∈ items, e.Pends item) (hl : e.Lasting path text D')
    (hhash : D'.scene.hashes.get? path = D.scene.hashes.get? path)
    (hsaved : D'.saved.get? path = D.saved.get? path ∨ D'.saved.get? path = D.scene.hashes.get? path)
    (kept : e.name path ∉ e.staleOf items → e.Still path D D')
    (gone : e.name path ∈ e.staleOf items → e.Spared path D' →
      D'.scene.pointsOf (e.name path) = []) :
    e.Handled path text items D D' := by
  have hstale := name_mem_staleOf distinct hs hpath
  cases h with
  | idle nil guarded =>
    refine .idle nil hl (kept fun hin => ?_)
    obtain ⟨item, hitem, -⟩ := hstale.1 hin
    rw [nil] at hitem
    cases hitem
  | busy ne resting changed waits =>
    refine .working ne (fun item hitem => (waits item hitem).1)
      (resting.wiped changed hl hhash hsaved fun hspared => ?_)
    by_cases hin : e.name path ∈ e.staleOf items
    · exact gone hin hspared
    · -- the file has no other hash, and so no points
      obtain ⟨item, hitem⟩ := List.exists_mem_of_ne_nil _ ne
      have hfresh : item.replaces ≠ true := fun hreplaces => hin (hstale.2 ⟨item, hitem, hreplaces⟩)
      rw [(waits item hitem).2] at hfresh
      have hnone : D.scene.hashes.get? path = none := by simpa using hfresh
      exact ((kept hin).resting resting hl).absent (hhash.trans hnone)

/-! ## Runs of a batch -/

section
variable (distinct : e.Distinct) (hpath : e.paths path) (hs : ∀ item ∈ items, e.Pends item)
  (h₀ : e.Guarded path text D₀)
include distinct hpath hs h₀

/-- One try stores points of its items, and all of them if it succeeds. -/
theorem upholds_embedAndUpsert (h : e.Handled path text items D₀ D) (hsub : segment ⊆ items) :
    (Batch.embedAndUpsert (blockStrategy e.root) segment).Upholds (e.durableRules listed)
      (e.Secure path text) D fun x D' => e.Handled path text items D₀ D' ∧
        (x = .ok () → (∃ item ∈ segment, item.block.filePath = path) →
          D'.scene.pointsOf (e.name path) ≠ []) := by
  unfold Batch.embedAndUpsert
  refine .ask_bind (h.secure h₀) fun x D₁ hx => ?_
  have h₁ := h.idle_step hx hx.rules.1
  cases x with
  | error failure => exact .pure (h₁.secure h₀) ⟨h₁, nofun⟩
  | ok embeddings =>
    refine .ite (fun _ => .pure (h₁.secure h₀) ⟨h₁, nofun⟩) fun hlen => ?_
    have hlen : embeddings.vectors.length = segment.length := by simpa using hlen
    have hknown := (partOf_zipWith (e := e) embeddings.vectors).known fun item hitem =>
      hs item (hsub hitem)
    have hall : e.PartOf items (segment.zipWith e.itemPoint embeddings.vectors) := fun q hq =>
      let ⟨item, hitem, hq⟩ := partOf_zipWith embeddings.vectors q hq
      ⟨item, hsub hitem, hq⟩
    refine .ask_bind (h₁.secure h₀) fun y D₂ hy => ?_
    have hproper : e.Proper (.upsert (segment.zipWith e.itemPoint embeddings.vectors)) := hknown
    rcases hy.rules with ⟨rfl, hscene⟩ | ⟨-, ⟨failure, rfl⟩, part, hpart, hscene⟩
    · have h₂ := h₁.upsert distinct hpath hs hy hproper hall hscene
      refine .pure (h₂.secure h₀) ⟨h₂, fun _ ⟨item, hitem, hfile⟩ => ?_⟩
      obtain ⟨vector, hmem⟩ := exists_mem_zipWith hitem hlen
      rw [hscene, ← hfile, ← (hs item (hsub hitem)).filePath vector]
      exact pointsOf_upsert_ne_nil distinct (h₁.secure h₀).lasting.orderly hknown (Or.inr hmem)
    · have h₂ := h₁.upsert distinct hpath hs hy hproper (fun q hq => hall q (hpart hq)) hscene
      exact .pure (h₂.secure h₀) ⟨h₂, nofun⟩

omit distinct hpath in
/-- Hashes are entered behind points of their files. -/
theorem upholds_recordHashes (h : e.Handled path text items D₀ D) (hsub : segment ⊆ items)
    (hshown : (∃ item ∈ segment, item.block.filePath = path) →
      D.scene.pointsOf (e.name path) ≠ []) :
    (Batch.recordHashes (blockStrategy e.root) segment).Upholds (e.durableRules listed)
      (e.Secure path text) D fun _ D' => e.Handled path text items D₀ D' := by
  induction segment generalizing D with
  | nil => exact .pure (h.secure h₀) h
  | cons item segment ih =>
    obtain ⟨hitem, hsub⟩ := List.cons_subset.1 hsub
    refine .ask_bind (h.secure h₀) fun x D₁ hx => ?_
    have hscene : D₁.scene = D.scene.record item.block.filePath item.block.fileHash := hx.rules
    refine ih (h.record hitem hx (hs item hitem).paths
      (fun hfile => hshown ⟨item, List.mem_cons_self, hfile⟩) hscene) hsub fun ⟨other, hother, hfile⟩ => ?_
    rw [hscene]
    exact hshown ⟨other, List.mem_cons_of_mem _ hother, hfile⟩

theorem upholds_runSegment {limits : BatchLimits} (h : e.Handled path text items D₀ D)
    (hsub : segment ⊆ items) :
    (Batch.runSegment (blockStrategy e.root) limits segment).Upholds (e.durableRules listed)
      (e.Secure path text) D fun _ D' => e.Handled path text items D₀ D' := by
  unfold Batch.runSegment
  let post (x : Except IndexError Unit) (D' : Durable) : Prop := e.Handled path text items D₀ D' ∧
    (x = .ok () → (∃ item ∈ segment, item.block.filePath = path) →
      D'.scene.pointsOf (e.name path) ≠ [])
  refine .bind (RetryPolicy.upholds_run (e.Handled path text items D₀) post (fun d D₁ h₁ => ?_)
    (fun D₁ h₁ => ?_) h) fun x D₁ hx => ?_
  · refine .ask (h₁.secure h₀) fun x D₂ hx => ?_
    have h₂ := h₁.idle_step hx hx.rules
    exact ⟨h₂.secure h₀, h₂⟩
  · exact (upholds_embedAndUpsert distinct hpath hs h₀ h₁ hsub).mono
      fun x D₂ _ hx => ⟨hx, fun _ _ => hx.1⟩
  · cases x with
    | error failure => exact .pure (hx.1.secure h₀) hx.1
    | ok _ =>
      refine (upholds_recordHashes hs h₀ hx.1 hsub (hx.2 rfl)).bind fun _ D₂ h₂ => ?_
      exact .pure (h₂.secure h₀) h₂

theorem upholds_runSegments {limits : BatchLimits} {progress : Nat → Nat → Procedure Unit}
    (quiet : ∀ a b D, e.Secure path text D → (progress a b).Upholds (e.durableRules listed)
      (e.Secure path text) D fun _ D' => e.Lasting path text D' ∧ e.Still path D D')
    {segments : List (List PendingBlock)} {r : BatchResult}
    (h : e.Handled path text items D₀ D) (hsub : segments.flatten ⊆ items) :
    (Batch.runSegments (blockStrategy e.root) limits progress r segments).Upholds
      (e.durableRules listed) (e.Secure path text) D
      fun _ D' => e.Handled path text items D₀ D' := by
  induction segments generalizing D r with
  | nil => exact .pure (h.secure h₀) h
  | cons segment segments ih =>
    rw [List.flatten_cons] at hsub
    obtain ⟨hsegment, hrest⟩ := List.append_subset.1 hsub
    refine (upholds_runSegment distinct hpath hs h₀ h hsegment).bind fun r₁ D₁ h₁ => ?_
    refine (quiet _ _ D₁ (h₁.secure h₀)).bind fun _ D₂ ⟨hl, hstill⟩ => ?_
    exact ih (h₁.still hl hstill) hrest

end

variable (distinct : e.Distinct) (hpath : e.paths path) (hs : ∀ item ∈ items, e.Pends item)
include distinct hpath hs

theorem upholds_deleteStale (h : e.Entering path text items D) :
    (Batch.deleteStale (e.staleOf items)).Upholds (e.durableRules listed)
      (e.Secure path text) D fun _ D' => e.Handled path text items D D' := by
  have h₀ := h.guarded
  unfold Batch.deleteStale
  refine .ite (fun hempty => .pure h₀.secure ?_) fun _ => ?_
  · refine h.handled distinct hpath hs h₀.lasting rfl (Or.inl rfl) (fun _ => .refl ..) fun hin _ => ?_
    rw [List.isEmpty_iff.1 hempty] at hin
    cases hin
  · refine .ask_bind h₀.secure fun x D₁ hx => ?_
    obtain ⟨hhashes, kept, gone⟩ := hx.deletePoints path
    have proper : e.Proper (.deletePoints (e.staleOf items)) := trivial
    have h₁ := h.handled distinct hpath hs (h₀.lasting.step proper hx) (by rw [hhashes])
      (hx.get?_saved (by rw [hhashes])) kept gone
    cases x with
    | ok _ => exact .pure (h₁.secure h₀) h₁
    | error failure => exact .pure (h₁.secure h₀) h₁

/-- A batch keeps the file secure in all states that it comes through. -/
theorem upholds_process {limits : BatchLimits} {progress : Nat → Nat → Procedure Unit}
    (quiet : ∀ a b D, e.Secure path text D → (progress a b).Upholds (e.durableRules listed)
      (e.Secure path text) D fun _ D' => e.Lasting path text D' ∧ e.Still path D D')
    (h : e.Entering path text items D) :
    (Batch.process (blockStrategy e.root) limits progress items).Upholds
      (e.durableRules listed) (e.Secure path text) D
      fun _ D' => e.Handled path text items D D' := by
  have h₀ := h.guarded
  unfold Batch.process
  refine .ite (fun hempty => .pure h₀.secure ?_) fun _ => ?_
  · rw [List.isEmpty_iff.1 hempty]
    exact .idle rfl h₀.lasting (.refl ..)
  · refine (upholds_deleteStale distinct hpath hs h).bind fun errors D₁ h₁ => ?_
    refine upholds_runSegments distinct hpath hs h₀ quiet h₁ ?_
    rw [flatten_segmentsOf]
    exact List.Subset.refl _

end

end Premises

end SourceIndex
