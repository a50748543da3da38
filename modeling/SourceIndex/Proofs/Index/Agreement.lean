import SourceIndex.Proofs.Chunk.Drafts
import SourceIndex.Proofs.Index.Scenes
import SourceIndex.Proofs.Point.Key
/-!
# Agreement of the cache and the store

`Premises.Agrees` is what the cache promises: for every path with a hash, the stored points of the
file are those of the blocks of a text with that hash. A scan relies on more, `Premises.InStep`: a
file without a hash has no points at all. `Premises.Orderly` holds of every scene that indexing can
come to, also in the middle of a run.

The lemmas say how each change of a scene acts on these, file by file: what is stored for one file does
not touch what is stored for another (`Premises.apart`).
-/

namespace SourceIndex

namespace Premises

section Definitions
variable (e : Premises)

/-- The workspace-relative name of a file, under which its points are stored. -/
def name (path : String) : String :=
  Path.relativeTo e.root path

/-- The blocks of a file that holds `text`. -/
def blocks (path text : String) : List Block :=
  Chunk.parse e.trees e.policy path text (contentHash text)

/-- The points of the blocks of a file that holds `text`, each with its vector. -/
def points (path text : String) (vectors : List Vector32) : List Point :=
  (e.blocks path text).zipWith (Point.ofBlock e.root) vectors

/-- The identifiers of the points of a file that holds `text`. -/
def ids (path text : String) : List String :=
  (e.blocks path text).map fun block => Digest.nameId Digest.pointNamespace block.key

/-- `text` is what the file at `path` may come to hold. -/
def Version (path text : String) : Prop :=
  e.paths path ∧ e.texts path text

/-- Whether services work on this workspace and cut its files in this way. -/
def Serves (s : Services) : Prop :=
  s.root = e.root ∧ s.trees = e.trees ∧ s.tuning.chunk = e.policy

/-- The name of the point of some block of some version of a file. -/
def IsKey (key : String) : Prop :=
  ∃ path text block, e.Version path text ∧ block ∈ e.blocks path text ∧ key = block.key

/-- Different files have different normalized names, both inside the workspace and as paths, and no two
names of points have the same UUID. -/
structure Distinct : Prop where
  names : ∀ {p q}, e.paths p → e.paths q → e.name p = e.name q → p = q
  normalized : ∀ {p q}, e.paths p → e.paths q → Path.normalize p = Path.normalize q → p = q
  keys : ∀ {k l}, e.IsKey k → e.IsKey l →
    Digest.nameId Digest.pointNamespace k = Digest.nameId Digest.pointNamespace l → k = l

/-- The point of some block of some version of a file. -/
def Known (q : Point) : Prop :=
  ∃ path text block vector, e.Version path text ∧ block ∈ e.blocks path text ∧
    q = Point.ofBlock e.root block vector

/-- The store holds exactly the points of one text with this hash for the file at `path`: what putting
them into an empty store leaves, so that of the points with one identifier the last one counts. -/
def Backed (L : Scene) (path hash : String) : Prop :=
  ∃ text vectors, e.texts path text ∧ contentHash text = hash ∧
    vectors.length = (e.blocks path text).length ∧
    (L.pointsOf (e.name path)).Perm ((e.points path text vectors).foldl MemoryStore.put [])

/-- Every hash in the cache is backed by the store. -/
def Agrees (L : Scene) : Prop :=
  ∀ path hash, L.hashes.get? path = some hash → e.Backed L path hash

/-- What never fails to hold: files hold versions, points are known and told apart by their identifiers,
and only files are in the cache. -/
structure Orderly (L : Scene) : Prop where
  texts : ∀ {path text}, e.paths path → L.files path = some text → e.texts path text
  ids : (L.points.map (·.id)).Nodup
  known : ∀ q ∈ L.points, e.Known q
  cached : ∀ {path hash}, L.hashes.get? path = some hash → e.paths path

/-- A file whose hash is backed, or that has neither hash nor points. -/
structure InStep (L : Scene) (path : String) : Prop where
  backed : ∀ {hash}, L.hashes.get? path = some hash → e.Backed L path hash
  absent : L.hashes.get? path = none → L.pointsOf (e.name path) = []

end Definitions

variable {e : Premises} {L L' : Scene} {path text hash : String} {ps part : List Point}
  {paths : List String} {vectors : List Vector32}

/-! ## Known points -/

theorem Known.ofBlock {block : Block} (version : e.Version path text)
    (hb : block ∈ e.blocks path text) (vector : Vector32) :
    e.Known (Point.ofBlock e.root block vector) :=
  ⟨path, text, block, vector, version, hb, rfl⟩

theorem filePath_of_mem_blocks {block : Block} (hb : block ∈ e.blocks path text) :
    block.filePath = path :=
  Chunk.filePath_of_mem_parse hb

/-- The points of a file are stored under its name. -/
theorem filePath_ofBlock {block : Block} (hb : block ∈ e.blocks path text) (vector : Vector32) :
    (Point.ofBlock e.root block vector).payload.filePath = e.name path := by
  rw [Point.filePath_ofBlock, filePath_of_mem_blocks hb]
  rfl

/-- What comes of two lists taken together comes of an element of the first one. -/
theorem exists_of_mem_zipWith {α β γ : Type} {f : α → β → γ} {xs : List α} {ys : List β} {z : γ}
    (h : z ∈ xs.zipWith f ys) : ∃ x ∈ xs, ∃ y, z = f x y := by
  rw [← List.map_uncurry_zip_eq_zipWith] at h
  obtain ⟨⟨x, y⟩, hmem, rfl⟩ := List.mem_map.1 h
  exact ⟨x, (List.of_mem_zip hmem).1, y, rfl⟩

/-- The points of a file's text have the identifiers of its blocks. -/
theorem map_id_points {vectors : List Vector32} (h : vectors.length = (e.blocks path text).length) :
    (e.points path text vectors).map (·.id) = e.ids path text := by
  unfold points ids
  generalize e.blocks path text = blocks at h
  induction blocks generalizing vectors with
  | nil => simp
  | cons block blocks ih =>
    cases vectors with
    | nil => cases h
    | cons vector vectors =>
      rw [List.zipWith_cons_cons, List.map_cons, List.map_cons, ih (Nat.succ.inj h)]
      rfl

/-- Points of different files have different identifiers. -/
theorem apart (distinct : e.Distinct) : MemoryStore.Apart e.Known := by
  rintro _ _ ⟨p, text, b, v, hv, hb, rfl⟩ ⟨p', text', b', v', hv', hb', rfl⟩ hid
  rw [Point.id_ofBlock, Point.id_ofBlock] at hid
  have hkey : b.key = b'.key := distinct.keys ⟨p, text, b, hv, hb, rfl⟩ ⟨p', text', b', hv', hb', rfl⟩ hid
  obtain ⟨hnorm, -⟩ := pointKey_inj hkey
  rw [filePath_of_mem_blocks hb, filePath_of_mem_blocks hb'] at hnorm
  rw [filePath_ofBlock hb, filePath_ofBlock hb', distinct.normalized hv.1 hv'.1 hnorm]

/-! ## Orderly scenes -/

namespace Orderly

theorem upsert (h : e.Orderly L) (hps : ∀ q ∈ ps, e.Known q) : e.Orderly (L.upsert ps) where
  texts := h.texts
  ids := MemoryStore.nodup_foldl_put h.ids
  known q hq := (MemoryStore.mem_or_mem_of_mem_foldl_put hq).elim (hps q) (h.known q)
  cached := h.cached

theorem deletePoints (h : e.Orderly L) : e.Orderly (L.deletePoints paths) where
  texts := h.texts
  ids := h.ids.sublist (List.Sublist.map _ List.filter_sublist)
  known q hq := h.known q (List.mem_of_mem_filter hq)
  cached := h.cached

theorem refuse (h : e.Orderly L) : e.Orderly (L.refuse paths) :=
  ⟨h.texts, h.ids, h.known, h.cached⟩

theorem clearPoints (h : e.Orderly L) : e.Orderly L.clearPoints :=
  ⟨h.texts, List.nodup_nil, nofun, h.cached⟩

theorem record (h : e.Orderly L) (hpath : e.paths path) : e.Orderly (L.record path hash) where
  texts := h.texts
  ids := h.ids
  known := h.known
  cached {p} _ hp := by
    rw [Scene.get?_record] at hp
    split at hp
    · rename_i heq
      exact heq ▸ hpath
    · exact h.cached hp

theorem forget (h : e.Orderly L) : e.Orderly (L.forget paths) where
  texts := h.texts
  ids := h.ids
  known := h.known
  cached {p} _ hp := by
    rw [Scene.get?_forget] at hp
    split at hp
    · cases hp
    · exact h.cached hp

theorem forgetAll (h : e.Orderly L) : e.Orderly L.forgetAll :=
  ⟨h.texts, h.ids, h.known, nofun⟩

end Orderly

/-! ## What changes of a scene leave of one file -/

/-- Points that are stored for other files leave those of a file as they were. -/
theorem pointsOf_upsert_of_ne (distinct : e.Distinct) (h : e.Orderly L) {file : String}
    (hps : ∀ q ∈ ps, e.Known q) (hne : ∀ q ∈ ps, q.payload.filePath ≠ file) :
    (L.upsert ps).pointsOf file = L.pointsOf file :=
  MemoryStore.pointsOf_foldl_put_of_ne (apart distinct) h.known hps hne

/-- Points that are stored after a part of them was stored leave of each file what storing them at once
leaves. -/
theorem mem_pointsOf_upsert_upsert (distinct : e.Distinct) (h : e.Orderly L) {file : String} {q : Point}
    (hps : ∀ q ∈ ps, e.Known q) (covered : ∀ r ∈ part, ∃ p ∈ ps, p.id = r.id) :
    q ∈ ((L.upsert part).upsert ps).pointsOf file ↔
      q ∈ (MemoryStore.pointsOf file ps).foldl MemoryStore.put (L.pointsOf file) :=
  MemoryStore.mem_pointsOf_landed (apart distinct) h.known hps covered

/-- A file whose stored points are those of one of its versions backs the hash of that version. -/
theorem Backed.of_mem (h : e.Orderly L) (htext : e.texts path text)
    (hlen : vectors.length = (e.blocks path text).length)
    (hmem : ∀ q, q ∈ L.pointsOf (e.name path) ↔
      q ∈ (e.points path text vectors).foldl MemoryStore.put []) :
    e.Backed L path (contentHash text) :=
  ⟨text, vectors, htext, rfl, hlen,
    MemoryStore.perm_of_mem_iff (MemoryStore.nodup_pointsOf h.ids)
      (MemoryStore.nodup_foldl_put List.nodup_nil) hmem⟩

/-- What backs a hash depends on the points of its file only. -/
theorem Backed.congr (h : e.Backed L path hash) (ho : e.Orderly L) (ho' : e.Orderly L')
    (hmem : ∀ q, q ∈ L'.pointsOf (e.name path) ↔ q ∈ L.pointsOf (e.name path)) :
    e.Backed L' path hash := by
  obtain ⟨text, vectors, htext, hhash, hlen, hperm⟩ := h
  refine ⟨text, vectors, htext, hhash, hlen, ?_⟩
  exact (MemoryStore.perm_of_mem_iff (MemoryStore.nodup_pointsOf ho'.ids)
    (MemoryStore.nodup_pointsOf ho.ids) hmem).trans hperm

/-- A file stays in step as long as neither its hash nor its points change. -/
theorem InStep.congr (h : e.InStep L path) (ho : e.Orderly L) (ho' : e.Orderly L')
    (hget : L'.hashes.get? path = L.hashes.get? path)
    (hmem : ∀ q, q ∈ L'.pointsOf (e.name path) ↔ q ∈ L.pointsOf (e.name path)) :
    e.InStep L' path where
  backed hp := (h.backed (hget ▸ hp)).congr ho ho' hmem
  absent hp := by
    rw [List.eq_nil_iff_forall_not_mem]
    intro q hq
    rw [hmem, h.absent (hget ▸ hp)] at hq
    cases hq

/-- A file is in step once its points are those of a version whose hash is in the cache. -/
theorem InStep.of_mem (h : e.Orderly L) (hget : L.hashes.get? path = some (contentHash text))
    (htext : e.texts path text) (hlen : vectors.length = (e.blocks path text).length)
    (hmem : ∀ q, q ∈ L.pointsOf (e.name path) ↔
      q ∈ (e.points path text vectors).foldl MemoryStore.put []) : e.InStep L path where
  backed hp := by
    rw [hget, Option.some_inj] at hp
    exact hp ▸ Backed.of_mem h htext hlen hmem
  absent hp := by
    rw [hget] at hp
    cases hp

/-- A file is in step if only the points of a version whose hash is in the cache are stored. -/
theorem InStep.of_points (h : e.Orderly L) (hget : L.hashes.get? path = some (contentHash text))
    (htext : e.texts path text) (hlen : vectors.length = (e.blocks path text).length)
    (hpoints : L.points = e.points path text vectors) : e.InStep L path := by
  refine .of_mem h hget htext hlen fun q => ?_
  rw [MemoryStore.mem_foldl_put_nil (hpoints ▸ h.ids), Scene.pointsOf, MemoryStore.mem_pointsOf,
    hpoints]
  refine and_iff_left_of_imp fun hq => ?_
  obtain ⟨block, hblock, vector, rfl⟩ := exists_of_mem_zipWith hq
  exact filePath_ofBlock hblock vector

end Premises

end SourceIndex
