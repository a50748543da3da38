import Mathlib.Algebra.Order.BigOperators.Group.List
import Mathlib.Algebra.Order.Group.Nat
import SourceIndex.Proofs.Chunk.Positions
import SourceIndex.Proofs.Index.Histories
/-!
# How many points a first scan leaves

A scan of a new index in which nothing fails leaves, for each file it took, one point for each position
among the blocks of the file (`Swept.length_pointsOf`). There are as many points as blocks were found
exactly if no two visited nodes of a file give blocks at one position (`length_points_eq_total_iff`);
otherwise some blocks replace others in the store.
-/

namespace SourceIndex.Premises

variable {e : Premises} {s : Services} {mode : ScanMode} {L L' : Scene} {path text : String}
  {result : ScanResult}

/-- Two blocks of a file share an identifier if and only if they share a position. -/
theorem nameId_eq_iff (distinct : e.Distinct) (version : e.Version path text) {b b' : Block}
    (hb : b ∈ e.blocks path text) (hb' : b' ∈ e.blocks path text) :
    Digest.nameId Digest.pointNamespace b.key = Digest.nameId Digest.pointNamespace b'.key ↔
      b.position = b'.position := by
  have hpath : b.filePath = b'.filePath :=
    (filePath_of_mem_blocks hb).trans (filePath_of_mem_blocks hb').symm
  constructor
  · intro hid
    have hkey : b.key = b'.key := distinct.keys ⟨_, _, b, version, hb, rfl⟩ ⟨_, _, b', version, hb', rfl⟩ hid
    obtain ⟨-, hstart, hend, hoffset⟩ := pointKey_inj hkey
    rw [Block.position, Block.position, hstart, hend, hoffset]
  · intro hposition
    obtain ⟨hstart, hend, hoffset⟩ : b.startLine = b'.startLine ∧ b.endLine = b'.endLine ∧
        b.lineOffset = b'.lineOffset := by simpa [Block.position] using hposition
    rw [Block.key, Block.key, hpath, hstart, hend, hoffset]

/-- The identifiers of a file's points are distinct if and only if no two of its nodes share a
position. -/
theorem nodup_ids_iff (distinct : e.Distinct) (version : e.Version path text) :
    (e.ids path text).Nodup ↔ Chunk.Unshared e.trees e.policy path text (contentHash text) := by
  have hnodup : (e.blocks path text).Nodup := Chunk.nodup_parse
  rw [← Chunk.nodup_position_iff, ids, List.nodup_map_iff_inj_on hnodup]
  refine Iff.trans ?_ (List.nodup_map_iff_inj_on hnodup).symm
  refine forall₂_congr fun b hb => forall₂_congr fun b' hb' => ?_
  rw [nameId_eq_iff distinct version hb hb']

/-- There are as many different identifiers as blocks if and only if the identifiers are distinct. -/
theorem length_dedup_ids_eq_iff :
    (e.ids path text).dedup.length = (e.blocks path text).length ↔ (e.ids path text).Nodup := by
  have hlen : (e.ids path text).length = (e.blocks path text).length := List.length_map _
  rw [← hlen, ← List.dedup_eq_self]
  exact ⟨(List.dedup_sublist _).eq_of_length, congrArg List.length⟩

/-! ## What a first scan leaves of one file -/

/-- A first scan in which nothing fails kept the file or stored it. -/
theorem Swept.scanned_of_reliable (h : e.Swept L L') (reliable : ∀ a, ¬e.fails a)
    (hashes : L.hashes = []) (hpath : e.paths path) : e.Scanned path L L' := by
  refine (h.scanned hpath).resolve_left ?_
  rintro ⟨-, ⟨a, hfails⟩ | hcached⟩
  · exact reliable a hfails
  · rw [hashes] at hcached
    cases hcached

/-- A file that a first scan did not store has no points. -/
theorem Swept.pointsOf_eq_nil (h : e.Swept L L') (reliable : ∀ a, ¬e.fails a)
    (hashes : L.hashes = []) (points : L.points = []) (hpath : e.paths path)
    (hnone : L'.hashes.get? path = none) : L'.pointsOf (e.name path) = [] := by
  cases h.scanned_of_reliable reliable hashes hpath with
  | kept hash hpoints =>
    rw [List.eq_nil_iff_forall_not_mem]
    intro q hq
    rw [hpoints, Scene.pointsOf, points] at hq
    cases hq
  | stored file changed hash length beneath hpoints =>
    rw [hnone] at hash
    cases hash

/-- A file that a first scan stored has one point for each identifier of its blocks. -/
theorem Swept.length_pointsOf (h : e.Swept L L') (reliable : ∀ a, ¬e.fails a)
    (hashes : L.hashes = []) (points : L.points = []) (hpath : e.paths path)
    (file : L.files path = some text) (hget : L'.hashes.get? path = some (contentHash text)) :
    (L'.pointsOf (e.name path)).length = (e.ids path text).dedup.length := by
  cases h.scanned_of_reliable reliable hashes hpath with
  | kept hash hpoints =>
    rw [hget, hashes] at hash
    cases hash
  | @stored text' vectors base file' changed hash length beneath hpoints =>
    rw [file, Option.some_inj] at file'
    subst file'
    have hbase : base = [] := by
      cases beneath with
      | deleted cached refused => rfl
      | unknown uncached refused => rw [Scene.pointsOf, points]; rfl
      | refused cached refused fails =>
        rw [hashes] at cached
        cases cached
    subst hbase
    have hperm := MemoryStore.perm_of_mem_iff (MemoryStore.nodup_pointsOf h.orderly.ids)
      (@MemoryStore.nodup_foldl_put [] _ List.nodup_nil) hpoints
    have hlength := hperm.length_eq
    rw [MemoryStore.length_foldl_put_nil, map_id_points length] at hlength
    exact hlength

/-! ## What it leaves of all files -/

/-- Sums of numbers, each at most its counterpart, are equal if and only if the numbers are. -/
theorem sum_map_eq_iff_of_le {α : Type} {xs : List α} {f g : α → Nat} (h : ∀ x ∈ xs, f x ≤ g x) :
    (xs.map f).sum = (xs.map g).sum ↔ ∀ x ∈ xs, f x = g x := by
  induction xs with
  | nil => simp
  | cons x xs ih =>
    have hx := h x List.mem_cons_self
    have hxs : ∀ y ∈ xs, f y ≤ g y := fun y hy => h y (List.mem_cons_of_mem x hy)
    have hsum : (xs.map f).sum ≤ (xs.map g).sum := List.sum_le_sum hxs
    rw [List.map_cons, List.map_cons, List.sum_cons, List.sum_cons, List.forall_mem_cons, ← ih hxs]
    omega

/-- The stored points are those of the files that were taken. -/
theorem Tallied.length_points {taken : List (String × String)} {seen : List String} {found : Nat}
    (ht : e.Tallied L taken seen found [] L') (h : e.Swept L L') (distinct : e.Distinct)
    (reliable : ∀ a, ¬e.fails a) (hashes : L.hashes = []) (points : L.points = []) :
    L'.points.length = (taken.map fun v => (e.ids v.1 v.2).dedup.length).sum := by
  have hnone : ∀ {path}, e.paths path → path ∉ taken.map (·.1) → L'.hashes.get? path = none := by
    intro path hpath hnot
    refine (ht.others hpath hnot).elim (fun heq => ?_) id
    rw [heq, hashes]
    rfl
  have hnames : ((taken.map (·.1)).map e.name).Nodup := by
    refine ht.nodup.map_on fun p hp q hq heq => ?_
    obtain ⟨v, hv, rfl⟩ := List.mem_map.1 hp
    obtain ⟨w, hw, rfl⟩ := List.mem_map.1 hq
    exact distinct.names (ht.looked v hv).1 (ht.looked w hw).1 heq
  have hcovered : ∀ q ∈ L'.points, q.payload.filePath ∈ (taken.map (·.1)).map e.name := by
    intro q hq
    obtain ⟨path, text, block, vector, version, hb, rfl⟩ := h.orderly.known q hq
    rw [filePath_ofBlock hb]
    refine List.mem_map_of_mem (Classical.byContradiction fun hnot => ?_)
    have hempty := h.pointsOf_eq_nil reliable hashes points version.1 (hnone version.1 hnot)
    have hmem : Point.ofBlock e.root block vector ∈ L'.pointsOf (e.name path) :=
      MemoryStore.mem_pointsOf.2 ⟨hq, filePath_ofBlock hb vector⟩
    rw [hempty] at hmem
    cases hmem
  rw [MemoryStore.length_eq_sum_pointsOf hnames hcovered, List.map_map, List.map_map]
  refine congrArg List.sum (List.map_congr_left fun v hv => ?_)
  obtain ⟨hpath, -, hfile⟩ := ht.looked v hv
  have hget := (ht.entered v hv rfl).resolve_left fun ⟨a, hfails⟩ => reliable a hfails
  exact h.length_pointsOf reliable hashes points hpath hfile hget

/-- The blocks of a file have different positions if and only if no two visited nodes of it share one; and
a first scan in which nothing fails leaves as many points as it found blocks if and only if this is so for
every file that it stored. -/
theorem length_points_eq_total_iff (distinct : e.Distinct) (serves : e.Serves s)
    (quiet : e.Quiet mode) (indexes : mode.indexes = true) (reliable : ∀ a, ¬e.fails a)
    {files : String → Option String}
    (versions : ∀ {path text}, e.paths path → files path = some text → e.texts path text)
    (run : Program.Ends e.rules (scan s mode) { files } result L') :
    (∀ path text fileHash,
      ((Chunk.parse e.trees e.policy path text fileHash).map Block.position).Nodup ↔
        Chunk.Unshared e.trees e.policy path text fileHash) ∧
    (L'.points.length = result.total ↔ ∀ path text, files path = some text →
      L'.hashes.get? path = some (contentHash text) →
        Chunk.Unshared e.trees e.policy path text (contentHash text)) := by
  have ho : e.Orderly { files } := ⟨versions, List.nodup_nil, nofun, nofun⟩
  refine ⟨fun path text fileHash => Chunk.nodup_position_iff, ?_⟩
  obtain ⟨hswept, taken, seen, ht⟩ := ensures_scan distinct serves quiet indexes ho _ _ run
  have hle : ∀ v ∈ taken, (e.ids v.1 v.2).dedup.length ≤ (e.blocks v.1 v.2).length := by
    intro v _
    have hids : (e.ids v.1 v.2).length = (e.blocks v.1 v.2).length := List.length_map _
    exact hids ▸ (List.dedup_sublist _).length_le
  rw [ht.length_points hswept distinct reliable rfl rfl, ht.found, sum_map_eq_iff_of_le hle]
  constructor
  · intro h path text file hget
    have hpath := hswept.orderly.cached hget
    have htaken : path ∈ taken.map (·.1) := by
      refine Classical.byContradiction fun hnot => ?_
      rcases ht.others hpath hnot with hnone | hnone
      · rw [hget] at hnone
        cases hnone
      · rw [hget] at hnone
        cases hnone
    obtain ⟨v, hv, rfl⟩ := List.mem_map.1 htaken
    have hfile := (ht.looked v hv).2.2
    rw [show ({ files } : Scene).files v.1 = files v.1 from rfl, file, Option.some_inj] at hfile
    subst hfile
    exact (nodup_ids_iff distinct ⟨hpath, versions hpath file⟩).1 (length_dedup_ids_eq_iff.1 (h v hv))
  · intro h v hv
    obtain ⟨hpath, -, hfile⟩ := ht.looked v hv
    have hget := (ht.entered v hv rfl).resolve_left fun ⟨a, hfails⟩ => reliable a hfails
    refine length_dedup_ids_eq_iff.2 ?_
    exact (nodup_ids_iff distinct ⟨hpath, versions hpath hfile⟩).2 (h _ _ hfile hget)

/-! ### A first scan of two files -/

/-- The small workspace when nothing fails. -/
def calm : Premises :=
  { small with fails := fun _ => False }

theorem calm_distinct : calm.Distinct :=
  ⟨small_distinct.names, small_distinct.normalized, small_distinct.keys⟩

/-- A first scan of the small workspace finds two blocks and leaves two points. -/
theorem length_points_eq_total_iff_calm : ∃ result L',
    Program.Ends calm.rules (scan smallServices { tell := Lifecycle.showScan })
        { files := fun path => some (smallText path) } result L' ∧
      result.total = 2 ∧ L'.points.length = 2 ∧
      (L'.points.length = result.total ↔ ∀ path text, some (smallText path) = some text →
        L'.hashes.get? path = some (contentHash text) →
          Chunk.Unshared calm.trees calm.policy path text (contentHash text)) := by
  have hrun := @ends_respond calm _ ["/w/a.rs", "/w/b.rs"] (fun _ => false) (by decide)
    (fun _ h => h) nofun (scan smallServices { tell := Lifecycle.showScan })
    { files := fun path => some (smallText path) }
  refine ⟨_, _, hrun, by decide +kernel, by decide +kernel, ?_⟩
  exact (length_points_eq_total_iff calm_distinct ⟨rfl, rfl, rfl⟩ quiet_showScan rfl (fun _ h => h)
    (fun _ h => (Option.some_inj.1 h).symm) hrun).2

end SourceIndex.Premises
