import Mathlib.Algebra.GroupWithZero.Nat
import Mathlib.Data.List.Dedup
import Mathlib.Data.List.Nodup
import Mathlib.Data.List.Perm.Basic
import SourceIndex.Store.Memory
/-!
# What a store holds after points were put into it

Of the points put under one identifier the last one stays: `mem_foldl_put`. Putting a part of some points
first changes nothing (`mem_foldl_put_foldl_put`), so that a call that is tried again after it got half
through leaves what one call leaves.

`pointsOf` are the points of one file. As long as points of different files have different identifiers,
the points of one file do not depend on those of the others (`pointsOf_foldl_put`).
-/

namespace SourceIndex.MemoryStore

variable {points base ps part : List Point} {p q : Point} {file : String}

/-- After a point was put it is there, together with the points that have another identifier. -/
theorem mem_put : q ∈ put points p ↔ q = p ∨ q ∈ points ∧ q.id ≠ p.id := by
  unfold put
  split
  · rename_i hany
    simp only [List.mem_map]
    constructor
    · rintro ⟨r, hr, rfl⟩
      split
      · exact Or.inl rfl
      · rename_i hne
        exact Or.inr ⟨hr, by simpa using hne⟩
    · rintro (rfl | ⟨hq, hne⟩)
      · obtain ⟨r, hr, hid⟩ := List.any_eq_true.1 hany
        exact ⟨r, hr, if_pos hid⟩
      · exact ⟨q, hq, if_neg (by simpa using hne)⟩
  · rename_i hany
    have hne : ∀ r ∈ points, r.id ≠ p.id := by simpa using hany
    rw [List.mem_append, List.mem_singleton]
    constructor
    · rintro (hq | rfl)
      · exact Or.inr ⟨hq, hne q hq⟩
      · exact Or.inl rfl
    · rintro (rfl | ⟨hq, -⟩)
      · exact Or.inr rfl
      · exact Or.inl hq

/-- Identifiers stay distinct when a point is put. -/
theorem nodup_put (h : (points.map (·.id)).Nodup) : ((put points p).map (·.id)).Nodup := by
  unfold put
  split
  · have hids : (points.map fun q => if q.id == p.id then p else q).map (·.id) =
        points.map (·.id) := by
      rw [List.map_map]
      refine List.map_congr_left fun q _ => ?_
      by_cases hq : q.id = p.id
      · simp [hq]
      · simp [hq]
    rw [hids]
    exact h
  · rename_i hany
    rw [List.map_append, List.nodup_append]
    refine ⟨h, List.nodup_singleton _, ?_⟩
    simpa using hany

theorem nodup_foldl_put (h : (base.map (·.id)).Nodup) :
    ((ps.foldl put base).map (·.id)).Nodup := by
  induction ps generalizing base with
  | nil => exact h
  | cons p ps ih => exact ih (nodup_put h)

/-- What is there after points were put was put or was there before. -/
theorem mem_or_mem_of_mem_foldl_put (h : q ∈ ps.foldl put base) : q ∈ ps ∨ q ∈ base := by
  induction ps generalizing base with
  | nil => exact Or.inr h
  | cons p ps ih =>
    rcases ih h with hq | hq
    · exact Or.inl (List.mem_cons_of_mem _ hq)
    · rcases mem_put.1 hq with rfl | ⟨hq, -⟩
      · exact Or.inl List.mem_cons_self
      · exact Or.inr hq

/-- After points were put, the last one under each identifier is there, and of those before them what has
none of their identifiers. -/
theorem mem_foldl_put :
    q ∈ ps.foldl put base ↔ q ∈ ps.foldl put [] ∨ q ∈ base ∧ ∀ p ∈ ps, q.id ≠ p.id := by
  induction ps generalizing base with
  | nil => simp
  | cons p ps ih =>
    rw [List.foldl_cons, List.foldl_cons, ih, @ih (put [] p), mem_put, mem_put]
    simp only [List.not_mem_nil, false_and, or_false, List.forall_mem_cons]
    tauto

/-- An empty store gets exactly the points that are put, if no two of them share an identifier. -/
theorem mem_foldl_put_nil (nodup : (ps.map (·.id)).Nodup) : q ∈ ps.foldl put [] ↔ q ∈ ps := by
  induction ps with
  | nil => rfl
  | cons p ps ih =>
    rw [List.map_cons, List.nodup_cons] at nodup
    have hp : ∀ r ∈ ps, p.id ≠ r.id := fun r hr h => nodup.1 (h ▸ List.mem_map_of_mem hr)
    rw [List.foldl_cons, mem_foldl_put, ih nodup.2, mem_put, List.mem_cons, or_comm]
    simp only [List.not_mem_nil, false_and, or_false]
    refine or_congr_left ⟨And.left, ?_⟩
    rintro rfl
    exact ⟨rfl, hp⟩

/-- What points put later leave does not depend on the order of those before them. -/
theorem mem_foldl_put_congr {base' : List Point} (h : ∀ q, q ∈ base ↔ q ∈ base') :
    q ∈ ps.foldl put base ↔ q ∈ ps.foldl put base' := by
  rw [mem_foldl_put, @mem_foldl_put base', h]

/-- Points that are put under identifiers which are written again leave no trace. -/
theorem mem_foldl_put_foldl_put (h : ∀ r ∈ part, ∃ p ∈ ps, p.id = r.id) :
    q ∈ ps.foldl put (part.foldl put base) ↔ q ∈ ps.foldl put base := by
  rw [mem_foldl_put, @mem_foldl_put base ps q]
  refine or_congr_right ⟨?_, ?_⟩
  · rintro ⟨hq, hne⟩
    refine ⟨?_, hne⟩
    rcases mem_or_mem_of_mem_foldl_put hq with hq | hq
    · obtain ⟨p, hp, hid⟩ := h q hq
      exact absurd hid.symm (hne p hp)
    · exact hq
  · rintro ⟨hq, hne⟩
    refine ⟨mem_foldl_put.2 (Or.inr ⟨hq, fun r hr hid => ?_⟩), hne⟩
    obtain ⟨p, hp, hpr⟩ := h r hr
    exact hne p hp (hid.trans hpr.symm)

/-- Stores with the same points differ at most in their order. -/
theorem perm_of_mem_iff {points' : List Point} (h : (points.map (·.id)).Nodup)
    (h' : (points'.map (·.id)).Nodup) (hmem : ∀ q, q ∈ points ↔ q ∈ points') :
    points.Perm points' :=
  (List.perm_ext_iff_of_nodup h.of_map h'.of_map).2 hmem

/-! ## The points of one file -/

/-- The points of one file, by its workspace-relative name. -/
def pointsOf (file : String) (points : List Point) : List Point :=
  points.filter fun p => p.payload.filePath == file

theorem mem_pointsOf : q ∈ pointsOf file points ↔ q ∈ points ∧ q.payload.filePath = file := by
  simp [pointsOf]

theorem pointsOf_append {more : List Point} :
    pointsOf file (points ++ more) = pointsOf file points ++ pointsOf file more :=
  List.filter_append ..

theorem pointsOf_eq_nil (h : ∀ q ∈ points, q.payload.filePath ≠ file) :
    pointsOf file points = [] := by
  simpa [pointsOf] using h

theorem nodup_pointsOf (h : (points.map (·.id)).Nodup) :
    ((pointsOf file points).map (·.id)).Nodup :=
  h.sublist (List.Sublist.map _ List.filter_sublist)

/-- Deleting the points of files leaves the points of the others. -/
theorem pointsOf_deletePaths {paths : List String} :
    pointsOf file (points.filter fun p => !paths.contains p.payload.filePath) =
      if file ∈ paths then [] else pointsOf file points := by
  unfold pointsOf
  rw [List.filter_filter]
  split
  · rename_i hf
    rw [List.filter_eq_nil_iff]
    rintro q - h
    simp only [Bool.and_eq_true, beq_iff_eq, Bool.not_eq_true', List.contains_eq_mem,
      decide_eq_false_iff_not] at h
    exact h.2 (h.1 ▸ hf)
  · rename_i hf
    refine List.filter_congr fun q _ => ?_
    by_cases hq : q.payload.filePath = file
    · simp [hq, hf]
    · simp [hq]

variable {known : Point → Prop}

/-- Of points that satisfy `known`, those with one identifier belong to one file. -/
def Apart (known : Point → Prop) : Prop :=
  ∀ p q, known p → known q → p.id = q.id → p.payload.filePath = q.payload.filePath

/-- A point put into a store changes the points of its own file only. -/
theorem pointsOf_put (apart : Apart known) (hpoints : ∀ q ∈ points, known q) (hp : known p) :
    pointsOf file (put points p) =
      if p.payload.filePath = file then put (pointsOf file points) p else pointsOf file points := by
  have same : ∀ q ∈ points, q.id = p.id → q.payload.filePath = p.payload.filePath :=
    fun q hq hid => apart q p (hpoints q hq) hp hid
  have kept : (points.map fun q => if q.id == p.id then p else q).filter
        (fun q => q.payload.filePath == file) =
      (pointsOf file points).map fun q => if q.id == p.id then p else q := by
    rw [List.filter_map, pointsOf]
    congr 1
    refine List.filter_congr fun q hq => ?_
    by_cases hid : q.id = p.id
    · simp [hid, same q hq hid]
    · simp [hid]
  by_cases hany : points.any fun q => q.id == p.id
  · rw [put, if_pos hany]
    obtain ⟨r, hr, hid⟩ := List.any_eq_true.1 hany
    have hid : r.id = p.id := by simpa using hid
    split
    · rename_i hf
      have hr' : (pointsOf file points).any fun q => q.id == p.id :=
        List.any_eq_true.2 ⟨r, mem_pointsOf.2 ⟨hr, (same r hr hid).trans hf⟩, by simpa using hid⟩
      rw [put, if_pos hr']
      exact kept
    · rename_i hf
      refine kept.trans ?_
      rw [List.map_congr_left (g := id), List.map_id]
      intro q hq
      obtain ⟨hq, hqf⟩ := mem_pointsOf.1 hq
      have hne : q.id ≠ p.id := fun h => hf ((same q hq h).symm.trans hqf)
      simp [hne]
  · rw [put, if_neg hany, pointsOf_append]
    have hone : pointsOf file [p] = if p.payload.filePath = file then [p] else [] := by
      simp [pointsOf, List.filter_cons]
    rw [hone]
    split
    · have hany' : ¬(pointsOf file points).any fun q => q.id == p.id := by
        intro h
        obtain ⟨r, hr, hid⟩ := List.any_eq_true.1 h
        exact hany (List.any_eq_true.2 ⟨r, (mem_pointsOf.1 hr).1, hid⟩)
      rw [put, if_neg hany']
    · rw [List.append_nil]

/-- What a store holds of one file after points were put depends on that file's points alone. -/
theorem pointsOf_foldl_put (apart : Apart known) (hbase : ∀ q ∈ base, known q)
    (hps : ∀ p ∈ ps, known p) :
    pointsOf file (ps.foldl put base) = (pointsOf file ps).foldl put (pointsOf file base) := by
  induction ps generalizing base with
  | nil => rfl
  | cons p ps ih =>
    have hp : known p := hps p List.mem_cons_self
    have hput : ∀ q ∈ put base p, known q := by
      intro q hq
      rcases mem_put.1 hq with rfl | ⟨hq, -⟩
      · exact hp
      · exact hbase q hq
    rw [List.foldl_cons, ih hput fun q hq => hps q (List.mem_cons_of_mem _ hq),
      pointsOf_put apart hbase hp]
    unfold pointsOf
    rw [List.filter_cons]
    by_cases hf : p.payload.filePath = file
    · rw [if_pos hf, if_pos (by simpa using hf), List.foldl_cons]
    · rw [if_neg hf, if_neg (by simpa using hf)]

/-- Points of other files that are put leave the points of a file as they were. -/
theorem pointsOf_foldl_put_of_ne (apart : Apart known) (hbase : ∀ q ∈ base, known q)
    (hps : ∀ p ∈ ps, known p) (hne : ∀ p ∈ ps, p.payload.filePath ≠ file) :
    pointsOf file (ps.foldl put base) = pointsOf file base := by
  rw [pointsOf_foldl_put apart hbase hps, pointsOf_eq_nil hne, List.foldl_nil]

/-- A call that at first got only part of its points through leaves of each file what it would have left
at once. -/
theorem mem_pointsOf_landed (apart : Apart known) (hbase : ∀ q ∈ base, known q)
    (hps : ∀ p ∈ ps, known p) (covered : ∀ r ∈ part, ∃ p ∈ ps, p.id = r.id) :
    q ∈ pointsOf file (ps.foldl put (part.foldl put base)) ↔
      q ∈ (pointsOf file ps).foldl put (pointsOf file base) := by
  rw [← pointsOf_foldl_put apart hbase hps, mem_pointsOf, mem_pointsOf,
    mem_foldl_put_foldl_put covered]

/-! ## Numbers of points -/

/-- Putting points adds their identifiers and removes none. -/
theorem exists_id_foldl_put {id : String} :
    (∃ q ∈ ps.foldl put base, q.id = id) ↔ (∃ q ∈ base, q.id = id) ∨ ∃ q ∈ ps, q.id = id := by
  induction ps generalizing base with
  | nil => simp
  | cons p ps ih =>
    have hput : (∃ q ∈ put base p, q.id = id) ↔ (∃ q ∈ base, q.id = id) ∨ p.id = id := by
      simp only [mem_put]
      constructor
      · rintro ⟨q, rfl | ⟨hq, -⟩, hid⟩
        · exact Or.inr hid
        · exact Or.inl ⟨q, hq, hid⟩
      · rintro (⟨q, hq, hid⟩ | hid)
        · by_cases heq : q.id = p.id
          · exact ⟨p, Or.inl rfl, heq ▸ hid⟩
          · exact ⟨q, Or.inr ⟨hq, heq⟩, hid⟩
        · exact ⟨p, Or.inl rfl, hid⟩
    rw [List.foldl_cons, ih, hput]
    simp only [List.mem_cons, exists_eq_or_imp, or_assoc]

/-- An empty store has one point for each identifier of the points that are put into it. -/
theorem length_foldl_put_nil : (ps.foldl put []).length = (ps.map (·.id)).dedup.length := by
  have hmem : ∀ id, id ∈ (ps.foldl put []).map (·.id) ↔ id ∈ (ps.map (·.id)).dedup := by
    intro id
    rw [List.mem_dedup, List.mem_map, List.mem_map, exists_id_foldl_put]
    exact or_iff_right (by simp)
  have hperm := (List.perm_ext_iff_of_nodup (@nodup_foldl_put [] ps List.nodup_nil)
    (List.nodup_dedup (ps.map (·.id)))).2 hmem
  rw [← hperm.length_eq, List.length_map]

/-- The points of a store are those of the files that it has points of. -/
theorem length_eq_sum_pointsOf {files : List String} (nodup : files.Nodup)
    (covered : ∀ q ∈ points, q.payload.filePath ∈ files) :
    points.length = (files.map fun file => (pointsOf file points).length).sum := by
  induction files generalizing points with
  | nil => simp [List.eq_nil_iff_forall_not_mem.2 fun q hq => List.not_mem_nil (covered q hq)]
  | cons file files ih =>
    obtain ⟨hnew, hfiles⟩ := List.nodup_cons.1 nodup
    let others := points.filter fun q => !(q.payload.filePath == file)
    have hothers : ∀ other ∈ files, pointsOf other others = pointsOf other points := by
      intro other hother
      have hne : other ≠ file := fun heq => hnew (heq ▸ hother)
      unfold pointsOf
      rw [List.filter_filter]
      refine List.filter_congr fun q _ => ?_
      by_cases heq : q.payload.filePath = other
      · simp [heq, hne]
      · simp [heq]
    have hrest : others.length = (files.map fun other => (pointsOf other points).length).sum := by
      rw [ih hfiles fun q hq => ?_]
      · exact congrArg List.sum (List.map_congr_left fun other h => by rw [hothers other h])
      · obtain ⟨hq, hne⟩ := List.mem_filter.1 hq
        exact (List.mem_cons.1 (covered q hq)).resolve_left (by simpa using hne)
    rw [List.map_cons, List.sum_cons, ← hrest]
    exact List.length_eq_length_filter_add _

end SourceIndex.MemoryStore
