import SourceIndex.Cache
import SourceIndex.Proofs.Entries
/-!
# What the cache answers

Entering and taking out hashes, as seen through `Hashes.get?`: `get?_put`, `get?_erase` and
`get?_foldl_erase` say what every later look-up answers, `isSome_get?_iff` which paths have an entry.
No path gets a second entry (`nodup_put`, `nodup_foldl_erase`).
-/

namespace SourceIndex.Hashes

variable {hashes : Hashes} {path hash q : String} {paths : List String}

@[simp] theorem get?_nil : get? [] q = none := rfl

/-- A path is found if and only if it is among the paths of the entries. -/
theorem isSome_get?_iff : (hashes.get? q).isSome ↔ q ∈ hashes.map (·.1) := Entries.isSome_get?_iff

/-- After a hash was entered, its path has it, and every other path has what it had. -/
theorem get?_put : (hashes.put path hash).get? q = if q = path then some hash else hashes.get? q :=
  Entries.get?_put

/-- After a path was taken out it has no hash, and every other path has what it had. -/
theorem get?_erase : (hashes.erase path).get? q = if q = path then none else hashes.get? q :=
  Entries.get?_erase

/-- After paths were taken out none of them has a hash, and every other path has what it had. -/
theorem get?_foldl_erase :
    (paths.foldl erase hashes).get? q = if q ∈ paths then none else hashes.get? q := by
  induction paths generalizing hashes with
  | nil => simp
  | cons path paths ih =>
    rw [List.foldl_cons, ih, get?_erase]
    by_cases hq : q = path
    · simp [hq]
    · simp [hq]

theorem nodup_put (h : (hashes.map (·.1)).Nodup) : ((hashes.put path hash).map (·.1)).Nodup :=
  Entries.nodup_put h

theorem nodup_foldl_erase (h : (hashes.map (·.1)).Nodup) :
    ((paths.foldl erase hashes).map (·.1)).Nodup := by
  induction paths generalizing hashes with
  | nil => exact h
  | cons path paths ih => exact ih (Entries.nodup_erase h)

end SourceIndex.Hashes
