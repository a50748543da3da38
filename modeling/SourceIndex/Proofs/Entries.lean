/-!
# Entries by key

The cache's hashes, the members of an object and the entries of a directory are lists of values by key,
and a value is put into each of them in the same way: in the place of the key's value, or behind the
others. What a look-up answers afterwards (`get?_put`, `get?_erase`) and that no key gets a second entry
(`nodup_put`, `nodup_erase`) is shown here for all of them.
-/

namespace SourceIndex.Entries

variable {α : Type} {entries more : List (String × α)} {entry : String × α} {key q : String} {value : α}

/-- The value of a key: that of its first entry. -/
def get? (entries : List (String × α)) (key : String) : Option α :=
  (entries.find? (·.1 == key)).map (·.2)

/-- Put a value under a key, in the place of an earlier one. -/
def put (entries : List (String × α)) (key : String) (value : α) : List (String × α) :=
  if entries.any (·.1 == key) then entries.map fun e => if e.1 == key then (key, value) else e
  else entries ++ [(key, value)]

/-- Take a key's entries out. -/
def erase (entries : List (String × α)) (key : String) : List (String × α) :=
  entries.filter (·.1 != key)

/-! ## Look-ups -/

@[simp] theorem get?_nil : get? ([] : List (String × α)) q = none := rfl

theorem get?_cons : get? (entry :: entries) q = if entry.1 = q then some entry.2 else get? entries q := by
  unfold get?
  rw [List.find?_cons]
  by_cases h : entry.1 = q
  · rw [if_pos h, h, beq_self_eq_true]
    rfl
  · rw [if_neg h, beq_false_of_ne h]

theorem get?_append : get? (entries ++ more) q = (get? entries q).or (get? more q) := by
  induction entries with
  | nil => rfl
  | cons entry entries ih =>
    rw [List.cons_append, get?_cons, get?_cons, ih]
    split
    · rfl
    · rfl

/-- A key is found if and only if it is among the keys of the entries. -/
theorem isSome_get?_iff : (get? entries q).isSome ↔ q ∈ entries.map (·.1) := by
  simp [get?, List.find?_isSome]

/-- Overwriting the entries of a key changes the answer for that key, if it had one, and no other. -/
theorem get?_map_replace :
    get? (entries.map fun e => if e.1 == key then (key, value) else e) q =
      if q = key then (get? entries q).map fun _ => value else get? entries q := by
  induction entries with
  | nil => simp
  | cons entry entries ih =>
    rw [List.map_cons, get?_cons, get?_cons, ih]
    by_cases he : entry.1 = key
    · by_cases hq : key = q
      · simp [he, hq]
      · simp [he, hq, Ne.symm hq]
    · by_cases hq : entry.1 = q
      · have : q ≠ key := hq ▸ he
        simp [hq, this]
      · simp [he, hq]

/-- After a value was put in, its key has it, and every other key has what it had. -/
theorem get?_put : get? (put entries key value) q = if q = key then some value else get? entries q := by
  unfold put
  split
  · rename_i hany
    rw [get?_map_replace]
    have hsome : (get? entries key).isSome := by
      rw [isSome_get?_iff]
      simpa using hany
    obtain ⟨old, hold⟩ := Option.isSome_iff_exists.1 hsome
    split
    · rename_i hq
      rw [hq, hold]
      rfl
    · rfl
  · rename_i hany
    have hnone : get? entries key = none := by
      rw [← Option.not_isSome_iff_eq_none, isSome_get?_iff]
      simpa using hany
    rw [get?_append, get?_cons]
    by_cases hq : key = q
    · subst hq
      simp [hnone]
    · simp [hq, Ne.symm hq]

/-- After a key was taken out it has no value, and every other key has what it had. -/
theorem get?_erase : get? (erase entries key) q = if q = key then none else get? entries q := by
  induction entries with
  | nil => simp [erase]
  | cons entry entries ih =>
    unfold erase at ih ⊢
    rw [List.filter_cons]
    by_cases he : entry.1 = key
    · rw [if_neg (by simp [he]), ih, get?_cons, he]
      by_cases hq : q = key
      · simp [hq]
      · simp [hq, Ne.symm hq]
    · rw [if_pos (by simp [he]), get?_cons, get?_cons, ih]
      by_cases hq : entry.1 = q
      · have : q ≠ key := hq ▸ he
        simp [hq, this]
      · simp [hq]

/-! ## Keys -/

/-- Putting a value in keeps every key to one entry. -/
theorem nodup_put (h : (entries.map (·.1)).Nodup) : ((put entries key value).map (·.1)).Nodup := by
  unfold put
  split
  · have hkeys : (entries.map fun e => if e.1 == key then (key, value) else e).map (·.1) =
        entries.map (·.1) := by
      rw [List.map_map]
      refine List.map_congr_left fun e _ => ?_
      by_cases he : e.1 = key <;> simp [he]
    exact hkeys ▸ h
  · rename_i hnone
    rw [List.map_append, List.map_singleton]
    refine List.nodup_append.2 ⟨h, List.pairwise_singleton _ _, ?_⟩
    rintro k hk _ hkey rfl
    obtain ⟨e, he, rfl⟩ := List.mem_map.1 hk
    exact hnone (List.any_eq_true.2 ⟨e, he, beq_iff_eq.2 (List.mem_singleton.1 hkey)⟩)

/-- Taking a key out keeps every other key to one entry. -/
theorem nodup_erase (h : (entries.map (·.1)).Nodup) : ((erase entries key).map (·.1)).Nodup :=
  h.sublist (List.filter_sublist.map _)

/-- If every key has one entry, a key has the value that stands beside it. -/
theorem get?_eq_some_iff (h : (entries.map (·.1)).Nodup) :
    get? entries key = some value ↔ (key, value) ∈ entries := by
  induction entries with
  | nil => simp
  | cons entry entries ih =>
    obtain ⟨hnew, hrest⟩ := List.nodup_cons.1 h
    rw [get?_cons, List.mem_cons]
    by_cases hkey : entry.1 = key
    · subst hkey
      rw [if_pos rfl]
      constructor
      · rintro ⟨⟩
        exact .inl rfl
      · rintro (heq | hmem)
        · rw [← heq]
        · exact absurd (List.mem_map_of_mem hmem) hnew
    · rw [if_neg hkey, ih hrest]
      refine ⟨.inr, fun hmem => hmem.resolve_left ?_⟩
      rintro rfl
      exact hkey rfl

end SourceIndex.Entries
