import Mathlib.Data.List.Nodup
import SourceIndex.Index.Search
import SourceIndex.Proofs.Entries
import SourceIndex.Proofs.Path.Levels
import SourceIndex.Proofs.Point.Key
import SourceIndex.Store.Collection
/-!
# Searching below a directory

A filter is read as the database reads it: its fields are ways into the stored payload, with a dot between the
steps (`PointFilter.accepts`). The levels of a path stand in a payload under their numbers
(`wordAt?_segmentField`), so the filter of a directory accepts exactly the points of the files below it
(`PointFilter.accepts_ofLevels?_iff`). `Search.levels` are the levels of a given directory below the root of
the workspace, and all that the filter depends on (`Search.filterOf?_eq`). `Search.selects_subtree` puts this
together. An absolute directory that is not inside of the root has no such levels; its names are taken for them
(`Search.filterOf?_of_outside`), and the search is made below the directory of the workspace that has the same
names (`Search.selects_namesake`).
-/

namespace SourceIndex

/-! ## Filters -/

/-- The text that a payload holds in a field. The field names the way to it, with a dot between the steps. -/
def Json.wordAt? (payload : Json) (field : String) : Option String :=
  let value? := (field.toList.splitOn '.').foldlM (fun (j : Json) key => j.get? (String.ofList key)) payload
  value?.bind Json.asStr?

namespace PointFilter

/-- Whether a payload holds the word of a condition in the field of the condition. -/
def holds (payload : Json) (condition : String × String) : Bool :=
  payload.wordAt? condition.1 == some condition.2

/-- Whether a filter lets a point with a payload through. -/
def accepts (filter : PointFilter) (payload : Json) : Bool :=
  filter.must.all (holds payload) &&
    (filter.should.isEmpty || filter.should.any (holds payload)) &&
    !filter.mustNot.any (holds payload)

/-- The filter that asks for some levels; none if there are none. -/
def ofLevels? : List String → Option PointFilter
  | [] => none
  | levels => some { must := levels.zipIdx.map fun (level, i) => (segmentField i, level) }

variable {levels others : List String} {file : String} {p : Payload} {i : Nat}

theorem ofDirectory?_eq (directory : String) :
    ofDirectory? directory = ofLevels? (Path.names directory.toList) := by
  rw [ofDirectory?, Path.segments_eq]
  rfl

theorem ofLevels?_eq_none_iff : ofLevels? levels = none ↔ levels = [] := by
  cases levels with
  | nil => simp [ofLevels?]
  | cons level levels => simp [ofLevels?]

/-- From a filter its levels can be read back. -/
theorem ofLevels?_inj : ofLevels? levels = ofLevels? others ↔ levels = others := by
  refine ⟨fun h => ?_, congrArg ofLevels?⟩
  have hlevels : ∀ levels, ((ofLevels? levels).elim [] (·.must)).map (·.2) = levels := by
    intro levels
    cases levels with
    | nil => rfl
    | cons level levels =>
      change (((level :: levels).zipIdx.map fun x => (segmentField x.2, x.1)).map (·.2)) = _
      rw [List.map_map]
      exact List.zipIdx_map_fst 0 _
  rw [← hlevels levels, h, hlevels others]

/-! ## The levels in a payload -/

/-- Different numbers are written differently. -/
theorem toString_injective : Function.Injective (toString : Nat → String) := fun m n h =>
  toDigits_inj (by simpa using congrArg String.toList h)

/-- Each level has a number of its own. -/
theorem nodup_numbers (levels : List String) :
    ((levels.zipIdx.map fun (level, i) => (toString i, level)).map (·.1)).Nodup := by
  have hnumbers : (levels.zipIdx.map fun (level, i) => (toString i, level)).map (·.1) =
      (List.range levels.length).map toString := by
    rw [List.range_eq_range', ← List.zipIdx_map_snd 0 levels, List.map_map, List.map_map]
    rfl
  rw [hnumbers]
  exact (List.nodup_map_iff toString_injective).2 List.nodup_range

/-- The levels of a path stand under their numbers. -/
theorem get?_pathSegments (file : String) (i : Nat) :
    Entries.get? (pathSegments file) (toString i) = (Path.names file.toList)[i]? := by
  have hperm : (pathSegments file).Perm
      ((Path.names file.toList).zipIdx.map fun (level, i) => (toString i, level)) := by
    rw [pathSegments, Path.segments_eq]
    exact List.mergeSort_perm _ _
  have hkeys : ((pathSegments file).map (·.1)).Nodup := (hperm.map _).nodup_iff.2 (nodup_numbers _)
  ext level
  rw [Entries.get?_eq_some_iff hkeys, hperm.mem_iff, List.mem_map]
  constructor
  · rintro ⟨⟨other, n⟩, hmem, heq⟩
    obtain ⟨hn, rfl⟩ := Prod.mk.inj heq
    rw [← toString_injective hn]
    exact List.mk_mem_zipIdx_iff_getElem?.1 hmem
  · intro hlevel
    exact ⟨(level, i), List.mk_mem_zipIdx_iff_getElem?.2 hlevel, rfl⟩

theorem wordAt?_segmentField (hp : p.pathSegments = pathSegments file) (i : Nat) :
    p.toJson.wordAt? (segmentField i) = (Path.names file.toList)[i]? := by
  have hway : (segmentField i).toList.splitOn '.' = ["pathSegments".toList, (toString i).toList] := by
    have hfield : (segmentField i).toList = "pathSegments".toList ++ '.' :: (toString i).toList := by
      rw [segmentField, String.toList_append]
      rfl
    have hdot : '.' ∉ (toString i).toList := by
      simpa using not_mem_toDigits (by decide) i
    rw [hfield, List.splitOn_append_cons_self, List.splitOn_eq_singleton hdot]
    rfl
  have hlevels : p.toJson.get? "pathSegments" =
      some (.obj ((pathSegments file).map fun entry => (entry.1, .str entry.2))) := by
    rw [← hp]
    rfl
  have hlevel : (Json.obj ((pathSegments file).map fun entry => (entry.1, .str entry.2))).get? (toString i) =
      (Entries.get? (pathSegments file) (toString i)).map .str := by
    rw [Json.get?, List.find?_map, Entries.get?, Option.map_map, Option.map_map]
    rfl
  rw [Json.wordAt?, hway]
  simp only [List.foldlM_cons, List.foldlM_nil, String.ofList_toList, hlevels, Option.bind_eq_bind,
    Option.bind_some, hlevel, get?_pathSegments]
  cases (Path.names file.toList)[i]? <;> rfl

/-- The filter of a directory accepts exactly the points of the files below it. -/
theorem accepts_ofLevels?_iff (hp : p.pathSegments = pathSegments file) :
    (ofLevels? levels).all (·.accepts p.toJson) = true ↔ levels <+: Path.names file.toList := by
  have hall : (ofLevels? levels).all (·.accepts p.toJson) =
      levels.zipIdx.all fun x => p.toJson.wordAt? (segmentField x.2) == some x.1 := by
    cases levels with
    | nil => rfl
    | cons level levels => simp [ofLevels?, accepts, holds, Function.comp_def]
  rw [hall, List.all_eq_true, List.prefix_iff_getElem?]
  constructor
  · intro h i hi
    have hi := h (levels[i], i) (List.mk_mem_zipIdx_iff_getElem?.2 (List.getElem?_eq_getElem hi))
    rwa [wordAt?_segmentField hp, beq_iff_eq] at hi
  · rintro h ⟨level, i⟩ hmem
    obtain ⟨hi, hlevel⟩ := List.getElem?_eq_some_iff.1 (List.mk_mem_zipIdx_iff_getElem?.1 hmem)
    rw [wordAt?_segmentField hp, h i hi, hlevel, beq_self_eq_true]

end PointFilter

/-! ## Directories as they are given -/

namespace Search

variable {root given : String} {s : List Char}

/-- The levels of a given directory below the root of the workspace. -/
def levels (root given : String) : List String :=
  if Path.isAbsolute given then
    ((Path.components given).drop (Path.components root).length).flatMap Path.Component.levels
  else Path.segments given

/-- The filter that a search below a given directory is made with. -/
def filterOf? (root given : String) : Option PointFilter :=
  (directoryOf? root given).bind PointFilter.ofDirectory?

theorem names_dropDots (s : List Char) : Path.names (dropDots s) = Path.names s := by
  induction s using dropDots.induct with
  | case1 rest ih =>
    rw [dropDots, ih, ← List.singleton_append, Path.names_append rfl, Path.names_dot, List.nil_append]
  | case2 s hdot => rw [dropDots.eq_2 s hdot]

/-- What is trimmed off a given directory holds no names, so the filter asks for the names that it has relative
to the root. -/
theorem filterOf?_eq_names : filterOf? root given = PointFilter.ofLevels? (Path.names
    (if Path.isAbsolute given then Path.relativeTo root given else Path.normalize given).toList) := by
  obtain ⟨relative, hrelative⟩ : ∃ relative, relative =
      if Path.isAbsolute given then Path.relativeTo root given else Path.normalize given := ⟨_, rfl⟩
  obtain ⟨trimmed, htrimmed⟩ : ∃ trimmed,
      trimmed = String.ofList (Text.trimWhile (· == '/') (dropDots relative.toList)) := ⟨_, rfl⟩
  have hnames : Path.names trimmed.toList = Path.names relative.toList := by
    rw [htrimmed, String.toList_ofList, Path.names_trimSlashes, names_dropDots]
  have hfilter : filterOf? root given =
      (if trimmed.isEmpty || trimmed == "." then none else some trimmed).bind PointFilter.ofDirectory? := by
    rw [htrimmed, hrelative]
    rfl
  rw [hfilter, ← hrelative, ← hnames]
  split_ifs with hplain
  · rw [Bool.or_eq_true, String.isEmpty_iff, beq_iff_eq] at hplain
    rcases hplain with rfl | rfl <;> rfl
  · exact PointFilter.ofDirectory?_eq trimmed

/-- A directory inside of the root enters into the filter by its levels only. -/
theorem filterOf?_eq
    (hinside : Path.isAbsolute given = true → Path.components root <+: Path.components given) :
    filterOf? root given = PointFilter.ofLevels? (levels root given) := by
  rw [filterOf?_eq_names, levels]
  split_ifs with habsolute
  · rw [Path.names_relativeTo habsolute (hinside habsolute)]
  · rw [Path.names_normalize, Path.segments_eq]

/-- A directory that is not inside of the root enters into the filter by all its names, as if they were
levels below the root. -/
theorem filterOf?_of_outside (habsolute : Path.isAbsolute given = true)
    (houtside : ¬ Path.components root <+: Path.components given) :
    filterOf? root given = PointFilter.ofLevels? (Path.segments given) := by
  rw [filterOf?_eq_names, if_pos habsolute, Path.names_relativeTo_of_outside houtside, Path.segments_eq]

/-- A directory that is joined to the root has the same levels as before. -/
theorem levels_join (hroot : Path.isAbsolute root = true) (hgiven : Path.isAbsolute given = false) :
    levels root (Path.join root given) = levels root given := by
  have hne : root ≠ "" := by
    rintro rfl
    cases hroot
  rw [levels, if_pos (Path.isAbsolute_join hroot), Path.components_join hne hgiven, List.drop_left,
    List.flatMap_map, levels, if_neg (by simp [hgiven]), Path.segments_eq, Path.names_eq_flatMap]

end Search

/-- A search below a directory inside of the root is sent with a filter that accepts the files whose path
begins with the levels of the directory, and no others. No filter is sent if there are no levels. Only the
levels count: however a directory is spelled, and whether or not the root stands in front, the filter is
the same. -/
theorem Search.selects_subtree {root given : String}
    (hinside : Path.isAbsolute given = true → Path.components root <+: Path.components given) :
    (∀ vector minScore limit, Collection.nearest vector (directoryOf? root given) minScore limit = do
      let found : List ScoredPoint ← Collection.call (.search vector limit minScore (filterOf? root given))
      return found.filterMap Collection.hitOf?) ∧
    (∀ (file : String) (p : Payload), p.pathSegments = pathSegments file →
      ((filterOf? root given).all (·.accepts p.toJson) = true ↔
        levels root given <+: Path.segments file)) ∧
    (filterOf? root given = none ↔ levels root given = []) ∧
    (∀ other, (Path.isAbsolute other = true → Path.components root <+: Path.components other) →
      (filterOf? root other = filterOf? root given ↔ levels root other = levels root given)) ∧
    (Path.isAbsolute root = true → Path.isAbsolute given = false →
      filterOf? root (Path.join root given) = filterOf? root given) := by
  refine ⟨fun _ _ _ => rfl, fun file p hp => ?_, ?_, fun other hother => ?_, fun hroot hgiven => ?_⟩
  · rw [filterOf?_eq hinside, Path.segments_eq]
    exact PointFilter.accepts_ofLevels?_iff hp
  · rw [filterOf?_eq hinside]
    exact PointFilter.ofLevels?_eq_none_iff
  · rw [filterOf?_eq hinside, filterOf?_eq hother]
    exact PointFilter.ofLevels?_inj
  · have hne : root ≠ "" := by
      rintro rfl
      cases hroot
    have hjoined : Path.components root <+: Path.components (Path.join root given) := by
      rw [Path.components_join hne hgiven]
      exact List.prefix_append _ _
    rw [filterOf?_eq hinside, filterOf?_eq fun _ => hjoined, levels_join hroot hgiven]

/-- Steps in place and repeated slashes make no difference, and a name has to agree as a whole. -/
theorem Search.selects_subtree_app :
    let payload (file : String) : Payload :=
      { filePath := file, codeChunk := "", startLine := 1, endLine := 1, chunkSource := none
        blockType := none, identifier := none, parentChain := [], hierarchyDisplay := none
        pathSegments := pathSegments file }
    let given := "/ws/./src//app/"
    (Path.components "/ws" <+: Path.components given) ∧
    (filterOf? "/ws" given).all (·.accepts (payload "src/app/main.rs").toJson) = true ∧
    (filterOf? "/ws" given).all (·.accepts (payload "src/apple.rs").toJson) = false ∧
    filterOf? "/ws" "src\\app" = filterOf? "/ws" given := by
  intro payload given
  have hinside : Path.components "/ws" <+: Path.components given := by decide +kernel
  obtain ⟨-, haccepts, -, hsame, -⟩ := @selects_subtree "/ws" given fun _ => hinside
  refine ⟨hinside, ?_, ?_, ?_⟩
  · exact (haccepts _ _ rfl).2 (by decide +kernel)
  · rw [Bool.eq_false_iff, ne_eq, haccepts _ _ rfl]
    decide +kernel
  · exact (hsame _ fun h => absurd h (by decide)).2 (by decide +kernel)

/-- A search below an absolute directory that is not inside of the root is sent with the filter of the directory
below the root that has the same names: it accepts the files whose path begins with all the names of the given
directory, and no others. No filter is sent if the directory has no names, as one that is called by backslashes
only. -/
theorem Search.selects_namesake {root given : String} (habsolute : Path.isAbsolute given = true)
    (houtside : ¬ Path.components root <+: Path.components given) :
    (∀ vector minScore limit, Collection.nearest vector (directoryOf? root given) minScore limit = do
      let found : List ScoredPoint ← Collection.call (.search vector limit minScore (filterOf? root given))
      return found.filterMap Collection.hitOf?) ∧
    (∀ (file : String) (p : Payload), p.pathSegments = pathSegments file →
      ((filterOf? root given).all (·.accepts p.toJson) = true ↔
        Path.segments given <+: Path.segments file)) ∧
    (filterOf? root given = none ↔ Path.segments given = []) ∧
    (∀ below, Path.isAbsolute below = false →
      (filterOf? root given = filterOf? root below ↔ Path.segments given = Path.segments below)) := by
  refine ⟨fun _ _ _ => rfl, fun file p hp => ?_, ?_, fun below hbelow => ?_⟩
  · rw [filterOf?_of_outside habsolute houtside, Path.segments_eq file]
    exact PointFilter.accepts_ofLevels?_iff hp
  · rw [filterOf?_of_outside habsolute houtside]
    exact PointFilter.ofLevels?_eq_none_iff
  · rw [filterOf?_of_outside habsolute houtside, filterOf?_eq fun h => absurd h (by simp [hbelow]), levels,
      if_neg (by simp [hbelow])]
    exact PointFilter.ofLevels?_inj

/-- A directory beside the workspace lets files of the workspace through. -/
theorem Search.selects_namesake_src :
    let payload : Payload :=
      { filePath := "src/main.rs", codeChunk := "", startLine := 1, endLine := 1, chunkSource := none
        blockType := none, identifier := none, parentChain := [], hierarchyDisplay := none
        pathSegments := pathSegments "src/main.rs" }
    Path.isAbsolute "/src" = true ∧ ¬ Path.components "/ws" <+: Path.components "/src" ∧
    (filterOf? "/ws" "/src").all (·.accepts payload.toJson) = true ∧
    filterOf? "/ws" "/src" = filterOf? "/ws" "src" := by
  intro payload
  have habsolute : Path.isAbsolute "/src" = true := by decide +kernel
  have houtside : ¬ Path.components "/ws" <+: Path.components "/src" := by decide +kernel
  obtain ⟨-, haccepts, -, hsame⟩ := selects_namesake habsolute houtside
  exact ⟨habsolute, houtside, (haccepts _ _ rfl).2 (by decide +kernel), (hsame "src" rfl).2 (by decide +kernel)⟩

/-- What lies elsewhere is not told apart: the directory is neither the root nor inside of it nor above it, and
a file of the workspace is accepted all the same; and a directory called by a backslash restricts nothing. -/
theorem Search.accepts_beside_root :
    let payload : Payload :=
      { filePath := "src/main.rs", codeChunk := "", startLine := 1, endLine := 1, chunkSource := none
        blockType := none, identifier := none, parentChain := [], hierarchyDisplay := none
        pathSegments := pathSegments "src/main.rs" }
    (∀ given ∈ ["/src", "/\\"], Path.isAbsolute given = true ∧
      ¬ Path.components "/ws" <+: Path.components given ∧ ¬ Path.components given <+: Path.components "/ws") ∧
    (filterOf? "/ws" "/src").all (·.accepts payload.toJson) = true ∧
    filterOf? "/ws" "/\\" = none := by
  intro payload
  have helsewhere : ∀ given ∈ ["/src", "/\\"], Path.isAbsolute given = true ∧
      ¬ Path.components "/ws" <+: Path.components given ∧
      ¬ Path.components given <+: Path.components "/ws" := by decide +kernel
  have hfilter {given : String} (hgiven : given ∈ ["/src", "/\\"]) :
      filterOf? "/ws" given = PointFilter.ofLevels? (Path.segments given) :=
    filterOf?_of_outside (helsewhere given hgiven).1 (helsewhere given hgiven).2.1
  refine ⟨helsewhere, ?_, ?_⟩
  · rw [hfilter (by simp), PointFilter.accepts_ofLevels?_iff rfl]
    decide +kernel
  · rw [hfilter (by simp), PointFilter.ofLevels?_eq_none_iff]
    decide +kernel

end SourceIndex
