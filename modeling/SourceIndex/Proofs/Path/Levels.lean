import Mathlib.Tactic.SplitIfs
import SourceIndex.Proofs.Path.Names
/-!
# The levels that a path goes through

`names` are the directory levels written in a text: what stands between slashes and backslashes, without
empty pieces and steps in place. They are the segments of a path (`segments_eq`), and nothing that is done to
the spelling of a path changes them: writing slashes for backslashes (`names_normalize`), and trimming at the
front and at the back (`names_trimFront`, `names_trimBack`, `names_trimSlashes`). The names of a path inside of
a root, once the root is taken away, are those of the components that are left (`names_relativeTo`); a path that
is not inside of it keeps all of its names (`names_relativeTo_of_outside`).
-/

namespace SourceIndex.Path

/-- A slash or a backslash. -/
def isSeparator (c : Char) : Bool :=
  c == '/' || c == '\\'

/-- A piece between separators as a name, if it is one. -/
def level? (piece : List Char) : Option String :=
  if piece.isEmpty || piece == ['.'] then none else some (String.ofList piece)

/-- The names that are written in a text. -/
def names (s : List Char) : List String :=
  (s.splitOnP isSeparator).filterMap level?

/-- The names that a component of a path stands for; a backslash separates names too. -/
def Component.levels : Component → List String
  | .root => []
  | .current => []
  | .parent => [".."]
  | .name text => names text.toList

variable {s t : List Char} {c : Char} {root path : String}

/-! ## Separators -/

/-- Cutting at backslashes and then at slashes is cutting at both. -/
theorem flatMap_splitOn (s : List Char) :
    (s.splitOn '\\').flatMap (List.splitOn '/') = s.splitOnP isSeparator := by
  induction s with
  | nil => rfl
  | cons c s ih =>
    obtain ⟨first, rest, hsplit⟩ := List.exists_cons_of_ne_nil (List.splitOn_ne_nil '\\' s)
    rw [hsplit, List.flatMap_cons] at ih
    rw [List.splitOn_cons_eq_if_modifyHead, List.splitOnP_cons_eq_if_modifyHead, ← ih, hsplit]
    by_cases hback : c = '\\'
    · subst hback
      rfl
    · obtain ⟨piece, pieces, hfirst⟩ := List.exists_cons_of_ne_nil (List.splitOn_ne_nil '/' first)
      have hsame : isSeparator c = (c == '/') := by simp [isSeparator, hback]
      rw [if_neg (by simpa using hback), List.modifyHead_cons, List.flatMap_cons,
        List.splitOn_cons_eq_if_modifyHead, hfirst, hsame]
      split_ifs <;> rfl

/-- The segments of a path are the names written in it. -/
theorem segments_eq (path : String) : segments path = names path.toList := by
  rw [segments, flatMap_splitOn]
  rfl

@[simp] theorem names_nil : names [] = [] := rfl

@[simp] theorem names_dot : names ['.'] = [] := rfl

/-- A separator parts the names in front of it from those behind it. -/
theorem names_append (hc : isSeparator c = true) (s t : List Char) :
    names (s ++ c :: t) = names s ++ names t := by
  rw [names, List.splitOnP_append_cons s t hc, List.filterMap_append]
  rfl

theorem names_cons (hc : isSeparator c = true) (t : List Char) : names (c :: t) = names t :=
  names_append hc [] t

theorem names_concat (hc : isSeparator c = true) (s : List Char) : names (s ++ [c]) = names s := by
  rw [names_append hc, names_nil, List.append_nil]

/-- It makes no difference which separator is written. -/
theorem names_normalize (path : String) : names (normalize path).toList = names path.toList := by
  have hsplit (s : List Char) :
      (s.map fun c => if c == '\\' then '/' else c).splitOnP isSeparator = s.splitOnP isSeparator := by
    induction s with
    | nil => rfl
    | cons c s ih =>
      rw [List.map_cons, List.splitOnP_cons_eq_if_modifyHead, List.splitOnP_cons_eq_if_modifyHead, ih]
      by_cases hback : c = '\\'
      · subst hback
        rfl
      · simp [hback]
  rw [normalize, Text.replaceChar, String.toList_ofList, names, hsplit]
  rfl

/-! ## Trimming -/

theorem names_trimFront (s : List Char) : names (trimFront s) = names s := by
  induction s using trimFront.induct with
  | case1 rest ih => rw [trimFront, ih, names_cons rfl]
  | case2 => rfl
  | case3 rest ih =>
    rw [trimFront, ih, ← List.singleton_append, names_append rfl, names_dot, List.nil_append]
  | case4 s hslash hdot hcurrent => rw [trimFront.eq_4 s hslash hdot hcurrent]

/-- What is trimmed at the back holds no name either. -/
theorem names_reverse_trimFront (s : List Char) : names (trimFront s).reverse = names s.reverse := by
  induction s using trimFront.induct with
  | case1 rest ih => rw [trimFront, ih, List.reverse_cons, names_concat rfl]
  | case2 => rfl
  | case3 rest ih =>
    rw [trimFront, ih, List.reverse_cons, List.reverse_cons, List.append_assoc, List.singleton_append,
      names_append rfl, names_dot, List.append_nil]
  | case4 s hslash hdot hcurrent => rw [trimFront.eq_4 s hslash hdot hcurrent]

theorem names_trimBack (s : List Char) : names (trimBack s) = names s := by
  rw [trimBack, trimBackReversed_eq, names_reverse_trimFront, List.reverse_reverse]

theorem names_dropSlashes (s : List Char) : names (s.dropWhile (· == '/')) = names s := by
  induction s with
  | nil => rfl
  | cons c s ih =>
    by_cases hc : c = '/'
    · rw [List.dropWhile_cons_of_pos (by simpa using hc), ih, names_cons (by simp [isSeparator, hc])]
    · rw [List.dropWhile_cons_of_neg (by simpa using hc)]

theorem names_reverse_dropSlashes (s : List Char) :
    names (s.dropWhile (· == '/')).reverse = names s.reverse := by
  induction s with
  | nil => rfl
  | cons c s ih =>
    by_cases hc : c = '/'
    · rw [List.dropWhile_cons_of_pos (by simpa using hc), ih, List.reverse_cons,
        names_concat (by simp [isSeparator, hc])]
    · rw [List.dropWhile_cons_of_neg (by simpa using hc)]

theorem names_trimSlashes (s : List Char) : names (Text.trimWhile (· == '/') s) = names s := by
  rw [Text.trimWhile, Text.dropTailWhile, names_reverse_dropSlashes, List.reverse_reverse, names_dropSlashes]

/-! ## Components -/

/-- The names in front of the first slash come first. -/
theorem names_eq_append (s : List Char) :
    names s = names (s.takeWhile (· != '/')) ++ names (s.dropWhile (· != '/')) := by
  have hpasses {front : List Char} (hfront : '/' ∉ front) : ∀ c ∈ front, (c != '/') = true :=
    fun c hc => bne_iff_ne.2 fun heq => hfront (heq ▸ hc)
  by_cases hslash : '/' ∈ s
  · obtain ⟨front, back, rfl, hfront⟩ := List.eq_append_cons_of_mem hslash
    rw [takeWhile_append_slash, dropWhile_append_slash, List.takeWhile_eq_self_iff.2 (hpasses hfront),
      List.dropWhile_eq_nil_iff.2 (hpasses hfront), List.nil_append, names_append (c := '/') rfl,
      names_cons (c := '/') rfl]
  · rw [List.takeWhile_eq_self_iff.2 (hpasses hslash), List.dropWhile_eq_nil_iff.2 (hpasses hslash), names_nil,
      List.append_nil]

/-- A piece holds the names of its component; one that stands for no component holds none. -/
theorem names_piece (piece : List Char) : names piece = (ofPiece? piece).elim [] Component.levels := by
  unfold ofPiece?
  split_ifs with hdot hparent
  · rw [beq_iff_eq.1 hdot]
    rfl
  · rw [beq_iff_eq.1 hparent]
    rfl
  · rw [Option.elim_some, Component.levels, String.toList_ofList]

/-- The names of a path that does not begin with a slash are those of its first piece and those behind it. -/
theorem names_cons_piece (hc : c ≠ '/') (s : List Char) : names (c :: s) =
    (ofPiece? (c :: s.takeWhile (· != '/'))).elim [] Component.levels ++ names (s.dropWhile (· != '/')) := by
  have hpasses : (c != '/') = true := bne_iff_ne.2 hc
  rw [names_eq_append, List.takeWhile_cons_of_pos (p := (· != '/')) hpasses,
    List.dropWhile_cons_of_pos (p := (· != '/')) hpasses, names_piece]

/-- The names written in a path are those of its components. -/
theorem names_eq_flatMap (s : List Char) :
    names s = (bodyWithRest s).flatMap fun piece => piece.1.levels := by
  induction s using bodyWithRest.induct with
  | case1 => simp [bodyWithRest]
  | case2 rest ih => rw [names_cons rfl, bodyWithRest_slash, ih]
  | case3 c rest hc piece after hpiece ih =>
    have hc : c ≠ '/' := hc
    rw [bodyWithRest_cons hc, hpiece, names_cons_piece hc, hpiece, ih]
    rfl
  | case4 c rest hc piece after component hpiece ih =>
    have hc : c ≠ '/' := hc
    rw [bodyWithRest_cons hc, hpiece, names_cons_piece hc, hpiece, ih]
    rfl

/-- A body begins with a component and goes on behind it, if it does not end. -/
theorem bodyWithRest_eq_nil_or (s : List Char) :
    bodyWithRest s = [] ∨ ∃ component after, bodyWithRest s = (component, after) :: bodyWithRest after := by
  induction s using bodyWithRest.induct with
  | case1 => exact .inl (by rw [bodyWithRest])
  | case2 rest ih => rwa [bodyWithRest_slash]
  | case3 c rest hc piece after hpiece ih =>
    have hc : c ≠ '/' := hc
    rw [bodyWithRest_cons hc, hpiece]
    exact ih
  | case4 c rest hc piece after component hpiece ih =>
    have hc : c ≠ '/' := hc
    rw [bodyWithRest_cons hc, hpiece]
    exact .inr ⟨component, after, rfl⟩

/-- Behind components that a body begins with stand the names of the others. -/
theorem exists_restAfter? {base : List Component} (h : base <+: (bodyWithRest s).map (·.1)) :
    ∃ rest, restAfter? base s (bodyWithRest s) = some rest ∧
      names rest = (((bodyWithRest s).map (·.1)).drop base.length).flatMap Component.levels := by
  induction base generalizing s with
  | nil =>
    refine ⟨s, by rw [restAfter?], ?_⟩
    rw [names_eq_flatMap, List.length_nil, List.drop_zero, List.flatMap_map]
  | cons component base ih =>
    rcases bodyWithRest_eq_nil_or s with hnil | ⟨first, after, hs⟩
    · rw [hnil] at h
      exact absurd (List.prefix_nil.1 h) (List.cons_ne_nil component base)
    · rw [hs, List.map_cons, List.cons_prefix_cons] at h
      obtain ⟨rest, hrest, hnames⟩ := ih h.2
      refine ⟨rest, ?_, ?_⟩
      · rw [hs, restAfter?, if_pos h.1, hrest]
      · rw [hs, hnames, List.map_cons, List.length_cons, List.drop_succ_cons]

/-- The names of a path inside of a root, once the root is taken away, are those of the components that are
left. -/
theorem names_relativeTo (habsolute : isAbsolute path = true) (hinside : components root <+: components path) :
    names (relativeTo root path).toList =
      ((components path).drop (components root).length).flatMap Component.levels := by
  obtain ⟨s, hs⟩ : ∃ s, path.toList = '/' :: s := by
    unfold isAbsolute at habsolute
    cases hpath : path.toList with
    | nil => simp [hpath] at habsolute
    | cons c s => exact ⟨s, by simpa [hpath] using habsolute⟩
  have hcomponents : components path = .root :: (bodyWithRest s).map (·.1) := by
    rw [components, hs]
    rfl
  rw [hcomponents] at hinside ⊢
  rw [relativeTo, names_normalize, relativeTo?, hs]
  cases hbase : components root with
  | nil =>
    have hrest : restAfter? [] ('/' :: s) (componentsWithRest ('/' :: s)) = some ('/' :: s) := by
      rw [restAfter?]
    have htail : withoutTail ('/' :: s) = '/' :: trimBack s := rfl
    simp only [hrest, htail, Option.map_some, Option.getD_some, String.toList_ofList, List.isEmpty_nil, if_true]
    rw [names_cons (c := '/') rfl, names_trimBack, names_eq_flatMap, List.length_nil, List.drop_zero,
      List.flatMap_cons, List.flatMap_map]
    rfl
  | cons component base =>
    rw [hbase, List.cons_prefix_cons] at hinside
    obtain ⟨rest, hrest, hnames⟩ := exists_restAfter? hinside.2
    have hrest : restAfter? (component :: base) ('/' :: s) (componentsWithRest ('/' :: s)) = some rest := by
      rw [componentsWithRest, restAfter?, if_pos hinside.1, hrest]
    simp only [hrest, Option.map_some, Option.getD_some, String.toList_ofList, List.isEmpty_cons,
      Bool.false_eq_true, if_false]
    rw [names_trimBack, names_trimFront, hnames, List.length_cons, List.drop_succ_cons]

/-- Behind components that a path does not begin with nothing is left. -/
theorem restAfter?_eq_none {base : List Component} {before : List Char}
    {pieces : List (Component × List Char)} (h : ¬ base <+: pieces.map (·.1)) :
    restAfter? base before pieces = none := by
  induction base generalizing before pieces with
  | nil => exact absurd List.nil_prefix h
  | cons component base ih =>
    cases pieces with
    | nil => rw [restAfter?]
    | cons piece pieces =>
      rw [List.map_cons, List.cons_prefix_cons] at h
      rw [restAfter?]
      split_ifs with hsame
      · exact ih fun hbase => h ⟨hsame, hbase⟩
      · rfl

/-- A path that is not inside of the root keeps all its names. -/
theorem names_relativeTo_of_outside (houtside : ¬ components root <+: components path) :
    names (relativeTo root path).toList = names path.toList := by
  rw [relativeTo, names_normalize, relativeTo?, restAfter?_eq_none houtside]
  rfl

/-- What is joined to an absolute path is absolute. -/
theorem isAbsolute_join {name : String} (hroot : isAbsolute root = true) :
    isAbsolute (join root name) = true := by
  have happend (t : String) : isAbsolute (root ++ t) = true := by
    unfold isAbsolute at hroot ⊢
    rw [String.toList_append, List.head?_append, beq_iff_eq.1 hroot]
    rfl
  unfold join
  split_ifs with hname
  · exact hname
  · exact happend name
  · rw [String.append_assoc]
    exact happend _

/-- Behind the components of a root stand those of what is joined to it. -/
theorem components_join {name : String} (hroot : root ≠ "") (hname : isAbsolute name = false) :
    components (join root name) = components root ++ (bodyWithRest name.toList).map (·.1) := by
  have hlist : root.toList ≠ [] := fun hnil => hroot (String.toList_eq_nil_iff.1 hnil)
  have happend {s : List Char} (hs : s ≠ []) (t : List Char) :
      (componentsWithRest (s ++ '/' :: t)).map (·.1) =
        (componentsWithRest s).map (·.1) ++ (bodyWithRest t).map (·.1) := by
    rw [componentsWithRest_append_slash hs, List.map_append, map_fst_follow]
  rw [components, components, toList_join hroot hname]
  split_ifs with hslash
  · obtain ⟨front, hfront⟩ := List.getLast?_eq_some_iff.1 hslash
    rw [hfront, List.append_assoc, List.singleton_append]
    by_cases hnil : front = []
    · subst hnil
      simp [componentsWithRest, bodyWithRest]
    · rw [happend hnil, map_fst_componentsWithRest_append_singleton hnil]
  · rw [List.append_assoc, List.singleton_append, happend hlist]

end SourceIndex.Path
