import Mathlib.Data.List.TakeWhile
import SourceIndex.Path.Basic
/-!
# Paths that are spelled from names

`IsName` says which texts can be the name of a directory entry. A way of such names below a root is
spelled with slashes in between and joined to the root. From this spelling everything comes back: its
components (`components_spelled`), its part below the root (`relativeTo?_join_spelled`), the directories
above it (`intercalate_mem_ancestors`) and the way itself (`spelled_inj`). The root may be spelled in any way.
-/

namespace SourceIndex.Path

/-- The name of a directory entry: not empty, no step in place or upwards, and without a slash. -/
def IsName (name : String) : Prop :=
  name ≠ "" ∧ name ≠ "." ∧ name ≠ ".." ∧ '/' ∉ name.toList

instance (name : String) : Decidable (IsName name) :=
  inferInstanceAs (Decidable (_ ∧ _ ∧ _ ∧ _))

variable {name : String} {names others : List String} {s t r : List Char}

namespace IsName

theorem toList_ne_nil (h : IsName name) : name.toList ≠ [] :=
  fun hnil => h.1 (String.toList_eq_nil_iff.1 hnil)

theorem toList_ne_dot (h : IsName name) : name.toList ≠ ['.'] :=
  fun hdot => h.2.1 (String.toList_inj.1 hdot)

theorem startsWithCurrent (h : IsName name) : Path.startsWithCurrent name.toList = false := by
  have hslash : ¬['.', '/'].isPrefixOf name.toList = true := by
    rw [List.isPrefixOf_iff_prefix]
    exact fun hdot => h.2.2.2 (hdot.subset (by simp))
  simp [Path.startsWithCurrent, h.toList_ne_dot, hslash]

theorem ofPiece? (h : IsName name) : Path.ofPiece? name.toList = some (.name name) := by
  have hparent : name.toList ≠ ['.', '.'] := fun hdots => h.2.2.1 (String.toList_inj.1 hdots)
  simp [Path.ofPiece?, h.toList_ne_dot, hparent, String.ofList_toList]

end IsName

/-! ## Texts with a slash in them -/

theorem takeWhile_append_slash (s t : List Char) :
    (s ++ '/' :: t).takeWhile (· != '/') = s.takeWhile (· != '/') := by
  induction s with
  | nil => simp
  | cons c s ih => by_cases hc : c = '/' <;> simp [hc, ih]

theorem dropWhile_append_slash (s t : List Char) :
    (s ++ '/' :: t).dropWhile (· != '/') = s.dropWhile (· != '/') ++ '/' :: t := by
  induction s with
  | nil => simp
  | cons c s ih => by_cases hc : c = '/' <;> simp [hc, ih]

/-- What follows each component, if a text is put behind the path. -/
def follow (t : List Char) (pieces : List (Component × List Char)) : List (Component × List Char) :=
  pieces.map fun piece => (piece.1, piece.2 ++ t)

@[simp] theorem follow_cons (t : List Char) (piece : Component × List Char)
    (pieces : List (Component × List Char)) :
    follow t (piece :: pieces) = (piece.1, piece.2 ++ t) :: follow t pieces := rfl

@[simp] theorem follow_nil (t : List Char) : follow t [] = [] := rfl

@[simp] theorem map_fst_follow (t : List Char) (pieces : List (Component × List Char)) :
    (follow t pieces).map (·.1) = pieces.map (·.1) := by
  simp [follow]

theorem bodyWithRest_slash (t : List Char) : bodyWithRest ('/' :: t) = bodyWithRest t := by
  rw [bodyWithRest]

/-- The first piece of a path that does not begin with a slash. -/
theorem bodyWithRest_cons {c : Char} (hc : c ≠ '/') (s : List Char) :
    bodyWithRest (c :: s) =
      ((ofPiece? (c :: s.takeWhile (· != '/'))).map
        fun component => (component, s.dropWhile (· != '/'))).toList ++
      bodyWithRest (s.dropWhile (· != '/')) := by
  rw [bodyWithRest.eq_3 _ _ (by simpa using hc)]
  cases ofPiece? (c :: s.takeWhile (· != '/')) <;> rfl

/-- A slash separates the components in front of it from those behind. -/
theorem bodyWithRest_append_slash (s t : List Char) :
    bodyWithRest (s ++ '/' :: t) = follow ('/' :: t) (bodyWithRest s) ++ bodyWithRest t := by
  induction s using bodyWithRest.induct with
  | case1 => simp [bodyWithRest_slash, bodyWithRest]
  | case2 rest ih => rw [List.cons_append, bodyWithRest_slash, bodyWithRest_slash, ih]
  | case3 c rest hc piece after hpiece ih =>
    have hc : c ≠ '/' := hc
    rw [List.cons_append, bodyWithRest_cons hc, bodyWithRest_cons hc, takeWhile_append_slash,
      dropWhile_append_slash, hpiece]
    exact ih
  | case4 c rest hc piece after component hpiece ih =>
    have hc : c ≠ '/' := hc
    rw [List.cons_append, bodyWithRest_cons hc, bodyWithRest_cons hc, takeWhile_append_slash,
      dropWhile_append_slash, hpiece, ih]
    rfl

/-- Behind the last component nothing stands for a component. -/
theorem bodyWithRest_snd_of_getLast? {piece : Component × List Char}
    (h : (bodyWithRest s).getLast? = some piece) : bodyWithRest piece.2 = [] := by
  induction s using bodyWithRest.induct with
  | case1 => simp [bodyWithRest] at h
  | case2 rest ih => exact ih (by rwa [bodyWithRest_slash] at h)
  | case3 c rest hc front after hfront ih =>
    rw [bodyWithRest_cons hc, hfront] at h
    exact ih h
  | case4 c rest hc front after component hfront ih =>
    rw [bodyWithRest_cons hc, hfront] at h
    change ((component, after) :: bodyWithRest after).getLast? = some piece at h
    cases hafter : bodyWithRest after with
    | nil =>
      rw [hafter] at h
      cases h
      exact hafter
    | cons next pieces =>
      rw [hafter, List.getLast?_cons_cons, ← hafter] at h
      exact ih h

theorem startsWithCurrent_append_slash (hs : s ≠ []) :
    startsWithCurrent (s ++ '/' :: t) = startsWithCurrent s := by
  match s, hs with
  | [c], _ => simp [startsWithCurrent, List.isPrefixOf, Bool.beq_comm (a := c)]
  | c :: d :: s, _ => simp [startsWithCurrent, List.isPrefixOf]

theorem componentsWithRest_cons {c : Char} (hc : c ≠ '/') (s : List Char) :
    componentsWithRest (c :: s) =
      if startsWithCurrent (c :: s) then (.current, s) :: bodyWithRest s else bodyWithRest (c :: s) := by
  rw [componentsWithRest.eq_2 _ (by simpa using hc)]
  rfl

/-- The same for a whole path: a slash separates the components in front of it from those behind. -/
theorem componentsWithRest_append_slash (hs : s ≠ []) :
    componentsWithRest (s ++ '/' :: t) =
      follow ('/' :: t) (componentsWithRest s) ++ bodyWithRest t := by
  match s, hs with
  | c :: s, hs =>
    by_cases hc : c = '/'
    · subst hc
      simp [componentsWithRest, bodyWithRest_append_slash]
    · have hcurrent := startsWithCurrent_append_slash (t := t) hs
      rw [List.cons_append] at hcurrent ⊢
      rw [componentsWithRest_cons hc, componentsWithRest_cons hc, hcurrent, ← List.cons_append,
        bodyWithRest_append_slash, bodyWithRest_append_slash]
      split <;> rfl

/-- Only a step in place, up to a slash or to the end, stands for no component. -/
theorem of_ofPiece?_eq_none {c : Char} (h : ofPiece? (c :: s.takeWhile (· != '/')) = none) :
    c = '.' ∧ (s = [] ∨ ∃ rest, s = '/' :: rest) := by
  have hdot : c :: s.takeWhile (· != '/') = ['.'] := by
    rw [ofPiece?] at h
    split at h
    · rename_i hpiece
      exact beq_iff_eq.1 hpiece
    · split at h <;> cases h
  obtain ⟨hc, hnil⟩ := List.cons.inj hdot
  refine ⟨hc, ?_⟩
  cases s with
  | nil => exact Or.inl rfl
  | cons d rest =>
    by_cases hd : d = '/'
    · exact Or.inr ⟨rest, by rw [hd]⟩
    · simp [hd] at hnil

/-- A path that is not empty has components, and nothing behind the last one stands for another. -/
theorem exists_getLast?_componentsWithRest (hs : s ≠ []) :
    ∃ piece, (componentsWithRest s).getLast? = some piece ∧ bodyWithRest piece.2 = [] := by
  -- A component in front of a body is the last one only if the body has none.
  have hcons : ∀ (component : Component) (rest : List Char),
      ∃ piece, ((component, rest) :: bodyWithRest rest).getLast? = some piece ∧
        bodyWithRest piece.2 = [] := by
    intro component rest
    cases hrest : (bodyWithRest rest).getLast? with
    | none => exact ⟨_, by rw [List.getLast?_eq_none_iff.1 hrest]; rfl, List.getLast?_eq_none_iff.1 hrest⟩
    | some piece =>
      refine ⟨piece, ?_, bodyWithRest_snd_of_getLast? hrest⟩
      rw [List.getLast?_cons, hrest, Option.getD_some]
  match s, hs with
  | c :: s, _ =>
    by_cases hc : c = '/'
    · subst hc
      exact hcons .root s
    · rw [componentsWithRest_cons hc]
      split
      · exact hcons .current s
      · rename_i hcurrent
        have hpiece : ofPiece? (c :: s.takeWhile (· != '/')) ≠ none := by
          intro hnone
          obtain ⟨rfl, rfl | ⟨rest, rfl⟩⟩ := of_ofPiece?_eq_none hnone
          · exact hcurrent rfl
          · exact hcurrent (by simp [startsWithCurrent, List.isPrefixOf])
        obtain ⟨component, hcomponent⟩ := Option.ne_none_iff_exists'.1 hpiece
        rw [bodyWithRest_cons hc, hcomponent]
        exact hcons component _

/-! ## What is below a root -/

/-- What follows the components of a path in a longer one. -/
theorem restAfter?_follow {pieces more : List (Component × List Char)}
    {piece : Component × List Char} (before : List Char) (h : pieces.getLast? = some piece) :
    restAfter? (pieces.map (·.1)) before (follow t pieces ++ more) = some (piece.2 ++ t) := by
  induction pieces generalizing before with
  | nil => cases h
  | cons first pieces ih =>
    simp only [List.map_cons, follow_cons, List.cons_append, restAfter?, if_pos]
    cases pieces with
    | nil =>
      cases h
      simp [restAfter?]
    | cons second pieces =>
      rw [List.getLast?_cons_cons] at h
      exact ih _ h

/-- Separators and steps in place are dropped from the front. -/
theorem trimFront_append_slash (h : bodyWithRest s = []) :
    trimFront (s ++ '/' :: t) = trimFront t := by
  induction s using bodyWithRest.induct with
  | case1 => simp [trimFront]
  | case2 rest ih =>
    rw [bodyWithRest_slash] at h
    simpa [trimFront] using ih h
  | case3 c rest hc front after hfront ih =>
    have hc : c ≠ '/' := hc
    rw [bodyWithRest_cons hc, hfront] at h
    obtain ⟨rfl, rfl | ⟨rest, rfl⟩⟩ := of_ofPiece?_eq_none hfront
    · simp [trimFront]
    · have htrim := ih h
      change trimFront ('.' :: '/' :: (rest ++ '/' :: t)) = _
      change trimFront ('/' :: (rest ++ '/' :: t)) = _ at htrim
      simpa [trimFront] using htrim
  | case4 c rest hc front after component hfront ih =>
    have hc : c ≠ '/' := hc
    rw [bodyWithRest_cons hc, hfront] at h
    cases h

theorem trimBackReversed_eq (s : List Char) : trimBackReversed s = trimFront s := by
  fun_induction trimFront s <;> simp_all [trimBackReversed]

/-- The components in front of a slash are the first ones of the path, and behind them stands what stands
behind the slash. -/
theorem restAfter?_append_slash (hs : s ≠ []) (before : List Char) :
    ∃ rest, restAfter? ((componentsWithRest s).map (·.1)) before
      (componentsWithRest (s ++ '/' :: t)) = some rest ∧ trimFront rest = trimFront t := by
  obtain ⟨piece, hlast, hrest⟩ := exists_getLast?_componentsWithRest hs
  rw [componentsWithRest_append_slash hs, restAfter?_follow _ hlast]
  exact ⟨_, rfl, trimFront_append_slash hrest⟩

theorem map_fst_componentsWithRest_ne_nil (hs : s ≠ []) : (componentsWithRest s).map (·.1) ≠ [] := by
  obtain ⟨piece, hlast, -⟩ := exists_getLast?_componentsWithRest hs
  intro hnil
  rw [List.map_eq_nil_iff.1 hnil] at hlast
  cases hlast

/-- A slash at the end of a path adds no component. -/
theorem map_fst_componentsWithRest_append_singleton (hs : s ≠ []) :
    (componentsWithRest (s ++ ['/'])).map (·.1) = (componentsWithRest s).map (·.1) := by
  simp [componentsWithRest_append_slash hs, bodyWithRest]

theorem toList_join {root name : String} (hroot : root ≠ "") (hname : isAbsolute name = false) :
    (join root name).toList =
      (if root.toList.getLast? = some '/' then root.toList else root.toList ++ ['/']) ++
        name.toList := by
  have hempty : root.isEmpty = false := by simpa using hroot
  unfold join
  rw [hname, hempty]
  by_cases hslash : root.toList.getLast? = some '/' <;> simp [hslash]

/-- Below a root that is not empty stands what was joined to it, without its outer separators. -/
theorem relativeTo?_join {root name : String} (hroot : root ≠ "") (hname : isAbsolute name = false) :
    relativeTo? root (join root name) =
      some (String.ofList (trimBack (trimFront name.toList))) := by
  have hlist : root.toList ≠ [] := fun hnil => hroot (String.toList_eq_nil_iff.1 hnil)
  have hbase : (components root).isEmpty = false :=
    List.isEmpty_eq_false_iff.2 (map_fst_componentsWithRest_ne_nil hlist)
  obtain ⟨rest, hrest, htrim⟩ : ∃ rest, restAfter? (components root) (join root name).toList
      (componentsWithRest (join root name).toList) = some rest ∧
        trimFront rest = trimFront name.toList := by
    rw [toList_join hroot hname]
    split
    · rename_i hslash
      obtain ⟨front, hfront⟩ := List.getLast?_eq_some_iff.1 hslash
      rw [hfront, List.append_assoc, List.singleton_append, components, hfront]
      by_cases hnil : front = []
      · subst hnil
        exact ⟨name.toList, by simp [componentsWithRest, bodyWithRest, restAfter?], rfl⟩
      · rw [map_fst_componentsWithRest_append_singleton hnil]
        exact restAfter?_append_slash hnil _
    · rw [List.append_assoc, List.singleton_append]
      exact restAfter?_append_slash hlist _
  simp only [relativeTo?, hrest, hbase, htrim, Option.map_some, Bool.false_eq_true, if_false]

/-- What is joined to a root that is not empty comes back from the joined path. -/
theorem join_inj {root name other : String} (hroot : root ≠ "") (hname : isAbsolute name = false)
    (hother : isAbsolute other = false) (h : join root name = join root other) : name = other := by
  have hlist := congrArg String.toList h
  rw [toList_join hroot hname, toList_join hroot hother] at hlist
  exact String.toList_inj.1 (List.append_cancel_left hlist)

/-! ## Ways of names -/

/-- A piece between slashes stays as it is. -/
theorem trimFront_eq_self (hne : s ≠ []) (hslash : '/' ∉ s) (hdot : s ≠ ['.']) (t : List Char) :
    trimFront (s ++ t) = s ++ t := by
  match s, hne with
  | c :: s, _ =>
    refine trimFront.eq_4 _ (fun rest h => ?_) (fun h => ?_) fun rest h => ?_
    · exact hslash ((List.cons.inj h).1 ▸ List.mem_cons_self)
    · obtain ⟨rfl, hnil⟩ := List.cons.inj h
      exact hdot (by rw [(List.append_eq_nil_iff.1 hnil).1])
    · obtain ⟨rfl, hrest⟩ := List.cons.inj h
      cases s with
      | nil => exact hdot rfl
      | cons d s =>
        obtain ⟨rfl, -⟩ := List.cons.inj hrest
        exact hslash (List.mem_cons_of_mem _ List.mem_cons_self)

theorem toList_intercalate_cons (name : String) (names : List String) :
    ∃ t, ("/".intercalate (name :: names)).toList = name.toList ++ t ∧
      (names = [] ∧ t = [] ∨ t = '/' :: ("/".intercalate names).toList) := by
  cases names with
  | nil => exact ⟨[], by simp, Or.inl ⟨rfl, rfl⟩⟩
  | cons other names => exact ⟨_, by simp, Or.inr rfl⟩

theorem toList_intercalate_append (hnames : names ≠ []) (hothers : others ≠ []) :
    ("/".intercalate (names ++ others)).toList =
      ("/".intercalate names).toList ++ '/' :: ("/".intercalate others).toList := by
  rw [String.intercalate_append_of_ne_nil hnames hothers]
  simp

/-- A name is a path with itself as its only component. -/
theorem bodyWithRest_name (h : IsName name) : bodyWithRest name.toList = [(.name name, [])] := by
  have hpiece := h.ofPiece?
  match hlist : name.toList, h.toList_ne_nil with
  | c :: rest, _ =>
    have hslash : ∀ d ∈ c :: rest, d ≠ '/' := fun d hd heq => h.2.2.2 (hlist ▸ heq ▸ hd)
    have hall : ∀ d ∈ rest, (d != '/') = true :=
      fun d hd => bne_iff_ne.2 (hslash d (List.mem_cons_of_mem _ hd))
    rw [bodyWithRest_cons (hslash c List.mem_cons_self), List.takeWhile_eq_self_iff.2 hall,
      List.dropWhile_eq_nil_iff.2 hall, ← hlist, hpiece]
    simp [bodyWithRest]

/-- A directory stands above a path if it is what is in front of the rest behind one of its components. -/
theorem mem_ancestors {path dir : String} {component : Component} {rest : List Char}
    (h : (component, rest) ∈ (componentsWithRest path.toList).dropLast)
    (hdir : dir.toList = path.toList.take (path.toList.length - rest.length)) :
    dir ∈ ancestors path := by
  have hmem : dir ∈ (componentsWithRest path.toList).dropLast.map
      fun piece => String.ofList (path.toList.take (path.toList.length - piece.2.length)) :=
    List.mem_map.2 ⟨_, h, by rw [← hdir, String.ofList_toList]⟩
  unfold ancestors
  dsimp only
  split
  · rename_i hnil
    rw [hnil] at h
    cases h
  · exact List.mem_reverse.2 hmem
  · exact List.mem_append_left _ (List.mem_reverse.2 hmem)

variable (hnames : ∀ name ∈ names, IsName name)
include hnames

/-- A way of names stays as it is in front. -/
theorem trimFront_spelled (hne : names ≠ []) :
    trimFront ("/".intercalate names).toList = ("/".intercalate names).toList := by
  match names, hne with
  | name :: names, _ =>
    obtain ⟨t, htext, -⟩ := toList_intercalate_cons name names
    have hname := hnames name List.mem_cons_self
    rw [htext]
    exact trimFront_eq_self hname.toList_ne_nil hname.2.2.2 hname.toList_ne_dot t

/-- A way of names stays as it is at its end. -/
theorem trimBack_spelled (hne : names ≠ []) :
    trimBack ("/".intercalate names).toList = ("/".intercalate names).toList := by
  obtain ⟨front, name, rfl⟩ : ∃ front name, names = front ++ [name] :=
    ⟨_, _, (List.dropLast_concat_getLast hne).symm⟩
  have hname := hnames name (by simp)
  have hdot : name.toList.reverse ≠ ['.'] :=
    fun hdot => hname.toList_ne_dot (List.reverse_eq_iff.1 hdot)
  have hself := trimFront_eq_self (by simpa using hname.1) (by simpa using hname.2.2.2) hdot
  rw [trimBack, trimBackReversed_eq, List.reverse_eq_iff]
  by_cases hfront : front = []
  · subst hfront
    simpa using hself []
  · rw [toList_intercalate_append hfront (List.cons_ne_nil name [])]
    simpa using hself ('/' :: ("/".intercalate front).toList.reverse)

theorem isAbsolute_spelled : isAbsolute ("/".intercalate names) = false := by
  cases names with
  | nil => rfl
  | cons name names =>
    obtain ⟨t, htext, -⟩ := toList_intercalate_cons name names
    have hname := hnames name List.mem_cons_self
    rw [isAbsolute, htext]
    match hlist : name.toList, hname.toList_ne_nil with
    | c :: rest, _ =>
      have hc : c ≠ '/' := fun h => hname.2.2.2 (by simp [hlist, h])
      simpa using hc

theorem startsWithCurrent_spelled : startsWithCurrent ("/".intercalate names).toList = false := by
  cases names with
  | nil => rfl
  | cons name names =>
    obtain ⟨t, htext, ht⟩ := toList_intercalate_cons name names
    have hname := hnames name List.mem_cons_self
    rw [htext]
    rcases ht with ⟨-, rfl⟩ | rfl
    · rw [List.append_nil, hname.startsWithCurrent]
    · rw [startsWithCurrent_append_slash hname.toList_ne_nil, hname.startsWithCurrent]

/-- A way of names is all body: it has neither a root nor a step in place in front. -/
theorem componentsWithRest_spelled :
    componentsWithRest ("/".intercalate names).toList =
      bodyWithRest ("/".intercalate names).toList := by
  have hcurrent := startsWithCurrent_spelled hnames
  have habsolute := isAbsolute_spelled hnames
  unfold isAbsolute at habsolute
  match hlist : ("/".intercalate names).toList with
  | [] => rfl
  | c :: rest =>
    rw [hlist] at hcurrent habsolute
    have hc : c ≠ '/' := by simpa using habsolute
    rw [componentsWithRest_cons hc, hcurrent]
    rfl

theorem components_spelled : components ("/".intercalate names) = names.map .name := by
  rw [components, componentsWithRest_spelled hnames]
  induction names with
  | nil => simp [bodyWithRest]
  | cons name names ih =>
    have hname := bodyWithRest_name (hnames name List.mem_cons_self)
    obtain ⟨t, htext, ⟨rfl, rfl⟩ | rfl⟩ := toList_intercalate_cons name names
    · rw [htext, List.append_nil, hname]
      rfl
    · rw [htext, bodyWithRest_append_slash, hname, List.map_append,
        ih fun n hn => hnames n (List.mem_cons_of_mem name hn)]
      rfl

/-- A way of names comes back from its spelling. -/
theorem spelled_inj (hothers : ∀ name ∈ others, IsName name)
    (h : "/".intercalate names = "/".intercalate others) : names = others := by
  have hmap : names.map Component.name = others.map Component.name := by
    rw [← components_spelled hnames, h, components_spelled hothers]
  exact (List.map_inj_right fun _ _ => Component.name.inj).1 hmap

/-- Below a root stands the way that was joined to it. -/
theorem relativeTo?_join_spelled {root : String} (hroot : root ≠ "") (hne : names ≠ []) :
    relativeTo? root (join root ("/".intercalate names)) = some ("/".intercalate names) := by
  rw [relativeTo?_join hroot (isAbsolute_spelled hnames), trimFront_spelled hnames hne,
    trimBack_spelled hnames hne, String.ofList_toList]

/-- A way that is joined to a root adds its names to the components. -/
theorem components_join_spelled {root : String} (hroot : root ≠ "") :
    components (join root ("/".intercalate names)) = components root ++ names.map .name := by
  have hlist : root.toList ≠ [] := fun hnil => hroot (String.toList_eq_nil_iff.1 hnil)
  have hway : (bodyWithRest ("/".intercalate names).toList).map (·.1) = names.map .name := by
    rw [← componentsWithRest_spelled hnames]
    exact components_spelled hnames
  rw [components, components, toList_join hroot (isAbsolute_spelled hnames)]
  generalize ("/".intercalate names).toList = way at hway
  split
  · rename_i hslash
    obtain ⟨front, hfront⟩ := List.getLast?_eq_some_iff.1 hslash
    rw [hfront, List.append_assoc, List.singleton_append]
    by_cases hnil : front = []
    · subst hnil
      simp [componentsWithRest, bodyWithRest, hway]
    · rw [map_fst_componentsWithRest_append_singleton hnil, componentsWithRest_append_slash hnil]
      simp [hway]
  · rw [List.append_assoc, List.singleton_append, componentsWithRest_append_slash hlist]
    simp [hway]

/-- Nothing follows the last name of a way. -/
theorem getLast?_bodyWithRest_spelled (hne : names ≠ []) :
    ∃ name, (bodyWithRest ("/".intercalate names).toList).getLast? = some (.name name, []) := by
  obtain ⟨front, name, rfl⟩ : ∃ front name, names = front ++ [name] :=
    ⟨_, _, (List.dropLast_concat_getLast hne).symm⟩
  have hname := bodyWithRest_name (hnames name (by simp))
  refine ⟨name, ?_⟩
  by_cases hfront : front = []
  · subst hfront
    simp [hname]
  · rw [toList_intercalate_append hfront (List.cons_ne_nil name []), bodyWithRest_append_slash]
    simp [hname]

/-- The directories on a way are above its end. -/
theorem intercalate_mem_ancestors (hothers : ∀ name ∈ others, IsName name) (hne : names ≠ [])
    (hbelow : others ≠ []) :
    "/".intercalate names ∈ ancestors ("/".intercalate (names ++ others)) := by
  have hall : ∀ name ∈ names ++ others, IsName name :=
    fun name hin => (List.mem_append.1 hin).elim (hnames name) (hothers name)
  obtain ⟨name, hlast⟩ := getLast?_bodyWithRest_spelled hnames hne
  obtain ⟨last, hend⟩ := getLast?_bodyWithRest_spelled hothers hbelow
  have hsome : bodyWithRest ("/".intercalate others).toList ≠ [] := by
    intro hnil
    rw [hnil] at hend
    cases hend
  have htext := toList_intercalate_append hne hbelow
  have hpieces := componentsWithRest_spelled hall
  -- The last name of the way is followed by the rest of the longer one.
  have hpiece : (Component.name name, '/' :: ("/".intercalate others).toList) ∈
      (componentsWithRest ("/".intercalate (names ++ others)).toList).dropLast := by
    rw [hpieces, htext, bodyWithRest_append_slash, List.dropLast_append_of_ne_nil hsome]
    exact List.mem_append_left _ (List.mem_map.2 ⟨_, List.mem_of_getLast? hlast, rfl⟩)
  refine mem_ancestors hpiece ?_
  rw [htext]
  simp

/-! ## Names in a directory -/

omit hnames in
/-- A name that is joined to a directory adds itself to the components. -/
theorem components_join_name {dir : String} (h : IsName name) :
    components (join dir name) = components dir ++ [.name name] := by
  have hname : ∀ other ∈ [name], IsName other := List.forall_mem_singleton.2 h
  by_cases hdir : dir = ""
  · have hspelled := components_spelled hname
    have habsolute := isAbsolute_spelled hname
    rw [String.intercalate_singleton] at hspelled habsolute
    have hjoin : join "" name = name := by
      unfold join
      rw [habsolute]
      exact String.empty_append
    have hempty : components "" = [] := by simp [components, componentsWithRest, startsWithCurrent, bodyWithRest]
    rw [hdir, hjoin, hspelled, hempty]
    rfl
  · have hjoin := components_join_spelled hname hdir
    rwa [String.intercalate_singleton] at hjoin

omit hnames in
/-- What is put behind a name stands behind the path that the name is joined to. -/
theorem join_append {dir : String} (h : name ≠ "") (tail : String) :
    join dir (name ++ tail) = join dir name ++ tail := by
  have habsolute : isAbsolute (name ++ tail) = isAbsolute name := by
    obtain ⟨c, rest, hname⟩ := List.exists_cons_of_ne_nil fun hnil => h (String.toList_eq_nil_iff.1 hnil)
    rw [isAbsolute, isAbsolute, String.toList_append, hname]
    rfl
  unfold join
  rw [habsolute]
  split_ifs <;> simp only [String.append_assoc]

end SourceIndex.Path
