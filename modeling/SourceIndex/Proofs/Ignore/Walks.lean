import SourceIndex.Ignore.Listing
import SourceIndex.Proofs.Path.Names
/-!
# Which files a walk finds

A walk goes down a tree and leaves out what the ignore files of the directories above say, with all that
is below it. `Listing.Spared` says of a way down that no entry on it is left out, and
`Listing.mem_files_iff` that the listing of a root has exactly the files at the end of such ways. The
trees are `Node.Tidy`: their entries have names that entries can have, no two of one directory the same.

For a way without hidden and denied names only the verdicts of the ignore files count
(`Listing.spared_iff_admits`).
-/

namespace SourceIndex

/-! ## Tidy trees -/

namespace Node

mutual

/-- Every entry has the name of an entry, and the entries of one directory have different names. -/
def Tidy : Node → Prop
  | .file _ => True
  | .dir entries => (entries.map (·.1)).Nodup ∧ TidyEntries entries

/-- `Tidy` below each of the entries of a directory. -/
def TidyEntries : List (String × Node) → Prop
  | [] => True
  | (name, node) :: rest => Path.IsName name ∧ node.Tidy ∧ TidyEntries rest

end

variable {n m : Node} {entries : List (String × Node)} {name : String} {names : List String}

/-- `TidyEntries` entry by entry. -/
theorem tidyEntries_iff :
    TidyEntries entries ↔ ∀ entry ∈ entries, Path.IsName entry.1 ∧ entry.2.Tidy := by
  induction entries with
  | nil => simp [TidyEntries]
  | cons entry rest ih => obtain ⟨name, node⟩ := entry; simp [TidyEntries, ih, and_assoc]

theorem mem_of_child? (h : child? entries name = some n) : (name, n) ∈ entries := by
  obtain ⟨entry, hfind, rfl⟩ := Option.map_eq_some_iff.1 h
  have hname : entry.1 = name := by simpa using List.find?_some hfind
  exact hname ▸ List.mem_of_find?_eq_some hfind

/-- In a directory without two entries of one name the name leads to the entry. -/
theorem child?_of_mem (distinct : (entries.map (·.1)).Nodup) (h : (name, n) ∈ entries) :
    child? entries name = some n := by
  induction entries with
  | nil => cases h
  | cons entry rest ih =>
    rw [List.map_cons, List.nodup_cons] at distinct
    rcases List.mem_cons.1 h with rfl | h
    · simp [child?]
    · have hne : entry.1 ≠ name := fun heq => distinct.1 (heq ▸ List.mem_map_of_mem h)
      rw [← ih distinct.2 h]
      simp [child?, hne]

theorem find_append (n : Node) (names others : List String) :
    n.find (names ++ others) = n.find names >>= fun m => m.find others := by
  induction names generalizing n with
  | nil => rfl
  | cons name names ih =>
    cases n with
    | file bytes => rfl
    | dir entries =>
      simp only [List.cons_append, find]
      cases child? entries name with
      | none => rfl
      | some child => exact ih child

/-- A tidy tree is tidy everywhere below, and every way down it consists of names. -/
theorem Tidy.find (tidy : n.Tidy) (h : n.find names = .ok m) :
    m.Tidy ∧ ∀ name ∈ names, Path.IsName name := by
  induction names generalizing n with
  | nil =>
    cases h
    exact ⟨tidy, nofun⟩
  | cons name names ih =>
    cases n with
    | file bytes => cases h
    | dir entries =>
      simp only [Node.find] at h
      split at h
      · rename_i child hchild
        obtain ⟨hname, hbelow⟩ := tidyEntries_iff.1 tidy.2 _ (mem_of_child? hchild)
        obtain ⟨hm, hnames⟩ := ih hbelow h
        exact ⟨hm, List.forall_mem_cons.2 ⟨hname, hnames⟩⟩
      · cases h

/-- On the way to a file all but the last entry are directories. -/
theorem isDir_of_find {bytes : ByteArray} (h : n.find names = .ok (.file bytes)) :
    n.isDir = !names.isEmpty := by
  cases names with
  | nil => cases h; rfl
  | cons name names =>
    cases n with
    | file bytes => cases h
    | dir entries => rfl

end Node

namespace Listing

variable {disk : Disk} {chain : List DirectoryRules} {base names rel : List String} {node : Node}
  {entries : List (String × Node)} {name : String} {bytes : ByteArray}

theorem find_concat (h : disk.tree.find names = .ok (.dir entries))
    (hchild : Node.child? entries name = some node) :
    disk.tree.find (names ++ [name]) = .ok node := by
  rw [Node.find_append, h]
  change (Node.dir entries).find [name] = .ok node
  simp [Node.find, hchild]

/-- A file below a way stands below a directory. -/
theorem exists_dir_of_find (h : disk.tree.find (base ++ rel) = .ok (.file bytes)) (hne : rel ≠ []) :
    ∃ entries, disk.tree.find base = .ok (.dir entries) ∧
      (Node.dir entries).find rel = .ok (.file bytes) := by
  rw [Node.find_append] at h
  cases hbase : disk.tree.find base with
  | error failure => rw [hbase] at h; cases h
  | ok node =>
    rw [hbase] at h
    change node.find rel = _ at h
    cases node with
    | file other =>
      match rel, hne with
      | _ :: _, _ => cases h
    | dir entries => exact ⟨entries, rfl, h⟩

/-! ## Walking -/

/-- Below a directory its own ignore files come first. -/
theorem chainAbove_concat (h : disk.tree.find names = .ok (.dir entries)) (name : String) :
    chainAbove disk (names ++ [name]) =
      DirectoryRules.ofEntries disk names.length entries :: chainAbove disk names := by
  simp only [chainAbove, List.length_append, List.length_singleton, List.range_succ, List.map_append,
    List.map_singleton, List.reverse_append, List.reverse_singleton, List.singleton_append]
  congr 1
  · rw [List.take_left' rfl, h]
    rfl
  · congr 1
    refine List.map_congr_left fun depth hdepth => ?_
    rw [List.take_append_of_le_length (Nat.le_of_lt (List.mem_range.1 hdepth))]

theorem mem_walkEntries :
    names ∈ walkEntries disk chain base entries ↔
      ∃ entry ∈ entries, skips chain (base ++ [entry.1]) entry.1 entry.2.isDir = false ∧
        names ∈ walk disk chain (base ++ [entry.1]) entry.2 := by
  induction entries with
  | nil => simp [walkEntries]
  | cons entry rest ih =>
    obtain ⟨name, node⟩ := entry
    rw [walkEntries, List.mem_append, ih]
    cases hskips : skips chain (base ++ [name]) name node.isDir <;> simp [hskips]

mutual

/-- A walk only goes down. -/
theorem prefix_of_mem_walk : ∀ (node : Node) {chain : List DirectoryRules} {base : List String},
    names ∈ walk disk chain base node → base <+: names
  | .file _, _, _, h => by
    rw [walk, List.mem_singleton] at h
    exact h ▸ List.prefix_refl _
  | .dir entries, _, _, h => by
    rw [walk] at h
    exact prefix_of_mem_walkEntries entries h

theorem prefix_of_mem_walkEntries : ∀ (entries : List (String × Node))
    {chain : List DirectoryRules} {base : List String},
    names ∈ walkEntries disk chain base entries → base <+: names
  | [], _, _, h => by
    rw [walkEntries] at h
    cases h
  | (name, node) :: rest, chain, base, h => by
    rw [walkEntries, List.mem_append] at h
    rcases h with h | h
    · split at h
      · cases h
      · exact (List.prefix_append ..).trans (prefix_of_mem_walk node h)
    · exact prefix_of_mem_walkEntries rest h

end

/-- No entry on the way down from `base` is left out. -/
def Spared (disk : Disk) : List String → List String → Prop
  | _, [] => True
  | base, name :: rel =>
    skips (chainAbove disk (base ++ [name])) (base ++ [name]) name (!rel.isEmpty) = false ∧
      Spared disk (base ++ [name]) rel

/-- A walk finds the files at the end of the ways on which nothing is left out. -/
theorem mem_walk_iff (tidy : node.Tidy) (hbase : disk.tree.find base = .ok node) :
    base ++ rel ∈ walk disk (chainAbove disk base) base node ↔
      (∃ bytes, node.find rel = .ok (.file bytes)) ∧ Spared disk base rel := by
  induction rel generalizing base node with
  | nil =>
    rw [List.append_nil]
    cases node with
    | file bytes => simp [walk, Node.find, Spared]
    | dir entries =>
      have hnot : base ∉ walk disk (chainAbove disk base) base (.dir entries) := by
        rw [walk, mem_walkEntries]
        rintro ⟨entry, -, -, hin⟩
        have hle := (prefix_of_mem_walk _ hin).length_le
        rw [List.length_append, List.length_singleton] at hle
        omega
      simp [hnot, Node.find]
  | cons name rel ih =>
    cases node with
    | file bytes => simp [walk, Node.find]
    | dir entries =>
      have happ : base ++ name :: rel = (base ++ [name]) ++ rel := by simp
      rw [walk, mem_walkEntries, ← chainAbove_concat hbase name, happ, Spared]
      constructor
      · rintro ⟨⟨other, child⟩, hentry, hskips, hin⟩
        -- The walk went down by the name that comes next on the way.
        obtain rfl : other = name := by
          have hprefix := prefix_of_mem_walk _ hin
          rw [List.append_assoc, List.prefix_append_right_inj, List.singleton_append,
            List.cons_prefix_cons] at hprefix
          exact hprefix.1
        have hchild := Node.child?_of_mem tidy.1 hentry
        obtain ⟨-, hbelow⟩ := Node.tidyEntries_iff.1 tidy.2 _ hentry
        obtain ⟨⟨bytes, hfile⟩, hspared⟩ :=
          (ih hbelow (find_concat hbase hchild)).1 hin
        rw [Node.isDir_of_find hfile] at hskips
        exact ⟨⟨bytes, by simp only [Node.find, hchild, hfile]⟩, hskips, hspared⟩
      · rintro ⟨⟨bytes, hfile⟩, hskips, hspared⟩
        simp only [Node.find] at hfile
        split at hfile
        · rename_i child hchild
          have hentry := Node.mem_of_child? hchild
          obtain ⟨-, hbelow⟩ := Node.tidyEntries_iff.1 tidy.2 _ hentry
          rw [← Node.isDir_of_find hfile] at hskips
          exact ⟨(name, child), hentry, hskips,
            (ih hbelow (find_concat hbase hchild)).2 ⟨⟨bytes, hfile⟩, hspared⟩⟩
        · cases hfile

/-! ## Listing -/

section
variable {root : String}

theorem ne_empty_of_resolve (h : disk.resolve root = .ok base) : root ≠ "" := by
  rintro rfl
  cases h

/-- The listing of a directory joins the ways that a walk finds to the spelling of the directory. -/
theorem files_eq (hroot : disk.resolve root = .ok base)
    (hbase : disk.tree.find base = .ok (.dir entries)) :
    files disk root = (walk disk (chainAbove disk base) base (.dir entries)).map fun names =>
      if (names.drop base.length).isEmpty then root
      else Path.join root ("/".intercalate (names.drop base.length)) := by
  have hstat : disk.stat root = .ok (.dir entries) := by
    unfold Disk.stat
    rw [hroot]
    change (disk.tree.find base >>= _) = _
    rw [hbase]
    rfl
  unfold files
  rw [hroot, hstat]
  rfl

/-- The listing of a root has the files below it at the end of a way on which nothing is left out. -/
theorem mem_files_iff (tidy : disk.tree.Tidy) (hroot : disk.resolve root = .ok base)
    (hfile : disk.tree.find (base ++ rel) = .ok (.file bytes)) (hne : rel ≠ []) :
    Path.join root ("/".intercalate rel) ∈ files disk root ↔ Spared disk base rel := by
  obtain ⟨entries, hbase, hbelow⟩ := exists_dir_of_find hfile hne
  have hnode := tidy.find hbase
  have hrel := hnode.1.find hbelow
  rw [files_eq hroot hbase, List.mem_map]
  constructor
  · rintro ⟨names, hin, hpath⟩
    obtain ⟨below, rfl⟩ := prefix_of_mem_walk _ hin
    obtain ⟨⟨_, hother⟩, hspared⟩ := (mem_walk_iff hnode.1 hbase).1 hin
    have hbelow' := hnode.1.find hother
    rw [List.drop_left] at hpath
    by_cases hempty : below = []
    · subst hempty
      cases hother
    · rw [if_neg (by simpa using hempty)] at hpath
      have htext := Path.join_inj (ne_empty_of_resolve hroot) (Path.isAbsolute_spelled hbelow'.2)
        (Path.isAbsolute_spelled hrel.2) hpath
      rwa [Path.spelled_inj hbelow'.2 hrel.2 htext] at hspared
  · intro hspared
    refine ⟨base ++ rel, (mem_walk_iff hnode.1 hbase).2 ⟨⟨bytes, hbelow⟩, hspared⟩, ?_⟩
    rw [List.drop_left, if_neg (by simpa using hne)]

end

/-! ## Ways without denied names -/

/-- No ignore file of the directories above leaves out the end of a way below `base` or a directory on
it. -/
def Admits (disk : Disk) (base rel : List String) : Prop :=
  ∀ front rest, rel = front ++ rest → front ≠ [] →
    DirectoryRules.verdict (chainAbove disk (base ++ front)) (base ++ front) (!rest.isEmpty) ≠ .ignored

theorem admits_nil : Admits disk base [] :=
  fun _ _ hnil hne => absurd (List.append_eq_nil_iff.1 hnil.symm).1 hne

theorem admits_cons : Admits disk base (name :: rel) ↔
    DirectoryRules.verdict (chainAbove disk (base ++ [name])) (base ++ [name]) (!rel.isEmpty) ≠
      .ignored ∧ Admits disk (base ++ [name]) rel := by
  constructor
  · intro h
    refine ⟨h [name] rel rfl (List.cons_ne_nil _ _), fun front rest hrel hne => ?_⟩
    have hlonger := h (name :: front) rest (by rw [hrel]; rfl) (List.cons_ne_nil _ _)
    rwa [List.append_assoc]
  · rintro ⟨hfirst, hbelow⟩ front rest hrel hne
    match front, hne with
    | other :: front, _ =>
      obtain ⟨rfl, hrest⟩ := List.cons.inj hrel
      by_cases hnil : front = []
      · subst hnil
        rwa [hrest] at hfirst
      · simpa using hbelow front rest hrest hnil

/-- Of an entry that is neither hidden nor denied only the ignore files decide. -/
theorem skips_eq_false_iff {isDirectory : Bool} (hname : Path.IsName name)
    (h : IgnoreRules.isDenied (.name name) = false) :
    skips chain names name isDirectory = false ↔
      DirectoryRules.verdict chain names isDirectory ≠ .ignored := by
  have hboth : (name.toList.head? == some '.') = false ∧
      IgnoreRules.deniedNames.contains name = false := by
    simpa [IgnoreRules.isDenied, hname.2.1] using h
  unfold skips
  rw [hboth.1, hboth.2]
  cases DirectoryRules.verdict chain names isDirectory <;> simp

/-- A way without hidden and denied names is spared if the ignore files admit it. -/
theorem spared_iff_admits (hnames : ∀ name ∈ rel, Path.IsName name)
    (h : ∀ name ∈ rel, IgnoreRules.isDenied (.name name) = false) :
    Spared disk base rel ↔ Admits disk base rel := by
  induction rel generalizing base with
  | nil => exact iff_of_true trivial admits_nil
  | cons name rel ih =>
    rw [List.forall_mem_cons] at hnames h
    rw [Spared, admits_cons, skips_eq_false_iff hnames.1 h.1, ih hnames.2 h.2]

end Listing

end SourceIndex
