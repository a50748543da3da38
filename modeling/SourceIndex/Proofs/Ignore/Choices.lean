import SourceIndex.Proofs.Ignore.Walks
/-!
# What the listing and the single query say of one file

`IgnoreRules.accepts` answers for one path, `IgnoreRules.listFiles` walks the whole workspace. The query
knows the two ignore files at the root only and takes the last rule that decides about the file; the walk
knows the ignore files of every directory and never comes to what is below a directory that is left out.

`IgnoreRules.listed_iff_admits` says what is between the two: an accepted file is listed if and only if no
ignore file that the walk knows leaves it or a directory on the way out. They agree where the ignore
files at the root are the only ones and take nothing back in.
-/

namespace SourceIndex

/-! ## Verdicts -/

namespace Verdict

variable {verdicts : List Verdict}

theorem mem_of_first_eq {v : Verdict} (h : first verdicts = v) (hv : v ≠ .undecided) :
    v ∈ verdicts := by
  induction verdicts with
  | nil => exact absurd h.symm hv
  | cons a verdicts ih =>
    rw [first, List.foldr_cons, orElse] at h
    split at h
    · exact List.mem_cons_of_mem a (ih h)
    · exact h ▸ List.mem_cons_self

/-- Among verdicts that take nothing back in, one that ignores is enough. -/
theorem first_eq_ignored (h : .ignored ∈ verdicts) (plain : .included ∉ verdicts) :
    first verdicts = .ignored := by
  induction verdicts with
  | nil => cases h
  | cons a verdicts ih =>
    rw [first, List.foldr_cons, orElse]
    rw [List.mem_cons, not_or] at plain
    cases a with
    | ignored => rfl
    | included => exact absurd rfl plain.1
    | undecided => exact ih (by simpa using h) plain.2

end Verdict

/-- What takes nothing back in never says that something is included. -/
theorem IgnoreRule.verdict_ne_included {rule : IgnoreRule} {path : String} {isDirectory : Bool}
    (h : rule.includes = false) : rule.verdict path isDirectory ≠ .included := by
  unfold IgnoreRule.verdict
  split <;> simp [h]

namespace IgnoreFile

variable {rules : List IgnoreRule} {rule : IgnoreRule} {path dir : String} {isDirectory : Bool}

/-- What rules ignore, one of them does. -/
theorem exists_of_verdict_eq_ignored (h : verdict rules path isDirectory = .ignored) :
    ∃ rule ∈ rules, rule.verdict path isDirectory = .ignored := by
  simpa using Verdict.mem_of_first_eq h nofun

theorem verdict_ne_included (plain : ∀ rule ∈ rules, rule.includes = false) :
    verdict rules path isDirectory ≠ .included := by
  intro h
  obtain ⟨rule, hrule, heq⟩ := List.mem_map.1 (Verdict.mem_of_first_eq h nofun)
  exact IgnoreRule.verdict_ne_included (plain rule (List.mem_reverse.1 hrule)) heq

/-- Rules that take nothing back in ignore what one of them ignores. -/
theorem verdict_eq_ignored (plain : ∀ rule ∈ rules, rule.includes = false) (hrule : rule ∈ rules)
    (h : rule.verdict path isDirectory = .ignored) : verdict rules path isDirectory = .ignored := by
  refine Verdict.first_eq_ignored (List.mem_map.2 ⟨rule, List.mem_reverse.2 hrule, h⟩) fun hin => ?_
  obtain ⟨other, hother, heq⟩ := List.mem_map.1 hin
  exact IgnoreRule.verdict_ne_included (plain other (List.mem_reverse.1 hother)) heq

/-- Rules that take nothing back in ignore what is below a directory that they ignore. -/
theorem verdictUpwards_eq_ignored (plain : ∀ rule ∈ rules, rule.includes = false)
    (h : verdict rules path isDirectory = .ignored ∨
      ∃ dir ∈ Path.ancestors path, verdict rules dir true = .ignored) :
    verdictUpwards rules path isDirectory = .ignored := by
  have hnone : verdict rules path isDirectory ≠ .included := verdict_ne_included plain
  rw [verdictUpwards, Verdict.orElse]
  split
  · rename_i hundecided
    obtain ⟨dir, hdir, heq⟩ := h.resolve_left (by rw [hundecided]; nofun)
    refine Verdict.first_eq_ignored (List.mem_map.2 ⟨dir, hdir, heq⟩) fun hin => ?_
    obtain ⟨other, -, hincluded⟩ := List.mem_map.1 hin
    exact verdict_ne_included plain hincluded
  · rename_i hdecided
    cases hv : verdict rules path isDirectory with
    | undecided => exact absurd hv hdecided
    | ignored => rfl
    | included => exact absurd hv hnone

end IgnoreFile

/-! ## The query for one path -/

namespace IgnoreRules

variable {r : IgnoreRules} {disk : Disk} {base rel : List String} {bytes : ByteArray}

theorem withoutDot_spelled (hnames : ∀ name ∈ rel, Path.IsName name) :
    withoutDot ("/".intercalate rel) = "/".intercalate rel := by
  have hcurrent := Path.startsWithCurrent_spelled hnames
  unfold withoutDot
  split
  · rename_i rest hlist
    rw [hlist] at hcurrent
    simp [Path.startsWithCurrent, List.isPrefixOf] at hcurrent
  · rfl

/-- A file below the root is not ignored if none of its names is denied, no pattern of the settings
matches it, and the rules of the root do not ignore it. -/
theorem isIgnored_eq_false_iff (hroot : r.root ≠ "") (hnames : ∀ name ∈ rel, Path.IsName name)
    (hne : rel ≠ []) : r.isIgnored (Path.join r.root ("/".intercalate rel)) = false ↔
      (∀ name ∈ rel, isDenied (.name name) = false) ∧
      (∀ glob ∈ r.patterns, glob.isMatch ("/".intercalate rel) = false) ∧
      IgnoreFile.verdictUpwards r.rules ("/".intercalate rel) false ≠ .ignored := by
  unfold isIgnored
  rw [Path.relativeTo?_join_spelled hnames hroot hne]
  simp only [Option.getD_some, Path.isAbsolute_spelled hnames, Path.components_spelled hnames,
    withoutDot_spelled hnames]
  simp [and_assoc]

/-! ## The ignore files at the root -/

section
variable {root name : String} {entries : List (String × Node)}

/-- An entry of a directory is resolved by its name, if the path to it is not too long. -/
theorem resolve_join (hroot : disk.resolve root = .ok base)
    (hbase : disk.tree.find base = .ok (.dir entries)) (hname : Path.IsName name)
    (hnul : '\x00' ∉ name.toList) (hsize : name.utf8ByteSize ≤ Disk.maxName)
    (short : (Path.join root name).utf8ByteSize < Disk.pathLimit) :
    disk.resolve (Path.join root name) = .ok (base ++ [name]) := by
  have hne := Listing.ne_empty_of_resolve hroot
  have hall : ∀ other ∈ [name], Path.IsName other := by simpa using hname
  have hsingle : "/".intercalate [name] = name := by simp
  have habsolute : Path.isAbsolute name = false := hsingle ▸ Path.isAbsolute_spelled hall
  have hcomponents : Path.components (Path.join root name) = Path.components root ++ [.name name] :=
    hsingle ▸ Path.components_join_spelled hall hne
  unfold Disk.resolve at hroot ⊢
  split at hroot
  · cases hroot
  split at hroot
  · cases hroot
  rename_i htext
  split at hroot
  · cases hroot
  have hlist := Path.toList_join hne habsolute
  have hempty : (Path.join root name).isEmpty = false := by
    rw [String.isEmpty_eq_false_iff]
    intro hnil
    rw [hnil] at hlist
    exact hname.toList_ne_nil (List.append_eq_nil_iff.1 hlist.symm).2
  have hclean : (Path.join root name).toList.contains '\x00' = false := by
    rw [hlist]
    split <;> simp_all
  rw [hempty, hclean, if_neg Bool.false_ne_true, if_neg Bool.false_ne_true, if_neg (by omega),
    hcomponents, List.foldlM_append, hroot]
  change disk.resolveStep base (.name name) >>= pure = _
  have hstep : disk.resolveStep base (.name name) = .ok (base ++ [name]) := by
    have hlong : ¬Disk.maxName < name.utf8ByteSize := by omega
    simp [Disk.resolveStep, hbase, bind, Except.bind, Node.isDir, hlong]
  rw [hstep]
  rfl

/-- A path that ends in a name may lead to a file. -/
theorem demandsDirectory_join (hroot : root ≠ "") (hname : Path.IsName name) :
    Disk.demandsDirectory (Path.join root name) = false := by
  have hall : ∀ other ∈ [name], Path.IsName other := by simpa using hname
  have habsolute := Path.isAbsolute_spelled hall
  rw [String.intercalate_singleton] at habsolute
  rw [Disk.demandsDirectory, Path.toList_join hroot habsolute, ← List.head?_reverse,
    List.reverse_append]
  have hslash : ∀ c ∈ name.toList.reverse, c ≠ '/' :=
    fun c hc heq => hname.2.2.2 (heq ▸ List.mem_reverse.1 hc)
  have hdot : name.toList.reverse ≠ ['.'] :=
    fun heq => hname.toList_ne_dot (List.reverse_eq_iff.1 heq)
  match hlist : name.toList.reverse with
  | [] => exact absurd (List.reverse_eq_nil_iff.1 hlist) hname.toList_ne_nil
  | [c] =>
    rw [hlist] at hslash hdot
    have hc : c ≠ '.' := fun heq => hdot (by rw [heq])
    simp [List.isPrefixOf, hslash c (by simp), hc.symm]
  | c :: d :: rest =>
    rw [hlist] at hslash
    simp [List.isPrefixOf, hslash c (by simp), (hslash d (by simp)).symm]

/-- What the loaded rules hold of a file at the root is what a walk finds there. -/
theorem fileRules_join (hroot : disk.resolve root = .ok base)
    (hbase : disk.tree.find base = .ok (.dir entries)) (hname : Path.IsName name)
    (hnul : '\x00' ∉ name.toList) (hsize : name.utf8ByteSize ≤ Disk.maxName)
    (short : (Path.join root name).utf8ByteSize < Disk.pathLimit) :
    fileRules disk (Path.join root name) = DirectoryRules.rulesAt entries [name] := by
  have hresolve := resolve_join hroot hbase hname hnul hsize short
  have hfind : disk.tree.find (base ++ [name]) = (Node.dir entries).find [name] := by
    rw [Node.find_append, hbase]
    rfl
  have hfree := demandsDirectory_join (Listing.ne_empty_of_resolve hroot) hname
  have hstat : disk.stat (Path.join root name) = (Node.dir entries).find [name] := by
    unfold Disk.stat
    rw [hresolve, hfree]
    change (disk.tree.find (base ++ [name]) >>= fun node =>
      if node.isFile && false then .error .notADirectory else .ok node) = _
    rw [hfind]
    cases (Node.dir entries).find [name] <;> simp [bind, Except.bind]
  unfold fileRules Disk.read DirectoryRules.rulesAt
  rw [hstat]
  cases (Node.dir entries).find [name] with
  | error failure => rfl
  | ok node => cases node <;> rfl

theorem root_of_load {patterns : List String}
    (load : IgnoreRules.load disk root patterns = .ok r) : r.root = root := by
  unfold IgnoreRules.load at load
  split at load <;> cases load
  rfl

/-- The rules that are loaded are those that a walk finds at the root. -/
theorem rules_of_load {patterns : List String} (load : IgnoreRules.load disk root patterns = .ok r)
    (hroot : disk.resolve root = .ok base) (hbase : disk.tree.find base = .ok (.dir entries))
    (short : ∀ name ∈ [".gitignore", ownFileName],
      (Path.join root name).utf8ByteSize < Disk.pathLimit) :
    r.rules = (DirectoryRules.ofEntries disk base.length entries).git ++
      (DirectoryRules.ofEntries disk base.length entries).own := by
  unfold IgnoreRules.load at load
  split at load
  · cases load
  · cases load
    change fileRules _ _ ++ fileRules _ _ = _
    rw [fileRules_join hroot hbase (by decide) (by decide) (by decide) (short _ (by simp)),
      fileRules_join hroot hbase (by decide) (by decide) (by decide) (short _ (by simp))]
    rfl

end

/-- On the way down to a file there are no other ignore files than the two at the root. -/
def OnlyAtRoot (disk : Disk) (base rel : List String) : Prop :=
  ∀ rules ∈ Listing.chainAbove disk (base ++ rel),
    rules.general = [] ∧ rules.exclude = [] ∧
      (rules.depth ≠ base.length → rules.own = [] ∧ rules.git = [])

theorem mem_chainAbove {names : List String} {rules : DirectoryRules} :
    rules ∈ Listing.chainAbove disk names ↔ ∃ depth < names.length,
      rules = DirectoryRules.ofEntries disk depth
        (((disk.tree.find (names.take depth)).toOption.map Node.entries).getD []) := by
  simp only [Listing.chainAbove, List.mem_reverse, List.mem_map, List.mem_range, eq_comm]

/-- The directories above a way are above every longer one. -/
theorem mem_chainAbove_append {names others : List String} {rules : DirectoryRules}
    (h : rules ∈ Listing.chainAbove disk names) : rules ∈ Listing.chainAbove disk (names ++ others) := by
  obtain ⟨depth, hdepth, rfl⟩ := mem_chainAbove.1 h
  refine mem_chainAbove.2 ⟨depth, by rw [List.length_append]; omega, ?_⟩
  rw [List.take_append_of_le_length (Nat.le_of_lt hdepth)]

/-- If the ignore files at the root are the only ones, then what a walk leaves out below the root is left
out by one of their rules. -/
theorem exists_rule_of_verdict {front rest : List String} {entries : List (String × Node)}
    {isDirectory : Bool} (only : OnlyAtRoot disk base (front ++ rest))
    (hbase : disk.tree.find base = .ok (.dir entries))
    (h : DirectoryRules.verdict (Listing.chainAbove disk (base ++ front)) (base ++ front)
      isDirectory = .ignored) :
    ∃ rule ∈ (DirectoryRules.ofEntries disk base.length entries).git ++
        (DirectoryRules.ofEntries disk base.length entries).own,
      rule.verdict ("/".intercalate front) isDirectory = .ignored := by
  obtain ⟨kind, hkind, hverdict⟩ := List.mem_map.1 (Verdict.mem_of_first_eq h nofun)
  obtain ⟨rules, hrules, hfile⟩ := List.mem_map.1 (Verdict.mem_of_first_eq hverdict nofun)
  obtain ⟨rule, hrule, hignored⟩ := IgnoreFile.exists_of_verdict_eq_ignored hfile
  obtain ⟨hgeneral, hexclude, hother⟩ := only rules (by
    rw [← List.append_assoc]
    exact mem_chainAbove_append hrules)
  have hdepth : rules.depth = base.length := by
    by_contra hne
    obtain ⟨hown, hgit⟩ := hother hne
    simp only [List.mem_cons, List.not_mem_nil, or_false] at hkind
    rcases hkind with rfl | rfl | rfl | rfl <;> simp_all
  have hroot : rules = DirectoryRules.ofEntries disk base.length entries := by
    obtain ⟨depth, -, rfl⟩ := mem_chainAbove.1 hrules
    change depth = base.length at hdepth
    rw [hdepth, List.take_left' rfl, hbase]
    rfl
  rw [hdepth, List.drop_left] at hignored
  subst hroot
  refine ⟨rule, ?_, hignored⟩
  simp only [List.mem_cons, List.not_mem_nil, or_false] at hkind
  rcases hkind with rfl | rfl | rfl | rfl
  · exact List.mem_append_right _ hrule
  · rw [hgeneral] at hrule
    cases hrule
  · exact List.mem_append_left _ hrule
  · rw [hexclude] at hrule
    cases hrule

/-- What is accepted although the ignore files at the root take nothing back in is admitted by them. -/
theorem admits_of_onlyAtRoot {entries : List (String × Node)}
    (hnames : ∀ name ∈ rel, Path.IsName name) (only : OnlyAtRoot disk base rel)
    (hbase : disk.tree.find base = .ok (.dir entries))
    (hrules : r.rules = (DirectoryRules.ofEntries disk base.length entries).git ++
      (DirectoryRules.ofEntries disk base.length entries).own)
    (plain : ∀ rule ∈ r.rules, rule.includes = false)
    (h : IgnoreFile.verdictUpwards r.rules ("/".intercalate rel) false ≠ .ignored) :
    Listing.Admits disk base rel := by
  rintro front rest rfl hfront hverdict
  obtain ⟨rule, hrule, hignored⟩ := exists_rule_of_verdict only hbase hverdict
  rw [← hrules] at hrule
  have hdecided := IgnoreFile.verdict_eq_ignored plain hrule hignored
  apply h
  by_cases hrest : rest = []
  · subst hrest
    rw [List.append_nil]
    exact IgnoreFile.verdictUpwards_eq_ignored plain (Or.inl hdecided)
  · rw [show (!rest.isEmpty) = true by simpa using hrest] at hdecided
    refine IgnoreFile.verdictUpwards_eq_ignored plain (Or.inr ⟨_, ?_, hdecided⟩)
    exact Path.intercalate_mem_ancestors (fun name hin => hnames name (List.mem_append_left _ hin))
      (fun name hin => hnames name (List.mem_append_right _ hin)) hfront hrest

/-- An accepted file is listed if and only if no ignore file on the way leaves it out, and always if the
ignore files at the root are the only ones and take nothing back in. -/
theorem listed_iff_admits {root : String} {patterns : List String} {limit : Nat}
    (tidy : disk.tree.Tidy) (load : IgnoreRules.load disk root patterns = .ok r)
    (hroot : disk.resolve root = .ok base)
    (file : disk.tree.find (base ++ rel) = .ok (.file bytes)) (hne : rel ≠ [])
    (unlimited : (Listing.files disk root).length ≤ limit) :
    ((Path.join root ("/".intercalate rel) ∈ r.listFiles disk limit ∧
        r.accepts (Path.join root ("/".intercalate rel))) ↔
      r.accepts (Path.join root ("/".intercalate rel)) ∧ Listing.Admits disk base rel) ∧
    ((∀ name ∈ [".gitignore", ownFileName],
        (Path.join root name).utf8ByteSize < Disk.pathLimit) → OnlyAtRoot disk base rel →
      (∀ rule ∈ r.rules, rule.includes = false) →
      ((Path.join root ("/".intercalate rel) ∈ r.listFiles disk limit ∧
          r.accepts (Path.join root ("/".intercalate rel))) ↔
        r.accepts (Path.join root ("/".intercalate rel)))) := by
  obtain ⟨entries, hbase, hbelow⟩ := Listing.exists_dir_of_find file hne
  have hnames := ((tidy.find hbase).1.find hbelow).2
  have hroot' := Listing.ne_empty_of_resolve hroot
  obtain rfl : r.root = root := root_of_load load
  have hspared (haccepts : r.accepts (Path.join r.root ("/".intercalate rel)) = true) :=
    (isIgnored_eq_false_iff hroot' hnames hne).1
      (Bool.not_eq_true' _ ▸ (Bool.and_eq_true_iff.1 haccepts).2)
  -- accepting leaves nothing to decide but what the ignore files on the way say
  have hlisted : r.accepts (Path.join r.root ("/".intercalate rel)) = true →
      (Path.join r.root ("/".intercalate rel) ∈ r.listFiles disk limit ↔
        Listing.Admits disk base rel) := by
    intro haccepts
    rw [listFiles, List.take_of_length_le unlimited, Listing.mem_files_iff tidy hroot file hne,
      Listing.spared_iff_admits hnames (hspared haccepts).1]
  refine ⟨?_, fun short only plain => ?_⟩
  · rw [and_comm]
    exact and_congr_right hlisted
  · refine ⟨And.right, fun haccepts => ⟨(hlisted haccepts).2 ?_, haccepts⟩⟩
    exact admits_of_onlyAtRoot hnames only hbase (rules_of_load load hroot hbase short) plain
      (hspared haccepts).2.2

/-- A workspace with one note and an ignore file that names another one. -/
def flatDisk : Disk :=
  ⟨.dir [("ws", .dir [(".gitignore", .file "b.md\n".toUTF8), ("a.md", .file "A note.".toUTF8)])]⟩

theorem listed_iff_admits_flat :
    flatDisk.tree.Tidy ∧ (Listing.files flatDisk "/ws").length ≤ 1 ∧
      ∃ r, IgnoreRules.load flatDisk "/ws" [] = .ok r ∧
        (("/ws/a.md" ∈ r.listFiles flatDisk 1 ∧ r.accepts "/ws/a.md") ↔
          r.accepts "/ws/a.md" ∧ Listing.Admits flatDisk ["ws"] ["a.md"]) ∧
        (("/ws/a.md" ∈ r.listFiles flatDisk 1 ∧ r.accepts "/ws/a.md") ↔ r.accepts "/ws/a.md") := by
  have tidy : flatDisk.tree.Tidy := by
    simp only [flatDisk, Node.Tidy, Node.TidyEntries]
    decide
  have only : OnlyAtRoot flatDisk ["ws"] ["a.md"] := by
    intro rules hrules
    obtain ⟨depth, hdepth, rfl⟩ := mem_chainAbove.1 hrules
    have hle : depth = 0 ∨ depth = 1 := Nat.le_one_iff_eq_zero_or_eq_one.1 (Nat.le_of_lt_succ hdepth)
    rcases hle with rfl | rfl
    · exact ⟨rfl, rfl, fun _ => ⟨rfl, rfl⟩⟩
    · exact ⟨rfl, rfl, fun hne => absurd rfl hne⟩
  have unlimited : (Listing.files flatDisk "/ws").length ≤ 1 := by decide +kernel
  obtain ⟨r, load⟩ : ∃ r, IgnoreRules.load flatDisk "/ws" [] = .ok r := ⟨_, rfl⟩
  have root : flatDisk.resolve "/ws" = .ok ["ws"] := by decide +kernel
  have file : flatDisk.tree.find (["ws"] ++ ["a.md"]) = .ok (.file "A note.".toUTF8) := rfl
  obtain ⟨hiff, honly⟩ := listed_iff_admits tidy load root file (List.cons_ne_nil _ _) unlimited
  refine ⟨tidy, unlimited, r, load, hiff, honly (by decide +kernel) only ?_⟩
  cases load
  decide +kernel

/-- A workspace with a note that an ignore file beside it leaves out. -/
def nestedDisk : Disk :=
  ⟨.dir [("ws", .dir [("sub", .dir [(".gitignore", .file "a.md\n".toUTF8),
    ("a.md", .file "A note.".toUTF8)])])]⟩

/-- An ignore file below the root counts for the listing only: its note is accepted and never listed. -/
theorem accepted_not_listed_nested :
    nestedDisk.isFile "/ws/sub/a.md" = true ∧
      ∃ r, IgnoreRules.load nestedDisk "/ws" [] = .ok r ∧ r.accepts "/ws/sub/a.md" = true ∧
        ∀ limit, "/ws/sub/a.md" ∉ r.listFiles nestedDisk limit := by
  refine ⟨by decide +kernel, _, rfl, by decide +kernel, fun limit hin => ?_⟩
  have hnone : Listing.files nestedDisk "/ws" = [] := by decide +kernel
  rw [listFiles, hnone, List.take_nil] at hin
  cases hin

end IgnoreRules

end SourceIndex
