import SourceIndex.Proofs.Ignore.Choices
import SourceIndex.Proofs.Index.Histories
/-!
# Which files a scan takes for vanished

A scan removes the hash and the points of every file that is cached but not listed. A listing ends at a
limit, which counts every file that the walk finds, indexed or not. `removed_iff_cut_off` follows a file
that is there and that no rule leaves out: it keeps its hash and its points exactly if its name has a
known extension and the listing comes to it before the limit.
-/

namespace SourceIndex.Premises

variable {e : Premises} {L : Scene} {s : Services} {mode : ScanMode} {disk : Disk}
  {base rel : List String} {bytes : ByteArray} {path : String}

/-- What the removal of vanished files leaves of a cached file: everything if it is listed; otherwise
nothing, unless the deletion is refused. -/
theorem ensures_removeVanished_of_cached (distinct : e.Distinct) (serves : e.Serves s)
    (quiet : e.Quiet mode) (indexes : mode.indexes = true) (ho : e.Orderly L)
    (cached : (L.hashes.get? path).isSome) {listed : List String} :
    (Scan.removeVanished s mode listed).Ensures e.rules L fun _ L' =>
      (path ∈ listed → e.Same path L L') ∧
      (path ∉ listed → L'.hashes.get? path = none ∧ L'.pointsOf (e.name path) = [] ∨
        (∃ paths, e.fails (.deletePoints paths)) ∧ L'.hashes = L.hashes ∧ L'.points = L.points) := by
  refine (ensures_removeVanished serves quiet indexes).mono fun _ L' ⟨vanished, hvanished, hcases⟩ => ?_
  obtain ⟨hash, hhash⟩ := Option.isSome_iff_exists.1 cached
  have hothers := fun other hin => ((hvanished other).1 hin).1
  refine ⟨fun hin => ?_, fun hnot => ?_⟩
  · have hkept : path ∉ vanished := fun h => ((hvanished path).1 h).2 hin
    have hname := name_notMem_map distinct ho (ho.cached hhash) hothers hkept
    rcases hcases with rfl | ⟨-, rfl⟩
    · exact (Same.deletePoints hname).trans (Same.forget hkept)
    · exact Same.refuse hname
  · have hgone : path ∈ vanished := (hvanished path).2 ⟨cached, hnot⟩
    rcases hcases with rfl | ⟨hfails, rfl⟩
    · refine Or.inl ⟨by rw [Scene.get?_forget, if_pos hgone], ?_⟩
      exact Scene.pointsOf_deletePoints.trans (if_pos (List.mem_map_of_mem hgone))
    · exact Or.inr ⟨hfails, rfl, rfl⟩

/-- A cached file that is there, and that neither an ignore file nor the settings leave out, keeps its
hash and its points if its extension is known and the listing comes to it before its limit. Otherwise it
loses both, unless the deletion is refused. -/
theorem removed_iff_cut_off (distinct : e.Distinct) (serves : e.Serves s) (quiet : e.Quiet mode)
    (indexes : mode.indexes = true) (ho : e.Orderly L) (tidy : disk.tree.Tidy)
    (hroot : disk.resolve s.rules.root = .ok base)
    (file : disk.tree.find (base ++ rel) = .ok (.file bytes)) (hne : rel ≠ [])
    (hpath : path = Path.join s.rules.root ("/".intercalate rel))
    (admitted : Listing.Admits disk base rel) (spared : s.rules.isIgnored path = false)
    (cached : (L.hashes.get? path).isSome) :
    (Scan.removeVanished s mode
        ((s.rules.listFiles disk s.tuning.maxListedFiles).filter s.rules.accepts)).Ensures e.rules L
      fun _ L' =>
        (isSupportedPath path ∧
            (Listing.files disk s.rules.root).idxOf path < s.tuning.maxListedFiles →
          e.Same path L L') ∧
        (¬(isSupportedPath path ∧
            (Listing.files disk s.rules.root).idxOf path < s.tuning.maxListedFiles) →
          L'.hashes.get? path = none ∧ L'.pointsOf (e.name path) = [] ∨
            (∃ paths, e.fails (.deletePoints paths)) ∧ L'.hashes = L.hashes ∧
              L'.points = L.points) := by
  have hfound : path ∈ Listing.files disk s.rules.root := by
    obtain ⟨entries, hbase, hbelow⟩ := Listing.exists_dir_of_find file hne
    have hnames := ((tidy.find hbase).1.find hbelow).2
    have hempty := Listing.ne_empty_of_resolve hroot
    rw [hpath, IgnoreRules.isIgnored_eq_false_iff hempty hnames hne] at spared
    rw [hpath, Listing.mem_files_iff tidy hroot file hne, Listing.spared_iff_admits hnames spared.1]
    exact admitted
  have hlisted : path ∈ (s.rules.listFiles disk s.tuning.maxListedFiles).filter s.rules.accepts ↔
      isSupportedPath path ∧
        (Listing.files disk s.rules.root).idxOf path < s.tuning.maxListedFiles := by
    rw [List.mem_filter, IgnoreRules.listFiles, List.mem_take_iff_idxOf_lt hfound, and_comm,
      IgnoreRules.accepts, spared]
    simp
  rw [← hlisted]
  exact ensures_removeVanished_of_cached distinct serves quiet indexes ho cached

/-! ### A listing that is too short -/

/-- The disk of the small workspace. -/
def smallDisk : Disk :=
  ⟨.dir [("w", .dir [("a.rs", .file (smallText "/w/a.rs").toUTF8),
    ("b.rs", .file (smallText "/w/b.rs").toUTF8)])]⟩

/-- The services of the small workspace with a limit of one listed file. -/
def narrowServices : Services :=
  { smallServices with tuning := { smallServices.tuning with maxListedFiles := 1 } }

/-- The small workspace with its second file indexed. -/
def secondIndexed : Scene where
  files path := some (smallText path)
  hashes := [("/w/b.rs", contentHash (smallText "/w/b.rs"))]
  points := small.points "/w/b.rs" (smallText "/w/b.rs") [[]]

theorem orderly_secondIndexed : small.Orderly secondIndexed where
  texts _ h := (Option.some_inj.1 h).symm
  ids := by
    have hone : secondIndexed.points.length = 1 := by decide +kernel
    obtain ⟨q, hq⟩ := List.length_eq_one_iff.1 hone
    rw [hq]
    exact List.nodup_singleton _
  known q hq := by
    obtain ⟨block, hblock, vector, rfl⟩ := exists_of_mem_zipWith hq
    exact Known.ofBlock ⟨List.mem_cons_of_mem _ List.mem_cons_self, rfl⟩ hblock vector
  cached {path hash} h := by
    have hin : path ∈ ["/w/b.rs"] := Hashes.isSome_get?_iff.1 (Option.isSome_iff_exists.2 ⟨hash, h⟩)
    exact List.mem_cons_of_mem _ hin

/-- The removal on the small workspace, with the files that its listing comes to before the limit. -/
def narrowRemoval : Procedure Unit :=
  Scan.removeVanished narrowServices { tell := Lifecycle.showScan }
    ((narrowServices.rules.listFiles smallDisk narrowServices.tuning.maxListedFiles).filter
      narrowServices.rules.accepts)

theorem removed_iff_cut_off_narrow :
    smallDisk.tree.Tidy ∧ Listing.Admits smallDisk ["w"] ["b.rs"] ∧
      narrowServices.rules.isIgnored "/w/b.rs" = false ∧
      ¬(isSupportedPath "/w/b.rs" ∧ (Listing.files smallDisk "/w").idxOf "/w/b.rs" < 1) ∧
      narrowRemoval.Ensures small.rules secondIndexed fun _ L' =>
        L'.hashes.get? "/w/b.rs" = none ∧ L'.pointsOf (small.name "/w/b.rs") = [] := by
  have tidy : smallDisk.tree.Tidy := by
    simp only [smallDisk, Node.Tidy, Node.TidyEntries]
    decide
  have admitted : Listing.Admits smallDisk ["w"] ["b.rs"] :=
    Listing.admits_cons.2 ⟨by decide +kernel, Listing.admits_nil⟩
  have spared : narrowServices.rules.isIgnored "/w/b.rs" = false := by decide +kernel
  have cut : ¬(isSupportedPath "/w/b.rs" ∧ (Listing.files smallDisk "/w").idxOf "/w/b.rs" < 1) := by
    decide +kernel
  refine ⟨tidy, admitted, spared, cut, ?_⟩
  have serves : small.Serves narrowServices := ⟨rfl, rfl, rfl⟩
  have root : smallDisk.resolve narrowServices.rules.root = .ok ["w"] := by decide +kernel
  have file : smallDisk.tree.find (["w"] ++ ["b.rs"]) =
      .ok (.file (smallText "/w/b.rs").toUTF8) := rfl
  have spelled : "/w/b.rs" = Path.join narrowServices.rules.root ("/".intercalate ["b.rs"]) := rfl
  have hremoval := removed_iff_cut_off small_distinct serves quiet_showScan rfl orderly_secondIndexed
    tidy root file (List.cons_ne_nil _ _) spelled admitted spared (by decide +kernel)
  refine hremoval.mono fun _ L' h => (h.2 cut).resolve_right ?_
  rintro ⟨⟨_, hfails⟩, -⟩
  exact hfails

/-- The second file is there, no rule leaves it out, and its listing is only too short: it loses its hash
and its points. -/
theorem removed_behind_limit :
    smallDisk.isFile "/w/b.rs" = true ∧ narrowServices.rules.accepts "/w/b.rs" = true ∧
      "/w/b.rs" ∈ Listing.files smallDisk "/w" ∧
      (secondIndexed.hashes.get? "/w/b.rs").isSome = true ∧
      (secondIndexed.pointsOf (small.name "/w/b.rs")).length = 1 ∧
      ∀ after, after = (narrowRemoval.run (respond [] fun _ => false) secondIndexed).2 →
        after.hashes.get? "/w/b.rs" = none ∧ after.pointsOf (small.name "/w/b.rs") = [] := by
  refine ⟨by decide +kernel, by decide +kernel, by decide +kernel, by decide +kernel,
    by decide +kernel, ?_⟩
  rintro _ rfl
  exact ⟨by decide +kernel, List.isEmpty_iff.1 (by decide +kernel)⟩

end SourceIndex.Premises
