import SourceIndex.Proofs.Index.Overlaps
import SourceIndex.Proofs.Index.Sweeps
/-!
# Results that a scan leaves outdated

If the cache agrees with the store, a scan in which nothing fails brings every listed file up to date and
removes what is not listed (`current_unless_too_large`), with one exception: a file that has outgrown the
largest size is skipped before anything is done about its earlier points, and as it is listed it does
not count as vanished either (`outdated_outgrown`).
-/

namespace SourceIndex.Premises

variable {e : Premises} {listed : List String} {size : String → Nat} {L : Scene}
  {path text : String} {s : Services} {mode : ScanMode}

/-- No two versions of a file have the same hash. -/
def Unmistaken (e : Premises) : Prop :=
  ∀ {path text other}, e.texts path text → e.texts path other → contentHash text = contentHash other →
    text = other

/-- The store holds exactly the points of the text whose hash is backed. -/
theorem Backed.holds (unmistaken : e.Unmistaken) (htext : e.texts path text)
    (h : e.Backed L path (contentHash text)) : e.Holds L path text := by
  obtain ⟨other, vectors, hother, hhash, hlen, hperm⟩ := h
  obtain rfl := unmistaken hother htext hhash
  exact ⟨vectors, hlen, hperm⟩

/-- After a scan in which nothing fails, and before which every file was in step, the listed files that can
be read and are not too large have exactly the points of their texts, and what is not listed has
nothing left. But a listed file that has become too large keeps the hash and the points that it had. -/
theorem current_unless_too_large (reliable : ∀ a, ¬e.fails a) (distinct : e.Distinct)
    (unmistaken : e.Unmistaken) (serves : e.Serves s) (quiet : e.Quiet mode)
    (indexes : mode.indexes = true) (ho : e.Orderly L)
    (steps : ∀ {path}, e.paths path → e.InStep L path) :
    (scan s mode).Ensures (e.cleanRules listed size) L fun _ L' => ∀ {path}, e.paths path →
      (path ∈ listed ∧ s.rules.accepts path →
        (∀ {text}, L.files path = some text → size path ≤ s.tuning.maxFileSize →
          L'.hashes.get? path = some (contentHash text) ∧ e.Holds L' path text) ∧
        (s.tuning.maxFileSize < size path → e.Same path L L')) ∧
      (¬(path ∈ listed ∧ s.rules.accepts path) →
        L'.hashes.get? path = none ∧ L'.pointsOf (e.name path) = []) := by
  refine (ensures_scan_clean reliable distinct serves quiet indexes ho).mono
    fun _ L' ⟨ho', _, hcleaned⟩ path hpath => ?_
  have hstep := steps hpath
  obtain ⟨current, passed, gone⟩ := hcleaned hpath
  rw [List.mem_filter] at current passed gone
  refine ⟨fun hin => ⟨fun {text} file hsize => ?_, fun hlarge => passed hin (Or.inr hlarge)⟩, fun hnot => ?_⟩
  · obtain ⟨hhash, hscanned⟩ := current hin file hsize
    have hstep' := hscanned.inStep hpath ho ho' (fun _ => reliable _) hstep
    exact ⟨hhash, (hstep'.backed hhash).holds unmistaken (ho.texts hpath file)⟩
  · obtain ⟨hhash, hpoints | ⟨hnone, hsame⟩⟩ := gone hnot
    · exact ⟨hhash, hpoints⟩
    · refine ⟨hhash, List.eq_nil_iff_forall_not_mem.2 fun q hq => ?_⟩
      rw [hsame.points, hstep.absent hnone] at hq
      cases hq

/-! ### A file that outgrows its limit -/

/-- The file was indexed with its short text and holds the long one. -/
def outgrown : Scene where
  files _ := some longText
  hashes := [("/w/a.rs", contentHash shortText)]
  points := versions.points "/w/a.rs" shortText [[]]

/-- Services that take files up to the size of the short text. -/
def boundedServices : Services :=
  { stubbornServices with
    tuning := { stubbornServices.tuning with maxFileSize := shortText.utf8ByteSize } }

/-- The scan of the file, which is as large as its text, with any services. -/
def scanOutgrown (s : Services) : ScanResult × Scene :=
  (scan s { tell := Lifecycle.showScan }).run
    (answer ["/w/a.rs"] fun _ => longText.utf8ByteSize) outgrown

theorem ends_scanOutgrown (s : Services) :
    Program.Ends (versions.cleanRules ["/w/a.rs"] fun _ => longText.utf8ByteSize)
      (scan s { tell := Lifecycle.showScan }) outgrown (scanOutgrown s).1 (scanOutgrown s).2 :=
  ends_answer (by decide) (fun _ h => List.mem_singleton.1 h) _

theorem versions_unmistaken : versions.Unmistaken := by
  obtain ⟨-, hdiffer, -⟩ := startStubborn_shortened
  intro path text other htext hother h
  rcases List.mem_pair.1 htext with rfl | rfl <;> rcases List.mem_pair.1 hother with rfl | rfl
  · rfl
  · exact absurd h hdiffer
  · exact absurd h.symm hdiffer
  · rfl

theorem orderly_outgrown : versions.Orderly outgrown where
  texts _ h := Option.some_inj.1 h ▸ List.mem_cons_self
  ids := by
    rw [show outgrown.points.map (·.id) = versions.ids "/w/a.rs" shortText from
      map_id_points (versions_apart.1 false).symm]
    decide +kernel
  known q hq := by
    obtain ⟨block, hblock, vector, rfl⟩ := exists_of_mem_zipWith hq
    exact Known.ofBlock ⟨rfl, List.mem_cons_of_mem _ List.mem_cons_self⟩ hblock vector
  cached {path hash} h :=
    List.mem_singleton.1 (Hashes.isSome_get?_iff.1 (Option.isSome_iff_exists.2 ⟨hash, h⟩))

theorem inStep_outgrown : versions.InStep outgrown "/w/a.rs" := by
  have hget : outgrown.hashes.get? "/w/a.rs" = some (contentHash shortText) := rfl
  have hpoints : outgrown.points = versions.points "/w/a.rs" shortText [[]] := rfl
  refine .of_points orderly_outgrown hget (List.mem_cons_of_mem _ List.mem_cons_self) ?_ hpoints
  exact (versions_apart.1 false).symm

theorem current_unless_too_large_outgrown :
    versions.Same "/w/a.rs" outgrown (scanOutgrown boundedServices).2 ∧
      versions.Holds (scanOutgrown stubbornServices).2 "/w/a.rs" longText := by
  have hpath : versions.paths "/w/a.rs" := rfl
  have hresult (s : Services) (serves : versions.Serves s) :=
    current_unless_too_large (fun _ h => h) versions_distinct versions_unmistaken serves quiet_showScan rfl
      orderly_outgrown (fun {path} hpath => hpath ▸ inStep_outgrown) _ _ (ends_scanOutgrown s) hpath
  refine ⟨((hresult boundedServices ⟨rfl, rfl, rfl⟩).1 ⟨List.mem_cons_self, ?_⟩).2 ?_,
    (((hresult stubbornServices ⟨rfl, rfl, rfl⟩).1 ⟨List.mem_cons_self, ?_⟩).1 rfl ?_).2⟩
  · decide +kernel
  · decide +kernel
  · decide +kernel
  · decide +kernel

/-- The file has outgrown its limit: a scan in which nothing fails leaves the hash and the point of its
earlier text, and nothing of the text that it holds. -/
theorem outdated_outgrown :
    Program.Ends (versions.cleanRules ["/w/a.rs"] fun _ => longText.utf8ByteSize)
        (scan boundedServices { tell := Lifecycle.showScan }) outgrown
        (scanOutgrown boundedServices).1 (scanOutgrown boundedServices).2 ∧
      outgrown.files "/w/a.rs" = some longText ∧ boundedServices.rules.accepts "/w/a.rs" = true ∧
      (scanOutgrown boundedServices).2.hashes.get? "/w/a.rs" = some (contentHash shortText) ∧
      contentHash shortText ≠ contentHash longText ∧
      versions.Stale (scanOutgrown boundedServices).2 "/w/a.rs" longText := by
  obtain ⟨-, hdiffer, -⟩ := startStubborn_shortened
  refine ⟨ends_scanOutgrown boundedServices, rfl, by decide +kernel, by decide +kernel,
    hdiffer.symm, by decide +kernel⟩

end SourceIndex.Premises
