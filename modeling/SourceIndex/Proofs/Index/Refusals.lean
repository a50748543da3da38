import SourceIndex.Proofs.Index.Histories
/-!
# Refused deletions

When a scan is refused the deletion of a changed file's old points, it stores the new ones nevertheless
and enters the new hash. `stale_points_iff_of_refused` says when old points are left behind that hash:
exactly if there was one under an identifier that no block of the new text has. The file is not marked
for another try, so that later starts skip it as long as its text stays.
-/

namespace SourceIndex.Premises

variable {e : Premises} {s : Services} {L L' : Scene} {path text hash : String}

/-- A point is stale for a file that holds `text` if it bears none of the identifiers of its points. -/
def Stale (e : Premises) (L : Scene) (path text : String) : Prop :=
  ∃ q ∈ L.pointsOf (e.name path), q.id ∉ e.ids path text

/-- A scene with new points put over old ones has a stale point if and only if the old one had. -/
theorem stale_iff_of_put {vectors : List Vector32} {base : List Point}
    (hlen : vectors.length = (e.blocks path text).length)
    (hmem : ∀ q, q ∈ L'.pointsOf (e.name path) ↔
      q ∈ (e.points path text vectors).foldl MemoryStore.put base) :
    e.Stale L' path text ↔ ∃ q ∈ base, q.id ∉ e.ids path text := by
  unfold Stale
  rw [← map_id_points hlen]
  constructor
  · rintro ⟨q, hq, hid⟩
    rw [hmem, MemoryStore.mem_foldl_put] at hq
    rcases hq with hq | ⟨hq, -⟩
    · rcases MemoryStore.mem_or_mem_of_mem_foldl_put hq with hq | hq
      · exact absurd (List.mem_map_of_mem hq) hid
      · cases hq
    · exact ⟨q, hq, hid⟩
  · rintro ⟨q, hq, hid⟩
    refine ⟨q, (hmem q).2 (MemoryStore.mem_foldl_put.2 (Or.inr ⟨hq, fun p hp heq => ?_⟩)), hid⟩
    exact hid (heq ▸ List.mem_map_of_mem hp)

/-- If a start ends well and the deletion of a changed file's old points was refused, then behind the new
hash of the file there are stale points if and only if there were such points before. -/
theorem stale_points_iff_of_refused (distinct : e.Distinct) (serves : e.Serves s) (ho : e.Orderly L)
    (hpath : e.paths path) (file : L.files path = some text)
    (cached : L.hashes.get? path = some hash) (changed : hash ≠ contentHash text)
    (run : Program.Ends e.rules (Lifecycle.start s) L (.ok ()) L')
    (before : e.name path ∉ L.refused) (refused : e.name path ∈ L'.refused) :
    L'.hashes.get? path = some (contentHash text) ∧ e.Stale L' path text ↔
      L'.hashes.get? path = some (contentHash text) ∧ e.Stale L path text := by
  refine and_congr_right fun hnew => ?_
  rcases ensures_start distinct serves ho _ _ run with
    rfl | ⟨-, L₁, hbegun, hswept⟩ | ⟨⟨failure, hfailure⟩, -⟩
  · exact absurd refused before
  · have hscanned := (hswept.scanned hpath).resolve_left fun hnone => by
      rw [hnew] at hnone
      cases hnone.1
    cases hbegun with
    | reconciled h =>
      have hsame := h.known hpath (cached ▸ rfl)
      cases hscanned with
      | kept hkept points =>
        rw [hnew, hsame.hash, cached, Option.some_inj] at hkept
        exact absurd hkept.symm changed
      | @stored text' vectors base file' changed' hash' length beneath points =>
        rw [h.files, file, Option.some_inj] at file'
        subst file'
        cases beneath with
        | deleted cached' refused' => exact absurd (hsame.refused.1 (refused'.1 refused)) before
        | unknown uncached refused' => exact absurd (hsame.refused.1 (refused'.1 refused)) before
        | refused cached' refused' fails =>
          refine (stale_iff_of_put length points).trans ?_
          simp only [hsame.points]
          rfl
    | emptied orderly files hashes points refusedEq =>
      cases hscanned with
      | kept hkept points =>
        rw [hnew, hashes] at hkept
        cases hkept
      | stored file' changed' hash' length beneath points =>
        cases beneath with
        | deleted cached' refused' =>
          rw [hashes] at cached'
          cases cached'
        | unknown uncached refused' => exact absurd (refusedEq ▸ refused'.1 refused) before
        | refused cached' refused' fails =>
          rw [hashes] at cached'
          cases cached'
  · cases hfailure

/-! ### A file whose old points stay -/

instance (e : Premises) (L : Scene) (path text : String) : Decidable (e.Stale L path text) :=
  inferInstanceAs (Decidable (∃ q ∈ L.pointsOf (e.name path), q.id ∉ e.ids path text))

/-- The older text of a file, in three lines. -/
def longText : String := "fn first() \x7b\n\n\x7d"

/-- The newer text of the file, in one line. -/
def shortText : String := smallText "/w/a.rs"

/-- A workspace of one file, in which deletions may fail. -/
def stubborn : Premises where
  root := "/w"
  trees _ text := some (functionTree text)
  policy := { minBlock := 10 }
  paths path := path = "/w/a.rs"
  texts _ text := text ∈ [longText, shortText]
  fails a := ∃ paths, a = .deletePoints paths

def stubbornServices : Services where
  root := stubborn.root
  tuning := { chunk := stubborn.policy }
  trees := stubborn.trees
  rules := { root := stubborn.root }

/-- Run a start on the file, refusing what is to be refused. -/
def startStubborn (refuses : Action → Bool) (L : Scene) : Except IndexError Unit × Scene :=
  (Lifecycle.start stubbornServices).run (respond ["/w/a.rs"] refuses) L

/-- Whether a request is a deletion. -/
def isDeletion : Action → Bool
  | .deletePoints _ => true
  | _ => false

/-- The file was indexed with its older text and then shortened. -/
def shortened : Scene :=
  { (startStubborn (fun _ => false) { files := fun _ => some longText }).2 with
    files := fun _ => some shortText }

theorem ends_startStubborn (refuses : Action → Bool)
    (h : ∀ a, refuses a = true → stubborn.fails a) (L : Scene) :
    Program.Ends stubborn.rules (Lifecycle.start stubbornServices) L (startStubborn refuses L).1
      (startStubborn refuses L).2 :=
  ends_respond ["/w/a.rs"] refuses (by decide) (fun _ h => List.mem_singleton.1 h) h _ L

/-- What the index knows of the shortened file before and after a start that is refused the deletion. -/
theorem startStubborn_shortened :
    shortened.hashes.get? "/w/a.rs" = some (contentHash longText) ∧
      contentHash longText ≠ contentHash shortText ∧ shortened.refused = [] ∧
      (startStubborn isDeletion shortened).1 = .ok () ∧
      stubborn.name "/w/a.rs" ∈ (startStubborn isDeletion shortened).2.refused ∧
      (startStubborn isDeletion shortened).2.hashes.get? "/w/a.rs" =
        some (contentHash shortText) ∧
      stubborn.Stale (startStubborn isDeletion shortened).2 "/w/a.rs" shortText := by
  decide +kernel

theorem ends_shortened : Program.Ends stubborn.rules (Lifecycle.start stubbornServices) shortened
    (.ok ()) (startStubborn isDeletion shortened).2 := by
  have hdeletion (a : Action) (h : isDeletion a = true) : stubborn.fails a := by
    cases a with
    | deletePoints paths => exact ⟨paths, rfl⟩
    | _ => cases h
  have hrun := ends_startStubborn isDeletion hdeletion shortened
  obtain ⟨-, -, -, hok, -⟩ := startStubborn_shortened
  rw [hok] at hrun
  exact hrun

/-- A start that is refused the deletion ends well, enters the hash of the shortened file, and leaves the
points of the older text behind it. -/
theorem stale_points_of_shortened : ∃ L',
    Program.Ends stubborn.rules (Lifecycle.start stubbornServices) shortened (.ok ()) L' ∧
      stubborn.name "/w/a.rs" ∈ L'.refused ∧
      L'.hashes.get? "/w/a.rs" = some (contentHash shortText) ∧
      stubborn.Stale L' "/w/a.rs" shortText := by
  obtain ⟨-, -, -, -, hrefused, hnew, hstale⟩ := startStubborn_shortened
  exact ⟨_, ends_shortened, hrefused, hnew, hstale⟩

theorem stubborn_key {key : String} (h : stubborn.IsKey key) :
    key = "/w/a.rs:1:3" ∨ key = "/w/a.rs:1:1" := by
  obtain ⟨path, text, block, ⟨rfl, htext⟩, hblock, rfl⟩ := h
  have hmem : block.key ∈ (stubborn.blocks "/w/a.rs" text).map Block.key :=
    List.mem_map_of_mem hblock
  have hlong : (stubborn.blocks "/w/a.rs" longText).map Block.key = ["/w/a.rs:1:3"] := by
    decide +kernel
  have hshort : (stubborn.blocks "/w/a.rs" shortText).map Block.key = ["/w/a.rs:1:1"] := by
    decide +kernel
  rcases List.mem_pair.1 htext with rfl | rfl
  · rw [hlong] at hmem
    exact Or.inl (List.mem_singleton.1 hmem)
  · rw [hshort] at hmem
    exact Or.inr (List.mem_singleton.1 hmem)

theorem stubborn_distinct : stubborn.Distinct := by
  have hid : Digest.nameId Digest.pointNamespace "/w/a.rs:1:3" ≠
      Digest.nameId Digest.pointNamespace "/w/a.rs:1:1" := by
    decide +kernel
  refine ⟨fun hp hq _ => hp.trans hq.symm, fun hp hq _ => hp.trans hq.symm, fun hk hl h => ?_⟩
  rcases stubborn_key hk with rfl | rfl <;> rcases stubborn_key hl with rfl | rfl
  · rfl
  · exact absurd h hid
  · exact absurd h.symm hid
  · rfl

theorem orderly_shortened : stubborn.Orderly shortened := by
  have hempty : stubborn.Orderly { files := fun _ => some longText } :=
    ⟨fun _ h => Option.some_inj.1 h ▸ List.mem_cons_self, List.nodup_nil, nofun, nofun⟩
  have hrun := ends_startStubborn (fun _ => false) nofun { files := fun _ => some longText }
  have ho : stubborn.Orderly
      (startStubborn (fun _ => false) { files := fun _ => some longText }).2 := by
    rcases ensures_start stubborn_distinct ⟨rfl, rfl, rfl⟩ hempty _ _ hrun with
      h | ⟨-, L₁, -, hswept⟩ | ⟨-, ho, -⟩
    · rw [h]
      exact hempty
    · exact hswept.orderly
    · exact ho
  refine ⟨fun _ h => ?_, ho.ids, ho.known, ho.cached⟩
  exact Option.some_inj.1 h ▸ List.mem_cons_of_mem _ List.mem_cons_self

/-- The shortened file has stale points after the start as it had before. -/
theorem stale_points_iff_of_refused_shortened : ∃ L',
    (L'.hashes.get? "/w/a.rs" = some (contentHash shortText) ∧
        stubborn.Stale L' "/w/a.rs" shortText ↔
      L'.hashes.get? "/w/a.rs" = some (contentHash shortText) ∧
        stubborn.Stale shortened "/w/a.rs" shortText) := by
  obtain ⟨hcached, hchanged, hbefore, -, hrefused, -, -⟩ := startStubborn_shortened
  have hnot : stubborn.name "/w/a.rs" ∉ shortened.refused := by
    rw [hbefore]
    exact List.not_mem_nil
  exact ⟨_, stale_points_iff_of_refused stubborn_distinct ⟨rfl, rfl, rfl⟩ orderly_shortened rfl rfl
    hcached hchanged ends_shortened hnot hrefused⟩

end SourceIndex.Premises
