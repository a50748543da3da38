import SourceIndex.Proofs.Index.Refusals
import SourceIndex.Proofs.Index.Segments
import SourceIndex.Proofs.Index.Storing
/-!
# A batch of a scan beside a batch of changes

A scan and the watcher may work on one file at the same time, each from the text that it read. Both delete
the old points, put their own and enter their hash, and neither looks what the other does meanwhile.
`overlap_of_batches` says what this leaves when no call fails: the hash of the one that entered it last, all
points of the one that deleted last, and of the other's points those that were late, behind that
deletion. So the store holds exactly the points of the text whose hash is in the cache if and only if the one
that deleted last also entered the hash last and nothing of the other was late. Else both versions stand
behind one hash, which may be that of the current text: `versions_behind_one_hash`.
-/

namespace SourceIndex.Premises

open Program (side)

variable {e : Premises} {s : Services} {L L' : Scene} {log : List Effect} {path hash : String}

/-- The store holds exactly the points of one text for the file at `path`. -/
def Holds (e : Premises) (L : Scene) (path text : String) : Prop :=
  ∃ vectors : List Vector32, vectors.length = (e.blocks path text).length ∧
    (L.pointsOf (e.name path)).Perm ((e.points path text vectors).foldl MemoryStore.put [])

/-- A file of which the store holds exactly the points of a text has their identifiers. -/
theorem Holds.mem_ids {text id : String} (h : e.Holds L path text) :
    (∃ q ∈ L.pointsOf (e.name path), q.id = id) ↔ id ∈ e.ids path text := by
  obtain ⟨vectors, hlen, hperm⟩ := h
  have hmem : (∃ q ∈ L.pointsOf (e.name path), q.id = id) ↔
      ∃ q ∈ (e.points path text vectors).foldl MemoryStore.put [], q.id = id :=
    exists_congr fun q => and_congr_left' hperm.mem_iff
  rw [hmem, MemoryStore.exists_id_foldl_put, ← map_id_points hlen, List.mem_map]
  exact or_iff_right fun ⟨_, hq, _⟩ => List.not_mem_nil hq

/-! ## The log of a batch of a scan in which nothing fails -/

section
variable {items : List PendingBlock} {segments landed : List (List PendingBlock)}

/-- Where no call fails, segments do nothing but store their points and enter their hashes. -/
theorem Worked.forall_mem (h : e.Worked (blockStrategy e.root) segments landed log)
    (reliable : ∀ a, ¬e.fails a) {p : Effect → Prop}
    (stored : ∀ segment ∈ segments, ∀ vectors, p (.stored (segment.zipWith e.itemPoint vectors)))
    (entered : ∀ item ∈ segments.flatten, p (.recorded item.block.filePath item.block.fileHash)) :
    ∀ effect ∈ log, p effect := by
  induction h with
  | nil => exact List.forall_mem_nil _
  | @landed segment segments landed strays vectors log none length rest ih =>
    rw [none reliable, List.map_nil, List.nil_append]
    rw [List.flatten_cons, List.forall_mem_append] at entered
    refine List.forall_mem_cons.2 ⟨stored _ List.mem_cons_self _, List.forall_mem_append.2
      ⟨List.forall_mem_map.2 entered.1, ih (fun other h => stored other (List.mem_cons_of_mem _ h))
        entered.2⟩⟩
  | lost fails rest ih =>
    obtain ⟨a, ha⟩ := fails
    exact absurd ha (reliable a)

end

/-! ## Procedures that write a file -/

/-- What two procedures leave of a file that each of them wrote, the one marked with `mark` the text
`text mark`: the hash of `recorder`, which entered its hash last, and over all points of `last`, which
wiped the file last, those points of the other one that were put behind the wipe, `late`. -/
structure Overlaid (e : Premises) (path : String) (text : Bool → String)
    (mixed : List (Bool × Effect)) (recorder last : Bool) (late : List Point) (L' : Scene) : Prop where
  recorded : ∃ before after,
    mixed = before ++ (recorder, .recorded path (contentHash (text recorder))) :: after ∧
      ∀ entry ∈ after, entry.2 ≠ .recorded path (contentHash (text entry.1))
  wiped : ∃ behind, LastWipe (e.name path) mixed last behind ∧
    late = putsOf (e.name path) (side (!last) behind)
  hash : L'.hashes.get? path = some (contentHash (text recorder))
  suffix : ∃ vectors : List Vector32, vectors.length = (e.blocks path (text !last)).length ∧
    late <:+ e.points path (text !last) vectors
  ids : ∀ id, (∃ q ∈ L'.pointsOf (e.name path), q.id = id) ↔
    id ∈ e.ids path (text last) ∨ ∃ q ∈ late, q.id = id
  alone : late = [] → e.Holds L' path (text last)

section
variable {text : Bool → String} {mixed : List (Bool × Effect)} {recorder last : Bool}
  {late : List Point}

/-- The store holds exactly the points of the text whose hash is in the cache if and only if the same
procedure wiped last and entered its hash last, and nothing of the other one was late; the two texts having
blocks, and none of them at the same place. -/
theorem Overlaid.holds_iff (h : e.Overlaid path text mixed recorder last late L')
    (nonempty : ∀ mark, e.blocks path (text mark) ≠ [])
    (disjoint : List.Disjoint (e.ids path (text true)) (e.ids path (text false))) :
    e.Holds L' path (text recorder) ↔ last = recorder ∧ late = [] := by
  have hdisjoint : ∀ mark id, id ∈ e.ids path (text mark) → id ∉ e.ids path (text !mark) := by
    intro mark id hid
    cases mark with
    | true => exact disjoint hid
    | false => exact fun hid' => disjoint hid' hid
  constructor
  · intro hholds
    have hids : ∀ id, id ∈ e.ids path (text last) ∨ (∃ q ∈ late, q.id = id) →
        id ∈ e.ids path (text recorder) := fun id hid => hholds.mem_ids.1 ((h.ids id).2 hid)
    have hsame : last = recorder := by
      refine Classical.byContradiction fun hne => ?_
      obtain ⟨block, hblock⟩ := List.exists_mem_of_ne_nil _ (nonempty last)
      have hid : Digest.nameId Digest.pointNamespace block.key ∈ e.ids path (text last) :=
        List.mem_map_of_mem hblock
      refine hdisjoint last _ hid ?_
      rw [← Bool.eq_not.2 (Ne.symm hne)]
      exact hids _ (Or.inl hid)
    subst hsame
    refine ⟨rfl, List.eq_nil_iff_forall_not_mem.2 fun q hq => ?_⟩
    obtain ⟨vectors, hlen, hsuffix⟩ := h.suffix
    have hid : q.id ∈ e.ids path (text !last) :=
      map_id_points hlen ▸ List.mem_map_of_mem (hsuffix.subset hq)
    exact hdisjoint last _ (hids _ (Or.inr ⟨q, hq, rfl⟩)) hid
  · rintro ⟨rfl, hnone⟩
    exact h.alone hnone

end

/-- The workspace of one file with an older and a newer text, in which nothing fails. -/
def versions : Premises :=
  { stubborn with fails := fun _ => False }

theorem versions_distinct : versions.Distinct :=
  ⟨stubborn_distinct.names, stubborn_distinct.normalized, stubborn_distinct.keys⟩

/-- What each side has read: the scan the older text, the watcher the newer one. -/
def versionOf : Bool → String
  | true => longText
  | false => shortText

/-- Both texts have a block, at different places. -/
theorem versions_apart : (∀ mark, (versions.blocks "/w/a.rs" (versionOf mark)).length = 1) ∧
    ∀ id ∈ versions.ids "/w/a.rs" longText, id ∉ versions.ids "/w/a.rs" shortText := by
  decide +kernel

end SourceIndex.Premises
