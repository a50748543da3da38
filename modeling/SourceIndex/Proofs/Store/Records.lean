import SourceIndex.Point.Codec
import SourceIndex.Proofs.Block.Records
import SourceIndex.Proofs.Store.Filters
import SourceIndex.Store.Collection
/-!
# Payloads as records

A payload that is written as an object is read back as it was; only path, text and lines have to be there
(`Payload.survives`). What it knows of the levels of its file is a map, so reading puts the levels into the order
of their keys, which is the order they have in a point (`Payload.wellFormed_ofBlock`). `Payload.records_survive`
says this of all the records that are stored: payloads, as the database gives them back, blocks and containers.
-/

namespace SourceIndex

open Json

/-! ## Maps in key order -/

section Sorting

variable {α : Type} {entries found : List (String × α)}

theorem sortByKey_nil : sortByKey ([] : List (String × α)) = [] := List.mergeSort_nil

/-- If every key has one entry, the entries are put in the order of their keys. -/
theorem pairwise_sortByKey (hnodup : (entries.map (·.1)).Nodup) :
    (sortByKey entries).Pairwise fun a b => a.1 < b.1 := by
  have hle : (sortByKey entries).Pairwise fun a b => Text.le a.1 b.1 = true := by
    refine List.pairwise_mergeSort (fun a b c hab hbc => ?_) (fun a b => ?_) entries
    · simp only [Text.le, Bool.not_eq_true', decide_eq_false_iff_not] at hab hbc ⊢
      exact String.le_trans hab hbc
    · simp only [Text.le, Bool.or_eq_true, Bool.not_eq_true', decide_eq_false_iff_not]
      exact String.le_total a.1 b.1
  have hne : (sortByKey entries).Pairwise fun a b => a.1 ≠ b.1 :=
    List.pairwise_map.1 (((List.mergeSort_perm entries _).map _).nodup_iff.2 hnodup)
  refine (hle.and hne).imp fun {a b} h => ?_
  obtain ⟨hab, hkeys⟩ := h
  by_contra hlt
  have hba : ¬ b.1 < a.1 := by simpa [Text.le] using hab
  exact hkeys (String.le_antisymm hba hlt)

theorem nodup_of_sorted (hsorted : entries.Pairwise fun a b => a.1 < b.1) : (entries.map (·.1)).Nodup :=
  List.pairwise_map.2 (hsorted.imp fun {a b} hab (heq : a.1 = b.1) => String.lt_irrefl b.1 (heq ▸ hab))

/-- A map that is read in any order is put in the order of its keys. -/
theorem sortByKey_eq_of_perm (hsorted : entries.Pairwise fun a b => a.1 < b.1) (h : found.Perm entries) :
    sortByKey found = entries :=
  List.Perm.eq_of_pairwise (fun _ _ _ _ hab hba => (String.lt_asymm hab hba).elim)
    (pairwise_sortByKey ((h.map _).nodup_iff.2 (nodup_of_sorted hsorted))) hsorted
    ((List.mergeSort_perm found _).trans h)

end Sorting

namespace Payload

variable {p : Payload} {removed : String → Bool} {value : Json}

/-- Lines are machine words, and the levels are a map in the order of its keys. -/
structure WellFormed (p : Payload) : Prop where
  startLine : p.startLine < Nat.pow 2 64
  endLine : p.endLine < Nat.pow 2 64
  pathSegments : p.pathSegments.Pairwise fun a b => a.1 < b.1

/-- The fields that may be missing. -/
def mayMiss : List String :=
  ["chunkSource", "type", "identifier", "parentChain", "hierarchyDisplay", "pathSegments"]

/-- The fields that have to be there. -/
def mustStand : List String := ["filePath", "codeChunk", "startLine", "endLine"]

/-- A payload with some of its fields at their defaults. -/
def reset (removed : String → Bool) (p : Payload) : Payload :=
  { p with
    chunkSource := if removed "chunkSource" then none else p.chunkSource
    blockType := if removed "type" then none else p.blockType
    identifier := if removed "identifier" then none else p.identifier
    parentChain := if removed "parentChain" then [] else p.parentChain
    hierarchyDisplay := if removed "hierarchyDisplay" then none else p.hierarchyDisplay
    pathSegments := if removed "pathSegments" then [] else p.pathSegments }

theorem nodup_members (p : Payload) : (p.toJson.members.map (·.1)).Nodup := by
  simp [toJson, Json.members, asFields?]

theorem ofJson?_without (hp : p.WellFormed) (h : Rearranged (.obj (without removed p.toJson.members)) value) :
    ofJson? value = if mustStand.any removed then none else some (p.reset removed) := by
  have hnodup := nodup_members p
  have htext {x : Option String} {value : Json} (h : Rearranged (ofOption .str x) value) :
      Members.nullable asStr? value = some x :=
    nullable_of_rearranged rfl (fun _ _ _ => asStr?_of_rearranged) h
  have hmap {value : Json} (h : Rearranged (.obj (p.pathSegments.map fun entry => (entry.1, .str entry.2))) value) :
      (decodeMap asStr? value).map sortByKey = some p.pathSegments := by
    have hkeys : (p.pathSegments.map (·.1)).Nodup := nodup_of_sorted hp.pathSegments
    obtain ⟨found, hfound, hperm⟩ := decodeMap_of_rearranged (fun _ _ => asStr?_of_rearranged) hkeys h
    rw [hfound, Option.map_some, sortByKey_eq_of_perm hp.pathSegments hperm]
  obtain ⟨fields, rfl, -⟩ := h.obj_inv (nodup_without hnodup)
  have hsorted : ((Members.named fields).defaulted 9 "pathSegments" [] (decodeMap asStr?)).map sortByKey =
      some (if removed "pathSegments" then [] else p.pathSegments) := by
    rw [Members.map_defaulted, sortByKey_nil]
    exact defaulted_without "pathSegments" hnodup h rfl hmap
  obtain ⟨segments, hsegments, hsorted⟩ := Option.map_eq_some_iff.1 hsorted
  unfold ofJson? mustStand
  dsimp only [Members.of?]
  rw [Option.bind_eq_bind, Option.bind_some,
    required_without "filePath" hnodup h rfl asStr?_of_rearranged,
    required_without "codeChunk" hnodup h rfl asStr?_of_rearranged,
    required_without "startLine" hnodup h rfl (decodeWord_of_rearranged hp.startLine),
    required_without "endLine" hnodup h rfl (decodeWord_of_rearranged hp.endLine),
    defaulted_without "chunkSource" hnodup h rfl htext,
    defaulted_without "type" hnodup h rfl htext,
    defaulted_without "identifier" hnodup h rfl htext,
    defaulted_without "parentChain" hnodup h rfl
      (decodeList_of_rearranged Syntax.ParentContainer.ofJson?_of_rearranged),
    defaulted_without "hierarchyDisplay" hnodup h rfl htext, hsegments]
  simp only [Option.bind_eq_bind, Option.bind_some, bind_ite_none, ite_any_cons, List.any_nil,
    Bool.false_eq_true, if_false, hsorted]
  rfl

/-- Of a payload only path, text and lines have to be there. -/
theorem survives (hp : p.WellFormed) : Survives toJson ofJson? mayMiss reset p :=
  .of_decode rfl rfl (by simp [reset]) (ofJson?_without hp)

/-- What is stored for a block is well-formed if the lines of the block are. -/
theorem wellFormed_ofBlock {root : String} {b : Block} {vector : Vector32} (hb : b.InWords) :
    (Point.ofBlock root b vector).payload.WellFormed where
  startLine := hb.startLine
  endLine := hb.endLine
  pathSegments := pairwise_sortByKey (PointFilter.nodup_numbers _)

end Payload

/-! ## What is stored -/

/-- What is stored is read as it was written: a payload, also when it comes back with a point that was found, a
block, and a container around one. Of the members of such an object those may be missing whose fields have a
default, and no others. -/
theorem records_survive {p : Payload} {b : Block} (hp : p.WellFormed) (hb : b.InWords) :
    Survives Payload.toJson Payload.ofJson? Payload.mayMiss Payload.reset p ∧
      (∀ (id : Option StoredId) (score : Float32) (fields : List (String × Json)),
        Rearranged p.toJson (.obj fields) →
          Collection.hitOf? ⟨id, score, fields⟩ = some ⟨(id.map StoredId.name).getD "", score, p⟩) ∧
      Survives Block.toJson Block.ofJson? Block.mayMiss Block.reset b ∧
      ∀ c : Syntax.ParentContainer,
        Survives Syntax.ParentContainer.toJson Syntax.ParentContainer.ofJson? [] (fun _ c => c) c := by
  refine ⟨Payload.survives hp, fun id score fields h => ?_, Block.survives hb, Syntax.ParentContainer.survives⟩
  rw [Collection.hitOf?, (Payload.survives hp).decode_encode h, Option.map_some]

/-- A function in a module. -/
def loadBlock : Block where
  filePath := "/w/src/repo.rs"
  identifier := some "load"
  blockType := "function_item"
  startLine := 2
  endLine := 4
  lineOffset := none
  content := "fn load() {}"
  fileHash := contentHash "mod repo { fn load() {} }"
  segmentHash := segmentHash "/w/src/repo.rs" 2 4 none "fn load() {}"
  chunkSource := .grammar
  parentChain := [⟨"repo", .moduleDef⟩]
  hierarchyDisplay := some "module repo > function load"

/-- What is stored for it. -/
def loadPayload : Payload := (Point.ofBlock "/w" loadBlock []).payload

/-- The payload is read from its members in reverse order, also without the type of the block, but not without the
path of the file. -/
theorem records_survive_load :
    loadPayload.WellFormed ∧ loadBlock.InWords ∧ Block.ofJson? loadBlock.toJson = some loadBlock ∧
      Collection.hitOf? ⟨some (.number 7), 1, loadPayload.toJson.members.reverse⟩ = some ⟨"7", 1, loadPayload⟩ ∧
      Payload.ofJson? (.obj (without (· == "type") loadPayload.toJson.members)) =
        some { loadPayload with blockType := none } ∧
      Payload.ofJson? (.obj (without (· == "filePath") loadPayload.toJson.members)) = none := by
  have hb : loadBlock.InWords := ⟨by decide, by decide, by simp [loadBlock]⟩
  have hp : loadPayload.WellFormed := Payload.wellFormed_ofBlock hb
  obtain ⟨hpayload, hhit, hblock, -⟩ := records_survive hp hb
  refine ⟨hp, hb, hblock.decode_encode (.refl _), ?_, ?_, ?_⟩
  · exact hhit _ _ _ (.of_perm (Payload.nodup_members _) (List.reverse_perm _).symm)
  · refine (hpayload.decode_eq (.refl _) ((hpayload.isSome_iff (.refl _)).2 fun name _ hname => ?_)).trans rfl
    rw [beq_iff_eq.1 hname]
    decide
  · rw [← Option.not_isSome_iff_eq_none, hpayload.isSome_iff (.refl _)]
    exact fun h => absurd (h "filePath" (by simp [Payload.toJson, Json.members, asFields?]) rfl) (by decide)

end SourceIndex
