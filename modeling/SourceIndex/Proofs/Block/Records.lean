import SourceIndex.Block.Codec
import SourceIndex.Proofs.Json.Records
/-!
# Blocks as records

A block that is written as an object is read back as it was, and so is a container around it. Of a block the
name, the offset and the readable path may be missing (`Block.survives`), of a container nothing
(`Syntax.ParentContainer.survives`).
-/

namespace SourceIndex

open Json

variable {removed : String → Bool} {value : Json}

namespace Syntax

theorem ContainerType.ofJson?_of_rearranged {t : ContainerType} (h : Rearranged (.str t.name) value) :
    ofJson? value = some t := by
  rw [h.str_eq]
  cases t <;> decide

namespace ParentContainer

variable {p : ParentContainer}

theorem ofJson?_without (h : Rearranged (.obj (without removed p.toJson.members)) value) :
    ofJson? value = if ["identifier", "containerType"].any removed then none else some p := by
  have hnodup : (p.toJson.members.map (·.1)).Nodup := by simp [toJson, Json.members, asFields?]
  obtain ⟨fields, rfl, -⟩ := h.obj_inv (nodup_without hnodup)
  rw [ofJson?, Members.of?, Option.bind_eq_bind, Option.bind_some,
    required_without "identifier" hnodup h rfl asStr?_of_rearranged,
    required_without "containerType" hnodup h rfl ContainerType.ofJson?_of_rearranged]
  simp only [Option.bind_eq_bind, bind_ite_none, ite_any_cons, List.any_nil, Bool.false_eq_true, if_false]

/-- Of a container all fields have to be there. -/
theorem survives (p : ParentContainer) : Survives toJson ofJson? [] (fun _ p => p) p :=
  .of_decode rfl rfl rfl ofJson?_without

theorem ofJson?_of_rearranged (p : ParentContainer) {value : Json} (h : Rearranged p.toJson value) :
    ofJson? value = some p :=
  (survives p).decode_encode h

end ParentContainer

end Syntax

theorem ChunkSource.ofJson?_of_rearranged {s : ChunkSource} (h : Rearranged (.str s.name) value) :
    ofJson? value = some s := by
  rw [h.str_eq]
  cases s <;> decide

namespace Block

variable {b : Block}

/-- Lines and offsets are machine words. -/
structure InWords (b : Block) : Prop where
  startLine : b.startLine < Nat.pow 2 64
  endLine : b.endLine < Nat.pow 2 64
  lineOffset : ∀ n ∈ b.lineOffset, n < Nat.pow 2 64

/-- The fields that may be missing. -/
def mayMiss : List String := ["identifier", "lineOffset", "hierarchyDisplay"]

/-- The fields that have to be there. -/
def mustStand : List String :=
  ["filePath", "blockType", "startLine", "endLine", "content", "fileHash", "segmentHash", "chunkSource",
    "parentChain"]

/-- A block with some of its fields at their defaults. -/
def reset (removed : String → Bool) (b : Block) : Block :=
  { b with
    identifier := if removed "identifier" then none else b.identifier
    lineOffset := if removed "lineOffset" then none else b.lineOffset
    hierarchyDisplay := if removed "hierarchyDisplay" then none else b.hierarchyDisplay }

theorem ofJson?_without (hb : b.InWords) (h : Rearranged (.obj (without removed b.toJson.members)) value) :
    ofJson? value = if mustStand.any removed then none else some (b.reset removed) := by
  have hnodup : (b.toJson.members.map (·.1)).Nodup := by simp [toJson, Json.members, asFields?]
  have htext {x : Option String} {value : Json} (h : Rearranged (ofOption .str x) value) :
      Members.nullable asStr? value = some x :=
    nullable_of_rearranged rfl (fun _ _ _ => asStr?_of_rearranged) h
  have hoffset {value : Json} (h : Rearranged (ofOption .ofNat b.lineOffset) value) :
      Members.nullable (decodeWord 64) value = some b.lineOffset :=
    nullable_of_rearranged rfl (fun n hn _ => decodeWord_of_rearranged (hb.lineOffset n hn)) h
  obtain ⟨fields, rfl, -⟩ := h.obj_inv (nodup_without hnodup)
  rw [mustStand, ofJson?, Members.of?, Option.bind_eq_bind, Option.bind_some,
    required_without "filePath" hnodup h rfl asStr?_of_rearranged,
    optional_without "identifier" hnodup h rfl htext,
    required_without "blockType" hnodup h rfl asStr?_of_rearranged,
    required_without "startLine" hnodup h rfl (decodeWord_of_rearranged hb.startLine),
    required_without "endLine" hnodup h rfl (decodeWord_of_rearranged hb.endLine),
    defaulted_without "lineOffset" hnodup h rfl hoffset,
    required_without "content" hnodup h rfl asStr?_of_rearranged,
    required_without "fileHash" hnodup h rfl asStr?_of_rearranged,
    required_without "segmentHash" hnodup h rfl asStr?_of_rearranged,
    required_without "chunkSource" hnodup h rfl ChunkSource.ofJson?_of_rearranged,
    required_without "parentChain" hnodup h rfl
      (decodeList_of_rearranged Syntax.ParentContainer.ofJson?_of_rearranged),
    optional_without "hierarchyDisplay" hnodup h rfl htext]
  simp only [Option.bind_eq_bind, Option.bind_some, bind_ite_none, ite_any_cons, List.any_nil,
    Bool.false_eq_true, if_false]
  rfl

/-- Of a block the name, the offset and the readable path may be missing. -/
theorem survives (hb : b.InWords) : Survives toJson ofJson? mayMiss reset b :=
  .of_decode rfl rfl (by simp [reset]) (ofJson?_without hb)

end Block

end SourceIndex
