import Mathlib.Data.List.Nodup
import SourceIndex.Embed.Client
import SourceIndex.Proofs.Json.Records
/-!
# The order of embeddings

A service may answer with the vectors of the texts in any order, as long as each item says which text it belongs
to. `inIndexOrder` puts a vector in the place that its item names (`getElem?_inIndexOrder`), whatever the order
of the items (`inIndexOrder_eq_of_perm`), and keeps the order of items that name no place
(`inIndexOrder_of_unindexed`). `Client.embeds_in_input_order` says so of what a client makes of an answer.
-/

namespace SourceIndex.Embed

variable {items others : List Item} {item : Item} {data : List Json} {n : Nat}

/-! ## Items in order -/

/-- Items are in the order of their indices. -/
theorem pairwise_mergeSort_index (items : List Item) :
    (items.mergeSort fun a b => a.index ≤ b.index).Pairwise fun a b => a.index ≤ b.index := by
  have h : (items.mergeSort fun a b => a.index ≤ b.index).Pairwise fun a b => decide (a.index ≤ b.index) = true := by
    refine List.pairwise_mergeSort (fun a b c hab hbc => ?_) (fun a b => ?_) items
    · exact decide_eq_true (Nat.le_trans (of_decide_eq_true hab) (of_decide_eq_true hbc))
    · simpa using Nat.le_total a.index b.index
  exact h.imp of_decide_eq_true

theorem length_inIndexOrder (items : List Item) : (inIndexOrder items).length = items.length := by
  rw [inIndexOrder, List.length_map, List.length_mergeSort]

/-- If each index is given to one item, a vector stands in the place that its item names. -/
theorem getElem?_inIndexOrder (hindices : (items.map (·.index)).Perm (List.range n)) (hitem : item ∈ items) :
    (inIndexOrder items)[item.index]? = some item.vector := by
  obtain ⟨sorted, hsorted⟩ : ∃ sorted, sorted = items.mergeSort fun a b => a.index ≤ b.index := ⟨_, rfl⟩
  have hperm : sorted.Perm items := hsorted ▸ List.mergeSort_perm _ _
  have hrange : sorted.map (·.index) = List.range n := by
    refine List.Perm.eq_of_pairwise (fun _ _ _ _ => Nat.le_antisymm) ?_ List.pairwise_le_range
      ((hperm.map _).trans hindices)
    exact List.pairwise_map.2 (hsorted ▸ pairwise_mergeSort_index items)
  obtain ⟨i, hi, hat⟩ := List.getElem_of_mem (hperm.mem_iff.2 hitem)
  have hindex : (List.range n)[i]? = some item.index := by
    rw [← hrange, List.getElem?_map, List.getElem?_eq_getElem hi, hat, Option.map_some]
  obtain ⟨hlt, hindex⟩ := List.getElem?_eq_some_iff.1 hindex
  rw [List.getElem_range hlt] at hindex
  rw [inIndexOrder, ← hsorted, ← hindex, List.getElem?_map, List.getElem?_eq_getElem hi, hat, Option.map_some]

/-- With different indices the order of the items makes no difference. -/
theorem inIndexOrder_eq_of_perm (h : items.Perm others) (hnodup : (items.map (·.index)).Nodup) :
    inIndexOrder items = inIndexOrder others := by
  have hsorted : (items.mergeSort fun a b => a.index ≤ b.index) =
      others.mergeSort fun a b => a.index ≤ b.index := by
    refine List.Perm.eq_of_pairwise ?_ (pairwise_mergeSort_index items) (pairwise_mergeSort_index others)
      ((List.mergeSort_perm _ _).trans (h.trans (List.mergeSort_perm _ _).symm))
    intro a b ha hb hab hba
    exact List.inj_on_of_nodup_map hnodup (List.mem_mergeSort.1 ha)
      (h.mem_iff.2 (List.mem_mergeSort.1 hb)) (Nat.le_antisymm hab hba)
  rw [inIndexOrder, inIndexOrder, hsorted]

/-- Items with one index stay as they are. -/
theorem inIndexOrder_of_unindexed (h : ∀ item ∈ items, item.index = 0) :
    inIndexOrder items = items.map (·.vector) := by
  have hpairs : items.Pairwise fun a b => decide (a.index ≤ b.index) = true :=
    List.pairwise_of_forall_mem_list fun a ha b _ => by simp [h a ha]
  rw [inIndexOrder, List.mergeSort_of_pairwise hpairs]

/-! ## Answers -/

/-- What is written in the answer of an embeddings endpoint: its items, and how many tokens were taken. -/
def dataIn? (body : String) : Option (List Json × Option Usage) := do
  let j ← Json.parse body
  let m ← Json.Members.of? 2 j
  let data ← m.required 0 "data" Json.asArr?
  let usage ← m.defaulted 1 "usage" none (Json.Members.nullable Usage.ofJson?)
  some (data, usage)

/-- Whether an item says which text it belongs to. -/
def isIndexed (item : Json) : Bool :=
  ((Json.Members.of? 2 item).bind (·.get? 1 "index")).isSome

/-- The service answers a request for texts with success, and with items that can be read. -/
structure Client.Answered (c : Client) (exchange : Http.Exchange) (texts : List String)
    (model : Option String) (data : List Json) (items : List Item) (usage : Option Usage) : Prop where
  response : ∃ r, exchange (c.request texts model) = some r ∧ r.isSuccess = true ∧
    dataIn? r.body = some (data, usage)
  items : data.mapM Item.ofJson? = some items

variable {c : Client} {key : String} {exchange : Http.Exchange} {texts : List String} {model : Option String}
  {usage : Option Usage}

/-- An item that does not say which text it belongs to counts as one of the first text. -/
theorem Item.index_of_unindexed {j : Json} (h : Item.ofJson? j = some item) (hindex : isIndexed j = false) :
    item.index = 0 := by
  unfold Item.ofJson? at h
  unfold isIndexed at hindex
  cases hm : Json.Members.of? 2 j with
  | none => simp [hm] at h
  | some m =>
    have hnone : m.get? 1 "index" = none := by simpa [hm] using hindex
    simp only [hm, Json.Members.defaulted, hnone, Option.bind_eq_bind, Option.bind_some,
      Option.bind_eq_some_iff] at h
    obtain ⟨vector, -, h⟩ := h
    cases h
    rfl

/-- A client makes of an answer what its items mean. -/
theorem Client.Answered.embed_eq (h : c.Answered exchange texts model data items usage)
    (hdialect : c.dialect = .openai key) (hne : texts ≠ []) :
    c.embed exchange texts model = ofItems texts.length items usage := by
  obtain ⟨r, hexchange, hsuccess, hdata⟩ := h.response
  have hanswer : (do
      let j ← Json.parse r.body
      let m ← Json.Members.of? 2 j
      let items ← m.required 0 "data" (Json.decodeList Item.ofJson?)
      let usage ← m.defaulted 1 "usage" none (Json.Members.nullable Usage.ofJson?)
      some (items, usage)) = some (items, usage) := by
    unfold dataIn? at hdata
    simp only [Option.bind_eq_bind, Option.bind_eq_some_iff] at hdata ⊢
    obtain ⟨j, hj, m, hm, written, hwritten, read, hread, heq⟩ := hdata
    cases heq
    refine ⟨j, hj, m, hm, items, ?_, usage, hread, rfl⟩
    obtain ⟨value, hvalue, harray⟩ := Option.bind_eq_some_iff.1 hwritten
    refine Option.bind_eq_some_iff.2 ⟨value, hvalue, ?_⟩
    cases value <;> simp_all [Json.asArr?, Json.decodeList, h.items]
  rw [Client.embed, if_neg (by simpa using hne), hexchange]
  dsimp only
  rw [hdialect, interpret, if_neg (by simp [hsuccess])]
  dsimp only
  rw [hanswer]

/-- What a client makes of an answer with success. If each text is named by one item, the vectors come in the
order of the texts, in whatever order the items were written. If no item names its text, the vectors come in the
order of the items. If there are not as many items as texts, the answer is an error. -/
theorem Client.embeds_in_input_order (hdialect : c.dialect = .openai key) (hne : texts ≠ [])
    (h : c.Answered exchange texts model data items usage) :
    ((items.map (·.index)).Perm (List.range texts.length) →
      (∃ vectors, c.embed exchange texts model = .ok ⟨vectors, usage⟩ ∧ vectors.length = texts.length ∧
        ∀ item ∈ items, vectors[item.index]? = some item.vector) ∧
      ∀ other data' items', c.Answered other texts model data' items' usage → data'.Perm data →
        c.embed other texts model = c.embed exchange texts model) ∧
    ((∀ item ∈ data, isIndexed item = false) → data.length = texts.length →
      c.embed exchange texts model = .ok ⟨items.map (·.vector), usage⟩) ∧
    (data.length ≠ texts.length → c.embed exchange texts model =
      .error (.embedding s!"expected {texts.length} embeddings, got {data.length}")) := by
  have hlength : items.length = data.length := (Json.mapM_eq_some_iff.1 h.items).length_eq.symm
  have hok (hcount : items.length = texts.length) :
      c.embed exchange texts model = .ok ⟨inIndexOrder items, usage⟩ := by
    rw [h.embed_eq hdialect hne, ofItems, if_neg (by simp [hcount])]
  refine ⟨fun hindices => ?_, fun hunindexed hcount => ?_, fun hcount => ?_⟩
  · have hcount : items.length = texts.length := by simpa using hindices.length_eq
    refine ⟨⟨inIndexOrder items, hok hcount, (length_inIndexOrder items).trans hcount,
      fun item => getElem?_inIndexOrder hindices⟩, fun other data' items' hother hdata => ?_⟩
    have hitems : items'.Perm items := by
      rw [← Json.filterMap_of_mapM hother.items, ← Json.filterMap_of_mapM h.items]
      exact hdata.filterMap _
    rw [hother.embed_eq hdialect hne, h.embed_eq hdialect hne, ofItems, ofItems, hitems.length_eq,
      inIndexOrder_eq_of_perm hitems.symm (hindices.nodup_iff.2 List.nodup_range)]
  · have hzero : ∀ item ∈ items, item.index = 0 := by
      intro item hitem
      rw [← Json.filterMap_of_mapM h.items, List.mem_filterMap] at hitem
      obtain ⟨j, hj, hread⟩ := hitem
      exact Item.index_of_unindexed hread (hunindexed j hj)
    rw [hok (hlength.trans hcount), inIndexOrder_of_unindexed hzero]
  · rw [h.embed_eq hdialect hne, ofItems, if_pos (by simpa [hlength] using hcount), hlength]
    rfl

/-- An answer for two texts, in which the vector of the second one comes first. -/
def swappedAnswer : String :=
  "\x7b\"data\":[\x7b\"embedding\":[2],\"index\":1\x7d,\x7b\"embedding\":[1],\"index\":0\x7d]\x7d"

theorem exists_swapped : ∃ data items usage, dataIn? swappedAnswer = some (data, usage) ∧
    data.mapM Item.ofJson? = some items ∧ items.map (·.index) = [1, 0] := by
  have h : ((dataIn? swappedAnswer).bind fun read => read.1.mapM Item.ofJson?).map (·.map (·.index)) =
      some [1, 0] := by decide +kernel
  obtain ⟨items, hread, hindices⟩ := Option.map_eq_some_iff.1 h
  obtain ⟨⟨data, usage⟩, hdata, hitems⟩ := Option.bind_eq_some_iff.1 hread
  exact ⟨data, items, usage, hdata, hitems, hindices⟩

/-- The first vector of the answer becomes the second one. -/
theorem Client.embeds_in_input_order_swapped :
    let c : Client := ⟨.openai "key", "http://localhost/v1/embeddings", "small"⟩
    let exchange : Http.Exchange := fun _ => some ⟨200, swappedAnswer⟩
    ∃ data items usage, c.Answered exchange ["one", "two"] none data items usage ∧
      items.map (·.index) = [1, 0] ∧
      ∃ vectors, c.embed exchange ["one", "two"] none = .ok ⟨vectors, usage⟩ ∧
        ∀ item ∈ items, vectors[item.index]? = some item.vector := by
  intro c exchange
  obtain ⟨data, items, usage, hdata, hitems, hindices⟩ := exists_swapped
  have hanswered : c.Answered exchange ["one", "two"] none data items usage :=
    ⟨⟨⟨200, swappedAnswer⟩, rfl, rfl, hdata⟩, hitems⟩
  have hall : (items.map (·.index)).Perm (List.range 2) := by
    rw [hindices]
    decide
  obtain ⟨vectors, hembed, -, hvectors⟩ :=
    ((embeds_in_input_order rfl (List.cons_ne_nil _ _) hanswered).1 hall).1
  exact ⟨data, items, usage, hanswered, hindices, vectors, hembed, hvectors⟩

end SourceIndex.Embed
