import Mathlib.Data.List.Perm.Basic
import Mathlib.Tactic.SplitIfs
import SourceIndex.Json.Record
import SourceIndex.Proofs.Entries
/-!
# Records with members taken out

A record is written as an object, and an object says the same in whatever order its members stand
(`Rearranged`). `Survives` says what is read of a record's object: the record itself, and once some members are
taken out, the record with these fields at their defaults, if all of them have one, and nothing otherwise. It
follows from what a decoder makes of the single fields (`Survives.of_decode`), and these are read one by one: a
field whose member was taken out reads as missing, and any other one as before (`required_without`,
`optional_without`, `defaulted_without`).
-/

namespace SourceIndex.Json

/-- The members of an object. -/
def members (object : Json) : List (String × Json) :=
  (asFields? object).getD []

variable {α β : Type} {members fields : List (String × Json)} {name : String} {value : Json} {a : α}
  {i : Nat} {removed : String → Bool} {decode : Json → Option α}

/-! ## Lists -/

/-- Items that all decode are what the items of the list decode to. -/
theorem mapM_eq_some_iff {xs : List α} {ys : List β} {f : α → Option β} :
    xs.mapM f = some ys ↔ List.Forall₂ (fun x y => f x = some y) xs ys := by
  induction xs generalizing ys with
  | nil => cases ys <;> simp
  | cons x xs ih =>
    rw [List.mapM_cons]
    cases hx : f x with
    | none => cases ys <;> simp [hx]
    | some y =>
      cases hxs : xs.mapM f with
      | none => cases ys <;> simp [hx, ← ih, hxs]
      | some rest => cases ys <;> simp [hx, ← ih, hxs]

theorem filterMap_of_mapM {xs : List α} {ys : List β} {f : α → Option β} (h : xs.mapM f = some ys) :
    xs.filterMap f = ys := by
  have hpairs := mapM_eq_some_iff.1 h
  clear h
  induction hpairs with
  | nil => rfl
  | cons hy _ ih => rw [List.filterMap_cons_some hy, ih]

/-! ## Order -/

/-- One value is another one with the members of its objects in any order, on every level. -/
inductive Rearranged : Json → Json → Prop
  | refl (value : Json) : Rearranged value value
  | arr {items items' : List Json} (hitems : List.Forall₂ Rearranged items items') :
      Rearranged (.arr items) (.arr items')
  | obj {fields fields' : List (String × Json)} (hnames : (fields.map (·.1)).Perm (fields'.map (·.1)))
      (hvalues : ∀ name value value', (name, value) ∈ fields → (name, value') ∈ fields' →
        Rearranged value value') : Rearranged (.obj fields) (.obj fields')

namespace Rearranged

theorem of_perm (hnodup : (members.map (·.1)).Nodup) (h : members.Perm fields) :
    Rearranged (.obj members) (.obj fields) :=
  .obj (h.map _) fun name value value' hvalue hvalue' => by
    have hsame : some value = some value' := by
      rw [← (Entries.get?_eq_some_iff hnodup).2 hvalue, ← (Entries.get?_eq_some_iff hnodup).2 (h.mem_iff.2 hvalue')]
    cases hsame
    exact .refl value

/-- A text has no members to rearrange. -/
theorem str_eq {s : String} (h : Rearranged (.str s) value) : value = .str s := by
  cases h
  rfl

theorem null_eq (h : Rearranged .null value) : value = .null := by
  cases h
  rfl

theorem int_eq {n : Int} (h : Rearranged (.int n) value) : value = .int n := by
  cases h
  rfl

theorem arr_inv {items : List Json} (h : Rearranged (.arr items) value) :
    ∃ items', value = .arr items' ∧ List.Forall₂ Rearranged items items' := by
  cases h with
  | refl => exact ⟨items, rfl, List.forall₂_same.2 fun _ _ => .refl _⟩
  | arr hitems => exact ⟨_, rfl, hitems⟩

/-- An object with each name once is rearranged to an object with the same names. -/
theorem obj_inv (hnodup : (members.map (·.1)).Nodup) (h : Rearranged (.obj members) value) :
    ∃ fields, value = .obj fields ∧ (members.map (·.1)).Perm (fields.map (·.1)) ∧
      ∀ name value value', (name, value) ∈ members → (name, value') ∈ fields → Rearranged value value' := by
  cases h with
  | refl =>
    refine ⟨members, rfl, .refl _, fun name value value' hvalue hvalue' => ?_⟩
    rw [← Entries.get?_eq_some_iff hnodup] at hvalue hvalue'
    cases hvalue.symm.trans hvalue'
    exact .refl value
  | obj hnames hvalues => exact ⟨_, rfl, hnames, hvalues⟩

end Rearranged

/-! ## Members -/

/-- The members that are left when those under some names are taken out. -/
def without (removed : String → Bool) (members : List (String × Json)) : List (String × Json) :=
  members.filter fun member => !removed member.1

theorem without_none (members : List (String × Json)) : without (fun _ => false) members = members := by
  simp [without]

theorem nodup_without (hnodup : (members.map (·.1)).Nodup) : ((without removed members).map (·.1)).Nodup :=
  hnodup.sublist (List.filter_sublist.map _)

section Fields

variable (name) (hnodup : (members.map (·.1)).Nodup)
  (hfields : Rearranged (.obj (without removed members)) (.obj fields))
  (hvalue : Entries.get? members name = some value)

include hnodup hfields hvalue

/-- A member that was taken out is not found, and any other one is. -/
theorem Members.get?_without :
    if removed name then (Members.named fields).get? i name = none
    else ∃ value', (Members.named fields).get? i name = some value' ∧ Rearranged value value' := by
  obtain ⟨_, ⟨⟩, hnames, hvalues⟩ := hfields.obj_inv (nodup_without hnodup)
  change if removed name then Entries.get? fields name = none
    else ∃ value', Entries.get? fields name = some value' ∧ Rearranged value value'
  have hmem : (name, value) ∈ members := (Entries.get?_eq_some_iff hnodup).1 hvalue
  have hleft : name ∈ fields.map (·.1) ↔ removed name = false := by
    have hnames' : (without removed members).map (·.1) = (members.map (·.1)).filter fun name => !removed name := by
      rw [List.filter_map]
      rfl
    rw [← hnames.mem_iff, hnames', List.mem_filter, Bool.not_eq_true']
    exact and_iff_right (List.mem_map_of_mem hmem)
  split_ifs with hremoved
  · rw [← Option.not_isSome_iff_eq_none, Entries.isSome_get?_iff, hleft, hremoved]
    exact Bool.noConfusion
  · obtain ⟨value', hvalue'⟩ := Option.isSome_iff_exists.1
      (Entries.isSome_get?_iff.2 (hleft.2 (Bool.eq_false_iff.2 hremoved)))
    refine ⟨value', hvalue', hvalues name value value' ?_ ?_⟩
    · exact List.mem_filter.2 ⟨hmem, by simp [hremoved]⟩
    · exact (Entries.get?_eq_some_iff (hnames.nodup_iff.1 (nodup_without hnodup))).1 hvalue'

theorem required_without (hdecode : ∀ {value'}, Rearranged value value' → decode value' = some a) :
    (Members.named fields).required i name decode = if removed name then none else some a := by
  have hget := Members.get?_without (i := i) name hnodup hfields hvalue
  rw [Members.required]
  split_ifs at hget ⊢
  · rw [hget, Option.bind_none]
  · obtain ⟨value', hget, hvalue'⟩ := hget
    rw [hget, Option.bind_some, hdecode hvalue']

theorem optional_without {value? : Option α}
    (hdecode : ∀ {value'}, Rearranged value value' → Members.nullable decode value' = some value?) :
    (Members.named fields).optional i name decode = some (if removed name then none else value?) := by
  have hget := Members.get?_without (i := i) name hnodup hfields hvalue
  rw [Members.optional.eq_def]
  split_ifs at hget ⊢
  · rw [hget]
  · obtain ⟨value', hget, hvalue'⟩ := hget
    rw [hget]
    exact hdecode hvalue'

theorem defaulted_without {default : α} (hdecode : ∀ {value'}, Rearranged value value' → decode value' = some a) :
    (Members.named fields).defaulted i name default decode = some (if removed name then default else a) := by
  have hget := Members.get?_without (i := i) name hnodup hfields hvalue
  rw [Members.defaulted]
  split_ifs at hget ⊢
  · rw [hget]
  · obtain ⟨value', hget, hvalue'⟩ := hget
    rw [hget]
    exact hdecode hvalue'

end Fields

/-- A default is what is made of it as of what is read. -/
theorem Members.map_defaulted {m : Members} {default : α} {f : α → β} :
    (m.defaulted i name default decode).map f = m.defaulted i name (f default) fun value => (decode value).map f := by
  unfold Members.defaulted
  cases m.get? i name <;> rfl

/-- Nothing is read behind a field that is not there. -/
theorem bind_ite_none {missing : Prop} [Decidable missing] {f : α → Option β} :
    (if missing then none else some a).bind f = if missing then none else f a := by
  split_ifs <;> rfl

/-- A field that has to be there comes before the others that have to. -/
theorem ite_any_cons {names : List String} {x : Option α} :
    (if (name :: names).any removed then none else x) =
      if removed name then none else if names.any removed then none else x := by
  cases h : removed name <;> simp [h]

/-! ## Values -/

theorem asStr?_of_rearranged {s : String} (h : Rearranged (.str s) value) : asStr? value = some s := by
  rw [h.str_eq]
  rfl

theorem decodeWord_of_rearranged {n bits : Nat} (hn : n < Nat.pow 2 bits) (h : Rearranged (ofNat n) value) :
    decodeWord bits value = some n := by
  rw [h.int_eq]
  simpa [decodeWord] using hn

theorem nullable_of_decode (hnull : decode .null = none) (h : decode value = some a) :
    Members.nullable decode value = some (some a) := by
  unfold Members.nullable
  split
  · rw [hnull] at h
    cases h
  · rw [h, Option.map_some]

/-- What may be absent is read as it was written, if what is there is. -/
theorem nullable_of_rearranged {encode : α → Json} {x : Option α} (hnull : decode .null = none)
    (hdecode : ∀ y ∈ x, ∀ {value}, Rearranged (encode y) value → decode value = some y)
    (h : Rearranged (ofOption encode x) value) : Members.nullable decode value = some x := by
  cases x with
  | none =>
    rw [h.null_eq]
    rfl
  | some y => exact nullable_of_decode hnull (hdecode y rfl h)

/-- A list is read as it was written, if its items are. -/
theorem decodeList_of_rearranged {encode : α → Json}
    (hdecode : ∀ x {value}, Rearranged (encode x) value → decode value = some x) {xs : List α}
    (h : Rearranged (.arr (xs.map encode)) value) : decodeList decode value = some xs := by
  obtain ⟨items, rfl, hitems⟩ := h.arr_inv
  have hpairs : List.Forall₂ (fun x item => Rearranged (encode x) item) xs items :=
    (List.forall₂_map_left_iff ..).1 hitems
  exact mapM_eq_some_iff.2 (hpairs.imp fun x _ hx => hdecode x hx).flip

/-- An object used as a map is read as it was written but for the order of its entries, if its values are. -/
theorem decodeMap_of_rearranged {encode : α → Json}
    (hdecode : ∀ x {value}, Rearranged (encode x) value → decode value = some x) {entries : List (String × α)}
    (hnodup : (entries.map (·.1)).Nodup)
    (h : Rearranged (.obj (entries.map fun entry => (entry.1, encode entry.2))) value) :
    ∃ found, decodeMap decode value = some found ∧ found.Perm entries := by
  have hkeys : (entries.map fun entry => (entry.1, encode entry.2)).map (·.1) = entries.map (·.1) := by
    rw [List.map_map]
    rfl
  obtain ⟨fields, rfl, hnames, hvalues⟩ := h.obj_inv (hkeys ▸ hnodup)
  have hsame : List.Forall₂ (fun name (entry : String × α) => name = entry.1) (entries.map (·.1)) entries :=
    (List.forall₂_map_left_iff ..).2 (List.forall₂_same.2 fun _ _ => rfl)
  -- the entries in the order that their names have in the object
  obtain ⟨found, hfound, hperm⟩ := List.perm_comp_forall₂ (hkeys ▸ hnames.symm) hsame
  rw [List.forall₂_map_left_iff, List.forall₂_iff_zip] at hfound
  refine ⟨found, mapM_eq_some_iff.2 (List.forall₂_iff_zip.2 ⟨hfound.1, fun {field entry} hmem => ?_⟩), hperm⟩
  obtain ⟨hfield, hentry⟩ := List.of_mem_zip hmem
  obtain ⟨name, value⟩ := field
  obtain rfl : name = entry.1 := hfound.2 hmem
  rw [hdecode entry.2 (hvalues _ _ _ (List.mem_map_of_mem (hperm.mem_iff.1 hentry)) hfield), Option.map_some]

/-! ## Records -/

/-- What is read of a record that is written as an object, in whatever order its members stand. Once members are
taken out, the record is read if and only if all of them are of fields that may be missing; these then have
their defaults. -/
structure Survives (encode : α → Json) (decode : Json → Option α) (mayMiss : List String)
    (reset : (String → Bool) → α → α) (a : α) : Prop where
  decode_encode : ∀ {value : Json}, Rearranged (encode a) value → decode value = some a
  isSome_iff : ∀ {removed : String → Bool} {value : Json},
    Rearranged (.obj (without removed (encode a).members)) value →
      ((decode value).isSome ↔ ∀ name ∈ (encode a).members.map (·.1), removed name = true → name ∈ mayMiss)
  decode_eq : ∀ {removed : String → Bool} {value : Json},
    Rearranged (.obj (without removed (encode a).members)) value →
      (decode value).isSome → decode value = some (reset removed a)

/-- It is enough to know which fields have to stand in an object, and what is read if they do. -/
theorem Survives.of_decode {encode : α → Json} {decode : Json → Option α} {mayMiss mustStand : List String}
    {reset : (String → Bool) → α → α} (hobj : encode a = .obj (encode a).members)
    (hnames : ((encode a).members.map (·.1)).filter (fun name => !mayMiss.contains name) = mustStand)
    (hreset : reset (fun _ => false) a = a)
    (hdecode : ∀ {removed value}, Rearranged (.obj (without removed (encode a).members)) value →
      decode value = if mustStand.any removed then none else some (reset removed a)) :
    Survives encode decode mayMiss reset a where
  decode_encode {value} h := by
    rw [hobj, ← without_none (encode a).members] at h
    rw [hdecode h, hreset, if_neg (by simp)]
  isSome_iff {removed value} h := by
    rw [hdecode h, ← hnames]
    split_ifs with hany
    · rw [List.any_eq_true] at hany
      obtain ⟨name, hname, hremoved⟩ := hany
      obtain ⟨hmem, hmust⟩ := List.mem_filter.1 hname
      exact iff_of_false (by simp) fun h => by simp [h name hmem hremoved] at hmust
    · refine iff_of_true (by simp) fun name hname hremoved => ?_
      by_contra hmust
      exact hany (List.any_eq_true.2 ⟨name, List.mem_filter.2 ⟨hname, by simpa using hmust⟩, hremoved⟩)
  decode_eq {removed value} h hsome := by
    rw [hdecode h] at hsome ⊢
    split_ifs at hsome ⊢ with hany
    · cases hsome
    · rfl

end SourceIndex.Json
