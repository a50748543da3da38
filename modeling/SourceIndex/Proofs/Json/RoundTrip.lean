import Mathlib.Tactic.SplitIfs
import SourceIndex.Json.Parser
import SourceIndex.Json.Printer
import SourceIndex.Proofs.Entries
/-!
# What is written is read again

A text in quotes is read back character by character (`readString_flatMap_escapeChar`), so an object
whose members are texts is read back as it was (`parse_compact_obj_str`), if no key stands in it twice.
Every object that is read has each of its keys once (`nodup_of_parse`).
-/

namespace SourceIndex.Json

variable {acc chars rest s : List Char} {c : Char} {fuel depth : Nat}
  {fields read : List (String × Json)} {key text : String} {value : Json}
  {members more : List (String × String)} {member : String × String}
  {negative : Bool} {significand shift : Nat} {start : Int}

/-! ## Characters -/

theorem hexValue?_hexDigit {k : Nat} (h : k < 16) : hexValue? (Digest.hexDigit k) = some k := by
  revert k
  decide

/-- Four hexadecimal digits are read as the number that they write. -/
theorem readUnit_hexDigits {n : Nat} (h : n < 65536) :
    readUnit (Digest.hexDigit (n / 4096 % 16) :: Digest.hexDigit (n / 256 % 16) ::
      Digest.hexDigit (n / 16 % 16) :: Digest.hexDigit (n % 16) :: rest) = some (n, rest) := by
  have hdigit (m : Nat) : hexValue? (Digest.hexDigit (m % 16)) = some (m % 16) :=
    hexValue?_hexDigit (Nat.mod_lt _ (by decide))
  have hn : ((n / 4096 % 16 * 16 + n / 256 % 16) * 16 + n / 16 % 16) * 16 + n % 16 = n := by omega
  simp only [readUnit, hdigit, Option.bind_eq_bind, Option.bind_some, hn]

/-- One round of the reader takes what a character was written as. -/
theorem readString_escapeChar :
    readString (fuel + 1) acc (escapeChar c ++ rest) = readString fuel (c :: acc) rest := by
  unfold escapeChar
  split_ifs with hquote hslash hline hreturn htab hback hfeed hcontrol
  · rw [beq_iff_eq.1 hquote]
    rfl
  · rw [beq_iff_eq.1 hslash]
    rfl
  · rw [beq_iff_eq.1 hline]
    rfl
  · rw [beq_iff_eq.1 hreturn]
    rfl
  · rw [beq_iff_eq.1 htab]
    rfl
  · rw [beq_iff_eq.1 hback]
    rfl
  · rw [beq_iff_eq.1 hfeed]
    rfl
  · have hsmall : c.toNat < 65536 := by omega
    have hread : readEscapedChar (Digest.hexDigit (c.toNat / 4096 % 16) ::
        Digest.hexDigit (c.toNat / 256 % 16) :: Digest.hexDigit (c.toNat / 16 % 16) ::
        Digest.hexDigit (c.toNat % 16) :: rest) = some (c, rest) := by
      simp only [readEscapedChar, readUnit_hexDigits hsmall, Option.bind_eq_bind, Option.bind_some]
      rw [if_neg (by simp; omega), if_neg (by simp; omega), Char.ofNat_toNat]
    simp only [unicodeEscape, List.cons_append, List.nil_append, readString, hread]
  · have hq : c ≠ '"' := by simpa using hquote
    have hs : c ≠ '\\' := by simpa using hslash
    rw [List.singleton_append, readString.eq_def]
    simp [hs, hcontrol]

/-- What was written between quotes is read back, and what follows the closing quote is left. -/
theorem readString_flatMap_escapeChar (h : chars.length < fuel) :
    readString fuel acc (chars.flatMap escapeChar ++ '"' :: rest) =
      some (String.ofList (acc.reverse ++ chars), rest) := by
  induction chars generalizing fuel acc with
  | nil =>
    obtain ⟨fuel, rfl⟩ := Nat.exists_eq_add_one_of_ne_zero (Nat.ne_of_gt h)
    simp [readString]
  | cons c chars ih =>
    obtain ⟨fuel, rfl⟩ := Nat.exists_eq_add_one_of_ne_zero (Nat.ne_of_gt (Nat.zero_lt_of_lt h))
    rw [List.flatMap_cons, List.append_assoc, readString_escapeChar,
      ih (Nat.lt_of_succ_lt_succ h), List.reverse_cons, List.append_assoc, List.singleton_append]

/-! ## Objects of texts -/

/-- A text in quotes, as it stands in what is written. -/
theorem toList_quote : (quote text).toList = '"' :: (text.toList.flatMap escapeChar ++ ['"']) := by
  rw [quote, String.toList_ofList, List.cons_append]

/-- A text in quotes is one value. -/
theorem readValue_quote (h : text.toList.length < fuel) :
    readValue (fuel + 1) depth ((quote text).toList ++ rest) = some (.str text, rest) := by
  have hread : readString fuel [] (text.toList.flatMap escapeChar ++ '"' :: rest) = some (text, rest) := by
    rw [readString_flatMap_escapeChar h, List.reverse_nil, List.nil_append, String.ofList_toList]
  rw [toList_quote, List.cons_append, List.append_assoc, List.singleton_append]
  simp [readValue, skipSpace, isSpace, hread]

/-- A member as it is written: its key and its text. -/
def memberChars (member : String × String) : List Char :=
  (quote member.1).toList ++ ':' :: (quote member.2).toList

/-- A member takes more rounds of reading than its key and its text have characters. -/
theorem length_memberChars (member : String × String) :
    member.1.toList.length + member.2.toList.length + 5 ≤ (memberChars member).length := by
  have hescaped (chars : List Char) : chars.length ≤ (chars.flatMap escapeChar).length := by
    induction chars with
    | nil => exact Nat.le_refl 0
    | cons c chars ih =>
      have hpos : 0 < (escapeChar c).length := by
        unfold escapeChar unicodeEscape
        split_ifs <;> exact Nat.zero_lt_succ _
      rw [List.flatMap_cons, List.length_append, List.length_cons]
      omega
  have hkey := hescaped member.1.toList
  have htext := hescaped member.2.toList
  simp only [memberChars, toList_quote, List.length_append, List.length_cons, List.length_nil]
  omega

/-- What is read behind a member: the other members, or the end of the object. -/
def readNext (fuel depth : Nat) (fields : List (String × Json)) (s : List Char) : Reading Json :=
  match skipSpace s with
  | ',' :: r => readFields fuel depth fields r
  | '}' :: r => some (.obj fields, r)
  | _ => none

/-- Reading a member puts its text under its key. -/
theorem readFields_memberChars (h : (memberChars member).length ≤ fuel + 1) :
    readFields (fuel + 1) depth read (memberChars member ++ rest) =
      readNext fuel depth (insertField read member.1 (.str member.2)) rest := by
  have hlength := length_memberChars member
  obtain ⟨fuel, rfl⟩ : ∃ n, fuel = n + 1 := Nat.exists_eq_add_one_of_ne_zero (by omega)
  have hkey (r : List Char) : readString (fuel + 1) [] (member.1.toList.flatMap escapeChar ++ '"' :: r) =
      some (member.1, r) := by
    rw [readString_flatMap_escapeChar (by omega), List.reverse_nil, List.nil_append, String.ofList_toList]
  have htext : readValue (fuel + 1) depth ((quote member.2).toList ++ rest) =
      some (.str member.2, rest) := readValue_quote (by omega)
  rw [memberChars, toList_quote, List.append_assoc, List.cons_append, List.cons_append,
    List.append_assoc, List.singleton_append, readFields]
  have hquote (r : List Char) : skipSpace ('"' :: r) = '"' :: r := rfl
  have hcolon (r : List Char) : skipSpace (':' :: r) = ':' :: r := rfl
  simp only [hquote, hkey, hcolon, htext]
  rfl

/-- Members with commas between them are put in one after the other. -/
theorem readFields_intercalate (hne : members ≠ [])
    (h : ([','].intercalate (members.map memberChars)).length ≤ fuel) :
    readFields fuel depth read ([','].intercalate (members.map memberChars) ++ '}' :: rest) =
      some (.obj (members.foldl (fun fields m => insertField fields m.1 (.str m.2)) read), rest) := by
  induction members generalizing fuel read with
  | nil => exact absurd rfl hne
  | cons member members ih =>
    cases members with
    | nil =>
      rw [List.map_singleton, List.intercalate_singleton] at h ⊢
      have hlength := length_memberChars member
      obtain ⟨fuel, rfl⟩ : ∃ n, fuel = n + 1 := Nat.exists_eq_add_one_of_ne_zero (by omega)
      rw [readFields_memberChars h]
      rfl
    | cons next members =>
      rw [List.map_cons, List.map_cons, List.intercalate_cons_cons, ← List.map_cons] at h ⊢
      simp only [List.append_assoc, List.length_append, List.length_singleton] at h
      have hlength := length_memberChars member
      obtain ⟨fuel, rfl⟩ : ∃ n, fuel = n + 1 := Nat.exists_eq_add_one_of_ne_zero (by omega)
      rw [List.append_assoc, List.append_assoc, readFields_memberChars (by omega),
        List.singleton_append, List.foldl_cons]
      exact ih (List.cons_ne_nil _ _) (by omega)

/-- With each key once, putting members in one after the other keeps them as they are. -/
theorem foldl_insertField (hnodup : (read.map (·.1) ++ members.map (·.1)).Nodup) :
    members.foldl (fun fields m => insertField fields m.1 (.str m.2)) read =
      read ++ members.map fun m => (m.1, .str m.2) := by
  induction members generalizing read with
  | nil => exact (List.append_nil read).symm
  | cons member members ih =>
    have hnew : insertField read member.1 (.str member.2) = read ++ [(member.1, .str member.2)] := by
      have hnone : ¬ read.any (·.1 == member.1) := by
        rw [List.any_eq_true]
        rintro ⟨field, hfield, heq⟩
        refine (List.nodup_append.1 hnodup).2.2 _ (List.mem_map_of_mem hfield) member.1 ?_
          (beq_iff_eq.1 heq)
        exact List.mem_cons_self
      rw [insertField, if_neg hnone]
    rw [List.foldl_cons, hnew, ih (by simpa using hnodup), List.append_assoc, List.singleton_append,
      List.map_cons]

theorem compactFields_map_str :
    (compactFields (members.map fun m => (m.1, .str m.2))).map String.toList =
      members.map memberChars := by
  induction members with
  | nil => rfl
  | cons member members ih =>
    rw [List.map_cons, compactFields, List.map_cons, ih, List.map_cons]
    simp [memberChars, compact]

/-- Members that are written start with the quote of a key. -/
theorem exists_intercalate_memberChars (hne : members ≠ []) :
    ∃ r, [','].intercalate (members.map memberChars) = '"' :: r := by
  obtain ⟨member, members, rfl⟩ := List.exists_cons_of_ne_nil hne
  cases members with
  | nil =>
    exact ⟨_, by
      rw [List.map_singleton, List.intercalate_singleton, memberChars, toList_quote]
      rfl⟩
  | cons next members =>
    exact ⟨_, by
      rw [List.map_cons, List.map_cons, List.intercalate_cons_cons, memberChars, toList_quote]
      rfl⟩

/-- Members in braces are one value, with what comes of putting them in one after the other. -/
theorem readValue_members (h : ([','].intercalate (members.map memberChars)).length ≤ fuel) :
    readValue (fuel + 1) depthLimit ('{' :: ([','].intercalate (members.map memberChars) ++ ['}'])) =
      some (.obj (members.foldl (fun fields m => insertField fields m.1 (.str m.2)) []), []) := by
  by_cases hne : members = []
  · rw [hne]
    rfl
  · obtain ⟨r, hr⟩ := exists_intercalate_memberChars hne
    have hread : readFields fuel (depthLimit - 1) []
        ([','].intercalate (members.map memberChars) ++ ['}']) = _ := readFields_intercalate hne h
    rw [← hread, hr]
    rfl

/-- An object whose members are texts is read back as it was written. -/
theorem parse_compact_obj_str (hnodup : (members.map (·.1)).Nodup) :
    parse (compact (.obj (members.map fun m => (m.1, .str m.2)))) =
      some (.obj (members.map fun m => (m.1, .str m.2))) := by
  have hchars : (compact (.obj (members.map fun m => (m.1, .str m.2)))).toList =
      '{' :: ([','].intercalate (members.map memberChars) ++ ['}']) := by
    rw [compact, String.toList_append, String.toList_append, String.toList_intercalate,
      compactFields_map_str]
    rfl
  have hfields : members.foldl (fun fields m => insertField fields m.1 (.str m.2)) [] =
      members.map fun m => (m.1, .str m.2) := foldl_insertField hnodup
  unfold parse
  dsimp only
  rw [hchars, readValue_members (by simp; omega), hfields]
  rfl

/-! ## Keys -/

/-- Putting a value under a key keeps every key to one member. -/
theorem nodup_insertField (h : (fields.map (·.1)).Nodup) :
    ((insertField fields key value).map (·.1)).Nodup :=
  Entries.nodup_put h

/-- A number is no object, whatever form it is written in. -/
theorem asFields?_of_readExponent (h : readExponent negative significand start s = some (value, rest)) :
    value.asFields? = none := by
  unfold readExponent at h
  grind [asFields?, Option.map_eq_some_iff]

theorem asFields?_of_finishNumber (h : finishNumber negative significand start s = some (value, rest)) :
    value.asFields? = none := by
  unfold finishNumber at h
  grind [asFields?, Option.map_eq_some_iff, asFields?_of_readExponent]

theorem asFields?_of_readPlaces (h : readPlaces negative significand shift s = some (value, rest)) :
    value.asFields? = none := by
  unfold readPlaces at h
  grind [asFields?_of_finishNumber]

theorem asFields?_of_readUnsigned (h : readUnsigned negative s = some (value, rest)) :
    value.asFields? = none := by
  have hint (n : Nat) : (integerValue negative n).asFields? = none := by
    unfold integerValue
    grind [asFields?]
  unfold readUnsigned at h
  grind [asFields?_of_finishNumber, asFields?_of_readPlaces, asFields?_of_readExponent]

/-- A list is no object. -/
theorem asFields?_of_readItems {items : List Json}
    (h : readItems fuel depth items s = some (value, rest)) : value.asFields? = none := by
  induction fuel generalizing items s with
  | zero => cases h
  | succ fuel ih =>
    rw [readItems] at h
    split at h
    · cases h
    · split at h
      · exact ih h
      · cases h
        rfl
      · cases h

theorem nodup_of_readFields (h : readFields fuel depth read s = some (.obj fields, rest))
    (hread : (read.map (·.1)).Nodup) : (fields.map (·.1)).Nodup := by
  induction fuel generalizing read s with
  | zero => cases h
  | succ fuel ih =>
    rw [readFields] at h
    repeat' split at h
    -- Only a comma and a closing brace behind a member lead to an object.
    all_goals try cases h
    · exact ih h (nodup_insertField hread)
    · exact nodup_insertField hread

/-- An object that is read has each of its keys once. -/
theorem nodup_of_parse (h : parse text = some (.obj fields)) : (fields.map (·.1)).Nodup := by
  have hvalue {fuel s rest} (h : readValue fuel depthLimit s = some (.obj fields, rest)) :
      (fields.map (·.1)).Nodup := by
    cases fuel with
    | zero => cases h
    | succ fuel =>
      rw [readValue] at h
      repeat' split at h
      all_goals try cases h
      · simp at h
      · exact absurd (asFields?_of_readItems h) nofun
      · exact List.nodup_nil
      · exact nodup_of_readFields h List.nodup_nil
      · exact absurd (asFields?_of_readUnsigned h) nofun
      · exact absurd (asFields?_of_readUnsigned h) nofun
  unfold parse at h
  dsimp only at h
  split at h
  · split at h
    · cases h
      exact hvalue (by assumption)
    · cases h
  · cases h

end SourceIndex.Json
