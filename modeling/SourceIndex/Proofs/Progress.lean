import Mathlib.Data.List.Induction
import SourceIndex.Status
/-!
# What a published status shows

The status changes by updates of three kinds: a change of state, a report of blocks, a report of files.
`Status.Consistent` is what every update keeps (`Consistent.apply`), and with it whatever sequence of them
(`consistent_after`). What the counters count is told by the updates alone (`unit_after_eq_files_iff`): files, if
one of them was a report of files and none behind it goes back to blocks. A state that is published once more is
no change and leaves the counters and their unit as they are, so that the report of the last file still shows
when `indexed` is published behind it.
-/

namespace SourceIndex.Status

/-- The ways in which the published status changes. -/
inductive Update where
  | state (next : IndexState) (message : String)
  | blocks (indexed found : Nat)
  | files (processed total : Nat) (current : Option String)

namespace Update

/-- What an update makes of the status. -/
def apply (s : Status) : Update → Status
  | .state next message => s.setState next message
  | .blocks indexed found => s.reportBlocks indexed found
  | .files processed total current => s.reportFiles processed total current

/-- A report says that no more is done than there is. -/
def Bounded : Update → Prop
  | .state .. => True
  | .blocks indexed found => indexed ≤ found
  | .files processed total _ => processed ≤ total

/-- An update that goes back to blocks: a report of them, or a state other than `indexing` that differs from
the one before. -/
def RestoresBlocks (s : Status) : Update → Prop
  | .state next _ => s.state ≠ next ∧ (next = .standby ∨ next = .indexed ∨ next = .error)
  | .blocks .. => True
  | .files .. => False

end Update

/-- The status after a sequence of updates. -/
def after (updates : List Update) : Status :=
  updates.foldl Update.apply {}

/-- No more is done than there is, and where nothing goes on nothing is counted. -/
structure Consistent (s : Status) : Prop where
  counters : s.processed ≤ s.total
  idle : s.state = .standby ∨ s.state = .error → s.processed = 0 ∧ s.total = 0 ∧ s.unit = .blocks

variable {s : Status} {u : Update} {updates : List Update} {next : IndexState} {message : String}
  {processed total : Nat} {current : Option String}

/-! ## One update -/

/-- A change to a state other than `indexing` starts the counters over. -/
theorem setState_of_ne (hchange : s.state ≠ next) (hnext : next ≠ .indexing) :
    s.setState next message = { state := next, message } := by
  simp [setState, hchange, hnext]

/-- The same state again, or `indexing`, leaves the counters as they are. -/
theorem setState_of_eq (h : s.state = next ∨ next = .indexing) :
    s.setState next message = { s with state := next, message } := by
  rcases h with h | h <;> simp [setState, h]

/-- A report of files is shown as it is, and says in which of two states the index is. -/
theorem reportFiles_counters (s : Status) (processed total : Nat) (current : Option String) :
    (s.reportFiles processed total current).processed = processed ∧
      (s.reportFiles processed total current).total = total ∧
      (s.reportFiles processed total current).unit = .files ∧
      ((s.reportFiles processed total current).state = .indexing ∨
        (s.reportFiles processed total current).state = .indexed) := by
  unfold reportFiles
  split
  · exact ⟨rfl, rfl, rfl, Or.inl rfl⟩
  · exact ⟨rfl, rfl, rfl, Or.inr rfl⟩

theorem Consistent.apply (h : s.Consistent) (bounded : u.Bounded) : (u.apply s).Consistent := by
  cases u with
  | state next message =>
    by_cases hsame : s.state = next ∨ next = .indexing
    · rw [Update.apply, setState_of_eq hsame]
      refine ⟨h.counters, fun hidle => h.idle ?_⟩
      -- `indexing` is not idle, so the state is the one before
      rcases hsame with rfl | rfl
      · exact hidle
      · rcases hidle with hidle | hidle <;> cases hidle
    · obtain ⟨hchange, hnext⟩ := not_or.1 hsame
      rw [Update.apply, setState_of_ne hchange hnext]
      exact ⟨Nat.le_refl 0, fun _ => ⟨rfl, rfl, rfl⟩⟩
  | blocks indexed found =>
    refine ⟨bounded, fun hidle => ?_⟩
    rcases hidle with hidle | hidle <;> cases hidle
  | files processed total current =>
    obtain ⟨hprocessed, htotal, -, hstate⟩ := reportFiles_counters s processed total current
    refine ⟨?_, fun hidle => ?_⟩
    · rw [Update.apply, hprocessed, htotal]
      exact bounded
    · rw [Update.apply] at hidle
      rcases hstate with hstate | hstate <;> rw [hstate] at hidle <;> rcases hidle with hidle | hidle <;>
        cases hidle

/-- Files are counted after a report of them, and as long as nothing goes back to blocks. -/
theorem unit_apply_eq_files_iff : (u.apply s).unit = .files ↔
    (∃ processed total current, u = .files processed total current) ∨
      s.unit = .files ∧ ¬u.RestoresBlocks s := by
  cases u with
  | state next message =>
    by_cases hsame : s.state = next ∨ next = .indexing
    · have hkept : ¬(Update.state next message).RestoresBlocks s := by
        rintro ⟨hchange, hnext⟩
        rcases hnext with rfl | rfl | rfl <;> exact hchange (hsame.resolve_right nofun)
      rw [Update.apply, setState_of_eq hsame]
      simp [hkept]
    · obtain ⟨hchange, hnext⟩ := not_or.1 hsame
      have hreset : (Update.state next message).RestoresBlocks s := by
        refine ⟨hchange, ?_⟩
        cases next with
        | standby => exact Or.inl rfl
        | indexing => exact absurd rfl hnext
        | indexed => exact Or.inr (Or.inl rfl)
        | error => exact Or.inr (Or.inr rfl)
      rw [Update.apply, setState_of_ne hchange hnext]
      simp [hreset]
  | blocks indexed found => simp [Update.apply, reportBlocks, Update.RestoresBlocks]
  | files processed total current =>
    obtain ⟨-, -, hunit, -⟩ := reportFiles_counters s processed total current
    exact iff_of_true hunit (Or.inl ⟨processed, total, current, rfl⟩)

/-! ## A sequence of updates -/

theorem after_concat : after (updates ++ [u]) = u.apply (after updates) := by
  rw [after, List.foldl_append, ← after]
  rfl

theorem consistent_after (bounded : ∀ u ∈ updates, u.Bounded) : (after updates).Consistent := by
  induction updates using List.reverseRecOn with
  | nil => exact ⟨Nat.le_refl 0, fun _ => ⟨rfl, rfl, rfl⟩⟩
  | append_singleton updates u ih =>
    rw [after_concat]
    have hearlier : ∀ e ∈ updates, e.Bounded := fun e he => bounded e (List.mem_append_left [u] he)
    exact (ih hearlier).apply (bounded u (by simp))

/-- A report of files with nothing behind it that goes back to blocks. -/
def FilesLast (updates : List Update) : Prop :=
  ∃ i processed total current, updates[i]? = some (Update.files processed total current) ∧
    ∀ (j : Nat) (u : Update), i < j → updates[j]? = some u → ¬u.RestoresBlocks (after (updates.take j))

theorem filesLast_concat : FilesLast (updates ++ [u]) ↔
    (∃ processed total current, u = .files processed total current) ∨
      FilesLast updates ∧ ¬u.RestoresBlocks (after updates) := by
  constructor
  · rintro ⟨i, processed, total, current, hfiles, hlater⟩
    by_cases hi : i < updates.length
    · right
      rw [List.getElem?_append_left hi] at hfiles
      refine ⟨⟨i, processed, total, current, hfiles, fun j e hij he => ?_⟩, ?_⟩
      · obtain ⟨hj, -⟩ := List.getElem?_eq_some_iff.1 he
        have hlast := hlater j e hij ((List.getElem?_append_left hj).trans he)
        rwa [List.take_append_of_le_length (Nat.le_of_lt hj)] at hlast
      · have hlast := hlater updates.length u hi List.getElem?_concat_length
        rwa [List.take_left] at hlast
    · left
      rw [List.getElem?_append_right (Nat.not_lt.1 hi), List.getElem?_singleton] at hfiles
      split at hfiles
      · exact ⟨processed, total, current, Option.some.inj hfiles⟩
      · cases hfiles
  · rintro (⟨processed, total, current, rfl⟩ | ⟨⟨i, processed, total, current, hfiles, hlater⟩, hlast⟩)
    · refine ⟨updates.length, processed, total, current, List.getElem?_concat_length, fun j e hj he => ?_⟩
      obtain ⟨hlt, -⟩ := List.getElem?_eq_some_iff.1 he
      rw [List.length_append, List.length_singleton] at hlt
      omega
    · obtain ⟨hi, -⟩ := List.getElem?_eq_some_iff.1 hfiles
      refine ⟨i, processed, total, current, (List.getElem?_append_left hi).trans hfiles, fun j e hij he => ?_⟩
      by_cases hj : j < updates.length
      · rw [List.take_append_of_le_length (Nat.le_of_lt hj)]
        exact hlater j e hij ((List.getElem?_append_left hj).symm.trans he)
      · rw [List.getElem?_append_right (Nat.not_lt.1 hj), List.getElem?_singleton] at he
        split at he
        · obtain rfl : u = e := Option.some.inj he
          obtain rfl : j = updates.length := by omega
          rwa [List.take_left]
        · cases he

theorem unit_after_eq_files_iff : (after updates).unit = .files ↔ FilesLast updates := by
  induction updates using List.reverseRecOn with
  | nil =>
    refine iff_of_false nofun ?_
    rintro ⟨i, processed, total, current, hfiles, -⟩
    cases hfiles
  | append_singleton updates u ih => rw [after_concat, unit_apply_eq_files_iff, ih, filesLast_concat]

/-- Every status that is published on the way of a sequence of updates is consistent, and it counts files if
and only if a report of files came behind the last report of blocks and behind the last change to a state
other than `indexing`. -/
theorem consistent_of_prefix (bounded : ∀ u ∈ updates, u.Bounded) {earlier : List Update}
    (h : earlier <+: updates) :
    (after earlier).Consistent ∧ ((after earlier).unit = .files ↔ FilesLast earlier) :=
  ⟨consistent_after fun u hu => bounded u (h.subset hu), unit_after_eq_files_iff⟩

/-- A scan, and behind it a batch of two files. The state that is published at the end is the one that the
report of the last file has led to. -/
def scanAndBatch : List Update :=
  [.state .indexing "Initializing services...", .blocks 3 7, .state .indexed "File watcher started.",
    .files 1 2 (some "src/a.rs"), .files 2 2 none, .state .indexed "Processed 2 changed files."]

/-- The counters of the batch are still there when it is over. -/
theorem consistent_of_prefix_scanAndBatch : (∀ u ∈ scanAndBatch, u.Bounded) ∧
    (after scanAndBatch).Consistent ∧ FilesLast scanAndBatch ∧
    after scanAndBatch = ⟨.indexed, "Processed 2 changed files.", 2, 2, .files⟩ := by
  have bounded : ∀ u ∈ scanAndBatch, u.Bounded := by
    simp [scanAndBatch, Update.Bounded]
  have hafter : after scanAndBatch = ⟨.indexed, "Processed 2 changed files.", 2, 2, .files⟩ := by
    decide
  obtain ⟨hconsistent, hunit⟩ := consistent_of_prefix bounded (List.prefix_refl scanAndBatch)
  exact ⟨bounded, hconsistent, hunit.1 (by rw [hafter]), hafter⟩

end SourceIndex.Status
