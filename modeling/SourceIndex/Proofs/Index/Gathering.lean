import Mathlib.Data.List.DropRight
import SourceIndex.Scenario.World
/-!
# The loop of a watcher

A `WatchLoop` takes up one thing after the other, in whatever order they come: a notification, the moment at
which the gathered changes are due, or the order to stop. What was gathered since changes were last handed
over is `WatchLoop.recordedSince`, and the gathered changes have each path of it once, with its last change
(`Changes.Gathers`). `WatchLoop.Kept` says this of the loop behind a trace, and every step keeps it
(`Kept.step`). So no recorded change is lost (`WatchLoop.hands_over`).
-/

namespace SourceIndex

/-! ## Changes by path -/

theorem samePath_iff {a b : String} : samePath a b = true ↔ Path.components a = Path.components b :=
  beq_iff_eq

/-- Spellings of one path are the same path as the same others. -/
theorem samePath_congr {a b : String} (h : samePath a b = true) (q : String) :
    samePath a q = samePath b q := by
  rw [samePath, samePath, samePath_iff.1 h]

namespace Changes

variable {changes records more : Changes} {path q : String} {change : Change} {c : String × Change}

/-- The change of a path, however the path is spelled. -/
def get? (changes : Changes) (path : String) : Option Change :=
  (changes.find? fun c => samePath c.1 path).map (·.2)

/-- The last change that is recorded for a path. -/
def last? (records : Changes) (path : String) : Option Change :=
  get? records.reverse path

/-- A path stands among the changes. -/
def Mentions (changes : Changes) (path : String) : Prop :=
  ∃ c ∈ changes, samePath c.1 path = true

/-- No path stands twice. -/
def Distinct (changes : Changes) : Prop :=
  changes.Pairwise fun a b => samePath a.1 b.1 = false

/-- Each path of the records once, with the last change that is recorded for it. -/
structure Gathers (records changes : Changes) : Prop where
  distinct : changes.Distinct
  last : ∀ path, changes.get? path = records.last? path

/-- Put down records in their order. -/
def record (changes records : Changes) : Changes :=
  records.foldl (fun acc c => acc.put c.1 c.2) changes

@[simp] theorem get?_nil : get? [] q = none := rfl

theorem get?_cons : get? (c :: changes) q = if samePath c.1 q then some c.2 else get? changes q := by
  unfold get?
  rw [List.find?_cons]
  cases samePath c.1 q <;> rfl

theorem get?_append : get? (changes ++ more) q = (get? changes q).or (get? more q) := by
  induction changes with
  | nil => rfl
  | cons c changes ih =>
    rw [List.cons_append, get?_cons, get?_cons, ih]
    split <;> rfl

theorem last?_cons :
    last? (c :: records) q = (last? records q).or (if samePath c.1 q then some c.2 else none) := by
  rw [last?, List.reverse_cons, get?_append, get?_cons, get?_nil, last?]

theorem last?_append : last? (records ++ more) q = (last? more q).or (last? records q) := by
  rw [last?, List.reverse_append, get?_append, last?, last?]

theorem isSome_get?_iff : (get? changes q).isSome ↔ Mentions changes q := by
  simp [get?, Mentions, List.find?_isSome]

theorem isSome_last?_iff : (last? records q).isSome ↔ Mentions records q := by
  simp [last?, isSome_get?_iff, Mentions]

/-- A record is the last one of its path if no other record of the path follows. -/
theorem last?_of_last (h : ¬ Mentions more path) :
    last? (records ++ (path, change) :: more) path = some change := by
  have hmore : last? more path = none := by rwa [← Option.not_isSome_iff_eq_none, isSome_last?_iff]
  rw [last?_append, last?_cons, hmore, Option.none_or, if_pos (samePath_iff.2 rfl), Option.some_or]

/-- Overwriting the change of a path changes the answer for that path, if it had one, and no other. -/
theorem get?_map_replace :
    get? (changes.map fun c => if samePath c.1 path then (c.1, change) else c) q =
      if samePath path q then (get? changes q).map fun _ => change else get? changes q := by
  induction changes with
  | nil => simp
  | cons c changes ih =>
    rw [List.map_cons, get?_cons, get?_cons, ih]
    by_cases hc : samePath c.1 path = true
    · have hq := samePath_congr hc q
      by_cases hpath : samePath path q = true <;> simp [hc, hq, hpath]
    · by_cases hq : samePath c.1 q = true
      · have hpath : ¬ samePath path q = true := fun hpath => hc (by
          rw [samePath_iff] at hq hpath ⊢
          exact hq.trans hpath.symm)
        simp [hc, hq, hpath]
      · simp [hc, hq]

/-- After a change was put down its path has it, and every other path has what it had. -/
theorem get?_put : get? (put changes path change) q =
    if samePath path q then some change else get? changes q := by
  unfold put
  split
  · rename_i hany
    rw [get?_map_replace]
    obtain ⟨c, hc, hpath⟩ := List.any_eq_true.1 hany
    have hsome : (get? changes path).isSome := isSome_get?_iff.2 ⟨c, hc, hpath⟩
    split
    · rename_i hq
      have hsome : (get? changes q).isSome := isSome_get?_iff.2 ⟨c, hc, (samePath_congr hpath q).trans hq⟩
      obtain ⟨old, hold⟩ := Option.isSome_iff_exists.1 hsome
      rw [hold]
      rfl
    · rfl
  · rename_i hany
    rw [get?_append, get?_cons, get?_nil]
    split
    · rename_i hq
      have hnone : get? changes q = none := by
        rw [← Option.not_isSome_iff_eq_none, isSome_get?_iff]
        rintro ⟨c, hc, hcq⟩
        have hsame := (samePath_iff.1 hcq).trans (samePath_iff.1 hq).symm
        exact hany (List.any_eq_true.2 ⟨c, hc, samePath_iff.2 hsame⟩)
      rw [hnone]
      rfl
    · rw [Option.or_none]

/-- Putting a change down keeps every path to one place. -/
theorem distinct_put (h : Distinct changes) : Distinct (put changes path change) := by
  unfold put
  split
  · have hkey (c : String × Change) : (if samePath c.1 path then (c.1, change) else c).1 = c.1 := by
      split <;> rfl
    refine List.pairwise_map.2 (h.imp fun {a b} hab => ?_)
    rwa [hkey, hkey]
  · rename_i hany
    refine List.pairwise_append.2 ⟨h, List.pairwise_singleton _ _, fun a ha b hb => ?_⟩
    rw [List.mem_singleton.1 hb]
    exact Bool.eq_false_iff.2 fun hsame => hany (List.any_eq_true.2 ⟨a, ha, hsame⟩)

theorem get?_record : get? (record changes records) q = (last? records q).or (get? changes q) := by
  induction records generalizing changes with
  | nil => rfl
  | cons c records ih =>
    have hrecord : record changes (c :: records) = record (put changes c.1 c.2) records := rfl
    rw [hrecord, ih, get?_put, last?_cons, Option.or_assoc]
    split <;> rfl

theorem distinct_record (h : Distinct changes) : Distinct (record changes records) := by
  induction records generalizing changes with
  | nil => exact h
  | cons c records ih => exact ih (distinct_put h)

theorem record_append : record changes (records ++ more) = record (record changes records) more :=
  List.foldl_append

/-- Gathering puts down each path once, with its last change. -/
theorem gathers_record (records : Changes) : Gathers records (record [] records) where
  distinct := distinct_record List.Pairwise.nil
  last path := by rw [get?_record, get?_nil, Option.or_none]

/-- Nothing is there behind records only if nothing was there and there are no records. -/
theorem record_eq_nil_iff : record changes records = [] ↔ changes = [] ∧ records = [] := by
  constructor
  · intro hnil
    have hnone (q : String) : last? records q = none ∧ get? changes q = none := by
      rw [← Option.or_eq_none_iff, ← get?_record, hnil, get?_nil]
    constructor
    · refine List.eq_nil_iff_forall_not_mem.2 fun c hc => ?_
      have hsome : (get? changes c.1).isSome := isSome_get?_iff.2 ⟨c, hc, samePath_iff.2 rfl⟩
      simp [(hnone c.1).2] at hsome
    · refine List.eq_nil_iff_forall_not_mem.2 fun c hc => ?_
      have hsome : (last? records c.1).isSome := isSome_last?_iff.2 ⟨c, hc, samePath_iff.2 rfl⟩
      simp [(hnone c.1).1] at hsome
  · rintro ⟨rfl, rfl⟩
    rfl

end Changes

/-! ## The loop -/

/-- What the loop of a watcher takes up. -/
inductive WatchEvent where
  /-- A notification, or the text of an error. -/
  | notified (now : Nat) (event : Except String Notice)
  /-- The time of the gathered changes has come. -/
  | fired (now : Nat)
  /-- The order to stop. -/
  | stopped

namespace WatchEvent

def isFiring : WatchEvent → Bool
  | fired _ => true
  | _ => false

/-- The changes that are recorded. -/
def recorded : WatchEvent → Changes
  | notified _ (.ok notice) => Pending.changesOf notice
  | _ => []

end WatchEvent

/-- The loop of a watcher. -/
structure WatchLoop where
  pending : Pending := {}
  /-- What was handed over to be worked through. -/
  handed : List Changes := []
  running : Bool := true

namespace WatchLoop

/-- Take something up, if the loop is running. The gathered changes are handed over when their time has come,
and dropped by the order to stop. -/
def step? (debounce : Nat) (s : WatchLoop) (event : WatchEvent) : Option WatchLoop :=
  if !s.running then none
  else
    match event with
    | .notified _ (.error _) => some s
    | .notified now (.ok notice) => some { s with pending := s.pending.add debounce now notice }
    | .fired now =>
      if s.pending.due.any (· ≤ now) then
        let (batch, pending) := s.pending.take
        some { s with pending, handed := if batch.isEmpty then s.handed else s.handed ++ [batch] }
      else none
    | .stopped => some { s with pending := {}, running := false }

/-- Take up one thing after the other. -/
def run? (debounce : Nat) (s : WatchLoop) (trace : List WatchEvent) : Option WatchLoop :=
  trace.foldlM (step? debounce) s

/-- The changes that were recorded since changes were last handed over. -/
def recordedSince (trace : List WatchEvent) : Changes :=
  (trace.rtakeWhile fun event => !event.isFiring).flatMap WatchEvent.recorded

/-- The changes that are recorded before changes are handed over for the first time. -/
def recordedUntil (trace : List WatchEvent) : Changes :=
  (trace.takeWhile fun event => !event.isFiring).flatMap WatchEvent.recorded

/-- Where the loop stands behind a trace. -/
structure Kept (trace : List WatchEvent) (s : WatchLoop) : Prop where
  armed : s.pending.changes ≠ [] ↔ s.pending.due.isSome
  gathered : s.running = true → s.pending.changes = Changes.record [] (recordedSince trace)
  dropped : s.running = false → s.pending = {}
  running : s.running = true ↔ WatchEvent.stopped ∉ trace
  count : s.handed.length = trace.countP WatchEvent.isFiring
  batches : ∀ front now back, trace = front ++ .fired now :: back →
    recordedSince front ≠ [] ∧
      s.handed[front.countP WatchEvent.isFiring]? = some (Changes.record [] (recordedSince front))

variable {debounce now : Nat} {s t : WatchLoop} {event : WatchEvent} {trace : List WatchEvent}

/-- What a step does. -/
theorem step?_cases (h : s.step? debounce event = some t) : s.running = true ∧
    ((∃ now error, event = .notified now (.error error) ∧ t = s) ∨
      (∃ now notice, event = .notified now (.ok notice) ∧
        t = { s with pending := s.pending.add debounce now notice }) ∨
      (∃ now due, event = .fired now ∧ s.pending.due = some due ∧ due ≤ now ∧
        t = { s with
          pending := {}
          handed := if s.pending.changes.isEmpty then s.handed else s.handed ++ [s.pending.changes] }) ∨
      (event = .stopped ∧ t = { s with pending := {}, running := false })) := by
  unfold step? at h
  cases hrunning : s.running with
  | false => simp [hrunning] at h
  | true =>
    rw [hrunning, Bool.not_true, if_neg Bool.false_ne_true] at h
    refine ⟨rfl, ?_⟩
    cases event with
    | notified now event =>
      cases event with
      | error error => exact .inl ⟨now, error, rfl, (Option.some.inj h).symm⟩
      | ok notice => exact .inr (.inl ⟨now, notice, rfl, (Option.some.inj h).symm⟩)
    | fired now =>
      cases hdue : s.pending.due with
      | none => simp [hdue] at h
      | some due =>
        simp only [hdue, Option.any_some, decide_eq_true_eq] at h
        split at h
        · rename_i hle
          exact .inr (.inr (.inl ⟨now, due, rfl, rfl, hle, (Option.some.inj h).symm⟩))
        · cases h
    | stopped => exact .inr (.inr (.inr ⟨rfl, (Option.some.inj h).symm⟩))

/-- Gathering puts down what the notification records. -/
theorem changes_add (p : Pending) (notice : Notice) :
    (p.add debounce now notice).changes = Changes.record p.changes (Pending.changesOf notice) := by
  unfold Pending.add
  cases hfound : Pending.changesOf notice with
  | nil => rfl
  | cons c found => rfl

/-- A notification that records nothing leaves everything as it is. -/
theorem add_of_silent {p : Pending} {notice : Notice} (h : Pending.changesOf notice = []) :
    p.add debounce now notice = p := by
  unfold Pending.add
  rw [h]
  rfl

/-- Behind a notification the time is set if and only if changes are gathered, as before. -/
theorem armed_add {p : Pending} {notice : Notice} (h : p.changes ≠ [] ↔ p.due.isSome) :
    (p.add debounce now notice).changes ≠ [] ↔ (p.add debounce now notice).due.isSome := by
  by_cases hsilent : Pending.changesOf notice = []
  · rwa [add_of_silent hsilent]
  · have hdue : (p.add debounce now notice).due = some (now + debounce) := by
      rw [Pending.add, if_neg (by simpa using hsilent)]
    rw [hdue, changes_add, ne_eq, Changes.record_eq_nil_iff]
    simp [hsilent]

theorem recordedSince_concat (h : event.isFiring = false) :
    recordedSince (trace ++ [event]) = recordedSince trace ++ event.recorded := by
  rw [recordedSince, List.rtakeWhile_concat_pos _ _ _ (by simp [h]), List.flatMap_append,
    List.flatMap_singleton]
  rfl

theorem recordedSince_concat_fired (h : event.isFiring = true) : recordedSince (trace ++ [event]) = [] := by
  rw [recordedSince, List.rtakeWhile_concat_neg _ _ _ (by simp [h]), List.flatMap_nil]

theorem kept_start : Kept [] {} where
  armed := by simp
  gathered _ := rfl
  dropped := nofun
  running := by simp
  count := rfl
  batches front now back h := by simp at h

/-- An event of a longer trace is its last one, or was there before. -/
theorem eq_or_exists_of_concat {x : WatchEvent} {front back : List WatchEvent}
    (h : trace ++ [event] = front ++ x :: back) :
    (trace = front ∧ event = x ∧ back = []) ∨
      ∃ others, trace = front ++ x :: others ∧ back = others ++ [event] := by
  cases back using List.reverseRecOn with
  | nil =>
    obtain ⟨htrace, hevent⟩ := List.append_inj' h rfl
    exact .inl ⟨htrace, List.singleton_inj.1 hevent, rfl⟩
  | append_singleton others last =>
    rw [← List.cons_append, ← List.append_assoc] at h
    obtain ⟨htrace, hevent⟩ := List.append_inj' h rfl
    exact .inr ⟨others, htrace, by rw [hevent]⟩

/-- A step that hands nothing over keeps what was handed over. -/
theorem Kept.batches_concat (h : Kept trace s) (hevent : event.isFiring = false)
    {front back : List WatchEvent} (heq : trace ++ [event] = front ++ .fired now :: back) :
    recordedSince front ≠ [] ∧
      s.handed[front.countP WatchEvent.isFiring]? = some (Changes.record [] (recordedSince front)) := by
  rcases eq_or_exists_of_concat heq with ⟨-, rfl, -⟩ | ⟨others, htrace, -⟩
  · cases hevent
  · exact h.batches front now others htrace

theorem Kept.step (h : Kept trace s) (hstep : s.step? debounce event = some t) :
    Kept (trace ++ [event]) t := by
  obtain ⟨hrunning, hcases⟩ := step?_cases hstep
  rcases hcases with ⟨now, error, rfl, rfl⟩ | ⟨now, notice, rfl, rfl⟩ | ⟨now, due, rfl, hdue, -, rfl⟩ |
    ⟨rfl, rfl⟩
  · exact {
      armed := h.armed
      gathered := fun _ => by
        rw [h.gathered hrunning, recordedSince_concat rfl]
        exact congrArg _ (List.append_nil _).symm
      dropped := h.dropped
      running := by simp [h.running]
      count := by simp [h.count, WatchEvent.isFiring]
      batches := fun front now back => h.batches_concat rfl }
  · exact {
      armed := armed_add h.armed
      gathered := fun _ => by
        rw [changes_add, h.gathered hrunning, recordedSince_concat rfl, Changes.record_append]
        rfl
      dropped := fun hstopped => by cases hrunning.symm.trans hstopped
      running := by simp [h.running]
      count := by simp [h.count, WatchEvent.isFiring]
      batches := fun front now back => h.batches_concat rfl }
  · have hsome : s.pending.changes ≠ [] := h.armed.2 (by rw [hdue]; rfl)
    rw [if_neg (by simpa using hsome)]
    exact {
      armed := by simp
      gathered := fun _ => by rw [recordedSince_concat_fired rfl]; rfl
      dropped := fun _ => rfl
      running := by simp [h.running]
      count := by simp [h.count, WatchEvent.isFiring]
      batches := fun front later back heq => by
        rcases eq_or_exists_of_concat heq with ⟨rfl, -, -⟩ | ⟨others, htrace, -⟩
        · rw [h.gathered hrunning] at hsome ⊢
          refine ⟨fun hnil => hsome (by rw [hnil]; rfl), ?_⟩
          rw [← h.count, List.getElem?_concat_length]
        · obtain ⟨hne, hbatch⟩ := h.batches front later others htrace
          obtain ⟨hlt, -⟩ := List.getElem?_eq_some_iff.1 hbatch
          exact ⟨hne, by rw [List.getElem?_append_left hlt, hbatch]⟩ }
  · exact {
      armed := by simp
      gathered := nofun
      dropped := fun _ => rfl
      running := by simp
      count := by simp [h.count, WatchEvent.isFiring]
      batches := fun front now back => h.batches_concat rfl }

theorem kept_of_run? (h : run? debounce {} trace = some s) : Kept trace s := by
  induction trace using List.reverseRecOn generalizing s with
  | nil =>
    cases h
    exact kept_start
  | append_singleton trace event ih =>
    rw [run?, List.foldlM_append] at h
    obtain ⟨before, hbefore, hlast⟩ := Option.bind_eq_some_iff.1 h
    exact (ih hbefore).step (by simpa using hlast)

/-- The order to stop comes last. -/
theorem not_stopped_before {before after : List WatchEvent}
    (h : run? debounce {} (before ++ event :: after) = some s) : .stopped ∉ before := by
  rw [run?, List.foldlM_append] at h
  obtain ⟨between, hbefore, hafter⟩ := Option.bind_eq_some_iff.1 h
  obtain ⟨next, hstep, -⟩ := Option.bind_eq_some_iff.1 hafter
  exact (kept_of_run? hbefore).running.1 (step?_cases hstep).1

/-! ## What becomes of a record -/

/-- Without a firing in between, everything that is recorded adds up. -/
theorem recordedSince_append {events : List WatchEvent} (h : events.any WatchEvent.isFiring = false) :
    recordedSince (trace ++ events) = recordedSince trace ++ events.flatMap WatchEvent.recorded := by
  induction events using List.reverseRecOn with
  | nil => simp
  | append_singleton events event ih =>
    rw [List.any_append, Bool.or_eq_false_iff] at h
    rw [← List.append_assoc, recordedSince_concat (by simpa using h.2), ih h.1, List.flatMap_append,
      List.append_assoc, List.flatMap_singleton]

theorem countP_append {events : List WatchEvent} (h : events.any WatchEvent.isFiring = false) :
    (trace ++ events).countP WatchEvent.isFiring = trace.countP WatchEvent.isFiring := by
  have hnone : events.countP WatchEvent.isFiring = 0 := List.countP_eq_zero.2 (by simpa using h)
  rw [List.countP_append, hnone, Nat.add_zero]

/-- In front of the next firing nothing is handed over. -/
theorem exists_next_firing {events : List WatchEvent} (h : events.any WatchEvent.isFiring = true) :
    ∃ waiting now rest, events = waiting ++ .fired now :: rest ∧
      waiting.any WatchEvent.isFiring = false ∧
      recordedUntil events = waiting.flatMap WatchEvent.recorded := by
  induction events with
  | nil => cases h
  | cons event events ih =>
    cases hevent : event.isFiring with
    | true =>
      cases event with
      | fired now => exact ⟨[], now, events, rfl, rfl, rfl⟩
      | notified => cases hevent
      | stopped => cases hevent
    | false =>
      rw [List.any_cons, hevent, Bool.false_or] at h
      obtain ⟨waiting, now, rest, rfl, hwaiting, htake⟩ := ih h
      refine ⟨event :: waiting, now, rest, rfl, by simp [hevent, hwaiting], ?_⟩
      rw [List.flatMap_cons, ← htake, recordedUntil, List.takeWhile_cons_of_pos (by simp [hevent])]
      rfl

variable {before after waiting : List WatchEvent} {notice : Notice} {front back : Changes} {path : String}
  {change : Change}

/-- As long as nothing is handed over, a record that no other one of its path follows is the last one. -/
theorem last?_recordedSince (hwaiting : waiting.any WatchEvent.isFiring = false)
    (hrecord : Pending.changesOf notice = front ++ (path, change) :: back)
    (hlast : ¬ Changes.Mentions (back ++ waiting.flatMap WatchEvent.recorded) path) :
    Changes.last? (recordedSince (before ++ .notified now (.ok notice) :: waiting)) path = some change := by
  rw [recordedSince_append (by simp [hwaiting, WatchEvent.isFiring]), List.flatMap_cons, WatchEvent.recorded,
    hrecord, List.append_assoc, ← List.append_assoc, List.cons_append]
  exact Changes.last?_of_last hlast

/-- A record that no other one of its path follows is in the batch of the next firing. -/
theorem Kept.handed_of_fired (h : Kept trace s)
    (htrace : trace = before ++ .notified now (.ok notice) :: after)
    (hrecord : Pending.changesOf notice = front ++ (path, change) :: back)
    (hlast : ¬ Changes.Mentions (back ++ recordedUntil after) path)
    (hfired : after.any WatchEvent.isFiring = true) :
    ∃ batch, s.handed[before.countP WatchEvent.isFiring]? = some batch ∧
      batch.get? path = some change := by
  obtain ⟨waiting, later, rest, rfl, hwaiting, htake⟩ := exists_next_firing hfired
  rw [htake] at hlast
  have hsplit : trace = (before ++ .notified now (.ok notice) :: waiting) ++ .fired later :: rest := by
    rw [htrace, List.append_assoc, List.cons_append]
  obtain ⟨-, hbatch⟩ := h.batches _ later rest hsplit
  rw [countP_append (by simp [hwaiting, WatchEvent.isFiring])] at hbatch
  refine ⟨_, hbatch, ?_⟩
  rw [(Changes.gathers_record _).last, last?_recordedSince hwaiting hrecord hlast]

/-- Without a next firing it is gathered as long as the loop is running. -/
theorem Kept.pending_of_not_fired (h : Kept trace s)
    (htrace : trace = before ++ .notified now (.ok notice) :: after)
    (hrecord : Pending.changesOf notice = front ++ (path, change) :: back)
    (hlast : ¬ Changes.Mentions (back ++ recordedUntil after) path)
    (hfired : after.any WatchEvent.isFiring = false) (hrunning : s.running = true) :
    s.pending.changes.get? path = some change := by
  rw [recordedUntil, List.takeWhile_eq_self_iff.2 (by simpa using hfired)] at hlast
  rw [h.gathered hrunning, (Changes.gathers_record _).last, htrace, last?_recordedSince hfired hrecord hlast]

/-- A notification records nothing if it is an error, does not concern the content of a file, or comes with
paths only that are not indexed. -/
def Silent (event : Except String Notice) : Prop :=
  ∀ notice, event = .ok notice →
    notice.kind = .other ∨ ∀ p ∈ notice.paths, isSupportedPath p.1 = false

theorem changesOf_of_silent (h : Silent (.ok notice)) : Pending.changesOf notice = [] := by
  rw [Pending.changesOf, List.filterMap_eq_nil_iff]
  rintro ⟨path, pathExists⟩ hp
  rcases h notice rfl with hkind | hpaths
  · rw [hkind]
    simp [NoticeKind.change?]
  · simp [hpaths _ hp]

theorem step?_of_silent {event : Except String Notice} (h : Silent event) (hrunning : s.running = true) :
    s.step? debounce (.notified now event) = some s := by
  rw [step?.eq_def, if_neg (by simp [hrunning])]
  cases event with
  | error error => rfl
  | ok notice =>
    dsimp only
    rw [add_of_silent (changesOf_of_silent h)]

/-! ## The watcher of a world -/

section

open Scenario

variable {w : World} {watch : Watch}

/-- The loop of the watcher of a world. -/
def ofWorld (w : World) : WatchLoop where
  pending := (w.watch.map (·.pending)).getD {}
  running := w.watch.isSome

/-- A world brings a notification to its watcher by a step of the loop. -/
theorem step?_notice (h : w.watch = some watch) (notice : Notice) :
    (ofWorld w).step? (millis watch.services.tuning.watcherDebounce) (.notified w.now (.ok notice)) =
      some (ofWorld (w.notice notice)) := by
  simp [step?, ofWorld, World.notice, h]

/-- It stops its watcher by a step of the loop. -/
theorem step?_stopWatcher (h : w.watch.isSome = true) :
    (ofWorld w).step? debounce .stopped = some (ofWorld w.stopWatcher) := by
  simp [step?, ofWorld, World.stopWatcher, h]

/-- When it begins with a batch, the loop fires and hands over what is worked through. -/
theorem step?_begin {due : Nat} {limit : Option Nat} (h : w.watch = some watch)
    (hdue : watch.pending.due = some due) (hne : watch.pending.changes ≠ [])
    (hlimit : limit.all (due < ·) = true) (hidle : w.flights.any (·.shown) = false) :
    ∃ begun : World,
      (ofWorld w).step? debounce (.fired due) =
        some { ofWorld begun with handed := [watch.pending.changes] } ∧
      w.begin limit =
        let (flight, after) := World.proceed limit true
          (processChanges watch.services watch.pending.changes) (begun.elapse (due - w.now))
        { after with flights := after.flights ++ flight.toList } := by
  refine ⟨{ w with watch := some { watch with pending := {} } }, ?_, ?_⟩
  · simp [step?, ofWorld, Pending.take, h, hdue, hne]
  · simp only [World.begin, h, hdue, hlimit, hidle, Bool.not_false, Bool.and_self, if_true, Pending.take]

end

end WatchLoop

/-- No recorded change is lost. Changes are gathered exactly if their time is set. Every firing hands over one
batch, which has each path that was recorded since the firing before, once and with its last change. A record
is followed by another one of its path before the next firing, or it is in the batch of that firing; if no
firing comes, it is still gathered or was dropped by the order to stop. A notification that records nothing
changes nothing. -/
theorem WatchLoop.hands_over {debounce : Nat} {trace : List WatchEvent} {s : WatchLoop}
    (h : run? debounce {} trace = some s) :
    (s.pending.changes ≠ [] ↔ s.pending.due.isSome) ∧
    (s.handed.length = trace.countP WatchEvent.isFiring ∧
      ∀ front now back, trace = front ++ .fired now :: back →
        ∃ batch, s.handed[front.countP WatchEvent.isFiring]? = some batch ∧ batch ≠ [] ∧
          Changes.Gathers (recordedSince front) batch) ∧
    (∀ before now notice after front path change back,
      trace = before ++ .notified now (.ok notice) :: after →
      Pending.changesOf notice = front ++ (path, change) :: back →
      Changes.Mentions (back ++ recordedUntil after) path ∨
      (after.any WatchEvent.isFiring = true ∧
        ∃ batch, s.handed[before.countP WatchEvent.isFiring]? = some batch ∧
          batch.get? path = some change) ∨
      (after.any WatchEvent.isFiring = false ∧ s.handed.length = before.countP WatchEvent.isFiring ∧
        (.stopped ∈ after → s.pending = {}) ∧
        (.stopped ∉ after → s.pending.changes.get? path = some change))) ∧
    (∀ now event, Silent event → s.running = true →
      s.step? debounce (.notified now event) = some s) := by
  have hkept := kept_of_run? h
  refine ⟨hkept.armed, ⟨hkept.count, fun front now back htrace => ?_⟩, ?_,
    fun now event => step?_of_silent⟩
  · obtain ⟨hne, hbatch⟩ := hkept.batches front now back htrace
    refine ⟨_, hbatch, fun hnil => hne (Changes.record_eq_nil_iff.1 hnil).2, Changes.gathers_record _⟩
  · intro before now notice after front path change back htrace hrecord
    by_cases hlast : Changes.Mentions (back ++ recordedUntil after) path
    · exact .inl hlast
    cases hfired : after.any WatchEvent.isFiring with
    | true => exact .inr (.inl ⟨rfl, hkept.handed_of_fired htrace hrecord hlast hfired⟩)
    | false =>
      refine .inr (.inr ⟨rfl, ?_, fun hstopped => ?_, fun hrunning => ?_⟩)
      · rw [hkept.count, htrace, countP_append (by simp [hfired, WatchEvent.isFiring])]
      · refine hkept.dropped (Bool.eq_false_iff.2 fun hrunning => hkept.running.1 hrunning ?_)
        rw [htrace]
        exact List.mem_append_right _ (List.mem_cons_of_mem _ hstopped)
      · refine hkept.pending_of_not_fired htrace hrecord hlast hfired (hkept.running.2 ?_)
        subst htrace
        simp [not_stopped_before h, hrunning]

/-- Of two changes to one path, spelled in two ways, the last one is handed over. -/
theorem WatchLoop.hands_over_last :
    let waiting : List WatchEvent :=
      [.notified 0 (.ok ⟨.create, [("/w/a.md", true)]⟩), .notified 1 (.error "overflow"),
        .notified 2 (.ok ⟨.remove, [("/w//a.md", false)]⟩)]
    ∃ s, run? 5 {} (waiting ++ [.fired 7, .stopped]) = some s ∧ s.handed.length = 1 ∧
      ∃ batch, s.handed[0]? = some batch ∧ batch.get? "/w/a.md" = some .deleted := by
  intro waiting
  have hruns : (run? 5 {} (waiting ++ [.fired 7, .stopped])).isSome = true := by decide +kernel
  obtain ⟨s, hs⟩ := Option.isSome_iff_exists.1 hruns
  obtain ⟨-, ⟨hcount, hbatches⟩, -⟩ := hands_over hs
  obtain ⟨batch, hbatch, -, hgathers⟩ := hbatches waiting 7 [.stopped] rfl
  refine ⟨s, hs, hcount, batch, hbatch, ?_⟩
  rw [hgathers.last]
  decide +kernel

end SourceIndex
