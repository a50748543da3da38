import Mathlib.Algebra.BigOperators.Intervals
import Mathlib.Order.Monotone.Basic
import SourceIndex.Retry
/-!
# How often and when an operation is tried again

`RetryPolicy.delayAfter_eq` gives every delay in closed form: the doubled initial delay, held down twice, by
the largest factor and by the longest duration. A `RetryScene` says how each call of an operation ends, and
its `RetryLog` keeps what happens on a clock. `RetryPolicy.called_within_attempts`: an operation is called up
to its first success, or as often as there are attempts, and between two calls lies exactly one delay.
-/

namespace SourceIndex

/-- What is seen of a retried operation. -/
inductive RetryStep where
  /-- A call that begins at a time. -/
  | call (start : Nat)
  | sleep (duration : Nat)
deriving DecidableEq

def RetryStep.isCall : RetryStep → Bool
  | call _ => true
  | sleep _ => false

/-- A clock, and what was seen on it. -/
structure RetryLog where
  now : Nat
  steps : List RetryStep := []
deriving DecidableEq

/-- How many calls were made. -/
def RetryLog.calls (log : RetryLog) : Nat :=
  log.steps.countP RetryStep.isCall

/-- An operation by its calls, which are counted from one, and a clock. -/
structure RetryScene (ε α : Type) where
  /-- How a call ends. -/
  outcomes : Nat → Except ε α
  /-- How long a call takes. -/
  lasting : Nat → Nat := fun _ => 0
  /-- How long a sleep of some duration takes on the clock. -/
  span : Nat → Nat := id

namespace RetryScene

variable {ε α : Type}

/-- What the next call leaves on a clock. -/
def called (scene : RetryScene ε α) (log : RetryLog) : RetryLog where
  now := log.now + scene.lasting (log.calls + 1)
  steps := log.steps ++ [.call log.now]

/-- What a sleep leaves on a clock. -/
def slept (scene : RetryScene ε α) (duration : Nat) (log : RetryLog) : RetryLog where
  now := log.now + scene.span duration
  steps := log.steps ++ [.sleep duration]

/-- Make the next call. -/
def call (scene : RetryScene ε α) : StateM RetryLog (Except ε α) := fun log =>
  (scene.outcomes (log.calls + 1), scene.called log)

/-- Wait. -/
def pause (scene : RetryScene ε α) (duration : Nat) : StateM RetryLog Unit := fun log =>
  ((), scene.slept duration log)

/-- The call number `i` is the first that succeeds. -/
structure FirstSuccess (scene : RetryScene ε α) (i : Nat) : Prop where
  pos : 1 ≤ i
  succeeds : ∃ a, scene.outcomes i = .ok a
  fails : ∀ j, 1 ≤ j → j < i → ∃ e, scene.outcomes j = .error e

/-- The time from the beginning of the call number `first` to the beginning of the call `k` calls later. -/
def elapsed (scene : RetryScene ε α) (p : RetryPolicy) (first k : Nat) : Nat :=
  ∑ j ∈ Finset.range k, (scene.lasting (first + j) + scene.span (p.delayAfter (first + j)))

/-- What is seen from the call number `first` on, which begins at `start`, if `k` more calls follow: every
call but the last one has a sleep behind it. -/
def trail (scene : RetryScene ε α) (p : RetryPolicy) (start first k : Nat) : List RetryStep :=
  (List.range k).flatMap (fun j =>
    [.call (start + scene.elapsed p first j), .sleep (p.delayAfter (first + j))]) ++
  [.call (start + scene.elapsed p first k)]

end RetryScene

namespace RetryPolicy

variable {ε α : Type} {p : RetryPolicy} {scene : RetryScene ε α} {log : RetryLog} {n : Nat}

/-! ## Delays -/

/-- The largest factor is the largest number of 32 bits. -/
theorem growth_eq (n : Nat) : growth n = min (2 ^ (n - 1)) (2 ^ 32 - 1) := by
  rw [growth, Nat.pow_eq]
  split_ifs with h
  · have : 2 ^ (n - 1) ≤ 2 ^ 31 := Nat.pow_le_pow_right (by decide) (by omega)
    omega
  · have : 2 ^ 32 ≤ 2 ^ (n - 1) := Nat.pow_le_pow_right (by decide) (by omega)
    omega

theorem delayAfter_eq (p : RetryPolicy) (n : Nat) :
    p.delayAfter n = min (p.initialDelay * min (2 ^ (n - 1)) (2 ^ 32 - 1)) maxDuration := by
  rw [delayAfter, growth_eq]

theorem monotone_delayAfter (p : RetryPolicy) : Monotone p.delayAfter := by
  intro m n hle
  rw [delayAfter_eq, delayAfter_eq]
  have hpow : 2 ^ (m - 1) ≤ 2 ^ (n - 1) := Nat.pow_le_pow_right (by decide) (by omega)
  gcongr

/-- As long as nothing is held down the delay doubles with every attempt. -/
theorem delayAfter_of_fits (hfactor : 2 ^ (n - 1) < 2 ^ 32)
    (hproduct : p.initialDelay * 2 ^ (n - 1) ≤ maxDuration) :
    p.delayAfter n = p.initialDelay * 2 ^ (n - 1) := by
  rw [delayAfter_eq, min_eq_left (Nat.le_sub_one_of_lt hfactor), min_eq_left hproduct]

/-! ## Calls -/

@[simp] theorem calls_called : (scene.called log).calls = log.calls + 1 := by
  simp [RetryScene.called, RetryLog.calls, RetryStep.isCall]

@[simp] theorem calls_slept (duration : Nat) : (scene.slept duration log).calls = log.calls := by
  simp [RetryScene.slept, RetryLog.calls, RetryStep.isCall]

theorem elapsed_zero (first : Nat) : scene.elapsed p first 0 = 0 := rfl

/-- The time is that up to the second call and that from there on. -/
theorem elapsed_succ (first k : Nat) : scene.elapsed p first (k + 1) =
    scene.lasting first + scene.span (p.delayAfter first) + scene.elapsed p (first + 1) k := by
  rw [RetryScene.elapsed, Finset.sum_range_succ', Nat.add_comm]
  congr 1
  refine Finset.sum_congr rfl fun j _ => ?_
  rw [Nat.add_right_comm, Nat.add_assoc first]

/-- What is seen is a call, a sleep, and what is seen from the second call on. -/
theorem trail_succ (start first k : Nat) : scene.trail p start first (k + 1) =
    [.call start, .sleep (p.delayAfter first)] ++
      scene.trail p (start + (scene.lasting first + scene.span (p.delayAfter first))) (first + 1) k := by
  simp only [RetryScene.trail, List.range_succ_eq_map, List.flatMap_cons, List.flatMap_map, elapsed_succ,
    elapsed_zero, Nat.add_assoc, Nat.add_zero, List.append_assoc, Nat.add_comm 1]

theorem countP_trail (start first k : Nat) :
    (scene.trail p start first k).countP RetryStep.isCall = k + 1 := by
  induction k generalizing start first with
  | zero => rfl
  | succ k ih =>
    rw [trail_succ, List.countP_append, ih]
    exact Nat.add_comm 1 (k + 1)

/-- What follows a call goes by its outcome, on the clock behind it. -/
theorem run_call_bind {β : Type} (next : Except ε α → StateM RetryLog β) :
    (scene.call >>= next).run log = (next (scene.outcomes (log.calls + 1))).run (scene.called log) :=
  rfl

/-- Behind a call that succeeds nothing follows. -/
theorem runFrom_of_ok {a : α} (h : scene.outcomes (log.calls + 1) = .ok a) (attempt more : Nat) :
    (p.runFrom scene.pause scene.call attempt (more + 1)).run log = (.ok a, scene.called log) := by
  rw [runFrom, run_call_bind, h]
  rfl

/-- Behind a call that fails there is a sleep, and then the next call. -/
theorem runFrom_of_error {e : ε} (h : scene.outcomes (log.calls + 1) = .error e) (attempt more : Nat) :
    (p.runFrom scene.pause scene.call attempt (more + 1)).run log =
      (p.runFrom scene.pause scene.call (attempt + 1) more).run
        (scene.slept (p.delayAfter attempt) (scene.called log)) := by
  rw [runFrom, run_call_bind, h]
  rfl

/-- From any call on: the calls go on up to the first success or to the last attempt, and the outcome of the
last call is the outcome of all. -/
theorem exists_runFrom (p : RetryPolicy) (scene : RetryScene ε α) {first : Nat}
    (hfirst : log.calls + 1 = first) (more : Nat) :
    ∃ k ≤ more, (∀ j < k, ∃ e, scene.outcomes (first + j) = .error e) ∧
      (k = more ∨ ∃ a, scene.outcomes (first + k) = .ok a) ∧
      (p.runFrom scene.pause scene.call first more).run log =
        (scene.outcomes (first + k),
          { now := log.now + scene.elapsed p first k + scene.lasting (first + k)
            steps := log.steps ++ scene.trail p log.now first k }) := by
  induction more generalizing log first with
  | zero =>
    subst hfirst
    exact ⟨0, le_rfl, nofun, .inl rfl, rfl⟩
  | succ more ih =>
    cases houtcome : scene.outcomes first with
    | ok a =>
      refine ⟨0, Nat.zero_le _, nofun, .inr ⟨a, houtcome⟩, ?_⟩
      subst hfirst
      rw [runFrom_of_ok houtcome, Nat.add_zero, houtcome]
      rfl
    | error e =>
      have hnext : (scene.slept (p.delayAfter first) (scene.called log)).calls + 1 = first + 1 := by
        simp [hfirst]
      obtain ⟨k, hle, hfails, hend, hrun⟩ := ih hnext
      have hshift : ∀ j, first + (j + 1) = first + 1 + j := fun j => by omega
      refine ⟨k + 1, Nat.succ_le_succ hle, ?_, ?_, ?_⟩
      · rintro (_ | j) hj
        · exact ⟨e, houtcome⟩
        · rw [hshift]
          exact hfails j (Nat.lt_of_succ_lt_succ hj)
      · rw [hshift]
        exact hend.imp (congrArg Nat.succ) id
      · have hnow : (scene.slept (p.delayAfter first) (scene.called log)).now =
            log.now + (scene.lasting first + scene.span (p.delayAfter first)) := by
          rw [RetryScene.slept, RetryScene.called, hfirst, Nat.add_assoc]
        have hsteps : (scene.slept (p.delayAfter first) (scene.called log)).steps =
            log.steps ++ [.call log.now, .sleep (p.delayAfter first)] := by
          rw [RetryScene.slept, RetryScene.called, List.append_assoc, List.singleton_append]
        rw [runFrom_of_error (hfirst ▸ houtcome), hrun, hnow, hsteps, hshift k, elapsed_succ, trail_succ,
          List.append_assoc, Nat.add_assoc log.now]

/-- Behind calls that fail the first success is still to come. -/
theorem lt_of_fails {i k : Nat} (h : scene.FirstSuccess i)
    (hfails : ∀ j < k, ∃ e, scene.outcomes (1 + j) = .error e) : k < i := by
  by_contra hle
  have hpos := h.pos
  obtain ⟨a, ha⟩ := h.succeeds
  obtain ⟨e, he⟩ := hfails (i - 1) (by omega)
  rw [Nat.add_sub_of_le hpos, ha] at he
  cases he

/-- A success behind calls that fail is the first one. -/
theorem firstSuccess_of_fails {a : α} {k : Nat} (h : scene.outcomes (1 + k) = .ok a)
    (hfails : ∀ j < k, ∃ e, scene.outcomes (1 + j) = .error e) : scene.FirstSuccess (1 + k) where
  pos := Nat.le_add_right 1 k
  succeeds := ⟨a, h⟩
  fails j hpos hlt := by
    obtain ⟨e, he⟩ := hfails (j - 1) (by omega)
    rw [Nat.add_sub_of_le hpos] at he
    exact ⟨e, he⟩

/-- There is one first success at most. -/
theorem firstSuccess_unique {i j : Nat} (hi : scene.FirstSuccess i) (hj : scene.FirstSuccess j) : i = j := by
  have hle {i j : Nat} (hi : scene.FirstSuccess i) (hj : scene.FirstSuccess j) : i ≤ j := by
    by_contra hlt
    obtain ⟨a, ha⟩ := hj.succeeds
    obtain ⟨e, he⟩ := hi.fails j hj.pos (Nat.lt_of_not_le hlt)
    cases ha.symm.trans he
  exact Nat.le_antisymm (hle hi hj) (hle hj hi)

end RetryPolicy

/-- An operation is called as often as the position of its first success says, but no more often than there
are attempts; a policy without attempts has one. The outcome of the last call is the outcome of all. Between
two calls lies exactly the delay behind the first of them, and behind the last call nothing is waited for. The
delays never get shorter, double as long as nothing is held down, and are held down by the largest factor of
32 bits and by the longest duration. -/
theorem RetryPolicy.called_within_attempts {ε α : Type} (p : RetryPolicy) (scene : RetryScene ε α)
    (start : Nat) :
    (∃ n log, (p.run scene.pause scene.call).run { now := start } = (scene.outcomes n, log) ∧
      log.calls = n ∧
      (∀ i, scene.FirstSuccess i → n = min i (max 1 p.maxAttempts)) ∧
      ((∀ i, ¬ scene.FirstSuccess i) → n = max 1 p.maxAttempts) ∧
      log.steps = scene.trail p start 1 (n - 1) ∧
      log.now = start + scene.elapsed p 1 (n - 1) + scene.lasting n) ∧
    Monotone p.delayAfter ∧
    (∀ n, 2 ^ (n - 1) < 2 ^ 32 → p.initialDelay * 2 ^ (n - 1) ≤ maxDuration →
      p.delayAfter n = p.initialDelay * 2 ^ (n - 1)) ∧
    (∀ n, p.delayAfter n = min (p.initialDelay * min (2 ^ (n - 1)) (2 ^ 32 - 1)) maxDuration) := by
  refine ⟨?_, p.monotone_delayAfter, fun n => delayAfter_of_fits, p.delayAfter_eq⟩
  have hattempts : p.attempts = max 1 p.maxAttempts := Nat.max_comm _ _
  have hpositive : 1 ≤ p.attempts := hattempts ▸ Nat.le_max_left _ _
  have hfirst : ({ now := start } : RetryLog).calls + 1 = 1 := rfl
  obtain ⟨k, hle, hfails, hend, hrun⟩ := exists_runFrom p scene hfirst (p.attempts - 1)
  refine ⟨1 + k, _, hrun, ?_, fun i hi => ?_, fun hnone => ?_, ?_, ?_⟩
  · rw [RetryLog.calls, List.nil_append, countP_trail, Nat.add_comm]
  · have hlt := lt_of_fails hi hfails
    rcases hend with hlast | ⟨a, ha⟩
    · omega
    · rw [← firstSuccess_unique (firstSuccess_of_fails ha hfails) hi]
      omega
  · rcases hend with hlast | ⟨a, ha⟩
    · omega
    · exact absurd (firstSuccess_of_fails ha hfails) (hnone _)
  · rw [Nat.add_sub_cancel_left]
    exact List.nil_append _
  · rw [Nat.add_sub_cancel_left]

/-- Three calls that fail, half a second and then a second apart. -/
example :
    let scene : RetryScene String Nat := { outcomes := fun n => if n < 5 then .error "down" else .ok n }
    (({} : RetryPolicy).run scene.pause scene.call).run { now := 0 } =
      (.error "down",
        { now := millis 1500
          steps := [.call 0, .sleep (millis 500), .call (millis 500), .sleep (millis 1000),
            .call (millis 1500)] }) :=
  rfl

end SourceIndex
