/-!
# Retrying

A policy of a fixed number of attempts with delays that double. Durations are counted in nanoseconds
and stop at the longest one that can be expressed.
-/

namespace SourceIndex

/-- The longest duration, in nanoseconds: as many seconds as fit in 64 bits and a nanosecond less than
one more. -/
def maxDuration : Nat := Nat.pow 2 64 * 1000000000 - 1

/-- Nanoseconds of a number of milliseconds. -/
def millis (n : Nat) : Nat :=
  n * 1000000

/-- How often to try and how long to wait in between. -/
structure RetryPolicy where
  /-- Attempts in total, the first one included. -/
  maxAttempts : Nat := 3
  initialDelay : Nat := millis 500
deriving DecidableEq

namespace RetryPolicy

/-- `2 ^ (attempt - 1)`, kept within 32 bits. -/
def growth (attempt : Nat) : Nat :=
  if attempt - 1 < 32 then Nat.pow 2 (attempt - 1) else 4294967295

/-- The delay behind the failed attempt number `attempt`, counted from one. -/
def delayAfter (p : RetryPolicy) (attempt : Nat) : Nat :=
  min (p.initialDelay * growth attempt) maxDuration

/-- How many attempts are made when none succeeds. -/
def attempts (p : RetryPolicy) : Nat :=
  max p.maxAttempts 1

variable {m : Type → Type} [Monad m] {ε α : Type}

/-- Try `operation`, and up to `more` times again with a pause before each; `attempt` is the number of
the next attempt. The error of the last attempt is the error of all. -/
def runFrom (p : RetryPolicy) (pause : Nat → m Unit) (operation : m (Except ε α)) :
    (attempt more : Nat) → m (Except ε α)
  | _, 0 => operation
  | attempt, more + 1 => do
    match ← operation with
    | .ok a => return .ok a
    | .error _ =>
      pause (p.delayAfter attempt)
      runFrom p pause operation (attempt + 1) more

/-- Try `operation` until it succeeds or the attempts are used up. -/
def run (p : RetryPolicy) (pause : Nat → m Unit) (operation : m (Except ε α)) : m (Except ε α) :=
  p.runFrom pause operation 1 (p.attempts - 1)

end RetryPolicy

end SourceIndex
