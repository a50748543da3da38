/-!
# Programs as trees of requests

A program is what it asks for first and what it does with the answer. It says nothing about how
requests are answered, so that the same program can be run against real services, against scripted
ones, one step at a time, or next to another program.

`Program.run` answers every request from a state. `run_bind` says that running a sequence is running
its parts one after the other.
-/

namespace SourceIndex

/-- What programs may ask for, and the type of each answer. -/
structure Interface where
  Request : Type
  Answer : Request → Type

/-- A program that ends with a value. -/
inductive Program (I : Interface) (α : Type) where
  | done (value : α)
  | call (request : I.Request) (next : I.Answer request → Program I α)

namespace Program

variable {I : Interface} {α β σ : Type}

/-- The first program, followed by the one that its value selects. -/
def bind : Program I α → (α → Program I β) → Program I β
  | done a, f => f a
  | call r next, f => call r fun x => (next x).bind f

instance : Monad (Program I) where
  pure := done
  bind := bind

/-- Ask for one thing and end with the answer. -/
def ask (request : I.Request) : Program I (I.Answer request) :=
  call request done

/-- How requests are answered in a state. -/
abbrev Handler (I : Interface) (σ : Type) := (request : I.Request) → σ → I.Answer request × σ

/-- Run a program to its end. -/
def run (handle : Handler I σ) : Program I α → σ → α × σ
  | done a, s => (a, s)
  | call r next, s =>
    let answered := handle r s
    (next answered.1).run handle answered.2

/-- The states that a run goes through, the first one included. -/
def states (handle : Handler I σ) : Program I α → σ → List σ
  | done _, s => [s]
  | call r next, s =>
    let answered := handle r s
    s :: (next answered.1).states handle answered.2

/-- Run two programs beside each other. Each of `turns` says whether the first one makes the next request;
the turn of a program that has ended is left out. When the turns are used up the first program is run
to its end, and then the second. -/
def runBoth (handle : Handler I σ) :
    List Bool → Program I α → Program I β → σ → (α × β) × σ
  | [], p, q, s =>
    let first := p.run handle s
    let second := q.run handle first.2
    ((first.1, second.1), second.2)
  | true :: turns, call r next, q, s =>
    runBoth handle turns (next (handle r s).1) q (handle r s).2
  | true :: turns, done a, q, s => runBoth handle turns (done a) q s
  | false :: turns, p, call r next, s =>
    runBoth handle turns p (next (handle r s).1) (handle r s).2
  | false :: turns, p, done b, s => runBoth handle turns p (done b) s

@[simp] theorem run_done (handle : Handler I σ) (a : α) (s : σ) :
    (done a : Program I α).run handle s = (a, s) := rfl

@[simp] theorem run_call (handle : Handler I σ) (r : I.Request)
    (next : I.Answer r → Program I α) (s : σ) :
    (call r next).run handle s = (next (handle r s).1).run handle (handle r s).2 := rfl

theorem run_bind (handle : Handler I σ) (p : Program I α) (f : α → Program I β) (s : σ) :
    (p.bind f).run handle s = (f (p.run handle s).1).run handle (p.run handle s).2 := by
  induction p generalizing s with
  | done a => rfl
  | call r next ih => simp [bind, ih]

end Program

end SourceIndex
