import SourceIndex.Proofs.Program.Runs
/-!
# What runs put down on their way

`Passes` are the states that a run goes through, also in the middle of a program. A log is a state that
only grows: `logging` are rules under which each request adds what it does, whatever happened before.
So all that is in a log at some point of a run is in it at the end as well, in the same order
(`Passes.exists_ends`), and what holds of the logs of whole runs tells what holds on the way.

Where a request changes a state by what it does (`Does`), a run changes it by its log (`Ends.exists_log`).
-/

namespace SourceIndex.Program

variable {I : Interface} {α β σ ε : Type} {rules : Rules I σ}

/-- `Passes rules p s s'`: some run of `p` from `s` comes through the state `s'`, before its first request,
between two requests or at its end. -/
inductive Passes (rules : Rules I σ) : Program I α → σ → σ → Prop where
  | here (p : Program I α) (s : σ) : Passes rules p s s
  | call {r : I.Request} {next : I.Answer r → Program I α} {s s' s'' : σ} {x : I.Answer r}
      (answer : rules r s x s') (rest : Passes rules (next x) s' s'') :
      Passes rules (call r next) s s''

/-- A run comes through the state that it ends in. -/
theorem Ends.passes {p : Program I α} {s s' : σ} {a : α} (h : Ends rules p s a s') :
    Passes rules p s s' := by
  induction h with
  | done a s => exact .here _ s
  | call answer rest ih => exact .call answer ih

/-! ## Logs -/

/-- What a request with its answer may do. -/
abbrev Emission (I : Interface) (ε : Type) := (request : I.Request) → I.Answer request → List ε → Prop

/-- The rules under which every request adds to a log what it does. -/
def logging (emits : Emission I ε) : Rules I (List ε) :=
  fun r log x log' => ∃ effects, emits r x effects ∧ log' = log ++ effects

variable {emits : Emission I ε} {log log' : List ε}

/-- Where every request can be answered, every program has a run. -/
theorem exists_ends_logging (total : ∀ r, ∃ x effects, emits r x effects) (p : Program I α)
    (log : List ε) : ∃ a log', Ends (logging emits) p log a log' ∧ log <+: log' := by
  induction p generalizing log with
  | done a => exact ⟨a, log, .done a log, List.prefix_refl log⟩
  | call r next ih =>
    obtain ⟨x, effects, h⟩ := total r
    obtain ⟨a, log', run, hprefix⟩ := ih x (log ++ effects)
    exact ⟨a, log', .call ⟨effects, h, rfl⟩ run, (List.prefix_append log effects).trans hprefix⟩

/-- A run only adds to the log. -/
theorem Ends.exists_append {p : Program I α} {a : α} (h : Ends (logging emits) p log a log') :
    ∃ new, log' = log ++ new := by
  induction h with
  | done a log => exact ⟨[], (List.append_nil log).symm⟩
  | call answer rest ih =>
    obtain ⟨new, rfl⟩ := ih
    obtain ⟨effects, -, rfl⟩ := answer
    exact ⟨effects ++ new, List.append_assoc ..⟩

/-- The log at some point of a run is the beginning of the log of a whole run. -/
theorem Passes.exists_ends (total : ∀ r, ∃ x effects, emits r x effects) {p : Program I α}
    (h : Passes (logging emits) p log log') :
    ∃ a whole, Ends (logging emits) p log a whole ∧ log' <+: whole := by
  induction h with
  | here p log => exact exists_ends_logging total p log
  | call answer rest ih =>
    obtain ⟨a, whole, run, hprefix⟩ := ih
    exact ⟨a, whole, .call answer run, hprefix⟩

/-- Rules under which every request changes the state by what it does. -/
def Does (rules : Rules I σ) (emits : Emission I ε) (act : σ → ε → σ) : Prop :=
  ∀ r s x s', rules r s x s' → ∃ effects, emits r x effects ∧ s' = effects.foldl act s

/-- A run changes the state by what its log holds. -/
theorem Ends.exists_log {act : σ → ε → σ} (does : Does rules emits act) {p : Program I α} {s s' : σ}
    {a : α} (h : Ends rules p s a s') (before : List ε) :
    ∃ log, Ends (logging emits) p before a (before ++ log) ∧ s' = log.foldl act s := by
  induction h generalizing before with
  | done a s => exact ⟨[], by rw [List.append_nil]; exact .done a before, rfl⟩
  | call answer rest ih =>
    obtain ⟨effects, hemits, rfl⟩ := does _ _ _ _ answer
    obtain ⟨log, run, rfl⟩ := ih (before ++ effects)
    refine ⟨effects ++ log, .call ⟨effects, hemits, rfl⟩ ?_, List.foldl_append.symm⟩
    rwa [← List.append_assoc]

/-- On its way as well, a run changes the state by what its log holds. -/
theorem Passes.exists_log {act : σ → ε → σ} (does : Does rules emits act) {p : Program I α} {s s' : σ}
    (h : Passes rules p s s') (before : List ε) :
    ∃ log, Passes (logging emits) p before (before ++ log) ∧ s' = log.foldl act s := by
  induction h generalizing before with
  | here p s => exact ⟨[], by rw [List.append_nil]; exact .here p before, rfl⟩
  | call answer rest ih =>
    obtain ⟨effects, hemits, rfl⟩ := does _ _ _ _ answer
    obtain ⟨log, run, rfl⟩ := ih (before ++ effects)
    refine ⟨effects ++ log, .call ⟨effects, hemits, rfl⟩ ?_, List.foldl_append.symm⟩
    rwa [← List.append_assoc]

end SourceIndex.Program
