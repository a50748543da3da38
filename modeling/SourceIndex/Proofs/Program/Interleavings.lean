import SourceIndex.Proofs.Program.Passages
/-!
# Two programs beside each other

`EndsBoth` are the runs of two programs of which now the one and now the other makes its next request,
on one state. What they do is one log, each entry marked with the program that it comes from; the
entries of either program are the log of a run of that program alone (`EndsBoth.exists_log`). So all
interleavings of two programs are spoken of by the two logs that each of them may have and the ways to
mix them. `endsBoth_runBoth`: the runs of `Program.runBoth` are among them.
-/

namespace SourceIndex.Program

variable {I : Interface} {α β σ ε : Type} {rules : Rules I σ}

/-- `EndsBoth rules p q s a b s'`: some run of `p` and `q` beside each other from `s` ends in `s'`, the one
with the value `a` and the other with `b`. -/
inductive EndsBoth (rules : Rules I σ) :
    Program I α → Program I β → σ → α → β → σ → Prop where
  | done (a : α) (b : β) (s : σ) : EndsBoth rules (done a) (done b) s a b s
  | first {r : I.Request} {next : I.Answer r → Program I α} {q : Program I β} {s s' s'' : σ}
      {x : I.Answer r} {a : α} {b : β} (answer : rules r s x s')
      (rest : EndsBoth rules (next x) q s' a b s'') : EndsBoth rules (call r next) q s a b s''
  | second {p : Program I α} {r : I.Request} {next : I.Answer r → Program I β} {s s' s'' : σ}
      {x : I.Answer r} {a : α} {b : β} (answer : rules r s x s')
      (rest : EndsBoth rules p (next x) s' a b s'') : EndsBoth rules p (call r next) s a b s''

/-- A run of the second program alone, behind the first one. -/
theorem EndsBoth.of_ends_second {q : Program I β} {s s' : σ} {b : β} (a : α)
    (h : Ends rules q s b s') : EndsBoth rules (.done a) q s a b s' := by
  induction h with
  | done b s => exact .done a b s
  | call answer rest ih => exact .second answer ih

/-- One program after the other is one way to run them beside each other. -/
theorem EndsBoth.of_ends {p : Program I α} {q : Program I β} {s s₁ s' : σ} {a : α} {b : β}
    (hp : Ends rules p s a s₁) (hq : Ends rules q s₁ b s') : EndsBoth rules p q s a b s' := by
  induction hp with
  | done a s => exact .of_ends_second a hq
  | call answer rest ih => exact .first answer (ih hq)

/-- A handler whose answers follow the rules gives a run for every order of turns. -/
theorem endsBoth_runBoth {handle : Handler I σ}
    (follows : ∀ r s, rules r s (handle r s).1 (handle r s).2) (turns : List Bool)
    (p : Program I α) (q : Program I β) (s : σ) :
    EndsBoth rules p q s (runBoth handle turns p q s).1.1 (runBoth handle turns p q s).1.2
      (runBoth handle turns p q s).2 := by
  fun_induction runBoth handle turns p q s with
  | case1 p q s => exact .of_ends (ends_run id follows p s) (ends_run id follows q _)
  | case2 turns r next q s ih => exact .first (follows r s) ih
  | case3 turns a q s ih => exact ih
  | case4 turns p r next s ih => exact .second (follows r s) ih
  | case5 turns p b s ih => exact ih

/-! ## Marked logs -/

/-- The entries of one of two programs, which one is said by the mark. -/
def side (mark : Bool) (log : List (Bool × ε)) : List ε :=
  log.filterMap fun entry => if entry.1 = mark then some entry.2 else none

section
variable {mark : Bool} {log log' : List (Bool × ε)} {effect : ε}

@[simp] theorem side_nil : side mark ([] : List (Bool × ε)) = [] := rfl

@[simp] theorem side_append : side mark (log ++ log') = side mark log ++ side mark log' :=
  List.filterMap_append

theorem side_cons {entry : Bool × ε} :
    side mark (entry :: log) = if entry.1 = mark then entry.2 :: side mark log else side mark log := by
  unfold side
  rw [List.filterMap_cons]
  by_cases h : entry.1 = mark
  · rw [if_pos h, if_pos h]
  · rw [if_neg h, if_neg h]

/-- What a program does is put down with its mark. -/
theorem side_map_mark (effects : List ε) (which : Bool) :
    side mark (effects.map fun effect => (which, effect)) = if which = mark then effects else [] := by
  induction effects with
  | nil => simp
  | cons effect effects ih =>
    rw [List.map_cons, side_cons, ih]
    split
    · rfl
    · rfl

/-- Without its mark it is what the program did. -/
theorem map_snd_mark (effects : List ε) (which : Bool) :
    (effects.map fun effect => (which, effect)).map (·.2) = effects := by
  rw [List.map_map]
  exact List.map_id effects

/-- An entry of one of two programs stands in the log of both between what comes from the entries of that
program in front of it and behind it. -/
theorem exists_of_side_eq {front rest : List ε} (h : side mark log = front ++ effect :: rest) :
    ∃ before behind, log = before ++ (mark, effect) :: behind ∧ side mark before = front ∧
      side mark behind = rest := by
  obtain ⟨before, others, rfl, hbefore, hothers⟩ := List.filterMap_eq_append_iff.1 h
  obtain ⟨between, ⟨which, other⟩, behind, rfl, hbetween, hentry, hbehind⟩ :=
    List.filterMap_eq_cons_iff.1 hothers
  dsimp only at hentry
  split at hentry
  · rename_i hwhich
    cases hentry
    refine ⟨before ++ between, behind, ?_, ?_, hbehind⟩
    · rw [List.append_assoc, hwhich]
    · rw [side_append, side, side, hbefore, List.filterMap_eq_nil_iff.2 hbetween, List.append_nil]
  · cases hentry

theorem mem_side : effect ∈ side mark log ↔ (mark, effect) ∈ log := by
  simp only [side, List.mem_filterMap]
  constructor
  · rintro ⟨⟨which, other⟩, hmem, h⟩
    split at h
    · rename_i heq
      cases h
      exact heq ▸ hmem
    · cases h
  · exact fun h => ⟨_, h, if_pos rfl⟩

/-- An entry comes from one of the two programs. -/
theorem mem_map_snd : effect ∈ log.map (·.2) ↔ ∃ mark, effect ∈ side mark log := by
  simp only [mem_side, List.mem_map, Prod.exists]
  constructor
  · rintro ⟨mark, other, hmem, rfl⟩
    exact ⟨mark, hmem⟩
  · rintro ⟨mark, hmem⟩
    exact ⟨mark, effect, hmem, rfl⟩

end

/-- What two programs do beside each other is one log, of which each program has done its part as it might
have alone. -/
theorem EndsBoth.exists_log {emits : Emission I ε} {act : σ → ε → σ} (does : Does rules emits act)
    {p : Program I α} {q : Program I β} {s s' : σ} {a : α} {b : β}
    (h : EndsBoth rules p q s a b s') (before behind : List ε) :
    ∃ log, Ends (logging emits) p before a (before ++ side true log) ∧
      Ends (logging emits) q behind b (behind ++ side false log) ∧
      s' = (log.map (·.2)).foldl act s := by
  induction h generalizing before behind with
  | done a b s =>
    refine ⟨[], ?_, ?_, rfl⟩
    · rw [side_nil, List.append_nil]
      exact .done a before
    · rw [side_nil, List.append_nil]
      exact .done b behind
  | first answer rest ih =>
    obtain ⟨effects, hemits, rfl⟩ := does _ _ _ _ answer
    obtain ⟨log, hp, hq, rfl⟩ := ih (before ++ effects) behind
    refine ⟨effects.map (fun effect => (true, effect)) ++ log, .call ⟨effects, hemits, rfl⟩ ?_, ?_, ?_⟩
    · rwa [side_append, side_map_mark, if_pos rfl, ← List.append_assoc]
    · rwa [side_append, side_map_mark, if_neg Bool.noConfusion, List.nil_append]
    · rw [List.map_append, map_snd_mark, List.foldl_append]
  | second answer rest ih =>
    obtain ⟨effects, hemits, rfl⟩ := does _ _ _ _ answer
    obtain ⟨log, hp, hq, rfl⟩ := ih before (behind ++ effects)
    refine ⟨effects.map (fun effect => (false, effect)) ++ log, ?_, .call ⟨effects, hemits, rfl⟩ ?_, ?_⟩
    · rwa [side_append, side_map_mark, if_neg Bool.noConfusion, List.nil_append]
    · rwa [side_append, side_map_mark, if_pos rfl, ← List.append_assoc]
    · rw [List.map_append, map_snd_mark, List.foldl_append]

end SourceIndex.Program
