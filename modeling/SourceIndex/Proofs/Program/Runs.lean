import SourceIndex.Program
/-!
# Runs of programs under rules

`Rules` say which answers a request may get and what becomes of the state, so that one program has many
runs (`Ends`): a service may fail, a file may have been edited meanwhile. `Ensures` is what holds at the
end of every run; it is computed along the program by `ensures_bind` and `ensures_ask`. A handler whose
answers follow the rules gives one of the runs (`ends_run`).
-/

namespace SourceIndex.Program

variable {I : Interface} {α β σ τ : Type}

/-- Which answers a request may get in a state, and which states may follow. -/
abbrev Rules (I : Interface) (σ : Type) :=
  (request : I.Request) → σ → I.Answer request → σ → Prop

/-- `Ends rules p s a s'`: some run of `p` from `s` ends with the value `a` in the state `s'`. -/
inductive Ends (rules : Rules I σ) : Program I α → σ → α → σ → Prop where
  | done (a : α) (s : σ) : Ends rules (done a) s a s
  | call {r : I.Request} {next : I.Answer r → Program I α} {s s' s'' : σ} {x : I.Answer r} {a : α}
      (answer : rules r s x s') (rest : Ends rules (next x) s' a s'') :
      Ends rules (call r next) s a s''

/-- However its requests are answered, `p` ends with a value and a state that satisfy `post`. -/
def Ensures (rules : Rules I σ) (p : Program I α) (s : σ) (post : α → σ → Prop) : Prop :=
  ∀ a s', Ends rules p s a s' → post a s'

variable {rules : Rules I σ} {s s' : σ} {a : α}

/-- A program that is done has one run, which changes nothing. -/
theorem ends_done_iff {b : α} : Ends rules (done a) s b s' ↔ b = a ∧ s' = s := by
  constructor
  · intro h
    cases h with
    | done => exact ⟨rfl, rfl⟩
  · rintro ⟨rfl, rfl⟩
    exact .done _ _

/-- A run of a call is an answer followed by a run of what comes next. -/
theorem ends_call_iff {r : I.Request} {next : I.Answer r → Program I α} :
    Ends rules (call r next) s a s' ↔
      ∃ x s₁, rules r s x s₁ ∧ Ends rules (next x) s₁ a s' := by
  constructor
  · intro h
    cases h with
    | call answer rest => exact ⟨_, _, answer, rest⟩
  · rintro ⟨x, s₁, answer, rest⟩
    exact .call answer rest

/-- A run of a sequence is a run of its first part followed by one of the part that its value selects. -/
theorem ends_bind_iff {p : Program I α} {f : α → Program I β} {b : β} :
    Ends rules (p >>= f) s b s' ↔ ∃ a s₁, Ends rules p s a s₁ ∧ Ends rules (f a) s₁ b s' := by
  show Ends rules (p.bind f) s b s' ↔ _
  induction p generalizing s with
  | done a =>
    constructor
    · exact fun h => ⟨a, s, .done a s, h⟩
    · rintro ⟨a', s₁, h, h'⟩
      obtain ⟨rfl, rfl⟩ := ends_done_iff.1 h
      exact h'
  | call r next ih =>
    constructor
    · intro h
      obtain ⟨x, s₁, answer, rest⟩ := ends_call_iff.1 h
      obtain ⟨a, s₂, h1, h2⟩ := (ih x).1 rest
      exact ⟨a, s₂, .call answer h1, h2⟩
    · rintro ⟨a, s₂, h1, h2⟩
      obtain ⟨x, s₁, answer, rest⟩ := ends_call_iff.1 h1
      exact .call answer ((ih x).2 ⟨a, s₂, rest, h2⟩)

/-! ## What every run ensures -/

variable {post post' : α → σ → Prop}

@[simp] theorem ensures_pure : (pure a : Program I α).Ensures rules s post ↔ post a s := by
  constructor
  · exact fun h => h a s (.done a s)
  · intro h b s' hb
    obtain ⟨rfl, rfl⟩ := ends_done_iff.1 hb
    exact h

@[simp] theorem ensures_bind {p : Program I α} {f : α → Program I β} {post : β → σ → Prop} :
    (p >>= f).Ensures rules s post ↔
      p.Ensures rules s fun a s' => (f a).Ensures rules s' post := by
  constructor
  · exact fun h a s₁ h1 b s' h2 => h b s' (ends_bind_iff.2 ⟨a, s₁, h1, h2⟩)
  · intro h b s' hb
    obtain ⟨a, s₁, h1, h2⟩ := ends_bind_iff.1 hb
    exact h a s₁ h1 b s' h2

@[simp] theorem ensures_ask {r : I.Request} {post : I.Answer r → σ → Prop} :
    (ask r).Ensures rules s post ↔ ∀ x s', rules r s x s' → post x s' := by
  constructor
  · exact fun h x s' answer => h x s' (.call answer (.done x s'))
  · intro h x s' hx
    obtain ⟨y, s₁, answer, rest⟩ := ends_call_iff.1 hx
    obtain ⟨rfl, rfl⟩ := ends_done_iff.1 rest
    exact h _ _ answer

/-- A choice ensures what each of its branches ensures. -/
theorem ensures_ite {c : Prop} [Decidable c] {p q : Program I α} {post : α → σ → Prop}
    (hp : c → p.Ensures rules s post) (hq : ¬c → q.Ensures rules s post) :
    (if c then p else q).Ensures rules s post := by
  split
  · exact hp ‹c›
  · exact hq ‹¬c›

/-- What is weaker is ensured as well. -/
theorem Ensures.mono {p : Program I α} (h : p.Ensures rules s post)
    (hw : ∀ a s', post a s' → post' a s') : p.Ensures rules s post' :=
  fun a s' hp => hw a s' (h a s' hp)

/-- What holds under some rules holds under stricter ones. -/
theorem Ensures.of_rules {strict : Rules I σ} {p : Program I α} (h : p.Ensures rules s post)
    (hstrict : ∀ r s x s', strict r s x s' → rules r s x s') : p.Ensures strict s post := by
  intro a s' hrun
  refine h a s' ?_
  clear h
  induction hrun with
  | done a s => exact .done a s
  | call answer rest ih => exact .call (hstrict _ _ _ _ answer) ih

/-- What follows the first part of a sequence may rely on all that the first part ensures. -/
theorem Ensures.bind {p : Program I α} {f : α → Program I β} {post' : β → σ → Prop}
    (h : p.Ensures rules s post) (hf : ∀ a s', post a s' → (f a).Ensures rules s' post') :
    (p >>= f).Ensures rules s post' :=
  ensures_bind.2 (h.mono hf)

/-- A handler whose answers follow the rules in the states that it keeps to, as seen through a view of its
state, gives a run. -/
theorem ends_run_of {rules : Rules I τ} {handle : Handler I σ} (view : σ → τ) (keeps : σ → Prop)
    (follows : ∀ r s, keeps s →
      rules r (view s) (handle r s).1 (view (handle r s).2) ∧ keeps (handle r s).2)
    (p : Program I α) {s : σ} (hs : keeps s) :
    Ends rules p (view s) (p.run handle s).1 (view (p.run handle s).2) := by
  induction p generalizing s with
  | done a => exact .done a _
  | call r next ih =>
    obtain ⟨answer, hnext⟩ := follows r s hs
    exact .call answer (ih _ hnext)

/-- A handler whose answers always follow the rules gives a run. -/
theorem ends_run {rules : Rules I τ} {handle : Handler I σ} (view : σ → τ)
    (follows : ∀ r s, rules r (view s) (handle r s).1 (view (handle r s).2)) (p : Program I α) (s : σ) :
    Ends rules p (view s) (p.run handle s).1 (view (p.run handle s).2) :=
  ends_run_of view (fun _ => True) (fun r s _ => ⟨follows r s, trivial⟩) p trivial

end SourceIndex.Program
