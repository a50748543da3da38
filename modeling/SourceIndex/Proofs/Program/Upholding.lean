import SourceIndex.Proofs.Program.Passages
import SourceIndex.Retry
/-!
# What a run upholds on its way

A run may be cut off between any two requests, so that more is asked of it than what it ensures at its end:
`Upholds` says that all states a run comes through satisfy an invariant. It is followed along a program
like `Ensures`, with which it shares what one part of a program leaves to the next one.
-/

namespace SourceIndex.Program

variable {I : Interface} {α β σ : Type} {rules : Rules I σ} {inv : σ → Prop} {s s' : σ} {a : α}

/-- However its requests are answered, `p` comes only through states that satisfy `inv`, and it ends with
a value and a state that satisfy `post`. -/
structure Upholds (rules : Rules I σ) (inv : σ → Prop) (p : Program I α) (s : σ)
    (post : α → σ → Prop) : Prop where
  passes : ∀ s', Passes rules p s s' → inv s'
  ensures : p.Ensures rules s post

/-- A program that is done passes one state. -/
theorem passes_done_iff : Passes rules (done a) s s' ↔ s' = s := by
  constructor
  · intro h
    cases h with
    | here => rfl
  · rintro rfl
    exact .here _ _

/-- A run of a sequence comes through states of its first part, and then through those of the second. -/
theorem passes_bind {p : Program I α} {f : α → Program I β} (h : Passes rules (p >>= f) s s') :
    Passes rules p s s' ∨ ∃ a s₁, Ends rules p s a s₁ ∧ Passes rules (f a) s₁ s' := by
  change Passes rules (p.bind f) s s' at h
  induction p generalizing s with
  | done a => exact Or.inr ⟨a, s, .done a s, h⟩
  | call r next ih =>
    cases h with
    | here => exact Or.inl (.here _ _)
    | call answer rest =>
      rcases ih _ rest with h | ⟨a, s₁, hends, h⟩
      · exact Or.inl (.call answer h)
      · exact Or.inr ⟨a, s₁, .call answer hends, h⟩

/-- A run comes through what is passed behind its first request. -/
theorem Passes.ask_bind {r : I.Request} {f : I.Answer r → Program I β} {s₁ : σ} (x : I.Answer r)
    (answer : rules r s x s₁) (rest : Passes rules (f x) s₁ s') :
    Passes rules (Program.ask r >>= f) s s' :=
  .call answer rest

/-- A run is one under other rules as well, as seen through a view of the state. -/
theorem Ends.of_view {τ : Type} {rules' : Rules I τ} (view : σ → τ)
    (follows : ∀ r s x s', rules r s x s' → rules' r (view s) x (view s')) {p : Program I α}
    {s s' : σ} (h : Ends rules p s a s') : Ends rules' p (view s) a (view s') := by
  induction h with
  | done a s => exact .done a _
  | call answer rest ih => exact .call (follows _ _ _ _ answer) ih

namespace Upholds

variable {post post' : α → σ → Prop}

/-- The invariant holds in the beginning. -/
theorem here {p : Program I α} (h : p.Upholds rules inv s post) : inv s :=
  h.passes s (.here p s)

theorem pure (hinv : inv s) (hpost : post a s) : (pure a : Program I α).Upholds rules inv s post :=
  ⟨fun _ hs' => passes_done_iff.1 hs' ▸ hinv, ensures_pure.2 hpost⟩

theorem bind {p : Program I α} {f : α → Program I β} {post' : β → σ → Prop}
    (h : p.Upholds rules inv s post)
    (hf : ∀ a s', post a s' → (f a).Upholds rules inv s' post') :
    (p >>= f).Upholds rules inv s post' where
  passes s' hs' := by
    rcases passes_bind hs' with hfirst | ⟨a, s₁, hends, hsecond⟩
    · exact h.passes s' hfirst
    · exact (hf a s₁ (h.ensures a s₁ hends)).passes s' hsecond
  ensures := h.ensures.bind fun a s₁ ha => (hf a s₁ ha).ensures

/-- Behind one request the invariant has to hold in all states that may follow. -/
theorem ask {r : I.Request} {post : I.Answer r → σ → Prop} (hinv : inv s)
    (h : ∀ x s', rules r s x s' → inv s' ∧ post x s') :
    (Program.ask r).Upholds rules inv s post where
  passes s' hs' := by
    cases hs' with
    | here => exact hinv
    | call answer rest => exact passes_done_iff.1 rest ▸ (h _ _ answer).1
  ensures := ensures_ask.2 fun x s' answer => (h x s' answer).2

/-- What comes behind a request has to uphold the invariant in all states that may follow. -/
theorem ask_bind {r : I.Request} {f : I.Answer r → Program I β} {post : β → σ → Prop} (hinv : inv s)
    (h : ∀ x s', rules r s x s' → (f x).Upholds rules inv s' post) :
    (Program.ask r >>= f).Upholds rules inv s post :=
  (ask hinv fun x s' answer => ⟨(h x s' answer).here, answer⟩).bind h

/-- A choice upholds what each of its branches upholds. -/
theorem ite {c : Prop} [Decidable c] {p q : Program I α}
    (hp : c → p.Upholds rules inv s post) (hq : ¬c → q.Upholds rules inv s post) :
    (if c then p else q).Upholds rules inv s post := by
  split
  · exact hp ‹c›
  · exact hq ‹¬c›

/-- The state at the end satisfies the invariant as well. -/
theorem mono {p : Program I α} (h : p.Upholds rules inv s post)
    (hw : ∀ a s', inv s' → post a s' → post' a s') : p.Upholds rules inv s post' :=
  ⟨h.passes, fun a s' hends => hw a s' (h.passes s' hends.passes) (h.ensures a s' hends)⟩

/-- What is ensured besides holds at the end as well. -/
theorem and_ensures {p : Program I α} (h : p.Upholds rules inv s post)
    (h' : p.Ensures rules s post') : p.Upholds rules inv s fun a s' => post a s' ∧ post' a s' :=
  ⟨h.passes, fun a s' hends => ⟨h.ensures a s' hends, h' a s' hends⟩⟩

end Upholds

end SourceIndex.Program

namespace SourceIndex

/-- Trying an operation until it succeeds upholds what one try upholds, provided that a failed try and
waiting leave behind a state to try again from. -/
theorem RetryPolicy.upholds_run {I : Interface} {σ ε α : Type} {rules : Program.Rules I σ}
    {inv : σ → Prop} {p : RetryPolicy} {pause : Nat → Program I Unit}
    {operation : Program I (Except ε α)} (again : σ → Prop) (post : Except ε α → σ → Prop)
    (waits : ∀ d s, again s → (pause d).Upholds rules inv s fun _ s' => again s')
    (once : ∀ s, again s → operation.Upholds rules inv s fun x s' =>
      post x s' ∧ ∀ failure, x = .error failure → again s')
    {s : σ} (hs : again s) : (p.run pause operation).Upholds rules inv s post := by
  have go : ∀ more attempt s, again s →
      (p.runFrom pause operation attempt more).Upholds rules inv s post := by
    -- by induction on the tries that are left; `again` is what one of them leaves to the next
    intro more
    induction more with
    | zero => exact fun _ s hs => (once s hs).mono fun _ _ _ h => h.1
    | succ more ih =>
      intro attempt s hs
      refine ((once s hs).mono fun _ _ hinv h => And.intro hinv h).bind fun x s₁ ⟨hinv, hx⟩ => ?_
      cases x with
      | ok a => exact .pure hinv hx.1
      | error failure =>
        exact (waits _ s₁ (hx.2 failure rfl)).bind fun _ s₂ h₂ => ih _ s₂ h₂
  exact go _ _ s hs

end SourceIndex
