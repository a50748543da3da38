import SourceIndex.Proofs.Program.Exchanges
import SourceIndex.Retry
/-!
# Runs that come to what a handler comes to

Under rules that leave room for mishaps a program has many runs, and with a handler it has one. `Tracks` says
that all those runs end with the value that the one ends with, and that a relation between the states of both
is kept. It is followed along the program; where only requests of some kind may go wrong, all else tracks the
handler as soon as the answers of single requests do (`Guarded.tracks`).

An operation that may fail tracks the handler once it is retried often enough (`tracks_retry`): the handler
needs one try, and the tries that fail leave something that only the relation at the end has to make up for.
-/

namespace SourceIndex

namespace Program

variable {I : Interface} {α β σ τ ε : Type} {rules : Rules I σ} {handle : Handler I τ}
  {R : σ → τ → Prop} {p q : Program I α}

/-- From states that are related, every run of `p` ends with the value that `handle` brings it to, and the
states are related again. -/
def Tracks (rules : Rules I σ) (handle : Handler I τ) (R : σ → τ → Prop) (p : Program I α) : Prop :=
  ∀ s t, R s t → p.Ensures rules s fun a s' => a = (p.run handle t).1 ∧ R s' (p.run handle t).2

theorem tracks_pure (a : α) : (pure a : Program I α).Tracks rules handle R :=
  fun _ _ hR => ensures_pure.2 ⟨rfl, hR⟩

/-- A request tracks the handler if its answers do. -/
theorem tracks_ask {r : I.Request}
    (h : ∀ s t x s', R s t → rules r s x s' → x = (handle r t).1 ∧ R s' (handle r t).2) :
    (ask r).Tracks rules handle R :=
  fun s t hR => ensures_ask.2 fun x s' hx => h s t x s' hR hx

theorem Tracks.bind {f : α → Program I β} (h : p.Tracks rules handle R)
    (hf : ∀ a, (f a).Tracks rules handle R) : (p >>= f).Tracks rules handle R := by
  intro s t hR
  refine (h s t hR).bind ?_
  rintro _ s₁ ⟨rfl, h₁⟩
  have hrun : (p >>= f).run handle t = (f (p.run handle t).1).run handle (p.run handle t).2 :=
    run_bind handle p f t
  rw [hrun]
  exact hf _ s₁ _ h₁

/-- A choice tracks the handler if its branches do. -/
theorem tracks_ite {c : Prop} [Decidable c] (hp : p.Tracks rules handle R)
    (hq : q.Tracks rules handle R) : (if c then p else q).Tracks rules handle R := by
  split
  · exact hp
  · exact hq

/-- What never makes requests of a kind tracks the handler if all other requests do. -/
theorem Guarded.tracks {kind : I.Request → Prop} (hp : p.Never kind)
    (h : ∀ r, ¬kind r → (ask r).Tracks rules handle R) : p.Tracks rules handle R := by
  induction p with
  | done a => exact tracks_pure a
  | call r next ih => exact Tracks.bind (h r hp.1) fun x => ih x ((hp.2 x).resolve_left id)

end Program

namespace RetryPolicy

open Program

variable {I : Interface} {β σ τ ε : Type} {rules : Rules I σ} {handle : Handler I τ}
  {policy : RetryPolicy} {pause : Nat → Program I Unit} {operation : Program I (Except ε β)}

/-- An operation that succeeds is not tried again. -/
theorem run_runFrom_of_ok {attempt more : Nat} {t : τ} {b : β}
    (h : (operation.run handle t).1 = .ok b) :
    (policy.runFrom pause operation attempt more).run handle t = operation.run handle t := by
  cases more with
  | zero => rfl
  | succ more =>
    change Program.run handle (operation.bind _) t = _
    rw [run_bind, h]
    exact Prod.ext h.symm rfl

/-- An operation that fails a limited number of times succeeds when it is tried more often. `tries n` is a
state in which it may fail `n` more times. -/
theorem ensures_run_ok (tries : Nat → σ → Prop) (post : β → σ → Prop)
    (waits : ∀ n d s, tries n s → (pause d).Ensures rules s fun _ s' => tries n s')
    (once : ∀ n s, tries n s → operation.Ensures rules s fun x s' =>
      (∃ b, x = .ok b ∧ post b s') ∨ (∃ failure, x = .error failure) ∧ ∃ m < n, tries m s')
    {n : Nat} {s : σ} (hn : n < policy.attempts) (hs : tries n s) :
    (policy.run pause operation).Ensures rules s fun x s' => ∃ b, x = .ok b ∧ post b s' := by
  have go : ∀ more attempt n s, n ≤ more → tries n s →
      (policy.runFrom pause operation attempt more).Ensures rules s fun x s' =>
        ∃ b, x = .ok b ∧ post b s' := by
    -- by induction on the tries behind the first one, which are at least as many as may still fail
    intro more
    induction more with
    | zero =>
      intro attempt n s hn hs
      refine (once n s hs).mono fun x s' hx => hx.resolve_right ?_
      rintro ⟨-, m, hm, -⟩
      omega
    | succ more ih =>
      intro attempt n s hn hs
      refine (once n s hs).bind fun x s₁ hx => ?_
      rcases hx with ⟨b, rfl, hpost⟩ | ⟨⟨failure, rfl⟩, m, hm, h₁⟩
      · exact ensures_pure.2 ⟨b, rfl, hpost⟩
      · exact (waits m _ s₁ h₁).bind fun _ s₂ h₂ => ih _ m s₂ (by omega) h₂
  exact go _ _ n s (by omega) hs

/-- Retried often enough, an operation tracks a handler with which it succeeds at once. `tries n` is what
stands between the states while the operation may fail `n` more times. -/
theorem tracks_run {R : σ → τ → Prop} (tries : Nat → σ → τ → Prop)
    (starts : ∀ s t, R s t → ∃ n < policy.attempts, tries n s t)
    (waits : ∀ n d s t, tries n s t → (pause d).Ensures rules s fun _ s' => tries n s' t)
    (once : ∀ n s t, tries n s t → operation.Ensures rules s fun x s' =>
      (∃ b, x = .ok b ∧ (operation.run handle t).1 = .ok b ∧ R s' (operation.run handle t).2) ∨
        (∃ failure, x = .error failure) ∧ ∃ m < n, tries m s' t) :
    (policy.run pause operation).Tracks rules handle R := by
  intro s t hR
  obtain ⟨n, hn, hs⟩ := starts s t hR
  refine (ensures_run_ok (tries · · t)
    (fun b s' => (operation.run handle t).1 = .ok b ∧ R s' (operation.run handle t).2)
    (fun n d s => waits n d s t) (fun n s => once n s t) hn hs).mono ?_
  rintro _ s' ⟨b, rfl, hok, hR'⟩
  rw [run, run_runFrom_of_ok hok]
  exact ⟨hok.symm, hR'⟩

end RetryPolicy

end SourceIndex
