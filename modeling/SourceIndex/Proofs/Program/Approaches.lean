import SourceIndex.Proofs.Program.Exchanges
import SourceIndex.Retry
/-!
# The states in which requests are made

What is asked of a run may depend on where it has come: that nothing is stored before something else was
answered, or that while a request of one kind is about to be made, a state has some form. `Heeds` says that
every request of a program is made in a state that satisfies an invariant for it, and is followed along the
program like `Ensures`. What it says of unfinished runs is read off with `Heeds.of_follows`.

The state may be what was exchanged so far (`recording`), or a state with a count of the requests of a kind
(`counting`).
-/

namespace SourceIndex.Program

variable {I : Interface} {α β σ ε : Type}

/-- However its requests are answered, `p` makes each of them in a state that satisfies `inv` for it, and it
ends with a value and a state that satisfy `post`. -/
def Heeds (rules : Rules I σ) (inv : I.Request → σ → Prop) : Program I α → σ → (α → σ → Prop) → Prop
  | done a, s, post => post a s
  | call r next, s, post => inv r s ∧ ∀ x s', rules r s x s' → (next x).Heeds rules inv s' post

variable {rules : Rules I σ} {inv : I.Request → σ → Prop} {p q : Program I α} {s s' : σ} {a : α}
  {post post' : α → σ → Prop} {trace : List (Exchange I)}

theorem heeds_pure (h : post a s) : (pure a : Program I α).Heeds rules inv s post := h

/-- A request heeds what it needs, and what comes behind it starts where its answer leaves off. -/
theorem heeds_ask_bind {r : I.Request} {f : I.Answer r → Program I α} (hinv : inv r s)
    (h : ∀ x s', rules r s x s' → (f x).Heeds rules inv s' post) :
    (ask r >>= f).Heeds rules inv s post :=
  ⟨hinv, h⟩

theorem heeds_ask {r : I.Request} {post : I.Answer r → σ → Prop} (hinv : inv r s)
    (h : ∀ x s', rules r s x s' → post x s') : (ask r).Heeds rules inv s post :=
  ⟨hinv, h⟩

/-- A choice heeds what each of its branches heeds. -/
theorem heeds_ite {c : Prop} [Decidable c] (hp : c → p.Heeds rules inv s post)
    (hq : ¬c → q.Heeds rules inv s post) : (if c then p else q).Heeds rules inv s post := by
  split
  · exact hp ‹c›
  · exact hq ‹¬c›

namespace Heeds

/-- What follows the first part of a sequence may rely on all that the first part ends with. -/
theorem bind {f : α → Program I β} {post' : β → σ → Prop} (h : p.Heeds rules inv s post)
    (hf : ∀ a s', post a s' → (f a).Heeds rules inv s' post') :
    (p >>= f).Heeds rules inv s post' := by
  change (p.bind f).Heeds rules inv s post'
  induction p generalizing s with
  | done a => exact hf a s h
  | call r next ih => exact ⟨h.1, fun x s' answer => ih x (h.2 x s' answer)⟩

theorem mono (h : p.Heeds rules inv s post) (hw : ∀ a s', post a s' → post' a s') :
    p.Heeds rules inv s post' := by
  induction p generalizing s with
  | done a => exact hw a s h
  | call r next ih => exact ⟨h.1, fun x s' answer => ih x (h.2 x s' answer)⟩

/-- What holds of the value of every run holds of the value that it ends with. -/
theorem and_yields {holds : α → Prop} (h : p.Heeds rules inv s post)
    (hp : p.Yields fun a _ => holds a) : p.Heeds rules inv s fun a s' => post a s' ∧ holds a := by
  induction p generalizing s with
  | done a => exact ⟨h, hp a [] (.nil _)⟩
  | call r next ih =>
    exact ⟨h.1, fun x s' answer => ih x (h.2 x s' answer) fun a trace ha => hp a _ (.cons x ha)⟩

/-- A request that an unfinished run has come to is about to be made in a state that satisfies what it
needs. -/
theorem of_follows {r : I.Request} {next : I.Answer r → Program I α} (h : p.Heeds rules inv s post)
    (follows : Follows p trace (call r next)) (trail : Trail rules s trace s') : inv r s' := by
  induction trace generalizing p s with
  | nil =>
    cases follows
    cases trail
    exact h.1
  | cons e trace ih =>
    cases follows with
    | cons x rest =>
      obtain ⟨s₁, answer, hrest⟩ := trail_cons_iff.1 trail
      exact ih (h.2 _ _ answer) rest hrest

end Heeds

/-- What keeps an invariant of the state alone, as long as no request of some kind is made. -/
theorem Guarded.heeds {kind : I.Request → Prop} {holds : σ → Prop} (hp : p.Never kind)
    (needs : ∀ r s, ¬kind r → holds s → inv r s)
    (keeps : ∀ r s x s', ¬kind r → rules r s x s' → holds s → holds s') (hs : holds s) :
    p.Heeds rules inv s fun _ s' => holds s' := by
  induction p generalizing s with
  | done a => exact hs
  | call r next ih =>
    refine ⟨needs r s hp.1 hs, fun x s' answer => ?_⟩
    exact ih x ((hp.2 x).resolve_left id) (keeps r s x s' hp.1 answer hs)

/-- Trying an operation until it succeeds heeds what one try heeds, provided that a failed try and waiting
leave behind a state to try again from. -/
theorem heeds_retry {policy : RetryPolicy} {pause : Nat → Program I Unit}
    {operation : Program I (Except ε β)} (again : σ → Prop) (post : Except ε β → σ → Prop)
    (waits : ∀ d s, again s → (pause d).Heeds rules inv s fun _ s' => again s')
    (once : ∀ s, again s → operation.Heeds rules inv s fun x s' =>
      post x s' ∧ ∀ failure, x = .error failure → again s')
    (hs : again s) : (policy.run pause operation).Heeds rules inv s post := by
  have go : ∀ more attempt s, again s →
      (policy.runFrom pause operation attempt more).Heeds rules inv s post := by
    intro more
    induction more with
    | zero => exact fun _ s hs => (once s hs).mono fun _ _ h => h.1
    | succ more ih =>
      intro attempt s hs
      refine (once s hs).bind fun x s₁ hx => ?_
      cases x with
      | ok b => exact heeds_pure hx.1
      | error failure => exact (waits _ s₁ (hx.2 failure rfl)).bind fun _ s₂ h₂ => ih _ s₂ h₂
  exact go _ _ s hs

theorem Follows.ask_bind {r : I.Request} {f : I.Answer r → Program I α} {x : I.Answer r}
    (h : Follows (f x) trace q) : Follows (ask r >>= f) (⟨r, x⟩ :: trace) q :=
  .cons x h

/-- What has been exchanged behind a request begins with its answer. -/
theorem Follows.of_ask_bind {r : I.Request} {f : I.Answer r → Program I α}
    (h : Follows (ask r >>= f) trace q) (begun : trace ≠ []) :
    ∃ x rest, trace = ⟨r, x⟩ :: rest ∧ Follows (f x) rest q := by
  change Follows (call r f) trace q at h
  cases h with
  | nil => exact absurd rfl begun
  | cons x rest => exact ⟨x, _, rfl, rest⟩

/-- The trace of a whole run begins with the first exchange. -/
theorem follows_ask_bind_iff {r : I.Request} {f : I.Answer r → Program I α} :
    Follows (ask r >>= f) trace (done a) ↔
      ∃ x rest, trace = ⟨r, x⟩ :: rest ∧ Follows (f x) rest (done a) :=
  follows_call_iff

/-! ## Records and counts -/

/-- The state is what was exchanged so far. -/
def recording : Rules I (List (Exchange I)) :=
  fun r log x log' => log' = log ++ [⟨r, x⟩]

theorem trail_recording (log trace : List (Exchange I)) : Trail recording log trace (log ++ trace) := by
  induction trace generalizing log with
  | nil =>
    rw [List.append_nil]
    exact .nil log
  | cons e trace ih =>
    rw [List.append_cons]
    exact .cons rfl (ih (log ++ [e]))

/-- A program only adds to what was exchanged before it. -/
theorem Heeds.grows {inv : I.Request → List (Exchange I) → Prop} {log : List (Exchange I)}
    {post : α → List (Exchange I) → Prop} (h : p.Heeds recording inv log post) :
    p.Heeds recording inv log fun a log' => post a log' ∧ log ⊆ log' := by
  induction p generalizing log with
  | done a => exact ⟨h, List.Subset.refl log⟩
  | call r next ih =>
    refine ⟨h.1, fun x log' answer => (ih x (h.2 x log' answer)).mono fun a log'' h' => ⟨h'.1, ?_⟩⟩
    rw [show log' = log ++ [⟨r, x⟩] from answer] at h'
    exact List.Subset.trans (List.subset_append_left log _) h'.2

/-- Beside what becomes of the state, the requests of a kind are counted. -/
def counting (rules : Rules I σ) (counts : I.Request → Bool) : Rules I (σ × Nat) :=
  fun r s x s' => rules r s.1 x s'.1 ∧ s'.2 = s.2 + (counts r).toNat

theorem trail_counting {counts : I.Request → Bool} (trail : Trail rules s trace s') (n : Nat) :
    Trail (counting rules counts) (s, n) trace (s', n + trace.countP (counts ·.request)) := by
  induction trail generalizing n with
  | nil s => exact .nil _
  | @cons e trace s s₁ s₂ answer rest ih =>
    have hstep : counting rules counts e.request (s, n) e.answer
        (s₁, n + (counts e.request).toNat) := ⟨answer, rfl⟩
    refine .cons hstep ?_
    have hsum : n + (e :: trace).countP (counts ·.request) =
        n + (counts e.request).toNat + trace.countP (counts ·.request) := by
      rw [List.countP_cons]
      cases counts e.request with
      | true => simp only [Bool.toNat_true, if_true]; omega
      | false => rfl
    rw [hsum]
    exact ih _

/-! ## Unfinished runs with a handler -/

/-- The exchanges of a number of requests, what is left to do behind them, and the state. -/
def advance (handle : Handler I σ) : Nat → Program I α → σ → List (Exchange I) × Program I α × σ
  | 0, p, s => ([], p, s)
  | _ + 1, done a, s => ([], done a, s)
  | n + 1, call r next, s =>
    let answered := handle r s
    let ran := advance handle n (next answered.1) answered.2
    (⟨r, answered.1⟩ :: ran.1, ran.2)

variable {handle : Handler I σ} {n : Nat}

theorem follows_advance : Follows p (advance handle n p s).1 (advance handle n p s).2.1 := by
  induction n generalizing p s with
  | zero => exact .nil p
  | succ n ih =>
    cases p with
    | done a => exact .nil _
    | call r next => exact .cons _ ih

/-- A handler whose answers follow the rules, as seen through a view of its state, gives an unfinished run. -/
theorem trail_advance {τ : Type} {rules : Rules I τ} (view : σ → τ)
    (follows : ∀ r s, rules r (view s) (handle r s).1 (view (handle r s).2)) :
    Trail rules (view s) (advance handle n p s).1 (view (advance handle n p s).2.2) := by
  induction n generalizing p s with
  | zero => exact .nil _
  | succ n ih =>
    cases p with
    | done a => exact .nil _
    | call r next => exact .cons (follows r s) ih

/-- The request that a program is about to make. -/
def upcoming : Program I α → Option I.Request
  | done _ => none
  | call r _ => some r

theorem exists_of_upcoming {r : I.Request} (h : p.upcoming = some r) : ∃ next, p = call r next := by
  cases p with
  | done a => cases h
  | call r' next =>
    cases h
    exact ⟨next, rfl⟩

end SourceIndex.Program
