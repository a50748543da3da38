import SourceIndex.Proofs.Program.Passages
/-!
# The exchanges of a program

An `Exchange` is a request together with the answer it got. `Follows p trace q` says that the answers
of `trace` lead `p` to where `q` is left to do; whatever else goes on beside `p`, what it has
exchanged so far is such a trace. `Yields` speaks of the traces of whole runs and is computed along the
program like `Ensures`; `Guarded` speaks of unfinished ones as well: requests of some kind are made only
behind an exchange that opens the way to them, or never (`Never`).

`translate` replaces every request of a program by a program that answers it.
-/

namespace SourceIndex.Program

variable {I J : Interface} {α β γ σ ε : Type}

/-- A request with its answer. -/
structure Exchange (I : Interface) where
  request : I.Request
  answer : I.Answer request

/-- The answers of the trace lead the first program to where the second is left to do. -/
inductive Follows : Program I α → List (Exchange I) → Program I α → Prop where
  | nil (p : Program I α) : Follows p [] p
  | cons {r : I.Request} {next : I.Answer r → Program I α} {trace : List (Exchange I)}
      {q : Program I α} (x : I.Answer r) (rest : Follows (next x) trace q) :
      Follows (call r next) (⟨r, x⟩ :: trace) q

variable {p q : Program I α} {trace more : List (Exchange I)} {a : α}

/-- One more exchange. -/
theorem Follows.concat {r : I.Request} {next : I.Answer r → Program I α}
    (h : Follows p trace (call r next)) (x : I.Answer r) :
    Follows p (trace ++ [⟨r, x⟩]) (next x) := by
  generalize hq : call r next = q at h
  induction h with
  | nil p =>
    subst hq
    exact .cons x (.nil _)
  | cons y rest ih => exact .cons y (ih hq)

/-- Exchanges behind one another. -/
theorem Follows.trans {rest : Program I α} (h : Follows p trace q) (h' : Follows q more rest) :
    Follows p (trace ++ more) rest := by
  induction h with
  | nil p => exact h'
  | cons x rest ih => exact .cons x (ih h')

/-- Where every request has an answer, every program can be brought to its end. -/
theorem exists_follows_done (answers : ∀ r, Nonempty (I.Answer r)) (p : Program I α) :
    ∃ trace a, Follows p trace (done a) := by
  induction p with
  | done a => exact ⟨[], a, .nil _⟩
  | call r next ih =>
    obtain ⟨x⟩ := answers r
    obtain ⟨trace, a, h⟩ := ih x
    exact ⟨⟨r, x⟩ :: trace, a, .cons x h⟩

theorem follows_done_iff {b : α} : Follows (done b : Program I α) trace (done a) ↔ trace = [] ∧ b = a := by
  constructor
  · intro h
    cases h with
    | nil => exact ⟨rfl, rfl⟩
  · rintro ⟨rfl, rfl⟩
    exact .nil _

theorem follows_call_iff {r : I.Request} {next : I.Answer r → Program I α} :
    Follows (call r next) trace (done a) ↔
      ∃ x rest, trace = ⟨r, x⟩ :: rest ∧ Follows (next x) rest (done a) := by
  constructor
  · intro h
    cases h with
    | cons x rest => exact ⟨x, _, rfl, rest⟩
  · rintro ⟨x, rest, rfl, h⟩
    exact .cons x h

/-- The trace of a sequence is that of its first part and then that of its second. -/
theorem follows_bind_iff {f : α → Program I β} {b : β} :
    Follows (p >>= f) trace (done b) ↔
      ∃ a first second, trace = first ++ second ∧ Follows p first (done a) ∧
        Follows (f a) second (done b) := by
  change Follows (p.bind f) trace (done b) ↔ _
  induction p generalizing trace with
  | done a =>
    constructor
    · exact fun h => ⟨a, [], trace, rfl, .nil _, h⟩
    · rintro ⟨a', first, second, rfl, hfirst, hsecond⟩
      obtain ⟨rfl, rfl⟩ := follows_done_iff.1 hfirst
      exact hsecond
  | call r next ih =>
    constructor
    · intro h
      obtain ⟨x, rest, rfl, hrest⟩ := follows_call_iff.1 h
      obtain ⟨a, first, second, rfl, hfirst, hsecond⟩ := (ih x).1 hrest
      exact ⟨a, ⟨r, x⟩ :: first, second, rfl, .cons x hfirst, hsecond⟩
    · rintro ⟨a, first, second, rfl, hfirst, hsecond⟩
      obtain ⟨x, rest, rfl, hrest⟩ := follows_call_iff.1 hfirst
      exact .cons x ((ih x).2 ⟨a, rest, second, rfl, hrest, hsecond⟩)

/-- The trace of a whole run tells its log. -/
theorem Follows.ends_logging {emits : Emission I ε} {effects : Exchange I → List ε}
    (hemits : ∀ e : Exchange I, emits e.request e.answer (effects e)) (h : Follows p trace (done a))
    (log : List ε) : Ends (logging emits) p log a (log ++ trace.flatMap effects) := by
  induction p generalizing trace log with
  | done b =>
    obtain ⟨rfl, rfl⟩ := follows_done_iff.1 h
    rw [List.flatMap_nil, List.append_nil]
    exact .done b log
  | call r next ih =>
    obtain ⟨x, rest, rfl, hrest⟩ := follows_call_iff.1 h
    rw [List.flatMap_cons, ← List.append_assoc]
    exact .call ⟨_, hemits ⟨r, x⟩, rfl⟩ (ih x hrest _)

/-- Exchanges, answered by the rules one after the other. -/
inductive Trail {σ : Type} (rules : Rules I σ) : σ → List (Exchange I) → σ → Prop where
  | nil (s : σ) : Trail rules s [] s
  | cons {e : Exchange I} {trace : List (Exchange I)} {s s' s'' : σ}
      (answer : rules e.request s e.answer s') (rest : Trail rules s' trace s'') :
      Trail rules s (e :: trace) s''

/-- The exchanges of a run, answered by its rules. -/
theorem Ends.exists_follows {rules : Rules I σ} {s s' : σ} (h : Ends rules p s a s') :
    ∃ trace, Follows p trace (.done a) ∧ Trail rules s trace s' := by
  induction h with
  | done a s => exact ⟨[], .nil _, .nil s⟩
  | @call r next s s' s'' x a answer rest ih =>
    obtain ⟨trace, hfollows, htrail⟩ := ih
    exact ⟨⟨r, x⟩ :: trace, .cons x hfollows, .cons answer htrail⟩

theorem trail_cons_iff {rules : Rules I σ} {e : Exchange I} {s s' : σ} :
    Trail rules s (e :: trace) s' ↔ ∃ s₁, rules e.request s e.answer s₁ ∧ Trail rules s₁ trace s' := by
  constructor
  · intro h
    cases h with
    | cons answer rest => exact ⟨_, answer, rest⟩
  · rintro ⟨s₁, answer, rest⟩
    exact .cons answer rest

theorem trail_append_iff {rules : Rules I σ} {s s' : σ} :
    Trail rules s (trace ++ more) s' ↔ ∃ s₁, Trail rules s trace s₁ ∧ Trail rules s₁ more s' := by
  induction trace generalizing s with
  | nil =>
    constructor
    · exact fun h => ⟨s, .nil s, h⟩
    · rintro ⟨s₁, hnil, h⟩
      cases hnil
      exact h
  | cons e trace ih =>
    rw [List.cons_append, trail_cons_iff]
    constructor
    · rintro ⟨s₁, answer, h⟩
      obtain ⟨s₂, hfirst, hsecond⟩ := ih.1 h
      exact ⟨s₂, .cons answer hfirst, hsecond⟩
    · rintro ⟨s₂, h, hsecond⟩
      obtain ⟨s₁, answer, hfirst⟩ := trail_cons_iff.1 h
      exact ⟨s₁, answer, ih.2 ⟨s₂, hfirst, hsecond⟩⟩

/-! ## The traces of whole runs -/

/-- However its requests are answered, `p` ends with a value and a trace that satisfy `post`. -/
def Yields (p : Program I α) (post : α → List (Exchange I) → Prop) : Prop :=
  ∀ a trace, Follows p trace (done a) → post a trace

section Yields
variable {post post' : α → List (Exchange I) → Prop}

theorem yields_pure (h : post a []) : (pure a : Program I α).Yields post := by
  intro b trace hb
  obtain ⟨rfl, rfl⟩ := follows_done_iff.1 hb
  exact h

theorem yields_ask {r : I.Request} {post : I.Answer r → List (Exchange I) → Prop}
    (h : ∀ x, post x [⟨r, x⟩]) : (ask r).Yields post := by
  intro a trace ha
  obtain ⟨x, rest, rfl, hrest⟩ := follows_call_iff.1 ha
  obtain ⟨rfl, rfl⟩ := follows_done_iff.1 hrest
  exact h x

theorem Yields.mono (h : p.Yields post) (hw : ∀ a trace, post a trace → post' a trace) :
    p.Yields post' :=
  fun a trace ha => hw a trace (h a trace ha)

theorem Yields.bind {f : α → Program I β} {post' : β → List (Exchange I) → Prop}
    (h : p.Yields post)
    (hf : ∀ a first, post a first → (f a).Yields fun b second => post' b (first ++ second)) :
    (p >>= f).Yields post' := by
  intro b trace hb
  obtain ⟨a, first, second, rfl, hfirst, hsecond⟩ := follows_bind_iff.1 hb
  exact hf a first (h a first hfirst) b second hsecond

theorem Yields.and (h : p.Yields post) (h' : p.Yields post') :
    p.Yields fun a trace => post a trace ∧ post' a trace :=
  fun a trace ha => ⟨h a trace ha, h' a trace ha⟩

/-- A choice yields what each of its branches yields. -/
theorem yields_ite {c : Prop} [Decidable c] (hp : c → p.Yields post) (hq : ¬c → q.Yields post) :
    (if c then p else q).Yields post := by
  split
  · exact hp ‹c›
  · exact hq ‹¬c›

/-- What comes behind a request finds its exchange in front. -/
theorem yields_ask_bind {r : I.Request} {f : I.Answer r → Program I β}
    {post : β → List (Exchange I) → Prop}
    (h : ∀ x, (f x).Yields fun b rest => post b (⟨r, x⟩ :: rest)) : (ask r >>= f).Yields post := by
  intro b trace hb
  obtain ⟨x, rest, rfl, hrest⟩ := follows_call_iff.1 hb
  exact h x b rest hrest

end Yields

/-! ## Guarded requests -/

/-- Requests of a kind are made only behind an exchange that opens the way to them. -/
def Guarded (opens : Exchange I → Prop) (kind : I.Request → Prop) : Program I α → Prop
  | done _ => True
  | call r next => ¬kind r ∧ ∀ x, opens ⟨r, x⟩ ∨ Guarded opens kind (next x)

/-- Requests of a kind are never made. -/
abbrev Never (kind : I.Request → Prop) (p : Program I α) : Prop :=
  p.Guarded (fun _ => False) kind

section Guarded
variable {opens : Exchange I → Prop} {kind kind' : I.Request → Prop}

theorem guarded_ask {r : I.Request} (h : ¬kind r) : (ask r).Guarded opens kind :=
  ⟨h, fun _ => Or.inr trivial⟩

theorem Guarded.bind {f : α → Program I β} (h : p.Guarded opens kind)
    (hf : ∀ a, (f a).Guarded opens kind) : (p >>= f).Guarded opens kind := by
  change (p.bind f).Guarded opens kind
  induction p with
  | done a => exact hf a
  | call r next ih => exact ⟨h.1, fun x => (h.2 x).imp_right (ih x)⟩

/-- What comes behind the first part of a sequence is guarded, unless the first part opened the way to it. -/
theorem Guarded.bind_of_yields {f : α → Program I β} (h : p.Guarded opens kind)
    (hp : p.Yields fun a trace => (∃ e ∈ trace, opens e) ∨ (f a).Guarded opens kind) :
    (p >>= f).Guarded opens kind := by
  change (p.bind f).Guarded opens kind
  induction p with
  | done a =>
    rcases hp a [] (.nil _) with ⟨e, hmem, -⟩ | hf
    · cases hmem
    · exact hf
  | call r next ih =>
    refine ⟨h.1, fun x => Classical.or_iff_not_imp_left.2 fun hclosed => ?_⟩
    refine ih x ((h.2 x).resolve_left hclosed) fun a trace ha => ?_
    rcases hp a (⟨r, x⟩ :: trace) (.cons x ha) with ⟨e, hmem, hopens⟩ | hf
    · rcases List.mem_cons.1 hmem with rfl | hmem
      · exact absurd hopens hclosed
      · exact Or.inl ⟨e, hmem, hopens⟩
    · exact Or.inr hf

/-- A request that is not of the kind may open the way to what comes behind it. -/
theorem guarded_ask_bind {r : I.Request} {f : I.Answer r → Program I β} (h : ¬kind r)
    (hf : ∀ x, opens ⟨r, x⟩ ∨ (f x).Guarded opens kind) : (ask r >>= f).Guarded opens kind :=
  ⟨h, hf⟩

/-- Nothing is of no kind. -/
theorem never_false : p.Never fun _ => False := by
  induction p with
  | done a => trivial
  | call r next ih => exact ⟨id, fun x => Or.inr (ih x)⟩

/-- A choice is guarded if its branches are. -/
theorem guarded_ite {c : Prop} [Decidable c] (hp : c → p.Guarded opens kind)
    (hq : ¬c → q.Guarded opens kind) : (if c then p else q).Guarded opens kind := by
  split
  · exact hp ‹c›
  · exact hq ‹¬c›

/-- What is never requested is guarded by anything. -/
theorem Guarded.mono {opens' : Exchange I → Prop} (h : p.Guarded opens kind)
    (hopens : ∀ e, opens e → opens' e) (hkind : ∀ r, kind' r → kind r) : p.Guarded opens' kind' := by
  induction p with
  | done a => trivial
  | call r next ih =>
    exact ⟨fun hr => h.1 (hkind r hr), fun x => (h.2 x).imp (hopens _) (ih x)⟩

theorem guarded_of_never (h : p.Never kind) : p.Guarded opens kind :=
  h.mono (fun _ => False.elim) fun _ h => h

/-- In front of a request of the kind stands an exchange that opened the way to it. -/
theorem Follows.exists_opens (h : Follows p trace q) (hp : p.Guarded opens kind)
    {before behind : List (Exchange I)} {e : Exchange I} (htrace : trace = before ++ e :: behind)
    (he : kind e.request) : ∃ o ∈ before, opens o := by
  induction h generalizing before with
  | nil p => simp at htrace
  | @cons r next trace q x rest ih =>
    rcases List.cons_eq_append_iff.1 htrace with ⟨rfl, heq⟩ | ⟨before', rfl, htrace'⟩
    · obtain ⟨rfl, -⟩ := List.cons_eq_cons.1 heq
      exact absurd he hp.1
    · rcases hp.2 x with hopens | hnext
      · exact ⟨_, List.mem_cons_self, hopens⟩
      · obtain ⟨o, ho, hopens⟩ := ih hnext htrace'
        exact ⟨o, List.mem_cons_of_mem _ ho, hopens⟩

/-- What is never requested is not in a trace. -/
theorem Follows.never (h : Follows p trace q) (hp : p.Never kind) :
    ∀ e ∈ trace, ¬kind e.request := by
  intro e hmem he
  obtain ⟨before, behind, htrace⟩ := List.append_of_mem hmem
  obtain ⟨_, _, hfalse⟩ := h.exists_opens hp htrace he
  exact hfalse

/-- The trace of a whole run has nothing of what is never requested. -/
theorem Guarded.yields (hp : p.Never kind) : p.Yields fun _ trace => ∀ e ∈ trace, ¬kind e.request :=
  fun _ _ h => h.never hp

/-- What a program never makes is not made by what is left of it. -/
theorem Guarded.follows (hp : p.Never kind) (h : Follows p trace q) : q.Never kind := by
  induction h with
  | nil p => exact hp
  | cons x rest ih => exact ih ((hp.2 x).resolve_left id)

/-- What no run comes to ask for is never requested. -/
theorem never_of_follows (h : ∀ trace r next, Follows p trace (call r next) → ¬kind r) :
    p.Never kind := by
  induction p with
  | done a => trivial
  | call r next ih =>
    exact ⟨h [] r next (.nil _), fun x => Or.inr (ih x fun trace r' next' h' => h _ r' next' (.cons x h'))⟩

/-- What only requests of a kind could break holds at the end of a program that never makes them. -/
theorem Guarded.ensures {rules : Rules I σ} {inv : σ → Prop} {s : σ} (hp : p.Never kind)
    (keeps : ∀ r s x s', ¬kind r → rules r s x s' → inv s → inv s') (hs : inv s) :
    p.Ensures rules s fun _ s' => inv s' := by
  intro a s' h
  induction h with
  | done a s => exact hs
  | call answer rest ih =>
    exact ih ((hp.2 _).resolve_left id) (keeps _ _ _ _ hp.1 answer hs)

end Guarded

/-! ## Translations -/

/-- Replace every request by a program that answers it. -/
def translate (f : (r : I.Request) → Program J (I.Answer r)) : Program I α → Program J α
  | done a => done a
  | call r next => (f r).bind fun x => (next x).translate f

variable {f : (r : I.Request) → Program J (I.Answer r)}

/-- Exchanges, and those of the programs that answer them. -/
inductive Translates (f : (r : I.Request) → Program J (I.Answer r)) :
    List (Exchange I) → List (Exchange J) → Prop where
  | nil : Translates f [] []
  | cons {e : Exchange I} {trace : List (Exchange I)} {part rest : List (Exchange J)}
      (head : Follows (f e.request) part (done e.answer)) (tail : Translates f trace rest) :
      Translates f (e :: trace) (part ++ rest)

/-- A run of a translated program translates a run of the program. -/
theorem exists_of_follows_translate {whole : List (Exchange J)}
    (h : Follows (p.translate f) whole (done a)) :
    ∃ trace, Follows p trace (done a) ∧ Translates f trace whole := by
  induction p generalizing whole with
  | done b =>
    obtain ⟨rfl, rfl⟩ := follows_done_iff.1 h
    exact ⟨[], .nil _, .nil⟩
  | call r next ih =>
    obtain ⟨x, part, rest, rfl, hpart, hrest⟩ := follows_bind_iff.1 h
    obtain ⟨trace, htrace, hwhole⟩ := ih x hrest
    exact ⟨⟨r, x⟩ :: trace, .cons x htrace, .cons hpart hwhole⟩

theorem bind_assoc (p : Program I α) (f : α → Program I β) (g : β → Program I γ) :
    p >>= f >>= g = p >>= fun a => f a >>= g := by
  show (p.bind f).bind g = p.bind fun a => (f a).bind g
  induction p with
  | done a => rfl
  | call r next ih => exact congrArg (call r) (funext ih)

/-- A sequence is translated part by part. -/
theorem translate_bind (f : (r : I.Request) → Program J (I.Answer r)) (p : Program I α)
    (g : α → Program I β) :
    (p >>= g).translate f = p.translate f >>= fun a => (g a).translate f := by
  show (p.bind g).translate f = _
  induction p with
  | done a => rfl
  | call r next ih =>
    have hrest : (fun x => ((next x).bind g).translate f) =
        fun x => (next x).translate f >>= fun a => (g a).translate f := funext ih
    show ((f r).bind fun x => ((next x).bind g).translate f) = _
    rw [hrest]
    exact (bind_assoc (f r) (fun x => (next x).translate f) fun a => (g a).translate f).symm

/-- A translated program never makes a request of a kind if no translation of its requests does. -/
theorem never_translate {kind : I.Request → Prop} {kind' : J.Request → Prop} (h : p.Never kind)
    (hf : ∀ r, ¬kind r → (f r).Never kind') : (p.translate f).Never kind' := by
  induction p with
  | done a => trivial
  | call r next ih =>
    exact Guarded.bind (hf r h.1) fun x => ih x ((h.2 x).resolve_left id)

end SourceIndex.Program
