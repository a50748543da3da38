import SourceIndex.Proofs.Program.Exchanges
/-!
# Crews

A crew works on jobs beside each other on one state. Each job has a program, and a request may give
rise to more jobs. `Crew.Runs` are the runs of a crew, in which at every turn any job may make its next
request; its log says who exchanged what, and each `Thread` keeps its own exchanges.

So what holds of all traces of a job's program holds of its thread in every run (`Runs.sound`), the log
is the traces of the threads mixed in some order (`Runs.perm`, `Runs.traceAt_eq`), and the jobs are
those given and those that requests gave rise to (`Runs.map_job`). Conversely one thread may go on while all
others wait (`Runs.of_follows`), and for every order of turns a handler gives one of the runs
(`runs_takeTurns`).
-/

namespace SourceIndex.Program

variable {I : Interface} {J α σ τ ε : Type}

/-- The value of a program that is done. -/
def result? : Program I α → Option α
  | .done a => some a
  | .call _ _ => none

theorem eq_done_of_result? {p : Program I α} {a : α} (h : p.result? = some a) : p = .done a := by
  cases p with
  | done b => rw [Option.some_inj.1 h]
  | call r next => cases h

/-- The jobs of a crew, and which jobs a request gives rise to. -/
structure Crew (I : Interface) (J α : Type) where
  program : J → Program I α
  spawns : I.Request → List J

/-- A job that was begun: what it has exchanged, and what is left of it. -/
structure Thread (I : Interface) (J α : Type) where
  job : J
  trace : List (Exchange I)
  rest : Program I α

/-- One more exchange, and what it leaves. -/
def Thread.exchange (t : Thread I J α) (e : Exchange I) (rest : Program I α) : Thread I J α where
  job := t.job
  trace := t.trace ++ [e]
  rest := rest

namespace Crew

/-- A job that nothing was done for yet. -/
def start (crew : Crew I J α) (job : J) : Thread I J α where
  job := job
  trace := []
  rest := crew.program job

/-- A thread is where its trace leads the program of its job. -/
def Sound (crew : Crew I J α) (t : Thread I J α) : Prop :=
  Follows (crew.program t.job) t.trace t.rest

/-- `Runs rules crew ts s log ts' s'`: in some run of the crew, threads that stood at `ts` in the state `s`
come to `ts'` and `s'`. -/
inductive Runs (rules : Rules I σ) (crew : Crew I J α) : List (Thread I J α) → σ →
    List (Nat × Exchange I) → List (Thread I J α) → σ → Prop where
  | stop (ts : List (Thread I J α)) (s : σ) : Runs rules crew ts s [] ts s
  | turn {ts ts' : List (Thread I J α)} {s s' s'' : σ} {log : List (Nat × Exchange I)} {i : Nat}
      {t : Thread I J α} {r : I.Request} {next : I.Answer r → Program I α} {x : I.Answer r}
      (chosen : ts[i]? = some t) (asks : t.rest = call r next) (answer : rules r s x s')
      (others : Runs rules crew
        (ts.set i (t.exchange ⟨r, x⟩ (next x)) ++ (crew.spawns r).map crew.start) s' log ts' s'') :
      Runs rules crew ts s ((i, ⟨r, x⟩) :: log) ts' s''

variable {rules : Rules I σ} {crew : Crew I J α} {ts ts₁ ts' : List (Thread I J α)} {s s₁ s' : σ}
  {log more : List (Nat × Exchange I)} {i : Nat} {t : Thread I J α}

/-- A run may go on from where another one came to. -/
theorem Runs.trans (h : Runs rules crew ts s log ts₁ s₁) (h' : Runs rules crew ts₁ s₁ more ts' s') :
    Runs rules crew ts s (log ++ more) ts' s' := by
  induction h with
  | stop => exact h'
  | turn chosen asks answer others ih => exact .turn chosen asks answer (ih h')

/-- Every beginning of a log is the log of a run. -/
theorem Runs.split (h : Runs rules crew ts s (log ++ more) ts' s') :
    ∃ ts₁ s₁, Runs rules crew ts s log ts₁ s₁ ∧ Runs rules crew ts₁ s₁ more ts' s' := by
  induction log generalizing ts s with
  | nil => exact ⟨ts, s, .stop ts s, h⟩
  | cons e log ih =>
    cases h with
    | turn chosen asks answer others =>
      obtain ⟨ts₁, s₁, hfirst, hsecond⟩ := ih others
      exact ⟨ts₁, s₁, .turn chosen asks answer hfirst, hsecond⟩

/-- The jobs are those given and those that requests gave rise to, in this order. -/
theorem Runs.map_job (h : Runs rules crew ts s log ts' s') :
    ts'.map (·.job) = ts.map (·.job) ++ log.flatMap fun e => crew.spawns e.2.request := by
  induction h with
  | stop => simp
  | @turn ts ts' s s' s'' log i t r next x chosen asks answer others ih =>
    have hsame : (ts.set i (t.exchange ⟨r, x⟩ (next x))).map (·.job) = ts.map (·.job) := by
      rw [List.map_set]
      refine List.ext_getElem? fun k => ?_
      rw [List.getElem?_set]
      split
      · rename_i hik
        subst hik
        obtain ⟨hlt, heq⟩ := List.getElem?_eq_some_iff.1 chosen
        rw [List.length_map, if_pos hlt, List.getElem?_map, chosen]
        rfl
      · rfl
    rw [ih, List.map_append, hsame, List.map_map, List.append_assoc, List.flatMap_cons]
    congr 2
    exact List.map_id _

/-- The program of a thread's job comes by its trace to what is left of it. -/
theorem Runs.sound (h : Runs rules crew ts s log ts' s') (hts : ∀ t ∈ ts, crew.Sound t) :
    ∀ t ∈ ts', crew.Sound t := by
  induction h with
  | stop => exact hts
  | @turn ts ts' s s' s'' log i t r next x chosen asks answer others ih =>
    refine ih fun t' ht' => ?_
    rcases List.mem_append.1 ht' with hold | hnew
    · rcases List.mem_or_eq_of_mem_set hold with hold | rfl
      · exact hts t' hold
      · have ht : Follows (crew.program t.job) t.trace (call r next) :=
          asks ▸ hts t (List.mem_of_getElem? chosen)
        exact ht.concat x
    · obtain ⟨job, -, rfl⟩ := List.mem_map.1 hnew
      exact .nil _

/-! ## The exchanges of one thread -/

/-- The entries of a log that one thread has made. -/
def own (i : Nat) (log : List (Nat × ε)) : List ε :=
  log.filterMap fun entry => if entry.1 = i then some entry.2 else none

section own
variable {entries others : List (Nat × ε)} {entry : ε}

@[simp] theorem own_nil : own i ([] : List (Nat × ε)) = [] := rfl

@[simp] theorem own_append : own i (entries ++ others) = own i entries ++ own i others :=
  List.filterMap_append

theorem own_cons {first : Nat × ε} :
    own i (first :: entries) = if first.1 = i then first.2 :: own i entries else own i entries := by
  unfold own
  rw [List.filterMap_cons]
  by_cases h : first.1 = i
  · rw [if_pos h, if_pos h]
  · rw [if_neg h, if_neg h]

theorem mem_own : entry ∈ own i entries ↔ (i, entry) ∈ entries := by
  simp only [own, List.mem_filterMap]
  constructor
  · rintro ⟨⟨k, other⟩, hmem, h⟩
    split at h
    · rename_i heq
      cases h
      exact heq ▸ hmem
    · cases h
  · exact fun h => ⟨_, h, if_pos rfl⟩

/-- An entry of a thread stands in the log between what the thread did before it and behind it. -/
theorem exists_of_own_eq {front rest : List ε} (h : own i entries = front ++ entry :: rest) :
    ∃ before behind, entries = before ++ (i, entry) :: behind ∧ own i before = front ∧
      own i behind = rest := by
  obtain ⟨before, others, rfl, hbefore, hothers⟩ := List.filterMap_eq_append_iff.1 h
  obtain ⟨between, ⟨k, other⟩, behind, rfl, hbetween, hentry, hbehind⟩ :=
    List.filterMap_eq_cons_iff.1 hothers
  dsimp only at hentry
  split at hentry
  · rename_i hk
    cases hentry
    refine ⟨before ++ between, behind, ?_, ?_, hbehind⟩
    · rw [List.append_assoc, hk]
    · rw [own_append, own, own, hbefore, List.filterMap_eq_nil_iff.2 hbetween, List.append_nil]
  · cases hentry

end own

/-- The trace of the thread at a place; nothing where there is none. -/
def traceAt (ts : List (Thread I J α)) (i : Nat) : List (Exchange I) :=
  (ts[i]?).elim [] (·.trace)

theorem traceAt_of_getElem? (h : ts[i]? = some t) : traceAt ts i = t.trace := by
  rw [traceAt, h, Option.elim_some]

/-- Jobs that were not begun yet have no exchanges. -/
theorem traceAt_append_start (jobs : List J) (k : Nat) :
    traceAt (ts ++ jobs.map crew.start) k = traceAt ts k := by
  by_cases hk : k < ts.length
  · rw [traceAt, List.getElem?_append_left hk, traceAt]
  · have hge : ts.length ≤ k := Nat.le_of_not_lt hk
    rw [traceAt, traceAt, List.getElem?_append_right hge, List.getElem?_map, List.getElem?_eq_none hge]
    cases jobs[k - ts.length]? with
    | none => rfl
    | some job => rfl

theorem traceAt_map_start (crew : Crew I J α) (jobs : List J) (k : Nat) :
    traceAt (jobs.map crew.start) k = [] := by
  rw [← List.nil_append (jobs.map crew.start), traceAt_append_start]
  rfl

theorem flatMap_trace_append_start (jobs : List J) :
    (ts ++ jobs.map crew.start).flatMap (·.trace) = ts.flatMap (·.trace) := by
  have hnone : (jobs.map crew.start).flatMap (·.trace) = [] := by simp [start]
  rw [List.flatMap_append, hnone, List.append_nil]

/-- A thread has made what it had made before and what the log has of it. -/
theorem Runs.traceAt_eq (h : Runs rules crew ts s log ts' s') (k : Nat) :
    traceAt ts' k = traceAt ts k ++ own k log := by
  induction h with
  | stop => rw [own_nil, List.append_nil]
  | @turn ts ts' s s' s'' log i t r next x chosen asks answer others ih =>
    obtain ⟨hlt, -⟩ := List.getElem?_eq_some_iff.1 chosen
    have hstep : traceAt (ts.set i (t.exchange ⟨r, x⟩ (next x))) k =
        traceAt ts k ++ own k [(i, (⟨r, x⟩ : Exchange I))] := by
      rw [own_cons, own_nil, traceAt, List.getElem?_set]
      by_cases hik : i = k
      · subst hik
        rw [if_pos rfl, if_pos hlt, if_pos rfl, traceAt_of_getElem? chosen]
        rfl
      · rw [if_neg hik, if_neg hik, List.append_nil, traceAt]
    rw [ih, traceAt_append_start, hstep, List.append_assoc, ← own_append]
    rfl

/-- The log is the exchanges of all threads in some order. -/
theorem Runs.perm (h : Runs rules crew ts s log ts' s') :
    (ts'.flatMap (·.trace)).Perm (ts.flatMap (·.trace) ++ log.map (·.2)) := by
  induction h with
  | stop => simp
  | @turn ts ts' s s' s'' log i t r next x chosen asks answer others ih =>
    obtain ⟨hlt, heq⟩ := List.getElem?_eq_some_iff.1 chosen
    have hsplit : ts = ts.take i ++ t :: ts.drop (i + 1) := by
      rw [← heq, List.getElem_cons_drop, List.take_append_drop]
    have hset : ((ts.set i (t.exchange ⟨r, x⟩ (next x))).flatMap (·.trace)).Perm
        (ts.flatMap (·.trace) ++ [(⟨r, x⟩ : Exchange I)]) := by
      rw [List.set_eq_take_append_cons_drop, if_pos hlt]
      conv => rhs; rw [hsplit]
      simp only [List.flatMap_append, List.flatMap_cons, Thread.exchange, List.append_assoc]
      exact (List.perm_append_comm.append_left _).append_left _
    rw [flatMap_trace_append_start] at ih
    refine ih.trans ((hset.append_right _).trans ?_)
    rw [List.append_assoc]
    rfl

/-- A thread that has ended does nothing any more. -/
theorem Runs.ended (h : Runs rules crew ts s log ts' s') {a : α} (hi : ts[i]? = some t)
    (ht : t.rest = done a) : ts'[i]? = some t ∧ own i log = [] := by
  induction h with
  | stop => exact ⟨hi, rfl⟩
  | @turn ts ts' s s' s'' log k u r next x chosen asks answer others ih =>
    have hne : k ≠ i := by
      rintro rfl
      rw [chosen, Option.some_inj] at hi
      rw [hi, ht] at asks
      cases asks
    obtain ⟨hlt, -⟩ := List.getElem?_eq_some_iff.1 hi
    obtain ⟨hthere, hnothing⟩ := ih (by
      rw [List.getElem?_append_left (by rwa [List.length_set]), List.getElem?_set_ne hne, hi])
    exact ⟨hthere, by rw [own_cons, if_neg hne, hnothing]⟩

/-- A thread that gives rise to no other has all exchanges to itself. -/
theorem Runs.alone (h : Runs rules crew [t] s log ts' s')
    (quiet : t.rest.Never fun r => crew.spawns r ≠ []) :
    ∃ t', ts' = [t'] ∧ Follows t.rest (log.map (·.2)) t'.rest := by
  generalize hts : [t] = ts at h
  induction h generalizing t with
  | stop ts s => exact ⟨t, hts.symm, .nil _⟩
  | @turn ts ts' s s' s'' log i u r next x chosen asks answer others ih =>
    subst hts
    obtain ⟨rfl, rfl⟩ : i = 0 ∧ t = u := by
      cases i with
      | zero => exact ⟨rfl, Option.some_inj.1 chosen⟩
      | succ i => cases chosen
    rw [asks] at quiet
    have hnone : crew.spawns r = [] := Classical.not_not.1 quiet.1
    obtain ⟨t', rfl, hrest⟩ := ih ((quiet.2 x).resolve_left id) (by rw [hnone]; rfl)
    exact ⟨t', rfl, asks ▸ .cons x hrest⟩

/-- A thread may make its requests while the others wait. The jobs that they give rise to stand behind all
that were there. -/
theorem Runs.of_follows {trace : List (Exchange I)} {q : Program I α} (hi : ts[i]? = some t)
    (follows : Follows t.rest trace q) (trail : Trail rules s trace s') :
    Runs rules crew ts s (trace.map fun e => (i, e))
      (ts.set i ⟨t.job, t.trace ++ trace, q⟩ ++
        (trace.flatMap fun e => crew.spawns e.request).map crew.start) s' := by
  generalize hrest : t.rest = p at follows
  induction follows generalizing ts t s with
  | nil p =>
    cases trail
    obtain ⟨hlt, heq⟩ := List.getElem?_eq_some_iff.1 hi
    have hsame : ts.set i ⟨t.job, t.trace, p⟩ = ts := by
      rw [← hrest, ← heq]
      exact List.set_getElem_self hlt
    simp only [List.flatMap_nil, List.map_nil, List.append_nil, hsame]
    exact .stop ts _
  | @cons r next trace q x rest ih =>
    obtain ⟨s₁, answer, trail⟩ := trail_cons_iff.1 trail
    obtain ⟨hlt, -⟩ := List.getElem?_eq_some_iff.1 hi
    have hthere : (ts.set i (t.exchange ⟨r, x⟩ (next x)) ++ (crew.spawns r).map crew.start)[i]? =
        some (t.exchange ⟨r, x⟩ (next x)) := by
      rw [List.getElem?_append_left (by rwa [List.length_set]), List.getElem?_set_self hlt]
    have hrun := ih hthere trail rfl
    rw [List.set_append_left _ _ (by rwa [List.length_set]), List.set_set, List.append_assoc,
      ← List.map_append, Thread.exchange, List.append_assoc] at hrun
    exact .turn hi hrest answer hrun

/-- A thread may come to its end while the others wait. -/
theorem Runs.of_ends {a : α} (hi : ts[i]? = some t) (ends : Ends rules t.rest s a s') :
    ∃ log ts', Runs rules crew ts s log ts' s' := by
  obtain ⟨trace, follows, trail⟩ := ends.exists_follows
  exact ⟨_, _, .of_follows hi follows trail⟩

/-- What only requests of a kind could break holds as long as no thread makes them. -/
theorem Runs.keeps {kind : I.Request → Prop} (h : Runs rules crew ts s log ts' s') (inv : σ → Prop)
    (hkeeps : ∀ r s x s', ¬kind r → rules r s x s' → inv s → inv s')
    (hts : ∀ t ∈ ts, t.rest.Never kind) (hjobs : ∀ r, ¬kind r → ∀ job ∈ crew.spawns r,
      (crew.program job).Never kind) (hs : inv s) : inv s' := by
  induction h with
  | stop => exact hs
  | @turn ts ts' s s' s'' log i t r next x chosen asks answer others ih =>
    have ht := hts t (List.mem_of_getElem? chosen)
    rw [asks] at ht
    refine ih (fun u hu => ?_) (hkeeps _ _ _ _ ht.1 answer hs)
    rcases List.mem_append.1 hu with hold | hnew
    · rcases List.mem_or_eq_of_mem_set hold with hold | rfl
      · exact hts u hold
      · exact (ht.2 x).resolve_left id
    · obtain ⟨job, hjob, rfl⟩ := List.mem_map.1 hnew
      exact hjobs r ht.1 job hjob

/-- What of the state changes with each exchange changes with the log. -/
theorem Runs.foldl (view : σ → τ) (act : τ → Exchange I → τ)
    (hact : ∀ r s x s', rules r s x s' → view s' = act (view s) ⟨r, x⟩)
    (h : Runs rules crew ts s log ts' s') : view s' = (log.map (·.2)).foldl act (view s) := by
  induction h with
  | stop => rfl
  | turn chosen asks answer others ih => rw [ih, hact _ _ _ _ answer, List.map_cons, List.foldl_cons]

/-! ## Taking turns -/

/-- Let the threads make their requests in the order that `turns` says; the turn of one that has ended, or
does not exist, is left out. -/
def takeTurns (handle : Handler I σ) (crew : Crew I J α) : List Nat → List (Thread I J α) → σ →
    List (Nat × Exchange I) × List (Thread I J α) × σ
  | [], ts, s => ([], ts, s)
  | i :: turns, ts, s =>
    match ts[i]? with
    | none => takeTurns handle crew turns ts s
    | some t =>
      match t.rest with
      | done _ => takeTurns handle crew turns ts s
      | call r next =>
        let answered := handle r s
        let e : Exchange I := ⟨r, answered.1⟩
        let ran := takeTurns handle crew turns
          (ts.set i (t.exchange e (next answered.1)) ++ (crew.spawns r).map crew.start) answered.2
        ((i, e) :: ran.1, ran.2)

/-- A handler whose answers follow the rules gives a run for every order of turns. -/
theorem runs_takeTurns {handle : Handler I σ} (follows : ∀ r s, rules r s (handle r s).1 (handle r s).2)
    (crew : Crew I J α) (turns : List Nat) (ts : List (Thread I J α)) (s : σ) :
    Runs rules crew ts s (takeTurns handle crew turns ts s).1 (takeTurns handle crew turns ts s).2.1
      (takeTurns handle crew turns ts s).2.2 := by
  induction turns generalizing ts s with
  | nil => exact .stop ts s
  | cons i turns ih =>
    rw [takeTurns]
    cases hi : ts[i]? with
    | none => exact ih ts s
    | some t =>
      dsimp only
      cases ht : t.rest with
      | done a => exact ih ts s
      | call r next => exact .turn hi ht (follows r s) (ih _ _)

/-- What holds of every answer of a handler holds of all exchanges by turns. -/
theorem forall_mem_takeTurns {handle : Handler I σ} {kept : Exchange I → Prop}
    (h : ∀ r s, kept ⟨r, (handle r s).1⟩) (crew : Crew I J α) (turns : List Nat)
    (ts : List (Thread I J α)) (s : σ) :
    ∀ e ∈ (takeTurns handle crew turns ts s).1.map (·.2), kept e := by
  induction turns generalizing ts s with
  | nil => exact List.forall_mem_nil _
  | cons i turns ih =>
    rw [takeTurns]
    cases ts[i]? with
    | none => exact ih ts s
    | some t =>
      dsimp only
      cases t.rest with
      | done a => exact ih ts s
      | call r next => exact List.forall_mem_cons.2 ⟨h r s, ih _ _⟩

end Crew

end SourceIndex.Program
