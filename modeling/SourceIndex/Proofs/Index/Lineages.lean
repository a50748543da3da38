import SourceIndex.Index.Manager
import SourceIndex.Proofs.Index.Standing
import SourceIndex.Proofs.Program.Crews
/-!
# The services of a manager, beside each other

New settings give a manager new services, with a scan flag, a watcher and a cache of their own; they go on
publishing in the same status. A `Lineage` is that status with all generations of services, and `Lineage.rules`
are the rules of each generation's state machine. `serve` sends the requests of a procedure to the services
of one generation, and behind a request that installs services to the new ones.

Any number of orders that a manager may be given, and of batches of its watchers, beside each other, are a
crew (`Lineage.crew`).
In all its runs at most one start is scanning with the services of one generation (`Lineage.excludes`): a
scan flag is taken back only by the start that found it down (`Lineage.Balanced`).
-/

namespace SourceIndex

open Program (Exchange Follows Guarded Rules Thread)

/-- Services as the state machine sees them. -/
structure Generation where
  scanning : Bool := false
  watching : Bool := false
  hashes : Hashes := []
deriving DecidableEq

/-- The services that a manager has built, one generation after the other, and what they publish. Those that
were not built yet stand as new ones do. -/
structure Lineage where
  status : Status := {}
  /-- How many generations were built. -/
  built : Nat := 1
  generations : Nat → Generation := fun _ => {}

/-- Requests to the services of a generation. An answer also tells which generation is the newest, where
services were installed. -/
def serving : Interface where
  Request := Nat × Action
  Answer r := Nat × r.2.Answer

/-- Whether a request installs new services. -/
def Action.installs : Action → Bool
  | .install .. => true
  | _ => false

/-- The requests that have to do with scan flags. -/
def Action.Flags : Action → Prop
  | .beginScan => True
  | .endScan => True
  | _ => False

/-- The requests that a whole run leaves to the start that it belongs to. -/
def Action.Shifts : Action → Prop
  | .beginScan => True
  | .endScan => True
  | .install .. => True
  | _ => False

/-- The requests by which an index leaves its rest. -/
def Action.Rouses : Action → Prop
  | .beginScan => True
  | .endScan => True
  | .startWatcher => True
  | .reportBlocks .. => True
  | .tellBatch _ => True
  | .setState shown _ => shown = .indexing ∨ shown = .indexed
  | _ => False

/-- Send the requests of a procedure to the services of a generation; behind a request that installs services
they go to those. Answers also with which generation it ends. -/
def serve {α : Type} : Nat → Procedure α → Program serving (Nat × α)
  | g, .done a => .done (g, a)
  | g, .call a next =>
    .call (g, a) fun x => serve (if a.installs then x.1 else g) (next x.2)

/-- What a manager may be told, and a batch of changes that its watcher has begun. -/
inductive Manager.Order where
  | start
  | stop
  | clear
  | dispose
  | change (n : Network) (settings : Settings)
  | batch (changes : Changes)

/-- The batch of a watcher that works with the services of a manager. -/
def Manager.processBatch (m : Manager) (changes : Changes) : Procedure (Except IndexError Unit) :=
  match m.running with
  | some r => do
    let _ ← processChanges r.services changes
    return .ok ()
  | none => return .ok ()

/-- What is done for an order. -/
def Manager.Order.program (m : Manager) : Manager.Order → Procedure (Except IndexError Unit)
  | .start => m.start
  | .stop => do
    m.stop
    return .ok ()
  | .clear => m.clear
  | .dispose => do
    let _ ← m.dispose
    return .ok ()
  | .change n settings => do
    let (outcome, _) ← m.changeSettings n settings
    return outcome.map fun _ => ()
  | .batch changes => m.processBatch changes

/-- An order, with the manager as it is when the order comes and the generation of its services. -/
structure Manager.Errand where
  manager : Manager
  generation : Nat
  order : Manager.Order

namespace Lineage

/-- What the state machine of a generation goes by. -/
def standing (S : Lineage) (g : Nat) : Standing where
  scanning := (S.generations g).scanning
  status := S.status
  watching := (S.generations g).watching
  hashes := (S.generations g).hashes

/-- What requests do to a lineage: an installation brings the next generation, with a cache of its own, and
any other request goes by the state machine of one generation and leaves the others alone. -/
def rules : Rules serving Lineage := fun r S x S' =>
  if r.2.installs then
    x.1 = S.built ∧ ∃ hashes, S' = { S with
      built := S.built + 1
      generations := Function.update S.generations S.built { S.generations S.built with hashes } }
  else
    Standing.rules r.2 (S.standing r.1) x.2 (S'.standing r.1) ∧ S'.built = S.built ∧
      ∀ g, g ≠ r.1 → S'.generations g = S.generations g

/-- Orders beside each other. -/
def crew : Program.Crew serving Manager.Errand (Nat × Except IndexError Unit) where
  program errand := serve errand.generation (errand.order.program errand.manager)
  spawns _ := []

/-! ## One scan at a time -/

/-- Whether a thread that was scanning with the services of a generation, or was not, is scanning with them
behind an exchange: it begins when it finds the flag down, and ends when it takes it down. -/
def step (g : Nat) (scanning : Bool) : Exchange serving → Bool
  | ⟨(k, .beginScan), x⟩ => scanning || (k == g && !x.2)
  | ⟨(k, .endScan), _⟩ => scanning && k != g
  | _ => scanning

/-- Behind these exchanges a thread is scanning with the services of a generation. -/
def Scans (g : Nat) (trace : List (Exchange serving)) : Prop :=
  trace.foldl (step g) false = true

/-- What an exchange does to scan flags. -/
inductive Turn (S S' : Lineage) : Exchange serving → Prop where
  | begin (k : Nat) (x : Nat × Bool) (found : x.2 = (S.generations k).scanning)
    (up : (S'.generations k).scanning = true)
    (others : ∀ g, g ≠ k → (S'.generations g).scanning = (S.generations g).scanning) :
    Turn S S' ⟨(k, .beginScan), x⟩
  | cease (k : Nat) (x : Nat × Unit) (down : (S'.generations k).scanning = false)
    (others : ∀ g, g ≠ k → (S'.generations g).scanning = (S.generations g).scanning) :
    Turn S S' ⟨(k, .endScan), x⟩
  | other (e : Exchange serving) (steps : ∀ g scanning, step g scanning e = scanning)
    (same : ∀ g, (S'.generations g).scanning = (S.generations g).scanning) : Turn S S' e

variable {S S' : Lineage} {α β : Type} {g : Nat}

theorem turn_of_rules {r : Nat × Action} {x : Nat × r.2.Answer} (h : rules r S x S') :
    Turn S S' ⟨r, x⟩ := by
  obtain ⟨k, a⟩ := r
  unfold rules at h
  by_cases hinstalls : a.installs
  · rw [if_pos hinstalls] at h
    obtain ⟨-, hashes, rfl⟩ := h
    refine .other _ (fun g scanning => ?_) fun g => ?_
    · cases a with
      | install => rfl
      | _ => cases hinstalls
    · dsimp only
      by_cases hg : g = S.built
      · rw [hg, Function.update_self]
      · rw [Function.update_of_ne hg]
  rw [if_neg hinstalls] at h
  obtain ⟨hrules, -, hothers⟩ := h
  have hother : ∀ g, g ≠ k → (S'.generations g).scanning = (S.generations g).scanning :=
    fun g hg => congrArg Generation.scanning (hothers g hg)
  have hsame : (S'.generations k).scanning = (S.generations k).scanning →
      ∀ g, (S'.generations g).scanning = (S.generations g).scanning := by
    intro h g
    by_cases hg : g = k
    · rw [hg, h]
    · exact hother g hg
  cases a with
  | beginScan => exact .begin k x hrules.1 (congrArg Standing.scanning hrules.2) hother
  | endScan => exact .cease k x (congrArg Standing.scanning hrules) hother
  | install => exact absurd rfl hinstalls
  | setState | stopWatcher =>
    exact .other _ (fun _ _ => rfl) (hsame (congrArg Standing.scanning hrules))
  | startWatcher =>
    refine .other _ (fun _ _ => rfl) (hsame ?_)
    rcases hrules with ⟨-, h⟩ | ⟨-, -, h⟩
    · exact congrArg Standing.scanning h
    · exact congrArg Standing.scanning h
  | _ => exact .other _ (fun _ _ => rfl) (hsame (Standing.frame_of_not_steers id hrules).1)

/-- Scan flags are taken down only by a thread that is scanning; with which generations it is at first, is
given. -/
def Balanced : (Nat → Bool) → Program serving α → Prop
  | _, .done _ => True
  | scanning, .call r next =>
    (∀ g, r = (g, .endScan) → scanning g = true) ∧
      ∀ x, Balanced (fun g => step g (scanning g) ⟨r, x⟩) (next x)

section
variable {scanning : Nat → Bool} {p q : Program serving α} {trace : List (Exchange serving)}

theorem Balanced.follows (hp : Balanced scanning p) (h : Follows p trace q) :
    Balanced (fun g => trace.foldl (step g) (scanning g)) q := by
  induction h generalizing scanning with
  | nil p => exact hp
  | cons x rest ih => exact ih (hp.2 x)

theorem step_of_not_flags {k : Nat} {a : Action} {x : Nat × a.Answer} {b : Bool} (h : ¬a.Flags) :
    step g b ⟨(k, a), x⟩ = b := by
  cases a with
  | beginScan | endScan => exact absurd trivial h
  | _ => rfl

/-- What comes in front, and has nothing to do with scan flags, only tells with which generations to go on:
with its own, if it installs nothing. -/
theorem balanced_serve_bind {G : Nat → Prop} {p : Procedure α} {f : α → Procedure β} (hg : G g)
    (hp : p.Never fun (a : Action) => a.Flags ∨ a.installs = true ∧ ¬∀ k, G k)
    (hf : ∀ k a, G k → Balanced scanning (serve k (f a))) :
    Balanced scanning (serve g (p >>= f)) := by
  change Balanced scanning (serve g (p.bind f))
  induction p generalizing g with
  | done a => exact hf g a hg
  | call a next ih =>
    have hflags : ¬a.Flags := fun h => hp.1 (Or.inl h)
    refine ⟨fun k h => ?_, fun x => ?_⟩
    · obtain rfl : a = .endScan := congrArg Prod.snd h
      exact absurd trivial hflags
    · have hsame : (fun k => step k (scanning k) ⟨(g, a), x⟩) = scanning :=
        funext fun _ => step_of_not_flags hflags
      rw [hsame]
      refine ih _ ?_ ((hp.2 _).resolve_left id)
      split
      · rename_i hinstalls
        exact Classical.not_not.1 fun h => hp.1 (Or.inr ⟨hinstalls, fun hall => h (hall _)⟩)
      · exact hg

theorem balanced_serve {p : Procedure α} (hp : p.Never Action.Flags) : Balanced scanning (serve g p) := by
  induction p generalizing g scanning with
  | done a => trivial
  | call a next ih =>
    refine ⟨fun k h => ?_, fun x => ih _ ((hp.2 _).resolve_left id)⟩
    obtain rfl : a = .endScan := congrArg Prod.snd h
    exact absurd trivial hp.1

/-- What comes behind matters as little if it may be done with any flags. -/
theorem balanced_serve_then {p : Procedure α} {f : α → Procedure β} (hp : Balanced scanning (serve g p))
    (hf : ∀ scanning k a, Balanced scanning (serve k (f a))) :
    Balanced scanning (serve g (p >>= f)) := by
  change Balanced scanning (serve g (p.bind f))
  induction p generalizing g scanning with
  | done a => exact hf _ _ a
  | call a next ih => exact ⟨hp.1, fun x => ih _ (hp.2 x)⟩

end

/-! ### Orders -/

variable {s : Services} {m : Manager} {scanning : Nat → Bool}

theorem not_shifts_of_not_steers {a : Action} (h : ¬a.Steers) : ¬a.Shifts := by
  cases a with
  | beginScan | endScan | install => exact absurd trivial h
  | _ => exact id

theorem shifts_of_flags {a : Action} (h : a.Flags) : a.Shifts := by
  cases a with
  | beginScan | endScan => trivial
  | _ => exact h.elim

theorem shifts_of_installs {a : Action} (h : a.installs = true) : a.Shifts := by
  cases a with
  | install => trivial
  | _ => cases h

theorem never_shifts {p : Procedure α} (h : p.Never Action.Steers) : p.Never Action.Shifts :=
  h.mono (fun _ => id) fun _ hshifts =>
    Classical.byContradiction fun hnot => not_shifts_of_not_steers hnot hshifts

theorem never_shifts_fullIndex : (Lifecycle.fullIndex s).Never Action.Shifts := by
  refine Guarded.bind (never_shifts Lifecycle.never_steers_reconcile) fun x => ?_
  cases x with
  | error e => trivial
  | ok =>
    refine Program.guarded_ask_bind id fun _ => Or.inr ?_
    refine Guarded.bind (never_shifts (never_steers_scan ScanMode.observes_showScan)) fun r => ?_
    cases r.check with
    | error e => trivial
    | ok =>
      refine Program.guarded_ask_bind id fun _ => Or.inr ?_
      refine Program.guarded_ask_bind id fun x => Or.inr ?_
      cases x with
      | error e => trivial
      | ok => exact Program.guarded_ask_bind id fun _ => Or.inr trivial

theorem never_shifts_giveUp (e : IndexError) : (Lifecycle.giveUp e).Never Action.Shifts := by
  refine Program.guarded_ask_bind id fun _ => Or.inr ?_
  refine Program.guarded_ask_bind id fun _ => Or.inr ?_
  exact Program.guarded_ask_bind id fun _ => Or.inr (Program.guarded_ask id)

/-- What comes in front, with no scan flag and no new services, does not matter. -/
theorem balanced_serve_bind_here {p : Procedure α} {f : α → Procedure β} (hp : p.Never Action.Shifts)
    (hf : ∀ a, Balanced scanning (serve g (f a))) : Balanced scanning (serve g (p >>= f)) := by
  refine balanced_serve_bind (G := (· = g)) rfl (hp.mono (fun _ => id) ?_) fun k a hk => hk ▸ hf a
  rintro a (h | ⟨h, -⟩)
  · exact shifts_of_flags h
  · exact shifts_of_installs h

/-- Behind a flag that was found down the thread is scanning. -/
theorem balanced_beginScan {f : Bool → Procedure β}
    (hup : ∀ scanning, Balanced scanning (serve g (f true)))
    (hdown : ∀ scanning : Nat → Bool, scanning g = true → Balanced scanning (serve g (f false))) :
    Balanced scanning (serve g (ask .beginScan >>= f)) := by
  refine ⟨nofun, fun (k, running) => ?_⟩
  cases running with
  | true => exact hup _
  | false => exact hdown _ (by simp [step])

/-- A thread that is scanning may take the flag down. -/
theorem balanced_endScan {f : Unit → Procedure β} (hscans : scanning g = true)
    (hf : ∀ scanning, Balanced scanning (serve g (f ()))) :
    Balanced scanning (serve g (ask .endScan >>= f)) := by
  refine ⟨fun k h => ?_, fun x => hf _⟩
  obtain rfl : g = k := congrArg Prod.fst h
  exact hscans

theorem balanced_start : Balanced scanning (serve g (Lifecycle.start s)) := by
  refine balanced_beginScan (fun _ => trivial) fun scanning hscans => ?_
  refine balanced_serve_bind_here (Program.guarded_ask id) fun state => ?_
  split
  · exact balanced_endScan hscans fun _ => trivial
  refine balanced_serve_bind_here (Program.guarded_ask id) fun _ => ?_
  refine balanced_serve_bind_here never_shifts_fullIndex fun outcome => ?_
  refine balanced_endScan hscans fun scanning => ?_
  cases outcome with
  | ok => trivial
  | error e => exact balanced_serve_bind_here (never_shifts_giveUp e) fun _ => trivial

theorem rouses_of_flags {a : Action} (h : a.Flags) : a.Rouses := by
  cases a with
  | beginScan | endScan => trivial
  | _ => exact h.elim

theorem never_rouses_publish {state : IndexState} {message : String} {f : Unit → Procedure α}
    (hstate : state = .standby ∨ state = .error) (hf : (f ()).Never Action.Rouses) :
    (ask (.setState state message) >>= f).Never Action.Rouses := by
  refine Program.guarded_ask_bind (fun h => ?_) fun _ => Or.inr hf
  rcases hstate with rfl | rfl
  · rcases h with h | h <;> cases h
  · rcases h with h | h <;> cases h

theorem never_rouses_stop : Lifecycle.stop.Never Action.Rouses := by
  refine Program.guarded_ask_bind id fun _ => Or.inr ?_
  refine Program.guarded_ask_bind id fun (state : IndexState) => Or.inr ?_
  exact Program.guarded_ite (fun _ => never_rouses_publish (Or.inl rfl) trivial) fun _ => trivial

theorem never_rouses_clear : Lifecycle.clear.Never Action.Rouses := by
  refine Program.guarded_ask_bind id fun _ => Or.inr ?_
  refine Program.guarded_ask_bind id fun dropped => Or.inr ?_
  refine Program.guarded_ask_bind id fun cleared => Or.inr ?_
  rcases dropped with e | _
  · exact never_rouses_publish (Or.inr rfl) trivial
  · cases cleared with
    | error e => exact never_rouses_publish (Or.inr rfl) trivial
    | ok => exact never_rouses_publish (Or.inl rfl) trivial

theorem never_rouses_dispose : m.dispose.Never Action.Rouses := by
  refine Program.guarded_ite (fun _ => trivial) fun _ => ?_
  refine Guarded.bind (Program.guarded_ask_bind id fun _ => Or.inr ?_) fun _ => ?_
  · exact Program.guarded_ask_bind id fun _ => Or.inr trivial
  refine Program.guarded_ask_bind id fun (state : IndexState) => Or.inr ?_
  exact Program.guarded_ite (fun _ => never_rouses_publish (Or.inl rfl) trivial) fun _ => trivial

theorem never_rouses_configure {n : Network} {settings : Settings} :
    (m.configure n settings).Never Action.Rouses := by
  unfold Manager.configure
  refine Program.guarded_ite (fun _ => ?_) fun _ => ?_
  · refine Guarded.bind (Guarded.bind never_rouses_dispose fun _ => ?_) fun _ => trivial
    exact never_rouses_publish (Or.inl rfl) trivial
  split
  · trivial
  refine Guarded.bind never_rouses_dispose fun m => ?_
  refine Program.guarded_ask_bind id fun loaded => Or.inr ?_
  cases loaded with
  | error e => trivial
  | ok loaded => exact Program.guarded_ask_bind id fun _ => Or.inr trivial

theorem never_governs_processBatch {changes : Changes} :
    (m.processBatch changes).Never Action.Governs := by
  unfold Manager.processBatch
  split
  · exact Guarded.bind (never_governs_processChanges changes) fun _ => trivial
  · trivial

theorem governs_of_flags {a : Action} (h : a.Flags) : a.Governs := by
  cases a with
  | beginScan | endScan => trivial
  | _ => exact h.elim

/-- Whatever a manager is told, scan flags are taken down only by a start that found them down. -/
theorem balanced_program (order : Manager.Order) : Balanced scanning (serve g (order.program m)) := by
  have hrest : ∀ {p : Procedure (Except IndexError Unit)}, p.Never Action.Rouses →
      Balanced scanning (serve g p) :=
    fun h => balanced_serve (h.mono (fun _ => id) fun _ => rouses_of_flags)
  have hstart : ∀ (m : Manager) k, Balanced scanning (serve k m.start) := by
    intro m k
    unfold Manager.start
    split
    · exact balanced_start
    · trivial
  cases order with
  | start => exact hstart m g
  | stop =>
    refine hrest (Guarded.bind ?_ fun _ => trivial)
    exact Program.guarded_ite (fun _ => never_rouses_stop) fun _ => trivial
  | clear => exact hrest (Program.guarded_ite (fun _ => never_rouses_clear) fun _ => trivial)
  | dispose => exact hrest (Guarded.bind never_rouses_dispose fun _ => trivial)
  | change n settings =>
    refine balanced_serve_then ?_ fun _ _ _ => trivial
    unfold Manager.changeSettings
    split
    · trivial
    refine balanced_serve_bind (G := fun _ => True) trivial
      (never_rouses_configure.mono (fun _ => id) ?_) fun k built _ => ?_
    · rintro a (h | ⟨-, h⟩)
      · exact rouses_of_flags h
      · exact absurd (fun _ => trivial) h
    obtain ⟨e | _, m⟩ := built
    · trivial
    · refine balanced_serve_then (hstart m k) fun scanning j outcome => ?_
      cases outcome with
      | error e => trivial
      | ok => trivial
  | batch changes =>
    exact balanced_serve (never_governs_processBatch.mono (fun _ => id) fun _ => governs_of_flags)

/-! ### In all runs -/

section
variable {e : Exchange serving} {b : Bool}

/-- A thread that is scanning was so before, or it has just found the flag down. -/
theorem Turn.before (turn : Turn S S' e) (h : step g b e = true) :
    b = true ∨ (S.generations g).scanning = false ∧ (S'.generations g).scanning = true := by
  cases turn with
  | begin k x found up others =>
    rcases Bool.or_eq_true_iff.1 h with h | h
    · exact Or.inl h
    · obtain ⟨hk, hx⟩ := Bool.and_eq_true_iff.1 h
      obtain rfl : k = g := by simpa using hk
      exact Or.inr ⟨by simpa [found] using hx, up⟩
  | cease k x down others => exact Or.inl (Bool.and_eq_true_iff.1 h).1
  | other e steps same => exact Or.inl (steps g b ▸ h)

/-- A flag that is up stays up until it is taken down. -/
theorem Turn.stays (turn : Turn S S' e) (h : (S.generations g).scanning = true) :
    (S'.generations g).scanning = true ∨ e.request = (g, .endScan) := by
  cases turn with
  | begin k x found up others =>
    by_cases hg : g = k
    · exact Or.inl (hg ▸ up)
    · exact Or.inl ((others g hg).trans h)
  | cease k x down others =>
    by_cases hg : g = k
    · exact Or.inr (hg ▸ rfl)
    · exact Or.inl ((others g hg).trans h)
  | other e steps same => exact Or.inl ((same g).trans h)

/-- Who takes the flag down is no longer scanning. -/
theorem step_endScan (h : e.request = (g, .endScan)) : step g b e = false := by
  obtain ⟨r, x⟩ := e
  cases h
  simp [step]

end

/-- An order that is being carried out. -/
abbrev Hand :=
  Thread serving Manager.Errand (Nat × Except IndexError Unit)

/-- Of threads that are scanning with the services of a generation there is at most one, and only while the
flag is up; what is left of them is balanced. -/
structure Exclusive (ts : List Hand) (S : Lineage) : Prop where
  balanced : ∀ t ∈ ts, Balanced (fun g => t.trace.foldl (step g) false) t.rest
  up : ∀ (g i : Nat) (t : Hand), ts[i]? = some t → Scans g t.trace → (S.generations g).scanning = true
  one : ∀ (g i j : Nat) (t u : Hand), ts[i]? = some t → ts[j]? = some u → Scans g t.trace →
    Scans g u.trace → i = j

variable {ts ts' : List Hand} {log : List (Nat × Exchange serving)} {i : Nat} {t : Hand}

theorem scans_exchange {e : Exchange serving} {rest : Program serving (Nat × Except IndexError Unit)} :
    Scans g (t.exchange e rest).trace ↔ step g (t.trace.foldl (step g) false) e = true := by
  rw [Scans, Thread.exchange, List.foldl_append]
  rfl

theorem Exclusive.turn {r : Nat × Action}
    {next : Nat × r.2.Answer → Program serving (Nat × Except IndexError Unit)} {x : Nat × r.2.Answer}
    (h : Exclusive ts S) (chosen : ts[i]? = some t) (asks : t.rest = .call r next)
    (turn : Turn S S' ⟨r, x⟩) : Exclusive (ts.set i (t.exchange ⟨r, x⟩ (next x))) S' := by
  have hbalanced := h.balanced t (List.mem_of_getElem? chosen)
  rw [asks] at hbalanced
  have hplaces : ∀ {k u}, (ts.set i (t.exchange ⟨r, x⟩ (next x)))[k]? = some u →
      k = i ∧ u = t.exchange ⟨r, x⟩ (next x) ∨ k ≠ i ∧ ts[k]? = some u := by
    intro k u hk
    rw [List.getElem?_set] at hk
    split at hk
    · rename_i heq
      split at hk
      · exact Or.inl ⟨heq.symm, (Option.some_inj.1 hk).symm⟩
      · cases hk
    · rename_i hne
      exact Or.inr ⟨fun heq => hne heq.symm, hk⟩
  -- another thread that is scanning rules out that this one has just begun, or that it takes the flag down
  have hother : ∀ {g k u}, k ≠ i → ts[k]? = some u → Scans g u.trace →
      ¬Scans g t.trace ∧ (S.generations g).scanning = true :=
    fun hne hk hu => ⟨fun ht => hne (h.one _ _ _ _ _ hk chosen hu ht), h.up _ _ _ hk hu⟩
  refine ⟨fun u hu => ?_, fun g k u hk hu => ?_, fun g k l u v hk hl hu hv => ?_⟩
  · rcases List.mem_or_eq_of_mem_set hu with hold | rfl
    · exact h.balanced u hold
    · have hnext := hbalanced.2 x
      simp only [Thread.exchange, List.foldl_append]
      exact hnext
  · rcases hplaces hk with ⟨rfl, rfl⟩ | ⟨hne, hk⟩
    · have hstep := scans_exchange.1 hu
      rcases turn.before hstep with hscans | ⟨-, hup⟩
      · refine (turn.stays (h.up g k t chosen hscans)).resolve_right fun hend => ?_
        rw [step_endScan hend] at hstep
        cases hstep
      · exact hup
    · obtain ⟨hnot, hup⟩ := hother hne hk hu
      exact (turn.stays hup).resolve_right fun hend => hnot (hbalanced.1 g hend)
  · have hfresh : ∀ {k u}, k ≠ i → ts[k]? = some u → Scans g u.trace →
        ¬Scans g (t.exchange ⟨r, x⟩ (next x)).trace := by
      intro k u hne hk hu hscans
      obtain ⟨hnot, hup⟩ := hother hne hk hu
      rcases turn.before (scans_exchange.1 hscans) with ht | ⟨hdown, -⟩
      · exact hnot ht
      · rw [hdown] at hup
        cases hup
    rcases hplaces hk with ⟨rfl, rfl⟩ | ⟨hne, hk⟩
    · rcases hplaces hl with ⟨rfl, -⟩ | ⟨hne, hl⟩
      · rfl
      · exact absurd hu (hfresh hne hl hv)
    · rcases hplaces hl with ⟨hl, rfl⟩ | ⟨-, hl⟩
      · exact absurd hv (hfresh hne hk hu)
      · exact h.one g k l u v hk hl hu hv

/-- However orders are carried out beside each other, with the services of one generation at most one start is
scanning at a time. -/
theorem excludes {errands : List Manager.Errand}
    (run : crew.Runs rules (errands.map crew.start) S log ts' S') : Exclusive ts' S' := by
  have hnone : ∀ (g i : Nat) (t : Hand), (errands.map crew.start)[i]? = some t → ¬Scans g t.trace := by
    intro g i t ht
    obtain ⟨errand, -, rfl⟩ := List.mem_map.1 (List.mem_of_getElem? ht)
    exact Bool.false_ne_true
  have hstart : Exclusive (errands.map crew.start) S := by
    refine ⟨fun t ht => ?_, fun g i t ht hscans => ?_, fun g i j t u ht _ hscans => ?_⟩
    · obtain ⟨errand, -, rfl⟩ := List.mem_map.1 ht
      exact balanced_program errand.order
    · exact absurd hscans (hnone g i t ht)
    · exact absurd hscans (hnone g i t ht)
  generalize errands.map crew.start = ts at run hstart
  induction run with
  | stop => exact hstart
  | turn chosen asks answer others ih =>
    refine ih ?_
    rw [show crew.spawns _ = [] from rfl, List.map_nil, List.append_nil]
    exact hstart.turn chosen asks (turn_of_rules answer)

end Lineage

end SourceIndex
