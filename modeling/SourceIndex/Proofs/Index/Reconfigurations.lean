import SourceIndex.Index.Manager
import SourceIndex.Proofs.Index.Displays
/-!
# New settings that are refused

A manager that is given new settings gives its services up before it reads the ignore rules, so that a
malformed pattern leaves it without any; only what is refused before that, an address that is none, leaves
everything as it was (`Manager.ensures_configure`). Its settings stay in either case, and they decide whether
the next ones count as a change (`Manager.refused_of_configure`): services that were lost come back only
with settings that differ from those that built them.
-/

namespace SourceIndex

open Program (Ends Rules)

/-- The ignore patterns of settings can be read. -/
def Settings.Parses (c : Settings) : Prop :=
  (c.ignore.mapM (Glob.parse? {})).isSome = true

/-- Services can be built from settings. -/
structure Settings.Usable (c : Settings) (n : Network) (root : String) : Prop where
  enabled : c.enabled = true
  configured : c.isConfigured = true
  connects : ∃ providers, Providers.connect n root c = .ok providers
  parses : c.Parses

namespace Manager

/-- What is known of reading the ignore rules: it fails exactly for malformed patterns. -/
def Loads : (a : Action) → a.Answer → Prop
  | .loadRules _ patterns, x => (∃ rules, x = .ok rules) ↔ (patterns.mapM (Glob.parse? {})).isSome = true
  | _, _ => True

/-- The rules of the state machine, with what is known of reading the ignore rules. -/
def rules : Rules indexing Standing := fun a d x d' =>
  Standing.rules a d x d' ∧ Loads a x

/-- What giving services up leaves of the state machine. -/
def retire (m : Manager) (d : Standing) : Standing :=
  if m.running.isNone then d
  else
    { d with
      watching := false
      status := if d.state = .error then d.status else d.status.setState .standby "Code index stopped." }

variable {m m' : Manager} {n : Network} {c : Settings} {d d' : Standing} {α : Type}

theorem retired_eq_self (h : m.running = none) : { m with running := none } = m := by
  rw [← h]

theorem ensures_ask_bind {a : Action} {f : a.Answer → Procedure α} {post : α → Standing → Prop}
    (h : ∀ x d', Standing.rules a d x d' → Loads a x → (f x).Ensures rules d' post) :
    (ask a >>= f).Ensures rules d post :=
  Program.ensures_bind.2 (Program.ensures_ask.2 fun x d' answer => h x d' answer.1 answer.2)

/-! ## What becomes of the services -/

/-- A manager that gives its services up stops the watcher, and publishes that unless an error is published. -/
theorem ensures_dispose : m.dispose.Ensures rules d fun m' d' =>
    m' = { m with running := none } ∧ d' = m.retire d := by
  unfold dispose retire
  cases hrunning : m.running with
  | none => exact Program.ensures_pure.2 ⟨(retired_eq_self hrunning).symm, rfl⟩
  | some r =>
    refine Program.ensures_ite (fun h => absurd h nofun) fun _ => ?_
    have hstopped : Lifecycle.dispose.Ensures rules d fun _ d₁ => d₁ = { d with watching := false } := by
      refine ensures_ask_bind fun _ d₁ h₁ _ => ensures_ask_bind fun _ d₂ h₂ _ => ?_
      subst h₁ h₂
      exact Program.ensures_pure.2 rfl
    refine hstopped.bind fun _ d₁ h₁ => ensures_ask_bind fun state d₂ ⟨hstate, h₂⟩ _ => ?_
    subst h₁ hstate h₂
    refine Program.ensures_ite (fun hnot => ?_) fun herror => Program.ensures_pure.2 ⟨rfl, ?_⟩
    · refine ensures_ask_bind fun _ d₃ h₃ _ => Program.ensures_pure.2 ⟨rfl, ?_⟩
      subst h₃
      rw [if_neg nofun, if_neg hnot]
    · rw [if_neg nofun, if_pos (Classical.not_not.1 herror)]

/-- The services are built anew unless a pattern is malformed, and then the old ones are gone. -/
theorem ensures_initializeWith {providers : Option Providers} :
    (m.initializeWith c providers).Ensures rules d fun (outcome, m') d' =>
      (∃ e, outcome = .error e) ∧ ¬c.Parses ∧ m' = { m with running := none } ∧ d' = m.retire d ∨
      outcome = .ok () ∧ c.Parses ∧ m'.isConfigured = true := by
  unfold initializeWith
  refine ensures_dispose.bind fun m₁ d₁ ⟨hm₁, hd₁⟩ => ensures_ask_bind fun x d₂ h₂ hloads => ?_
  subst hm₁ hd₁ h₂
  cases x with
  | error e =>
    refine Program.ensures_pure.2 (Or.inl ⟨⟨e, rfl⟩, fun hparses => ?_, rfl, rfl⟩)
    obtain ⟨_, hok⟩ := hloads.2 hparses
    cases hok
  | ok rules =>
    refine ensures_ask_bind fun _ d₃ _ _ => Program.ensures_pure.2 (Or.inr ⟨rfl, ?_, rfl⟩)
    exact hloads.1 ⟨rules, rfl⟩

/-- New settings without anything to build services from are taken over. Others fail when a server could not
be named, and then nothing happens, or when a pattern is malformed, and then the services are gone. -/
theorem ensures_configure : (m.configure n c).Ensures rules d fun (outcome, m') d' =>
    (∃ e, outcome = .error e) ∧ (∃ e, Providers.connect n m.root c = .error e) ∧ m' = m ∧ d' = d ∨
    (∃ e, outcome = .error e) ∧ (∃ p, Providers.connect n m.root c = .ok p) ∧ ¬c.Parses ∧
      m' = { m with running := none } ∧ d' = m.retire d ∨
    outcome = .ok () ∧ (c.Usable n m.root → m'.isConfigured = true) := by
  unfold configure
  refine Program.ensures_ite (fun hidle => ?_) fun _ => ?_
  · refine Program.Ensures.bind (fun _ _ _ => trivial) fun m₁ d₁ _ => ?_
    refine Program.ensures_pure.2 (Or.inr (Or.inr ⟨rfl, fun husable => ?_⟩))
    rw [husable.enabled, husable.configured] at hidle
    cases hidle
  · cases hconnect : Providers.connect n m.root c with
    | error e => exact Program.ensures_pure.2 (Or.inl ⟨⟨e, rfl⟩, ⟨e, rfl⟩, rfl, rfl⟩)
    | ok providers =>
      refine ensures_initializeWith.mono fun x d' hx => Or.inr ?_
      rcases hx with ⟨hfailed, hlost⟩ | ⟨hok, -, hserved⟩
      · exact Or.inl ⟨hfailed, ⟨providers, rfl⟩, hlost⟩
      · exact Or.inr ⟨hok, fun _ => hserved⟩

/-- Settings that do not differ in what services depend on are taken over by the services that are there. -/
theorem changeSettings_of_same (h : m.settings.requiresRestart c = false) : m.changeSettings n c =
    pure (.ok false, { m with
      settings := c
      running := m.running.map fun r => { r with search := c.search } }) := by
  unfold changeSettings
  exact if_pos (by rw [h]; rfl)

/-- Usable settings leave services behind if there were some, or if they differ from those before them in
what services depend on. -/
theorem ensures_changeSettings (husable : c.Usable n m.root) :
    (m.changeSettings n c).Ensures rules d fun (_, m') _ =>
      (m'.isConfigured = true ↔ m.isConfigured = true ∨ m.settings.requiresRestart c = true) := by
  cases hchanged : m.settings.requiresRestart c with
  | false =>
    rw [changeSettings_of_same hchanged]
    refine Program.ensures_pure.2 ?_
    simp [isConfigured]
  | true =>
    unfold changeSettings
    rw [if_neg (by simpa using hchanged)]
    refine ensures_configure.bind fun (outcome, m₁) d₁ h₁ => ?_
    obtain ⟨rfl, hserved⟩ : outcome = .ok () ∧ m₁.isConfigured = true := by
      rcases h₁ with ⟨-, ⟨e, hrefused⟩, -⟩ | ⟨-, -, hmalformed, -⟩ | ⟨hok, hserved⟩
      · obtain ⟨providers, hconnects⟩ := husable.connects
        rw [hconnects] at hrefused
        cases hrefused
      · exact absurd husable.parses hmalformed
      · exact ⟨hok, hserved husable⟩
    -- whether indexing can be started does not matter to the services
    refine Program.Ensures.bind (fun _ _ _ => trivial) fun started d₂ _ => ?_
    cases started with
    | error e => exact Program.ensures_pure.2 (iff_of_true hserved (Or.inr rfl))
    | ok => exact Program.ensures_pure.2 (iff_of_true hserved (Or.inr rfl))

/-! ## Refused settings -/

/-- What settings leave that services could not be built from. -/
structure Refused (m : Manager) (n : Network) (c : Settings) (d : Standing) (m' : Manager)
    (d' : Standing) : Prop where
  settings : m'.settings = m.settings
  kept_or_lost : m' = m ∧ d' = d ∨ m' = { m with running := none } ∧ d' = m.retire d
  kept_iff : m' = m ∧ d' = d ↔ m.running = none ∨ ∃ e, Providers.connect n m.root c = .error e
  /-- Whether the next usable settings lead to services. -/
  next : ∀ n' c', c'.Usable n' m.root → ∀ outcome m'' d'',
    Ends rules (m'.changeSettings n' c') d' (outcome, m'') d'' →
      (m''.isConfigured = true ↔ m'.isConfigured = true ∨ m.settings.requiresRestart c' = true)

/-- Settings that are refused, by themselves or as a change, leave the manager its settings. The rest stays as
it was exactly if there were no services, or if a server could not be named; otherwise the services are gone,
the watcher has stopped, and the next usable settings bring services back exactly if they differ from the
settings that are still held in what services depend on. -/
theorem refused_of_configure {e : IndexError}
    (refused : Ends rules (m.configure n c) d (.error e, m') d') :
    Refused m n c d m' d' ∧
      (m.settings.requiresRestart c = true → Ends rules (m.changeSettings n c) d (.error e, m') d') := by
  have hnext : ∀ {m' : Manager}, m'.root = m.root → m'.settings = m.settings →
      ∀ n' c', c'.Usable n' m.root → ∀ outcome m'' d'',
        Ends rules (m'.changeSettings n' c') d' (outcome, m'') d'' →
          (m''.isConfigured = true ↔ m'.isConfigured = true ∨ m.settings.requiresRestart c' = true) :=
    fun hroot hsettings n' c' husable outcome m'' d'' ends =>
      hsettings ▸ ensures_changeSettings (hroot.symm ▸ husable) (outcome, m'') d'' ends
  constructor
  · rcases ensures_configure _ _ refused with ⟨-, hrefused, rfl, rfl⟩ | ⟨-, hconnects, -, rfl, rfl⟩ | ⟨h, -⟩
    · exact ⟨rfl, Or.inl ⟨rfl, rfl⟩, iff_of_true ⟨rfl, rfl⟩ (Or.inr hrefused), hnext rfl rfl⟩
    · refine ⟨rfl, Or.inr ⟨rfl, rfl⟩, ⟨fun h => Or.inl ?_, fun h => ?_⟩, hnext rfl rfl⟩
      · exact (congrArg Manager.running h.1).symm
      · rcases h with hnone | ⟨_, hrefused⟩
        · exact ⟨retired_eq_self hnone, by rw [retire, hnone]; rfl⟩
        · obtain ⟨providers, hconnects⟩ := hconnects
          rw [hconnects] at hrefused
          cases hrefused
    · cases h
  · intro hchanged
    unfold changeSettings
    rw [if_neg (by simpa using hchanged)]
    exact Program.ends_bind_iff.2 ⟨_, _, refused, .done _ _⟩

/-! ### A malformed pattern -/

theorem rules_answer (a : Action) (w : Scenario.World) :
    rules a w.standing (Scenario.World.answer a w).1 (Scenario.World.answer a w).2.standing := by
  refine ⟨Scenario.World.rules_answer a w, ?_⟩
  cases a with
  | loadRules root patterns =>
    change (∃ rules, IgnoreRules.load w.disk root patterns = .ok rules) ↔ _
    unfold IgnoreRules.load
    cases patterns.mapM (Glob.parse? {}) with
    | none => exact iff_of_false (by rintro ⟨_, h⟩; cases h) nofun
    | some globs => exact iff_of_true ⟨_, rfl⟩ rfl
  | _ => trivial

/-- What a procedure does in a world is one of the things that it may do. -/
theorem ends_world {p : Procedure α} (w : Scenario.World) :
    Ends rules p w.standing (Scenario.World.run p w).1 (Scenario.World.run p w).2.standing :=
  Program.ends_run Scenario.World.standing rules_answer p w

/-- Settings of a local embedding service. -/
def localSettings : Settings where
  embed := { provider := .ollama }

/-- The same settings with a pattern that is none. -/
def malformed : Settings :=
  { localSettings with ignore := ["["] }

/-- A manager with services. -/
def served : Manager where
  root := "/w"
  cacheDir := "/cache"
  trees := Premises.small.trees
  settings := localSettings
  running := some ⟨Premises.smallServices, {}⟩

/-- What is left of it behind the malformed pattern. -/
def bereft : (Except IndexError Unit × Manager) × Scenario.World :=
  Scenario.World.run (served.configure Network.down malformed) Standing.attended

theorem exists_eq_ok {ε β : Type} {x : Except ε β} (h : x.toBool = true) : ∃ b, x = .ok b := by
  cases x with
  | ok b => exact ⟨b, rfl⟩
  | error e => cases h

theorem exists_eq_error {ε β : Type} {x : Except ε β} (h : x.toBool = false) : ∃ e, x = .error e := by
  cases x with
  | ok b => cases h
  | error e => exact ⟨e, rfl⟩

theorem usable_localSettings : localSettings.Usable Network.down "/w" where
  enabled := rfl
  configured := by decide +kernel
  connects := exists_eq_ok (by decide +kernel)
  parses := rfl

theorem ends_bereft {e : IndexError} (h : bereft.1.1 = .error e) :
    Ends rules (served.configure Network.down malformed) Standing.attended.standing (.error e, bereft.1.2)
      bereft.2.standing := by
  rw [← h]
  exact ends_world Standing.attended

/-- A malformed pattern takes the services away, and going back to the settings before it does not bring them
back. -/
theorem refused_of_configure_malformed : ∃ e,
    (Refused served Network.down malformed Standing.attended.standing bereft.1.2 bereft.2.standing ∧
      (served.settings.requiresRestart malformed = true → Ends rules
        (served.changeSettings Network.down malformed) Standing.attended.standing (.error e, bereft.1.2)
        bereft.2.standing)) ∧
    bereft.1.2.isConfigured = false ∧ served.settings.requiresRestart localSettings = false := by
  obtain ⟨e, he⟩ := exists_eq_error (x := bereft.1.1) (by decide +kernel)
  exact ⟨e, refused_of_configure (ends_bereft he), by decide +kernel, by decide +kernel⟩

/-- New settings may be refused so that services, watcher and state are lost, and usable ones behind them
may leave the manager without services. -/
theorem exists_unserved : ∃ e m' d', Ends rules (served.configure Network.down malformed)
      Standing.attended.standing (.error e, m') d' ∧
    (served.isConfigured = true ∧ m'.isConfigured = false) ∧
    (Standing.attended.standing.watching = true ∧ d'.watching = false) ∧
    (Standing.attended.standing.state = .indexed ∧ d'.state = .standby) ∧
    localSettings.Usable Network.down m'.root ∧
    ∃ m'' d'', Ends rules (m'.changeSettings Network.down localSettings) d' (.ok false, m'') d'' ∧
      m''.isConfigured = false := by
  obtain ⟨e, he⟩ := exists_eq_error (x := bereft.1.1) (by decide +kernel)
  have hroot : bereft.1.2.root = "/w" := by decide +kernel
  have hsame : bereft.1.2.settings.requiresRestart localSettings = false := by decide +kernel
  refine ⟨e, _, _, ends_bereft he, ⟨rfl, by decide +kernel⟩, ⟨rfl, by decide +kernel⟩,
    ⟨rfl, by decide +kernel⟩, hroot ▸ usable_localSettings, ?_⟩
  rw [changeSettings_of_same hsame]
  exact ⟨_, _, .done _ _, by decide +kernel⟩

end Manager

end SourceIndex
