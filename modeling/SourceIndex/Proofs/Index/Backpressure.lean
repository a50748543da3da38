import Mathlib.Logic.Relation
import SourceIndex.Proofs.Index.Turns
/-!
# A crew under limits

Only so many files are parsed at one time, and only so many batches are worked through; a file whose
batch would be one too many waits. A `Scan.Floor` is where the jobs of a scan stand, with the permits that
are left, and a `Scan.Move` is a step of one of them. A file takes a slot for the time that it is parsed. To
submit a batch takes a permit, which the batch keeps to its end; before it is worked through it waits for
another one. The buffer is behind a lock, which is held for one request and not while anything is waited
for.

So a waiting file holds nothing that a batch might wait for: `Floor.Balanced.exists_move` goes from
batches that run over those that wait to files, and one of them can always move. As permits are handed on
and never made (`Move.permits`), the limits are kept (`Floor.never_stuck`).

The limits only leave runs out: what a floor comes to is a run of the crew (`Floor.runs_of_moves`).
-/

namespace SourceIndex

open Program (Crew Exchange Follows Guarded Handler Rules Thread)

/-- How many jobs may be at it at one time. -/
structure CrewLimits where
  /-- Files that are parsed. -/
  parsing : Nat
  /-- Batches that wait or are worked through. -/
  pending : Nat
  /-- Batches that are worked through. -/
  running : Nat

/-- The limits that the settings give. -/
def CrewLimits.ofTuning (t : Tuning) : CrewLimits where
  parsing := max t.parsingConcurrency 1
  pending := max t.maxPendingBatches 1
  running := max t.batchConcurrency 1

namespace Scan

/-- How far a job has come. -/
inductive Stage where
  /-- It waits for a slot or a permit. -/
  | waiting
  | active
  | ended

/-- A job and how far it has come. -/
structure Seat where
  thread : Thread jobs Job BatchResult
  stage : Stage

namespace Seat

/-- A file that is parsed. -/
def parses (seat : Seat) : Bool :=
  match seat.thread.job, seat.stage with
  | .file _, .active => true
  | _, _ => false

/-- A batch that is not done. -/
def unfinished (seat : Seat) : Bool :=
  match seat.thread.job, seat.stage with
  | .batch _, .waiting => true
  | .batch _, .active => true
  | _, _ => false

/-- A batch that is worked through. -/
def processes (seat : Seat) : Bool :=
  match seat.thread.job, seat.stage with
  | .batch _, .active => true
  | _, _ => false

/-- The job has exchanged something. -/
def exchange (seat : Seat) (e : Exchange jobs) (rest : Program jobs BatchResult) : Seat :=
  { seat with thread := seat.thread.exchange e rest }

end Seat

/-- What has to do with the buffer is asked for under its lock. -/
def Shared.locks : Shared → Bool
  | .gather _ => true
  | .take => true
  | _ => false

/-- A request that has to wait for the lock or for a permit. -/
def Request.waits : Request → Bool
  | .shared (.submit _) => true
  | .shared c => c.locks
  | .action _ => false

/-- Where the jobs of a scan stand, and what is left of its permits. -/
structure Floor (σ : Type) where
  seats : List Seat
  /-- Whether all files have been worked on, and what is left in the buffer is sent off. -/
  flushing : Bool := false
  /-- Slots for files. -/
  slots : Nat
  /-- Permits for batches to be submitted. -/
  pending : Nat
  /-- Permits for batches to be worked through. -/
  running : Nat
  /-- The job that holds the lock of the buffer. -/
  holder : Option Nat := none
  world : σ × ScanState

namespace Floor

variable {σ : Type}

/-- How many files are parsed. -/
def parsing (fl : Floor σ) : Nat :=
  fl.seats.countP Seat.parses

/-- How many batches are not done. -/
def unfinished (fl : Floor σ) : Nat :=
  fl.seats.countP Seat.unfinished

/-- How many batches are worked through. -/
def processing (fl : Floor σ) : Nat :=
  fl.seats.countP Seat.processes

/-- Have a job at another point. -/
def put (fl : Floor σ) (i : Nat) (seat : Seat) : Floor σ :=
  { fl with seats := fl.seats.set i seat }

/-- Have one more job. -/
def add (fl : Floor σ) (seat : Seat) : Floor σ :=
  { fl with seats := fl.seats ++ [seat] }

/-- Give back what a job held. -/
def release (fl : Floor σ) : Job → Floor σ
  | .file _ => { fl with slots := fl.slots + 1 }
  | .batch _ => { fl with pending := fl.pending + 1, running := fl.running + 1 }
  | _ => fl

/-- All files wait, and no permit has been taken. -/
def start (s : Services) (mode : ScanMode) (listed : List String) (w : σ) : Floor σ where
  seats := listed.map fun path => ⟨(crew s mode).start (.file path), .waiting⟩
  slots := (CrewLimits.ofTuning s.tuning).parsing
  pending := (CrewLimits.ofTuning s.tuning).pending
  running := (CrewLimits.ofTuning s.tuning).running
  world := (w, {})

end Floor

/-- A step of one of the jobs of a scan. -/
inductive Move {σ : Type} (s : Services) (mode : ScanMode) (rules : Rules indexing σ) :
    Floor σ → Floor σ → Prop where
  /-- A file gets a slot. -/
  | begin {fl : Floor σ} {i slots : Nat} {seat : Seat} {path : String}
    (chosen : fl.seats[i]? = some seat) (waits : seat.stage = .waiting)
    (job : seat.thread.job = .file path) (free : fl.slots = slots + 1) :
    Move s mode rules fl { fl.put i { seat with stage := .active } with slots }
  /-- A batch that was submitted gets the permit to be worked through. -/
  | enter {fl : Floor σ} {i running : Nat} {seat : Seat} {items : List PendingBlock}
    (chosen : fl.seats[i]? = some seat) (waits : seat.stage = .waiting)
    (job : seat.thread.job = .batch items) (free : fl.running = running + 1) :
    Move s mode rules fl { fl.put i { seat with stage := .active } with running }
  /-- A job that is about to use the buffer gets its lock. -/
  | lock {fl : Floor σ} {i : Nat} {seat : Seat} {c : Shared} {next : c.Answer → Program jobs BatchResult}
    (chosen : fl.seats[i]? = some seat) (active : seat.stage = .active)
    (asks : seat.thread.rest = .call (I := jobs) (.shared c) next) (locks : c.locks = true)
    (free : fl.holder = none) : Move s mode rules fl { fl with holder := some i }
  /-- The job that holds the lock uses the buffer and lets it go. -/
  | access {fl : Floor σ} {i : Nat} {seat : Seat} {c : Shared} {next : c.Answer → Program jobs BatchResult}
    {x : c.Answer} {world : σ × ScanState} (chosen : fl.seats[i]? = some seat)
    (active : seat.stage = .active) (asks : seat.thread.rest = .call (I := jobs) (.shared c) next)
    (locks : c.locks = true) (holds : fl.holder = some i)
    (answer : jobRules s.tuning.batchThreshold rules (.shared c) fl.world x world) :
    Move s mode rules fl
      { fl.put i (seat.exchange ⟨.shared c, x⟩ (next x)) with holder := none, world }
  /-- A request is answered that nothing has to be waited for. -/
  | exchange {fl : Floor σ} {i : Nat} {seat : Seat} {r : Request}
    {next : jobs.Answer r → Program jobs BatchResult} {x : jobs.Answer r} {world : σ × ScanState}
    (chosen : fl.seats[i]? = some seat) (active : seat.stage = .active)
    (asks : seat.thread.rest = .call (I := jobs) r next) (free : r.waits = false)
    (answer : jobRules s.tuning.batchThreshold rules r fl.world x world) :
    Move s mode rules fl { fl.put i (seat.exchange ⟨r, x⟩ (next x)) with world }
  /-- A batch is submitted, with a permit that it keeps. -/
  | submit {fl : Floor σ} {i pending : Nat} {seat : Seat} {batch : List PendingBlock}
    {next : Unit → Program jobs BatchResult} (chosen : fl.seats[i]? = some seat)
    (active : seat.stage = .active)
    (asks : seat.thread.rest = .call (I := jobs) (.shared (.submit batch)) next)
    (free : fl.pending = pending + 1) :
    Move s mode rules fl
      { (fl.put i (seat.exchange ⟨.shared (.submit batch), ()⟩ (next ()))).add
          ⟨(crew s mode).start (.batch batch), .waiting⟩ with pending }
  /-- A job is done and gives back what it held. -/
  | finish {fl : Floor σ} {i : Nat} {seat : Seat} {r : BatchResult} (chosen : fl.seats[i]? = some seat)
    (active : seat.stage = .active) (done : seat.thread.rest = .done r) :
    Move s mode rules fl ((fl.put i { seat with stage := .ended }).release seat.thread.job)
  /-- All files are done, and the buffer is flushed. -/
  | flush {fl : Floor σ} (first : fl.flushing = false)
    (files : ∀ seat ∈ fl.seats, ∀ path, seat.thread.job = .file path → seat.stage = .ended) :
    Move s mode rules fl
      { fl.add ⟨(crew s mode).start .flush, .active⟩ with flushing := true }

variable {σ : Type} {s : Services} {mode : ScanMode} {rules : Rules indexing σ} {fl fl' : Floor σ}
  {seats : List Seat} {seat seat' : Seat} {i j : Nat}

/-! ## Permits are handed on -/

theorem Seat.countP_set {p : Seat → Bool} (chosen : seats[i]? = some seat) (seat' : Seat) :
    (seats.set i seat').countP p + (p seat).toNat = seats.countP p + (p seat').toNat := by
  obtain ⟨hi, rfl⟩ := List.getElem?_eq_some_iff.1 chosen
  have hpos : p seats[i] = true → 0 < seats.countP p := fun hp =>
    List.countP_pos_iff.2 ⟨_, List.getElem_mem hi, hp⟩
  rw [List.countP_set hi]
  cases hold : p seats[i] with
  | false => cases p seat' <;> simp
  | true =>
    have := hpos hold
    cases p seat' <;> simp <;> omega

/-- What a job counts for before and behind a change of it. -/
theorem Floor.put_counts (chosen : fl.seats[i]? = some seat) (seat' : Seat) :
    (fl.put i seat').parsing + seat.parses.toNat = fl.parsing + seat'.parses.toNat ∧
      (fl.put i seat').unfinished + seat.unfinished.toNat = fl.unfinished + seat'.unfinished.toNat ∧
      (fl.put i seat').processing + seat.processes.toNat = fl.processing + seat'.processes.toNat :=
  ⟨Seat.countP_set chosen seat', Seat.countP_set chosen seat', Seat.countP_set chosen seat'⟩

/-- A job that goes on as it is counts for what it did. -/
theorem Floor.put_exchange_counts (chosen : fl.seats[i]? = some seat) (e : Exchange jobs)
    (rest : Program jobs BatchResult) : (fl.put i (seat.exchange e rest)).parsing = fl.parsing ∧
      (fl.put i (seat.exchange e rest)).unfinished = fl.unfinished ∧
      (fl.put i (seat.exchange e rest)).processing = fl.processing := by
  obtain ⟨hparsing, hunfinished, hprocessing⟩ := Floor.put_counts chosen (seat.exchange e rest)
  exact ⟨Nat.add_right_cancel hparsing, Nat.add_right_cancel hunfinished, Nat.add_right_cancel hprocessing⟩

theorem Floor.add_counts (fl : Floor σ) (seat : Seat) :
    (fl.add seat).parsing = fl.parsing + seat.parses.toNat ∧
      (fl.add seat).unfinished = fl.unfinished + seat.unfinished.toNat ∧
      (fl.add seat).processing = fl.processing + seat.processes.toNat := by
  have hnew (p : Seat → Bool) : (fl.seats ++ [seat]).countP p = fl.seats.countP p + (p seat).toNat := by
    rw [List.countP_append, List.countP_singleton]
    cases p seat <;> rfl
  exact ⟨hnew _, hnew _, hnew _⟩

/-- No step makes a permit or loses one. -/
theorem Move.permits (h : Move s mode rules fl fl') : fl'.slots + fl'.parsing = fl.slots + fl.parsing ∧
    fl'.pending + fl'.unfinished = fl.pending + fl.unfinished ∧
    fl'.running + fl'.processing = fl.running + fl.processing := by
  cases h with
  | @begin i slots seat path chosen waits job free =>
    have hcounts := Floor.put_counts chosen { seat with stage := .active }
    simp only [Seat.parses, Seat.unfinished, Seat.processes, job, waits, Bool.toNat_true,
      Bool.toNat_false] at hcounts
    show slots + (fl.put i _).parsing = _ ∧ fl.pending + (fl.put i _).unfinished = _ ∧
      fl.running + (fl.put i _).processing = _
    omega
  | @enter i running seat items chosen waits job free =>
    have hcounts := Floor.put_counts chosen { seat with stage := .active }
    simp only [Seat.parses, Seat.unfinished, Seat.processes, job, waits, Bool.toNat_true,
      Bool.toNat_false] at hcounts
    show fl.slots + (fl.put i _).parsing = _ ∧ fl.pending + (fl.put i _).unfinished = _ ∧
      running + (fl.put i _).processing = _
    omega
  | lock => exact ⟨rfl, rfl, rfl⟩
  | access chosen | exchange chosen =>
    obtain ⟨hparsing, hunfinished, hprocessing⟩ := Floor.put_exchange_counts chosen _ _
    exact ⟨congrArg (fl.slots + ·) hparsing, congrArg (fl.pending + ·) hunfinished,
      congrArg (fl.running + ·) hprocessing⟩
  | @submit i pending seat batch next chosen active asks free =>
    have hcounts := Floor.put_exchange_counts chosen ⟨.shared (.submit batch), ()⟩ (next ())
    -- the new batch is not done, but not worked through either
    have hadd : _ ∧ (Floor.add _ _).unfinished = _ + 1 ∧ _ := Floor.add_counts
      (fl.put i (seat.exchange ⟨.shared (.submit batch), ()⟩ (next ())))
      ⟨(crew s mode).start (.batch batch), .waiting⟩
    show fl.slots + (Floor.add _ _).parsing = _ ∧ pending + (Floor.add _ _).unfinished = _ ∧
      fl.running + (Floor.add _ _).processing = _
    rw [hadd.1, hadd.2.1, hadd.2.2, hcounts.1, hcounts.2.1, hcounts.2.2, free]
    exact ⟨rfl, by omega, rfl⟩
  | @finish i seat r chosen active done =>
    have hcounts := Floor.put_counts chosen { seat with stage := .ended }
    cases hjob : seat.thread.job with
    | file path =>
      simp only [Seat.parses, Seat.unfinished, Seat.processes, hjob, active, Bool.toNat_true,
        Bool.toNat_false] at hcounts
      show fl.slots + 1 + (fl.put i _).parsing = _ ∧ fl.pending + (fl.put i _).unfinished = _ ∧
        fl.running + (fl.put i _).processing = _
      omega
    | batch items =>
      simp only [Seat.parses, Seat.unfinished, Seat.processes, hjob, active, Bool.toNat_true,
        Bool.toNat_false] at hcounts
      show fl.slots + (fl.put i _).parsing = _ ∧ fl.pending + 1 + (fl.put i _).unfinished = _ ∧
        fl.running + 1 + (fl.put i _).processing = _
      omega
    | _ =>
      simp only [Seat.parses, Seat.unfinished, Seat.processes, hjob, Bool.toNat_false] at hcounts
      show fl.slots + (fl.put i _).parsing = _ ∧ fl.pending + (fl.put i _).unfinished = _ ∧
        fl.running + (fl.put i _).processing = _
      omega
  | flush =>
    obtain ⟨hparsing, hunfinished, hprocessing⟩ :=
      Floor.add_counts fl ⟨(crew s mode).start .flush, .active⟩
    exact ⟨congrArg (fl.slots + ·) hparsing, congrArg (fl.pending + ·) hunfinished,
      congrArg (fl.running + ·) hprocessing⟩

/-! ## What holds on every floor -/

/-- The job is about to use the buffer. -/
def Using (seats : List Seat) (i : Nat) : Prop :=
  ∃ (seat : Seat) (c : Shared) (next : c.Answer → Program jobs BatchResult), seats[i]? = some seat ∧
    seat.stage = .active ∧ seat.thread.rest = .call (I := jobs) (.shared c) next ∧ c.locks = true

/-- Jobs that may have to wait for a slot or a permit before they are begun. -/
def Job.queues : Job → Prop
  | .file _ => True
  | .batch _ => True
  | _ => False

/-- What holds wherever the jobs stand: permits that are not left are held, the lock is held by a job that is
about to use the buffer, and every job is where its exchanges lead it, at its end when it is said to be. -/
structure Floor.Balanced (s : Services) (mode : ScanMode) (fl : Floor σ) : Prop where
  slots : fl.slots + fl.parsing = (CrewLimits.ofTuning s.tuning).parsing
  pending : fl.pending + fl.unfinished = (CrewLimits.ofTuning s.tuning).pending
  running : fl.running + fl.processing = (CrewLimits.ofTuning s.tuning).running
  held : ∀ i, fl.holder = some i → Using fl.seats i
  sound : ∀ seat ∈ fl.seats, (crew s mode).Sound seat.thread
  queued : ∀ seat ∈ fl.seats, seat.stage = .waiting → seat.thread.job.queues
  done : ∀ seat ∈ fl.seats, seat.stage = .ended → ∃ r, seat.thread.rest = .done r

theorem Shared.waits_of_locks {c : Shared} (h : c.locks = true) : (Request.shared c).waits = true := by
  cases c with
  | submit batch => rfl
  | _ => exact h

/-- Another job than the one that uses the buffer may change. -/
theorem Using.set (h : Using seats i) (chosen : seats[j]? = some seat)
    (hother : seat.stage = .active → ∀ r next, seat.thread.rest = .call (I := jobs) r next →
      r.waits = true → ∃ batch, r = .shared (.submit batch)) (seat' : Seat) :
    Using (seats.set j seat') i := by
  obtain ⟨user, c, next, hi, hactive, hrest, hlocks⟩ := h
  have hne : j ≠ i := by
    rintro rfl
    obtain rfl := Option.some_inj.1 (chosen.symm.trans hi)
    obtain ⟨batch, hsubmit⟩ := hother hactive (.shared c) next hrest (Shared.waits_of_locks hlocks)
    cases hsubmit
    cases hlocks
  exact ⟨user, c, next, by rw [List.getElem?_set_ne hne, hi], hactive, hrest, hlocks⟩

theorem Using.append (h : Using seats i) (more : List Seat) : Using (seats ++ more) i := by
  obtain ⟨user, c, next, hi, huser⟩ := h
  have hlt := (List.getElem?_eq_some_iff.1 hi).1
  exact ⟨user, c, next, by rw [List.getElem?_append_left hlt, hi], huser⟩

@[simp] theorem Floor.release_seats (fl : Floor σ) (job : Job) : (fl.release job).seats = fl.seats := by
  cases job <;> rfl

@[simp] theorem Floor.release_holder (fl : Floor σ) (job : Job) : (fl.release job).holder = fl.holder := by
  cases job <;> rfl

/-- The lock stays with a job that is about to use the buffer. -/
theorem Move.held (h : Move s mode rules fl fl') (held : ∀ i, fl.holder = some i → Using fl.seats i) :
    ∀ i, fl'.holder = some i → Using fl'.seats i := by
  intro i hi
  cases h with
  | begin chosen waits | enter chosen waits =>
    exact (held i hi).set chosen (fun hactive => by simp [waits] at hactive) _
  | lock chosen active asks locks =>
    cases hi
    exact ⟨_, _, _, chosen, active, asks, locks⟩
  | access => cases hi
  | exchange chosen active asks free =>
    refine (held i hi).set chosen (fun _ r next hrest hwaits => ?_) _
    cases asks.symm.trans hrest
    rw [free] at hwaits
    cases hwaits
  | submit chosen active asks =>
    refine ((held i hi).set chosen (fun _ r next hrest _ => ?_) _).append _
    cases asks.symm.trans hrest
    exact ⟨_, rfl⟩
  | finish chosen active done =>
    rw [Floor.release_holder] at hi
    rw [Floor.release_seats]
    refine (held i hi).set chosen (fun _ r next hrest _ => ?_) _
    cases done.symm.trans hrest
  | flush => exact (held i hi).append _

/-- One more exchange leads a job from where its exchanges led it. -/
theorem Seat.sound_exchange (hsound : (crew s mode).Sound seat.thread) {r : Request}
    {next : jobs.Answer r → Program jobs BatchResult} (asks : seat.thread.rest = .call (I := jobs) r next)
    (x : jobs.Answer r) : (crew s mode).Sound (seat.exchange ⟨r, x⟩ (next x)).thread := by
  have hfollows : Follows ((crew s mode).program seat.thread.job) seat.thread.trace
    (.call (I := jobs) r next) := asks ▸ hsound
  exact hfollows.concat x

/-- What holds of all jobs is kept by a step, if it is kept by the job that changes and holds of those that
are begun. -/
theorem Move.forall_seats {kept : Seat → Prop} (h : Move s mode rules fl fl')
    (hall : ∀ seat ∈ fl.seats, kept seat)
    (hbegin : ∀ seat, kept seat → kept { seat with stage := .active })
    (hfinish : ∀ seat r, kept seat → seat.thread.rest = .done r → kept { seat with stage := .ended })
    (hexchange : ∀ (seat : Seat) (r : Request) (next : jobs.Answer r → Program jobs BatchResult)
      (x : jobs.Answer r), kept seat → seat.stage = .active →
        seat.thread.rest = .call (I := jobs) r next → kept (seat.exchange ⟨r, x⟩ (next x)))
    (hbatch : ∀ items, kept ⟨(crew s mode).start (.batch items), .waiting⟩)
    (hflush : kept ⟨(crew s mode).start .flush, .active⟩) : ∀ seat ∈ fl'.seats, kept seat := by
  have hset : ∀ {i : Nat} {seat seat' : Seat}, fl.seats[i]? = some seat → (kept seat → kept seat') →
      ∀ other ∈ fl.seats.set i seat', kept other := by
    intro i seat seat' chosen hkept other hother
    rcases List.mem_or_eq_of_mem_set hother with hold | rfl
    · exact hall other hold
    · exact hkept (hall seat (List.mem_of_getElem? chosen))
  cases h with
  | begin chosen | enter chosen => exact hset chosen (hbegin _)
  | lock => exact hall
  | access chosen active asks | exchange chosen active asks =>
    exact hset chosen fun hkept => hexchange _ _ _ _ hkept active asks
  | submit chosen active asks =>
    refine List.forall_mem_append.2 ⟨?_, List.forall_mem_singleton.2 (hbatch _)⟩
    exact hset chosen fun hkept => hexchange _ _ _ _ hkept active asks
  | finish chosen active done =>
    rw [Floor.release_seats]
    exact hset chosen fun hkept => hfinish _ _ hkept done
  | flush => exact List.forall_mem_append.2 ⟨hall, List.forall_mem_singleton.2 hflush⟩

theorem Floor.balanced_start (s : Services) (mode : ScanMode) (listed : List String) (w : σ) :
    (Floor.start s mode listed w).Balanced s mode := by
  have hnone (p : Seat → Bool) (hp : ∀ path, p ⟨(crew s mode).start (.file path), .waiting⟩ = false) :
      (Floor.start s mode listed w).seats.countP p = 0 := by
    refine List.countP_eq_zero.2 fun seat hseat => ?_
    obtain ⟨path, -, rfl⟩ := List.mem_map.1 hseat
    simp [hp path]
  refine ⟨congrArg (_ + ·) (hnone _ fun _ => rfl), congrArg (_ + ·) (hnone _ fun _ => rfl),
    congrArg (_ + ·) (hnone _ fun _ => rfl), nofun, ?_, ?_, ?_⟩
  · intro seat hseat
    obtain ⟨path, -, rfl⟩ := List.mem_map.1 hseat
    exact .nil _
  · intro seat hseat _
    obtain ⟨path, -, rfl⟩ := List.mem_map.1 hseat
    trivial
  · intro seat hseat hended
    obtain ⟨path, -, rfl⟩ := List.mem_map.1 hseat
    cases hended

theorem Floor.Balanced.move (h : fl.Balanced s mode) (hmove : Move s mode rules fl fl') :
    fl'.Balanced s mode := by
  obtain ⟨hslots, hpending, hrunning⟩ := hmove.permits
  refine ⟨hslots.trans h.slots, hpending.trans h.pending, hrunning.trans h.running, hmove.held h.held,
    hmove.forall_seats h.sound (fun _ hsound => hsound) (fun _ _ hsound _ => hsound) ?_
      (fun _ => .nil _) (.nil _),
    hmove.forall_seats h.queued (fun _ _ => nofun) (fun _ _ _ _ => nofun) ?_ (fun _ _ => trivial) nofun,
    hmove.forall_seats h.done (fun _ _ => nofun) (fun _ r _ hdone _ => ⟨r, hdone⟩) ?_
      (fun _ => nofun) nofun⟩
  · exact fun seat r next x hsound _ asks => Seat.sound_exchange hsound asks x
  · exact fun _ _ _ _ _ hactive _ hwaits => absurd (hwaits.symm.trans hactive) nofun
  · exact fun _ _ _ _ _ hactive _ hended => absurd (hended.symm.trans hactive) nofun

theorem Floor.balanced_of_moves {listed : List String} {w : σ}
    (h : Relation.ReflTransGen (Move s mode rules) (Floor.start s mode listed w) fl) :
    fl.Balanced s mode := by
  induction h with
  | refl => exact balanced_start s mode listed w
  | tail _ hmove ih => exact ih.move hmove

/-! ## Some job can move -/

/-- A batch waits for nothing once it is worked through. -/
theorem never_waits_batch (items : List PendingBlock) :
    (Job.program s mode (.batch items)).Never fun r : Request => r.waits = true := by
  refine Program.never_of_follows fun trace r next h hwaits => ?_
  cases r with
  | action a => cases hwaits
  | shared c =>
    have hc : ∀ size, c ≠ .advance size := by
      rintro size rfl
      cases hwaits
    exact ((never_asks_batch hc).follows h).1 rfl

section
variable (answers : ∀ a w, ∃ x w', rules a w x w')

include answers

theorem exists_answer (threshold : Nat) (r : Request) (w : σ × ScanState) :
    ∃ x w', jobRules threshold rules r w x w' := by
  cases r with
  | action a =>
    obtain ⟨x, w', h⟩ := answers a w.1
    exact ⟨x, (w', w.2), h, rfl⟩
  | shared c => exact ⟨(c.serve threshold w.2).1, (w.1, (c.serve threshold w.2).2), rfl, rfl⟩

/-- A job that is about to do something that nothing has to be waited for can move. -/
theorem Floor.exists_move_of_free (chosen : fl.seats[i]? = some seat) (active : seat.stage = .active)
    (free : ∀ r next, seat.thread.rest = .call (I := jobs) r next → Request.waits r = false) :
    ∃ fl', Move s mode rules fl fl' := by
  cases hrest : seat.thread.rest with
  | done r => exact ⟨_, .finish chosen active hrest⟩
  | call r next =>
    obtain ⟨x, w, answer⟩ := exists_answer answers s.tuning.batchThreshold r fl.world
    exact ⟨_, .exchange chosen active hrest (free r next hrest) answer⟩

/-- A batch that is worked through can move. -/
theorem Floor.Balanced.exists_move_of_processes (h : fl.Balanced s mode) (hin : seat ∈ fl.seats)
    (hprocesses : seat.processes = true) : ∃ fl', Move s mode rules fl fl' := by
  obtain ⟨i, chosen⟩ := List.mem_iff_getElem?.1 hin
  have hsound := h.sound seat hin
  unfold Seat.processes at hprocesses
  split at hprocesses
  · rename_i items hjob hactive
    refine exists_move_of_free answers chosen hactive fun r next hrest => ?_
    rw [Crew.Sound, hjob, hrest] at hsound
    exact eq_false_of_ne_true ((never_waits_batch items).follows hsound).1
  · cases hprocesses

/-- If a batch may be submitted, every job that is active can move, or the one that it waits for can. -/
theorem Floor.Balanced.exists_move_of_active (h : fl.Balanced s mode) (hpending : 0 < fl.pending)
    (hin : seat ∈ fl.seats) (active : seat.stage = .active) : ∃ fl', Move s mode rules fl fl' := by
  obtain ⟨i, chosen⟩ := List.mem_iff_getElem?.1 hin
  by_cases hfree : ∀ r next, seat.thread.rest = .call (I := jobs) r next → Request.waits r = false
  · exact exists_move_of_free answers chosen active hfree
  simp only [Classical.not_forall, Bool.not_eq_false] at hfree
  obtain ⟨r, next, asks, hwaits⟩ := hfree
  have hlock : ∀ (c : Shared) (next : c.Answer → Program jobs BatchResult), c.locks = true →
      seat.thread.rest = .call (I := jobs) (.shared c) next → ∃ fl', Move s mode rules fl fl' := by
    intro c next locks asks
    cases hholder : fl.holder with
    | none => exact ⟨_, .lock chosen active asks locks hholder⟩
    | some j =>
      -- whoever holds the lock is about to use the buffer, and nothing keeps it from that
      obtain ⟨user, c, next, hj, huser, hasks, hlocks⟩ := h.held j hholder
      obtain ⟨x, w, answer⟩ := exists_answer answers s.tuning.batchThreshold (.shared c) fl.world
      exact ⟨_, .access hj huser hasks hlocks hholder answer⟩
  cases r with
  | action a => cases hwaits
  | shared c =>
    cases c with
    | submit batch =>
      exact ⟨_, .submit chosen active asks (Nat.succ_pred_eq_of_pos hpending).symm⟩
    | gather items => exact hlock (.gather items) next rfl asks
    | take => exact hlock .take next rfl asks
    | _ => cases hwaits

/-- As long as some job is not at its end, or the buffer has not been flushed, some job can move: a batch
that is worked through; if there is none, a batch that waits; if there is none either, a file that is
parsed, or the next one. -/
theorem Floor.Balanced.exists_move (h : fl.Balanced s mode)
    (hbusy : (∃ seat ∈ fl.seats, seat.stage ≠ .ended) ∨ fl.flushing = false) :
    ∃ fl', Move s mode rules fl fl' := by
  have hslots := h.slots
  have hpending := h.pending
  have hrunning := h.running
  simp only [CrewLimits.ofTuning] at hslots hpending hrunning
  by_cases hprocesses : ∃ seat ∈ fl.seats, seat.processes = true
  · obtain ⟨seat, hin, hprocesses⟩ := hprocesses
    exact h.exists_move_of_processes answers hin hprocesses
  have hprocessing : fl.processing = 0 :=
    List.countP_eq_zero.2 fun seat hin hp => hprocesses ⟨seat, hin, hp⟩
  by_cases hunfinished : ∃ seat ∈ fl.seats, seat.unfinished = true
  · obtain ⟨seat, hin, hun⟩ := hunfinished
    obtain ⟨i, chosen⟩ := List.mem_iff_getElem?.1 hin
    unfold Seat.unfinished at hun
    split at hun
    · rename_i items hjob hwaits
      exact ⟨_, .enter chosen hwaits hjob (Nat.succ_pred_eq_of_pos (by omega)).symm⟩
    · rename_i items hjob hactive
      exact absurd ⟨seat, hin, by rw [Seat.processes, hjob, hactive]⟩ hprocesses
    · cases hun
  have hnone : fl.unfinished = 0 :=
    List.countP_eq_zero.2 fun seat hin hp => hunfinished ⟨seat, hin, hp⟩
  by_cases hactive : ∃ seat ∈ fl.seats, seat.stage = .active
  · obtain ⟨seat, hin, hactive⟩ := hactive
    exact h.exists_move_of_active answers (by omega) hin hactive
  have hparsing : fl.parsing = 0 := by
    refine List.countP_eq_zero.2 fun seat hin hp => hactive ⟨seat, hin, ?_⟩
    unfold Seat.parses at hp
    split at hp
    · assumption
    · cases hp
  by_cases hwaiting : ∃ seat ∈ fl.seats, seat.stage = .waiting
  · obtain ⟨seat, hin, hwaits⟩ := hwaiting
    obtain ⟨i, chosen⟩ := List.mem_iff_getElem?.1 hin
    have hqueues := h.queued seat hin hwaits
    cases hjob : seat.thread.job with
    | file path => exact ⟨_, .begin chosen hwaits hjob (Nat.succ_pred_eq_of_pos (by omega)).symm⟩
    | batch items => exact absurd ⟨seat, hin, by rw [Seat.unfinished, hjob, hwaits]⟩ hunfinished
    | _ =>
      rw [hjob] at hqueues
      exact hqueues.elim
  have hended : ∀ seat ∈ fl.seats, seat.stage = .ended := by
    intro seat hin
    cases hstage : seat.stage with
    | waiting => exact absurd ⟨seat, hin, hstage⟩ hwaiting
    | active => exact absurd ⟨seat, hin, hstage⟩ hactive
    | ended => rfl
  rcases hbusy with ⟨seat, hin, hstage⟩ | hflushing
  · exact absurd (hended seat hin) hstage
  · exact ⟨_, .flush hflushing fun seat hin _ _ => hended seat hin⟩

/-- However the jobs of a scan take turns, whatever its limits: no more batches are unfinished, and no more
of them are worked through, than the settings allow; and as long as some file or some batch is not at
its end, or the buffer has not been flushed, some job can move. Requests are taken to be answered. -/
theorem Floor.never_stuck {listed : List String} {w : σ}
    (h : Relation.ReflTransGen (Move s mode rules) (Floor.start s mode listed w) fl) :
    fl.unfinished ≤ max s.tuning.maxPendingBatches 1 ∧ fl.processing ≤ max s.tuning.batchConcurrency 1 ∧
      ((∃ seat ∈ fl.seats, seat.stage ≠ .ended) ∨ fl.flushing = false →
        ∃ fl', Move s mode rules fl fl') := by
  have hbalanced := balanced_of_moves h
  have hpending := hbalanced.pending
  have hrunning := hbalanced.running
  simp only [CrewLimits.ofTuning] at hpending hrunning
  exact ⟨by omega, by omega, hbalanced.exists_move answers⟩

end

/-! ### A file that waits -/

/-- Let a job move, if it can; requests are answered by a handler. -/
def Floor.turn (s : Services) (mode : ScanMode) (handle : Handler indexing σ) (fl : Floor σ) (i : Nat) :
    Floor σ :=
  match fl.seats[i]? with
  | none => fl
  | some seat =>
    match seat.stage, seat.thread.job, seat.thread.rest with
    | .ended, _, _ => fl
    | .waiting, .file _, _ =>
      match fl.slots with
      | 0 => fl
      | slots + 1 => { fl.put i { seat with stage := .active } with slots }
    | .waiting, .batch _, _ =>
      match fl.running with
      | 0 => fl
      | running + 1 => { fl.put i { seat with stage := .active } with running }
    | .waiting, _, _ => fl
    | .active, job, .done _ => (fl.put i { seat with stage := .ended }).release job
    | .active, _, .call (.shared (.submit batch)) next =>
      match fl.pending with
      | 0 => fl
      | pending + 1 => { (fl.put i (seat.exchange ⟨.shared (.submit batch), ()⟩ (next ()))).add
          ⟨(crew s mode).start (.batch batch), .waiting⟩ with pending }
    | .active, _, .call r next =>
      let answered := answerJobs s.tuning.batchThreshold handle r fl.world
      let further := fl.put i (seat.exchange ⟨r, answered.1⟩ (next answered.1))
      if r.waits then
        match fl.holder with
        | none => { fl with holder := some i }
        | some j => if j = i then { further with holder := none, world := answered.2 } else fl
      else { further with world := answered.2 }

/-- A turn is a step, or nothing happens. -/
theorem Floor.moves_turn {handle : Handler indexing σ}
    (follows : ∀ a w, rules a w (handle a w).1 (handle a w).2) (fl : Floor σ) (i : Nat) :
    Relation.ReflTransGen (Move s mode rules) fl (fl.turn s mode handle i) := by
  unfold turn
  split
  · exact .refl
  rename_i seat chosen
  split
  · exact .refl
  · split
    · exact .refl
    · rename_i hstage hjob _ _ hfree
      exact .single (.begin chosen hstage hjob hfree)
  · split
    · exact .refl
    · rename_i hstage hjob _ _ hfree
      exact .single (.enter chosen hstage hjob hfree)
  · exact .refl
  · rename_i hstage hrest
    exact .single (.finish chosen hstage hrest)
  · split
    · exact .refl
    · rename_i hstage hrest _ _ hfree
      exact .single (.submit chosen hstage hrest hfree)
  · rename_i r next hother hstage hrest
    have answer : jobRules s.tuning.batchThreshold rules r fl.world _ _ :=
      jobRules_answerJobs follows r fl.world
    dsimp only
    split
    · rename_i hwaits
      cases r with
      | action a => cases hwaits
      | shared c =>
        have hlocks : c.locks = true := by
          cases c with
          | submit batch => exact (hother batch next rfl .rfl).elim
          | _ => exact hwaits
        split
        · rename_i hfree
          exact .single (.lock chosen hstage hrest hlocks hfree)
        · rename_i j hholder
          split
          · rename_i hj
            subst hj
            exact .single (.access chosen hstage hrest hlocks hholder answer)
          · exact .refl
    · rename_i hfree
      exact .single (.exchange chosen hstage hrest (eq_false_of_ne_true hfree) answer)

theorem Floor.moves_turns {handle : Handler indexing σ}
    (follows : ∀ a w, rules a w (handle a w).1 (handle a w).2) (turns : List Nat) (fl : Floor σ) :
    Relation.ReflTransGen (Move s mode rules) fl (turns.foldl (Floor.turn s mode handle) fl) := by
  induction turns generalizing fl with
  | nil => exact .refl
  | cons i turns ih => exact (moves_turn follows fl i).trans (ih _)

/-- The small workspace, with a batch for each file and no more than one batch at a time. -/
def narrow : Services :=
  { ConcurrentScan.eager with
    tuning := { ConcurrentScan.eager.tuning with maxPendingBatches := 0, batchConcurrency := 0 } }

/-- The first file has submitted its batch, which is worked through; the second file waits to submit its own. -/
def crowded : Floor Hashes :=
  (List.replicate 9 0 ++ List.replicate 8 1 ++ [2]).foldl
    (Floor.turn narrow { tell := Lifecycle.showScan } ConcurrentScan.answerEager)
    (Floor.start narrow { tell := Lifecycle.showScan } ["/w/a.rs", "/w/b.rs"] [])

/-- When a file waits because there are too many batches, the batch moves. -/
theorem Floor.never_stuck_crowded :
    Relation.ReflTransGen (Move narrow { tell := Lifecycle.showScan } ledger)
        (Floor.start narrow { tell := Lifecycle.showScan } ["/w/a.rs", "/w/b.rs"] []) crowded ∧
      (crowded.seats[1]?.bind (·.thread.rest.upcoming)).map Request.waits = some true ∧
      crowded.pending = 0 ∧ crowded.unfinished = 1 ∧ crowded.unfinished ≤ 1 ∧ crowded.processing ≤ 1 ∧
      ∃ fl', Move narrow { tell := Lifecycle.showScan } ledger crowded fl' := by
  have hmoves : Relation.ReflTransGen (Move narrow { tell := Lifecycle.showScan } ledger)
      (Floor.start narrow { tell := Lifecycle.showScan } ["/w/a.rs", "/w/b.rs"] []) crowded :=
    Floor.moves_turns ConcurrentScan.ledger_answerEager _ _
  obtain ⟨hunfinished, hprocessing, hmove⟩ := Floor.never_stuck
    (fun a w => ⟨_, _, ConcurrentScan.ledger_answerEager a w⟩) hmoves
  exact ⟨hmoves, by decide +kernel, by decide +kernel, by decide +kernel, hunfinished, hprocessing,
    hmove (Or.inr (by decide +kernel))⟩

/-! ## Runs of the crew -/

/-- The jobs of a floor as those of a crew. -/
def Floor.threads (fl : Floor σ) : List (Thread jobs Job BatchResult) :=
  fl.seats.map (·.thread)

theorem Floor.threads_put (fl : Floor σ) (i : Nat) (seat : Seat) :
    (fl.put i seat).threads = fl.threads.set i seat.thread :=
  List.map_set ..

theorem Floor.threads_add (fl : Floor σ) (seat : Seat) :
    (fl.add seat).threads = fl.threads ++ [seat.thread] :=
  List.map_append

theorem Floor.getElem?_threads (chosen : fl.seats[i]? = some seat) : fl.threads[i]? = some seat.thread := by
  rw [threads, List.getElem?_map, chosen]
  rfl

/-- A job that only gets further in its waiting exchanges nothing. -/
theorem Floor.threads_put_stage (chosen : fl.seats[i]? = some seat) (stage : Stage) :
    (fl.put i { seat with stage }).threads = fl.threads := by
  obtain ⟨hlt, heq⟩ := List.getElem?_eq_some_iff.1 (getElem?_threads chosen)
  rw [threads_put, ← heq, List.set_getElem_self]

@[simp] theorem Floor.release_threads (fl : Floor σ) (job : Job) : (fl.release job).threads = fl.threads := by
  cases job <;> rfl

@[simp] theorem Floor.release_world (fl : Floor σ) (job : Job) : (fl.release job).world = fl.world := by
  cases job <;> rfl

@[simp] theorem Floor.release_flushing (fl : Floor σ) (job : Job) :
    (fl.release job).flushing = fl.flushing := by
  cases job <;> rfl

/-- Only submitting a batch begins a job. -/
theorem spawns_of_ne_submit {r : Request} (h : ∀ batch, r ≠ .shared (.submit batch)) :
    (crew s mode).spawns r = [] := by
  cases r with
  | action a => rfl
  | shared c =>
    cases c with
    | submit batch => exact absurd rfl (h batch)
    | _ => rfl

/-- An answer that the job of a seat gets is a turn of the crew. -/
theorem Floor.runs_exchange (mode : ScanMode) {r : Request} {next : jobs.Answer r → Program jobs BatchResult}
    {x : jobs.Answer r} {world : σ × ScanState} (chosen : fl.seats[i]? = some seat)
    (asks : seat.thread.rest = .call (I := jobs) r next)
    (answer : jobRules s.tuning.batchThreshold rules r fl.world x world) :
    Crew.Runs (jobRules s.tuning.batchThreshold rules) (crew s mode) fl.threads fl.world [(i, ⟨r, x⟩)]
      ((fl.put i (seat.exchange ⟨r, x⟩ (next x))).threads ++
        ((crew s mode).spawns r).map (crew s mode).start) world := by
  rw [Floor.threads_put]
  exact .turn (Floor.getElem?_threads chosen) asks answer (.stop _ _)

/-- A step is one of the crew, or none at all, or it begins the flush when all files are done. -/
theorem Move.runs (h : Move s mode rules fl fl') :
    (fl'.flushing = fl.flushing ∧ ∃ more, Crew.Runs (jobRules s.tuning.batchThreshold rules)
      (crew s mode) fl.threads fl.world more fl'.threads fl'.world) ∨
    (fl.flushing = false ∧ fl'.flushing = true ∧ fl'.world = fl.world ∧
      fl'.threads = fl.threads ++ [(crew s mode).start .flush] ∧
      ∀ seat ∈ fl.seats, ∀ path, seat.thread.job = .file path → seat.stage = .ended) := by
  cases h with
  | begin chosen | enter chosen =>
    refine Or.inl ⟨rfl, [], ?_⟩
    have hsame := Floor.threads_put_stage chosen .active
    exact hsame.symm ▸ .stop _ _
  | lock => exact Or.inl ⟨rfl, [], .stop _ _⟩
  | access chosen _ asks locks _ answer =>
    have hrun := Floor.runs_exchange mode chosen asks answer
    rw [spawns_of_ne_submit (by rintro batch ⟨⟩; cases locks), List.map_nil, List.append_nil] at hrun
    exact Or.inl ⟨rfl, _, hrun⟩
  | exchange chosen _ asks free answer =>
    have hrun := Floor.runs_exchange mode chosen asks answer
    rw [spawns_of_ne_submit (by rintro batch rfl; cases free), List.map_nil, List.append_nil] at hrun
    exact Or.inl ⟨rfl, _, hrun⟩
  | @submit i pending seat batch next chosen active asks free =>
    have hanswer : jobRules s.tuning.batchThreshold rules (.shared (.submit batch)) fl.world () fl.world :=
      ⟨rfl, rfl⟩
    have hrun := Floor.runs_exchange mode chosen asks hanswer
    have hthreads := Floor.threads_add (fl.put i (seat.exchange ⟨.shared (.submit batch), ()⟩ (next ())))
      ⟨(crew s mode).start (.batch batch), .waiting⟩
    exact Or.inl ⟨rfl, _, hthreads.symm ▸ hrun⟩
  | finish chosen =>
    refine Or.inl ⟨Floor.release_flushing _ _, [], ?_⟩
    rw [Floor.release_threads, Floor.release_world, Floor.threads_put_stage chosen]
    exact .stop _ _
  | flush first files => exact Or.inr ⟨first, rfl, rfl, Floor.threads_add .., files⟩

/-- The jobs are where a run of the crew has come to, which works on the files to their ends before it
flushes the buffer. -/
def Floor.Runs (s : Services) (mode : ScanMode) (rules : Rules indexing σ) (listed : List String) (w : σ)
    (fl : Floor σ) : Prop :=
  ∃ working worked halfway, Crew.Runs (jobRules s.tuning.batchThreshold rules) (crew s mode)
      (listed.map fun path => (crew s mode).start (.file path)) (w, {}) working worked halfway ∧
    ((fl.flushing = false ∧ fl.threads = worked ∧ fl.world = halfway) ∨
      (fl.flushing = true ∧ (∀ i < listed.length, ∃ t r, worked[i]? = some t ∧ t.rest = .done r) ∧
        ∃ ending, Crew.Runs (jobRules s.tuning.batchThreshold rules) (crew s mode)
          (worked ++ [(crew s mode).start .flush]) halfway ending fl.threads fl.world))

/-- The limits only leave runs out: wherever the jobs of a scan come under them, they come without them. -/
theorem Floor.runs_of_moves {listed : List String} {w : σ}
    (h : Relation.ReflTransGen (Move s mode rules) (Floor.start s mode listed w) fl) :
    fl.Runs s mode rules listed w := by
  induction h with
  | refl =>
    refine ⟨[], _, _, .stop _ _, Or.inl ⟨rfl, ?_, rfl⟩⟩
    exact List.map_map
  | @tail fl fl' hmoves hmove ih =>
    obtain ⟨working, worked, halfway, hworks, hends⟩ := ih
    rcases hmove.runs with ⟨hflushing, more, hmore⟩ | ⟨hfirst, hflushing, hworld, hthreads, hended⟩
    · rcases hends with ⟨hfirst, rfl, rfl⟩ | ⟨hsecond, hdone, ending, hends⟩
      · exact ⟨_, _, _, hworks.trans hmore, Or.inl ⟨hflushing.trans hfirst, rfl, rfl⟩⟩
      · exact ⟨_, _, _, hworks, Or.inr ⟨hflushing.trans hsecond, hdone, _, hends.trans hmore⟩⟩
    · rcases hends with ⟨-, rfl, rfl⟩ | ⟨hsecond, -⟩
      · refine ⟨_, _, _, hworks, Or.inr ⟨hflushing, fun i hi => ?_, [], ?_⟩⟩
        · -- the first jobs are the files, and they are done
          have hjob := congrArg (·[i]?) hworks.map_job
          rw [List.map_map] at hjob
          simp only at hjob
          rw [List.getElem?_append_left (by simpa using hi), List.getElem?_map, List.getElem?_map,
            List.getElem?_eq_getElem hi] at hjob
          obtain ⟨t, ht, hfile⟩ := Option.map_eq_some_iff.1 hjob
          rw [threads, List.getElem?_map] at ht
          obtain ⟨seat, chosen, rfl⟩ := Option.map_eq_some_iff.1 ht
          obtain ⟨r, hr⟩ := (balanced_of_moves hmoves).done seat (List.mem_of_getElem? chosen)
            (hended seat (List.mem_of_getElem? chosen) _ hfile)
          exact ⟨seat.thread, r, getElem?_threads chosen, hr⟩
        · rw [hthreads, hworld]
          exact .stop _ _
      · rw [hfirst] at hsecond
        cases hsecond

end Scan

end SourceIndex
