import Mathlib.Data.List.Induction
import SourceIndex.Proofs.Cache.Persistence
/-!
# What is lost when writing is refused

`CacheEvent`s are what is done to a cache and what becomes of the disk besides, so that writing may be refused
at one time and work again at another. Whoever writes takes back that hashes wait to be written, whether or
not they come into the file. So hashes that differ from those in the file wait to be written unless a write of
them was refused and nothing was changed, loaded or written since (`HashCache.lost_iff_refused`).
-/

namespace SourceIndex

/-- What happens to a cache on a disk that is not its own. -/
inductive CacheEvent where
  | operation (op : CacheOperation)
  /-- Something else leaves this disk behind. -/
  | outside (disk : Disk)

/-- What is held and what waits makes no difference to writing. -/
theorem HashCache.writeHashes_with (c : HashCache) (held : Hashes) (due : Option Nat) :
    HashCache.writeHashes { c with hashes := held, due } = c.writeHashes := by
  funext hashes disk
  simp only [writeHashes, draftFile]

namespace CacheSession

/-- What an event makes of a session. -/
def meet (s : CacheSession) : CacheEvent → CacheSession
  | .operation op => s.apply op
  | .outside disk => { s with disk }

def live (s : CacheSession) (events : List CacheEvent) : CacheSession :=
  events.foldl meet s

/-- The hashes in the cache file. -/
def found (s : CacheSession) : Hashes :=
  HashCache.readHashes s.cache.file s.disk

/-- Only the cache itself changes the hashes in its file. -/
def Spares (s : CacheSession) : CacheEvent → Prop
  | .operation _ => True
  | .outside disk => HashCache.readHashes s.cache.file disk = s.found

def AllSpared (s : CacheSession) : List CacheEvent → Prop
  | [] => True
  | event :: events => s.Spares event ∧ (s.meet event).AllSpared events

/-- The hashes are not those in the file, and they do not wait to be written. -/
def Lost (s : CacheSession) : Prop :=
  s.cache.due = none ∧ s.found ≠ s.cache.hashes

/-- Behind an event it does not matter what was lost before: hashes were changed, loaded or written, or a
write of them was refused. -/
def settles (s : CacheSession) : CacheEvent → Bool
  | .operation (.record _ _) | .operation .load => true
  | .operation (.forget paths) => paths.any s.cache.hashes.contains
  | .operation op => (s.written? op).isSome
  | .outside _ => false

/-- Hashes are to be written that are not those in the file, and they do not come into it. -/
def Refuses (s : CacheSession) : CacheEvent → Prop
  | .operation op => ∃ hashes ∈ s.written? op,
      hashes ≠ s.found ∧ (s.cache.writeHashes hashes s.disk).toBool = false
  | .outside _ => False

/-- No event settles anything. -/
def Unsettled (s : CacheSession) : List CacheEvent → Prop
  | [] => True
  | event :: events => s.settles event = false ∧ (s.meet event).Unsettled events

/-- The last event that settles anything is a refused write. -/
def EndsRefused (s : CacheSession) (events : List CacheEvent) : Prop :=
  ∃ front event back, events = front ++ event :: back ∧
    (s.live front).Refuses event ∧ (s.live (front ++ [event])).Unsettled back

/-- What every session keeps, whether or not its writes succeed. -/
structure Sound (root dir : String) (debounce : Nat) (s : CacheSession) : Prop where
  file : s.cache.file = cacheFile root dir
  delay : s.cache.debounce = debounce
  distinct : (s.cache.hashes.map (·.1)).Nodup
  due : ∀ t, s.cache.due = some t → t ≤ s.now + debounce

variable {root dir : String} {debounce now : Nat} {disk healed : Disk} {s : CacheSession}
  {event : CacheEvent} {events more : List CacheEvent} {hashes : Hashes}

@[simp] theorem live_nil : s.live [] = s := rfl

theorem live_append : s.live (events ++ more) = (s.live events).live more :=
  List.foldl_append

theorem live_concat : s.live (events ++ [event]) = (s.live events).meet event :=
  live_append

theorem allSpared_append :
    s.AllSpared (events ++ more) ↔ s.AllSpared events ∧ (s.live events).AllSpared more := by
  induction events generalizing s with
  | nil => simp [AllSpared]
  | cons event events ih =>
    rw [List.cons_append, AllSpared, AllSpared, ih, and_assoc]
    rfl

/-! ## Single events -/

/-- If the time to write comes while time goes by, the hashes are written at the end. -/
theorem meet_wait_of_late {duration : Nat} (h : s.cache.due.any (· < s.now + duration) = true) :
    s.meet (.operation (.wait duration)) =
      { s with
        cache := { s.cache with due := none }
        disk := (s.cache.save s.cache.hashes s.disk).2
        now := s.now + duration } := by
  rw [meet, apply, HashCache.tick]
  cases hdue : s.cache.due with
  | none => simp [hdue] at h
  | some t =>
    rw [hdue, Option.any_some, decide_eq_true_eq] at h
    simp only [h, if_true]

/-- Otherwise nothing but the time changes. -/
theorem meet_wait_of_early {duration : Nat} (h : ¬ s.cache.due.any (· < s.now + duration) = true) :
    s.meet (.operation (.wait duration)) = { s with now := s.now + duration } := by
  rw [meet, apply, HashCache.tick]
  cases hdue : s.cache.due with
  | none => rfl
  | some t =>
    rw [hdue, Option.any_some, decide_eq_true_eq] at h
    simp only [h, if_false]

theorem sound_load {c : HashCache} (hfile : c.file = cacheFile root dir) (hdelay : c.debounce = debounce)
    (hdue : c.due = none) : Sound root dir debounce { cache := c.load disk, disk, now } where
  file := hfile
  delay := hdelay
  distinct := HashCache.nodup_readHashes
  due := fun t ht => by cases hdue.symm.trans ht

/-- Hashes that have changed wait to be written. -/
theorem Sound.change (h : Sound root dir debounce s) (hnodup : (hashes.map (·.1)).Nodup) :
    Sound root dir debounce
      { s with cache := { s.cache with hashes }.schedule s.now, changed := some s.now } where
  file := h.file
  delay := h.delay
  distinct := hnodup
  due := by
    rintro t ⟨⟩
    rw [← h.delay]

/-- Behind a write nothing waits, however it ended. -/
theorem Sound.attempt (h : Sound root dir debounce s) (hnodup : (hashes.map (·.1)).Nodup) :
    Sound root dir debounce { s with cache := { s.cache with hashes, due := none }, disk, now } where
  file := h.file
  delay := h.delay
  distinct := hnodup
  due := nofun

theorem Sound.meet (h : Sound root dir debounce s) (event : CacheEvent) :
    Sound root dir debounce (s.meet event) := by
  cases event with
  | outside disk => exact ⟨h.file, h.delay, h.distinct, h.due⟩
  | operation op =>
    cases op with
    | record path hash => exact h.change (Hashes.nodup_put h.distinct)
    | forget paths =>
      rw [CacheSession.meet, apply, HashCache.forget]
      split_ifs
      · exact h.change (Hashes.nodup_foldl_erase h.distinct)
      · exact h
    | clear => exact h.attempt List.nodup_nil
    | flush => exact h.attempt h.distinct
    | load => exact ⟨h.file, h.delay, HashCache.nodup_readHashes, h.due⟩
    | wait duration =>
      by_cases hlate : s.cache.due.any (· < s.now + duration) = true
      · rw [meet_wait_of_late hlate]
        exact h.attempt h.distinct
      · rw [meet_wait_of_early hlate]
        refine ⟨h.file, h.delay, h.distinct, fun t ht => ?_⟩
        have hearlier := h.due t ht
        change t ≤ s.now + duration + debounce
        omega

theorem Sound.live (h : Sound root dir debounce s) (events : List CacheEvent) :
    Sound root dir debounce (s.live events) := by
  induction events generalizing s with
  | nil => exact h
  | cons event events ih => exact ih (h.meet event)

/-- Hashes that wait to be written are not lost. -/
theorem not_lost_of_due {t : Nat} (h : s.cache.due = some t) : ¬ s.Lost := by
  rintro ⟨hnone, -⟩
  cases h.symm.trans hnone

/-- Behind a write exactly those hashes are lost that were not in the file and did not come into it. -/
theorem lost_attempt (hfile : s.cache.file = cacheFile root dir) (hnodup : (hashes.map (·.1)).Nodup) :
    ({ s with
        cache := { s.cache with hashes, due := none }
        disk := (s.cache.save hashes s.disk).2, now } : CacheSession).Lost ↔
      hashes ≠ s.found ∧ (s.cache.writeHashes hashes s.disk).toBool = false := by
  unfold Lost found HashCache.save
  cases hwrite : s.cache.writeHashes hashes s.disk with
  | error e => simp [Except.toBool, ne_comm]
  | ok after =>
    have hread := HashCache.readHashes_of_writeHashes hfile hnodup hwrite
    simp [Except.toBool, hread]

/-- Nothing is lost when the hashes were just loaded. -/
theorem not_lost_load {c : HashCache} : ¬ CacheSession.Lost { cache := c.load disk, disk, now } :=
  fun hlost => hlost.2 rfl

/-- Waiting changes no hashes. -/
theorem hashes_meet_wait (s : CacheSession) (duration : Nat) :
    (s.meet (.operation (.wait duration))).cache.hashes = s.cache.hashes := by
  by_cases hlate : s.cache.due.any (· < s.now + duration) = true
  · rw [meet_wait_of_late hlate]
  · rw [meet_wait_of_early hlate]

/-- What is lost behind an event: what it was refused to write, or what was lost before, if the event settles
nothing. -/
theorem lost_meet (h : Sound root dir debounce s) (spares : s.Spares event) :
    (s.meet event).Lost ↔ s.Refuses event ∨ s.settles event = false ∧ s.Lost := by
  cases event with
  | outside disk =>
    have hfound : (s.meet (.outside disk)).found = s.found := spares
    simp only [Lost, hfound, Refuses, settles, false_or, true_and]
    rfl
  | operation op =>
    cases op with
    | record path hash =>
      have hwaits : ¬ (s.meet (.operation (.record path hash))).Lost := not_lost_of_due rfl
      simp [hwaits, Refuses, settles, written?]
    | forget paths =>
      by_cases hany : paths.any s.cache.hashes.contains = true
      · have hwaits : ¬ (s.meet (.operation (.forget paths))).Lost := by
          rw [meet, apply, HashCache.forget, if_pos hany]
          exact not_lost_of_due rfl
        simp [hwaits, Refuses, settles, written?, hany]
      · have hsame : (s.meet (.operation (.forget paths))).Lost ↔ s.Lost := by
          rw [meet, apply, HashCache.forget, if_neg hany]
          rfl
        rw [hsame]
        simp only [Refuses, settles, written?, hany]
        simp
    | clear =>
      have hnodup : (([] : Hashes).map (·.1)).Nodup := List.nodup_nil
      refine (lost_attempt h.file hnodup).trans ?_
      simp [Refuses, settles, written?]
    | flush =>
      refine (lost_attempt h.file h.distinct).trans ?_
      simp [Refuses, settles, written?]
    | load =>
      have hread : ¬ (s.meet (.operation .load)).Lost := fun hlost => hlost.2 rfl
      simp [hread, Refuses, settles, written?]
    | wait duration =>
      by_cases hlate : s.cache.due.any (· < s.now + duration) = true
      · rw [meet_wait_of_late hlate, lost_attempt h.file h.distinct]
        simp [Refuses, settles, written?, hlate]
      · have hsame : (s.meet (.operation (.wait duration))).Lost ↔ s.Lost := by
          rw [meet_wait_of_early hlate]
          rfl
        rw [hsame]
        simp [Refuses, settles, written?, hlate]

/-! ## Sessions -/

theorem unsettled_concat : s.Unsettled (events ++ [event]) ↔
    s.Unsettled events ∧ (s.live events).settles event = false := by
  induction events generalizing s with
  | nil => simp [Unsettled]
  | cons first events ih =>
    rw [List.cons_append, Unsettled, Unsettled, ih, and_assoc]
    rfl

/-- Behind one more event a refused write comes last if it is that event, or if it came last before and the
event settles nothing. -/
theorem endsRefused_concat : s.EndsRefused (events ++ [event]) ↔
    (s.live events).Refuses event ∨ (s.live events).settles event = false ∧ s.EndsRefused events := by
  constructor
  · rintro ⟨front, refused, back, heq, hrefused, hback⟩
    cases back using List.reverseRecOn with
    | nil =>
      obtain ⟨rfl, hsame⟩ := List.append_inj' heq rfl
      cases hsame
      exact .inl hrefused
    | append_singleton back last =>
      rw [← List.cons_append, ← List.append_assoc] at heq
      obtain ⟨rfl, hsame⟩ := List.append_inj' heq rfl
      cases hsame
      obtain ⟨hback, hlast⟩ := unsettled_concat.1 hback
      rw [← live_append, List.append_assoc] at hlast
      exact .inr ⟨hlast, front, refused, back, rfl, hrefused, hback⟩
  · rintro (hrefused | ⟨hlast, front, refused, back, rfl, hrefused, hback⟩)
    · exact ⟨events, event, [], rfl, hrefused, trivial⟩
    · refine ⟨front, refused, back ++ [event], by simp, hrefused, unsettled_concat.2 ⟨hback, ?_⟩⟩
      rwa [← live_append, List.append_assoc]

/-- Exactly if a refused write comes last the hashes are lost. -/
theorem lost_live_iff (h : Sound root dir debounce s) (hstored : ¬ s.Lost) (spared : s.AllSpared events) :
    (s.live events).Lost ↔ s.EndsRefused events := by
  induction events using List.reverseRecOn with
  | nil =>
    have hnone : ¬ s.EndsRefused [] := by
      rintro ⟨front, event, back, heq, -⟩
      simp at heq
    exact iff_of_false hstored hnone
  | append_singleton events event ih =>
    obtain ⟨hbefore, hspares, -⟩ := allSpared_append.1 spared
    rw [live_concat, lost_meet (h.live events) hspares, ih hbefore, endsRefused_concat]

/-- When writing works again and time has gone by, exactly those hashes are in the file that were not lost. -/
theorem found_later_iff (h : Sound root dir debounce s) (hspares : s.Spares (.outside healed))
    (hwrites : (s.cache.writeHashes s.cache.hashes healed).toBool = true) {duration : Nat}
    (hlong : debounce < duration) :
    (s.live [.outside healed, .operation (.wait duration)]).found = s.cache.hashes ↔ ¬ s.Lost := by
  change ((s.meet (.outside healed)).meet (.operation (.wait duration))).found = s.cache.hashes ↔ _
  cases hdue : s.cache.due with
  | none =>
    have hearly : ¬ (s.meet (.outside healed)).cache.due.any
        (· < (s.meet (.outside healed)).now + duration) = true := by
      change ¬ s.cache.due.any _ = true
      simp [hdue]
    rw [meet_wait_of_early hearly]
    change HashCache.readHashes s.cache.file healed = s.cache.hashes ↔ ¬ (s.cache.due = none ∧ _)
    rw [show HashCache.readHashes s.cache.file healed = s.found from hspares]
    simp [hdue]
  | some t =>
    have hlate : (s.meet (.outside healed)).cache.due.any
        (· < (s.meet (.outside healed)).now + duration) = true := by
      have ht := h.due t hdue
      change s.cache.due.any (· < s.now + duration) = true
      rw [hdue, Option.any_some, decide_eq_true_eq]
      omega
    obtain ⟨after, hafter⟩ : ∃ after, s.cache.writeHashes s.cache.hashes healed = .ok after := by
      cases hwrite : s.cache.writeHashes s.cache.hashes healed with
      | error e => simp [hwrite, Except.toBool] at hwrites
      | ok after => exact ⟨after, rfl⟩
    rw [meet_wait_of_late hlate]
    change HashCache.readHashes s.cache.file (s.cache.save s.cache.hashes healed).2 = s.cache.hashes ↔ _
    rw [HashCache.save_of_writeHashes hafter]
    have hread := HashCache.readHashes_of_writeHashes h.file h.distinct hafter
    exact iff_of_true hread (not_lost_of_due hdue)

/-! ## A flush that is refused -/

/-- A hash whose flush is refused stays in memory and waits no more. -/
theorem live_refused {c : HashCache} {path hash : String} (hread : HashCache.readHashes c.file disk = [])
    (hrefused : (c.writeHashes [(path, hash)] disk).toBool = false) :
    live { cache := c.load disk, disk, now } [.operation (.record path hash), .operation .flush] =
      { cache := { c with hashes := [(path, hash)], due := none }, disk, now, changed := some now } := by
  obtain ⟨e, he⟩ : ∃ e, c.writeHashes [(path, hash)] disk = .error e := by
    cases hwrite : c.writeHashes [(path, hash)] disk with
    | error e => exact ⟨e, rfl⟩
    | ok after => simp [hwrite, Except.toBool] at hrefused
  have hsave : HashCache.save { c with hashes := [(path, hash)], due := some (now + c.debounce) }
      [(path, hash)] disk = (.error (.io e), disk) := by
    rw [HashCache.save, HashCache.writeHashes_with, he]
  simp only [live, List.foldl_cons, List.foldl_nil, meet, apply, HashCache.record, HashCache.load, hread,
    HashCache.schedule, HashCache.flush, Hashes.put, List.any_nil, Bool.false_eq_true, if_false,
    List.nil_append, hsave]

/-- When the hash is entered again, it waits to be written again. -/
theorem waits_of_refused (now : Nat) {c : HashCache} {path hash : String}
    (hread : HashCache.readHashes c.file disk = [])
    (hrefused : (c.writeHashes [(path, hash)] disk).toBool = false)
    (hworks : (c.writeHashes [(path, hash)] {}).toBool = true) :
    let s := live { cache := c.load disk, disk, now }
      [.operation (.record path hash), .operation .flush, .operation (.record path hash)]
    s.cache.hashes = [(path, hash)] ∧ s.Spares (.outside {}) ∧
      (s.cache.writeHashes s.cache.hashes {}).toBool = true ∧ ¬ s.Lost := by
  intro s
  have hs : s = {
      cache := { c with hashes := [(path, hash)], due := some (now + c.debounce) }
      disk, now, changed := some now } := by
    change (live { cache := c.load disk, disk, now }
      [.operation (.record path hash), .operation .flush]).meet (.operation (.record path hash)) = _
    rw [live_refused hread hrefused]
    simp [meet, apply, HashCache.record, HashCache.schedule, Hashes.put]
  rw [hs, HashCache.writeHashes_with]
  exact ⟨rfl, HashCache.readHashes_empty.trans hread.symm, hworks, not_lost_of_due rfl⟩

/-- A disk with a file in the place of the directory of the cache file. -/
def blocked : Disk where
  tree := .dir [("c", .file ByteArray.empty)]

/-- Nothing is read from such a disk, and nothing is written to it that could be written to an empty one. -/
theorem blocked_refuses :
    HashCache.readHashes (HashCache.new "/w" "/c" 100).file blocked = [] ∧
      ((HashCache.new "/w" "/c" 100).writeHashes [("a", "1")] blocked).toBool = false ∧
      ((HashCache.new "/w" "/c" 100).writeHashes [("a", "1")] {}).toBool = true := by
  decide +kernel

end CacheSession

/-- Hashes that differ from those in the file wait to be written, unless a write of them was refused and
nothing was changed, loaded or written since. When writing works again and more than one debounce goes by
without a change, a new cache finds exactly the hashes that this one holds, unless they were lost in this
way. -/
theorem HashCache.lost_iff_refused (root dir : String) (debounce now : Nat) (disk : Disk)
    (events : List CacheEvent)
    (spared : (CacheSession.start root dir debounce now disk).AllSpared events) :
    let start := CacheSession.start root dir debounce now disk
    let s := start.live events
    (s.Lost ↔ start.EndsRefused events) ∧
    ∀ healed duration, s.Spares (.outside healed) →
      (s.cache.writeHashes s.cache.hashes healed).toBool → debounce < duration →
      let later := s.live [.outside healed, .operation (.wait duration)]
      later.cache.hashes = s.cache.hashes ∧
        (((HashCache.new root dir debounce).load later.disk).hashes = s.cache.hashes ↔ ¬ s.Lost) := by
  intro start s
  have hstart : CacheSession.Sound root dir debounce start :=
    CacheSession.sound_load (HashCache.file_new debounce) rfl rfl
  have hs : CacheSession.Sound root dir debounce s := hstart.live events
  refine ⟨CacheSession.lost_live_iff hstart CacheSession.not_lost_load spared, ?_⟩
  clear_value s
  intro healed duration hspares hwrites hlong later
  refine ⟨(s.meet (.outside healed)).hashes_meet_wait duration, ?_⟩
  have hlater : CacheSession.Sound root dir debounce later := hs.live _
  rw [hashes_load, file_new, ← hlater.file]
  exact CacheSession.found_later_iff hs hspares hwrites hlong

/-- Behind a refused flush the hash is found again if it is entered once more. -/
theorem HashCache.lost_iff_refused_repaired :
    let events : List CacheEvent :=
      [.operation (.record "a" "1"), .operation .flush, .operation (.record "a" "1")]
    let start := CacheSession.start "/w" "/c" 100 0 CacheSession.blocked
    let later := (start.live events).live [.outside {}, .operation (.wait 101)]
    start.AllSpared events ∧
      ((HashCache.new "/w" "/c" 100).load later.disk).hashes = [("a", "1")] := by
  dsimp only
  have hspared : (CacheSession.start "/w" "/c" 100 0 CacheSession.blocked).AllSpared
      [.operation (.record "a" "1"), .operation .flush, .operation (.record "a" "1")] :=
    ⟨trivial, trivial, trivial, trivial⟩
  obtain ⟨hread, hrefused, hworks⟩ := CacheSession.blocked_refuses
  obtain ⟨hhashes, hspares, hwrites, hwaits⟩ :=
    CacheSession.waits_of_refused 0 hread hrefused hworks
  obtain ⟨-, hfound⟩ := lost_iff_refused "/w" "/c" 100 0 CacheSession.blocked _ hspared
  exact ⟨hspared, ((hfound {} 101 hspares hwrites (by decide)).2.2 hwaits).trans hhashes⟩

/-- Behind a refused flush nothing waits to be written, so that a new cache does not find the hash even when
writing works again and more than one debounce has gone by. -/
theorem CacheSession.lost_behind_flush :
    let refused := (start "/w" "/c" 100 0 blocked).live [.operation (.record "a" "1"), .operation .flush]
    let later := refused.live [.outside {}, .operation (.wait 101)]
    refused.Spares (.outside {}) ∧ refused.Lost ∧ (refused.cache.writeHashes refused.cache.hashes {}).toBool ∧
      later.cache.hashes = [("a", "1")] ∧ ((HashCache.new "/w" "/c" 100).load later.disk).hashes = [] := by
  obtain ⟨hread, hrefused, hworks⟩ := blocked_refuses
  unfold start
  generalize HashCache.new "/w" "/c" 100 = c at hread hrefused hworks ⊢
  rw [live_refused hread hrefused]
  intro refused later
  have hempty : HashCache.readHashes c.file {} = [] := HashCache.readHashes_empty
  rw [← HashCache.writeHashes_with c [("a", "1")] none] at hworks
  refine ⟨hempty.trans hread.symm, ⟨rfl, ?_⟩, hworks, rfl, hempty⟩
  change HashCache.readHashes c.file blocked ≠ [("a", "1")]
  rw [hread]
  exact (List.cons_ne_nil _ _).symm

end SourceIndex
