import SourceIndex.Proofs.Cache.Hashes
import SourceIndex.Proofs.Disk.Replacing
import SourceIndex.Proofs.Json.RoundTrip
import SourceIndex.Proofs.Path.Names
/-!
# What a cache leaves behind

A `CacheSession` is a cache on a disk that nothing else writes to, and time passing. Hashes that were
written are read back (`HashCache.readHashes_of_writeHashes`). What the cache holds is in its file
unless it waits to be written (`CacheSession.Kept`), which every operation keeps as long as its write
succeeds; so a cache that waits for nothing is found again as it is.
-/

namespace SourceIndex

/-! ## The cache file -/

namespace Hashes

variable {hashes : Hashes} {fields : List (String × Json)}

theorem ofJson?_toJson : ofJson? hashes.toJson = some hashes := by
  rw [toJson, ofJson?]
  induction hashes with
  | nil => rfl
  | cons entry hashes ih =>
    rw [List.map_cons, List.mapM_cons, ih]
    rfl

/-- The paths are the keys of the object that the hashes are read from. -/
theorem map_fst_of_ofJson? (h : ofJson? (.obj fields) = some hashes) :
    hashes.map (·.1) = fields.map (·.1) := by
  rw [ofJson?] at h
  induction fields generalizing hashes with
  | nil =>
    cases h
    rfl
  | cons field fields ih =>
    rw [List.mapM_cons] at h
    obtain ⟨entry, hentry, h⟩ := Option.bind_eq_some_iff.1 h
    obtain ⟨rest, hrest, h⟩ := Option.bind_eq_some_iff.1 h
    obtain ⟨hash, -, rfl⟩ := Option.map_eq_some_iff.1 hentry
    cases h
    rw [List.map_cons, List.map_cons, ih hrest]

end Hashes

/-- The name of the cache file in its directory. -/
def cacheName (root : String) : String :=
  "codeindex-cache-" ++ Digest.sha256Hex root ++ ".json"

theorem cacheFile_eq (root dir : String) : cacheFile root dir = Path.join dir (cacheName root) := rfl

theorem slash_notMem_hex (bytes : List UInt8) : '/' ∉ (Digest.hex bytes).toList := by
  have hdigit : ∀ n < 16, Digest.hexDigit n ≠ '/' := by decide
  rw [Digest.hex, String.toList_ofList, List.mem_flatMap]
  rintro ⟨b, -, hb⟩
  have hlt := b.toNat_lt
  rcases List.mem_cons.1 hb with hb | hb
  · exact hdigit _ (by omega) hb.symm
  · exact hdigit _ (by omega) (List.mem_singleton.1 hb).symm

/-- The name of the cache file is a name, and so is what comes of putting something behind it. -/
theorem isName_cacheName_append (root : String) (tail : String) (h : '/' ∉ tail.toList) :
    Path.IsName (cacheName root ++ tail) := by
  have hdigest : '/' ∉ (Digest.sha256Hex root).toList := slash_notMem_hex _
  unfold cacheName
  generalize Digest.sha256Hex root = digest at hdigest
  have hchars : ("codeindex-cache-" ++ digest ++ ".json" ++ tail).toList =
      "codeindex-cache-".toList ++ digest.toList ++ ".json".toList ++ tail.toList := by
    simp only [String.toList_append]
  have hne {other : String} (hother : other.toList.head? ≠ some 'c') :
      "codeindex-cache-" ++ digest ++ ".json" ++ tail ≠ other := by
    rintro rfl
    exact hother (by rw [hchars]; rfl)
  refine ⟨hne (by decide), hne (by decide), hne (by decide), ?_⟩
  rw [hchars]
  simp [h, hdigest]

/-- The path to the cache file does not end like one to a directory. -/
theorem demandsDirectory_cacheFile (root dir : String) :
    Disk.demandsDirectory (cacheFile root dir) = false := by
  rw [cacheFile_eq]
  unfold cacheName
  generalize Digest.sha256Hex root = digest
  rw [Path.join_append (by simp), Disk.demandsDirectory, String.toList_append]
  simp [List.isPrefixOf]

namespace HashCache

variable {c : HashCache} {hashes : Hashes} {root dir file : String} {disk after : Disk}

/-- Every path stands once among the hashes that are read from a file. -/
theorem nodup_readHashes : ((readHashes file disk).map (·.1)).Nodup := by
  unfold readHashes
  split
  · rename_i text _
    cases hread : (Json.parse text).bind Hashes.ofJson? with
    | none => exact List.nodup_nil
    | some hashes =>
      obtain ⟨json, hparse, hof⟩ := Option.bind_eq_some_iff.1 hread
      cases json with
      | obj fields => exact Hashes.map_fst_of_ofJson? hof ▸ Json.nodup_of_parse hparse
      | _ => cases hof
  · exact List.nodup_nil

/-- Hashes that were written to the cache file are read back from it. -/
theorem readHashes_of_writeHashes (hfile : c.file = cacheFile root dir)
    (hnodup : (hashes.map (·.1)).Nodup) (h : c.writeHashes hashes disk = .ok after) :
    readHashes c.file after = hashes := by
  have hname := isName_cacheName_append root "" (by simp)
  rw [String.append_empty] at hname
  have htarget : Path.components c.file = Path.components dir ++ [.name (cacheName root)] := by
    rw [hfile, cacheFile_eq, Path.components_join_name hname]
  have hsource : Path.components c.draftFile =
      Path.components dir ++ [.name (cacheName root ++ ".tmp")] := by
    rw [draftFile, hfile, cacheFile_eq, ← Path.join_append hname.1,
      Path.components_join_name (isName_cacheName_append root ".tmp" (by decide))]
  have hother : cacheName root ++ ".tmp" ≠ cacheName root := by
    generalize cacheName root = name
    intro heq
    have hlength := congrArg String.length heq
    simp at hlength
  have hplain : Disk.demandsDirectory c.file = false := hfile ▸ demandsDirectory_cacheFile root dir
  obtain ⟨ready, hready⟩ : ∃ ready : Disk, (ready.write c.draftFile (Json.compact hashes.toJson).toUTF8 >>=
      fun written => written.rename c.draftFile c.file) = .ok after := by
    unfold writeHashes at h
    dsimp only at h
    split at h
    · split at h
      · exact ⟨disk, h⟩
      · obtain ⟨ready, -, h⟩ := exists_of_bind_ok h
        exact ⟨ready, h⟩
    · exact ⟨disk, h⟩
  obtain ⟨written, hwrite, hrename⟩ := exists_of_bind_ok hready
  have hparse : Json.parse (Json.compact hashes.toJson) = some hashes.toJson :=
    Json.parse_compact_obj_str hnodup
  rw [readHashes, Disk.readText_of_replace hwrite hrename hsource htarget hother hplain]
  dsimp only
  rw [hparse, Option.bind_some, Hashes.ofJson?_toJson, Option.getD_some]

theorem hashes_load : (c.load disk).hashes = readHashes c.file disk := rfl

theorem file_new (debounce : Nat) : (new root dir debounce).file = cacheFile root dir := by
  rw [new]

/-- On an empty disk no hashes are found. -/
theorem readHashes_empty : readHashes file {} = [] := by
  have hread {text : String} : Disk.readText {} file ≠ .ok text := by
    intro h
    obtain ⟨bytes, hread, -⟩ := exists_of_bind_ok h
    obtain ⟨node, hstat, hnode⟩ := exists_of_bind_ok hread
    obtain ⟨names, -, hfind⟩ := exists_of_bind_ok hstat
    obtain ⟨found, hfound, hnot⟩ := exists_of_bind_ok hfind
    cases names with
    | nil =>
      cases hfound
      cases hnot
      cases hnode
    | cons name names => cases hfound
  unfold readHashes
  split
  · rename_i text htext
    exact absurd htext hread
  · rfl

theorem save_of_writeHashes (h : c.writeHashes hashes disk = .ok after) :
    c.save hashes disk = (.ok (), after) := by
  rw [save, h]

end HashCache

/-! ## Sessions -/

/-- What is done to a cache, and waiting. -/
inductive CacheOperation where
  | record (path hash : String)
  | forget (paths : List String)
  | clear
  | flush
  | load
  | wait (duration : Nat)

/-- A cache on a disk that nothing else writes to. -/
structure CacheSession where
  cache : HashCache
  disk : Disk
  now : Nat
  /-- When writing was last put off. -/
  changed : Option Nat := none

namespace CacheSession

variable {root dir : String} {debounce : Nat} {s : CacheSession} {op : CacheOperation}
  {ops : List CacheOperation}

/-- A cache that has just loaded what it found on the disk. -/
def start (root dir : String) (debounce now : Nat) (disk : Disk) : CacheSession where
  cache := (HashCache.new root dir debounce).load disk
  disk := disk
  now := now

/-- Do one thing. -/
def apply (s : CacheSession) : CacheOperation → CacheSession
  | .record path hash => { s with cache := s.cache.record s.now path hash, changed := some s.now }
  | .forget paths =>
    { s with
      cache := s.cache.forget s.now paths
      changed := if paths.any s.cache.hashes.contains then some s.now else s.changed }
  | .clear =>
    let (_, cache, disk) := s.cache.clear s.disk
    { s with cache, disk }
  | .flush =>
    let (_, cache, disk) := s.cache.flush s.disk
    { s with cache, disk }
  | .load => { s with cache := s.cache.load s.disk }
  | .wait duration =>
    let now := s.now + duration
    let (cache, disk) := s.cache.tick now s.disk
    { s with cache, disk, now }

def run (s : CacheSession) (ops : List CacheOperation) : CacheSession :=
  ops.foldl apply s

/-- The hashes that doing something writes to the cache file, if it writes any. -/
def written? (s : CacheSession) : CacheOperation → Option Hashes
  | .clear => some []
  | .flush => some s.cache.hashes
  | .wait duration => if s.cache.due.any (· < s.now + duration) then some s.cache.hashes else none
  | .record _ _ | .forget _ | .load => none

/-- If doing something writes, it succeeds in that. -/
def Saves (s : CacheSession) (op : CacheOperation) : Prop :=
  ∀ hashes ∈ s.written? op, (s.cache.writeHashes hashes s.disk).toBool

instance : Decidable (s.Saves op) :=
  inferInstanceAs (Decidable (∀ hashes ∈ s.written? op, (s.cache.writeHashes hashes s.disk).toBool = true))

/-- Everything that a session writes it succeeds in writing. -/
def AllSaved (s : CacheSession) : List CacheOperation → Prop
  | [] => True
  | op :: ops => s.Saves op ∧ (s.apply op).AllSaved ops

instance decidableAllSaved : ∀ (s : CacheSession) (ops : List CacheOperation), Decidable (s.AllSaved ops)
  | _, [] => inferInstanceAs (Decidable True)
  | s, op :: ops =>
    have := decidableAllSaved (s.apply op) ops
    inferInstanceAs (Decidable (s.Saves op ∧ (s.apply op).AllSaved ops))

/-- What the cache holds is in its file unless it waits to be written, and then for no longer than one
debounce after the last change. -/
structure Kept (root dir : String) (debounce : Nat) (s : CacheSession) : Prop where
  file : s.cache.file = cacheFile root dir
  delay : s.cache.debounce = debounce
  distinct : (s.cache.hashes.map (·.1)).Nodup
  stored : s.cache.due = none → HashCache.readHashes s.cache.file s.disk = s.cache.hashes
  due : ∀ t, s.cache.due = some t → ∃ changed, s.changed = some changed ∧ t = changed + debounce ∧ s.now ≤ t

theorem Saves.exists_writeHashes {hashes : Hashes} (saves : s.Saves op) (h : s.written? op = some hashes) :
    ∃ after, s.cache.writeHashes hashes s.disk = .ok after := by
  have hsaves := saves hashes h
  cases hwrite : s.cache.writeHashes hashes s.disk with
  | error e =>
    rw [hwrite] at hsaves
    cases hsaves
  | ok after => exact ⟨after, rfl⟩

/-- Hashes that have changed wait to be written. -/
theorem Kept.change {hashes : Hashes} (h : Kept root dir debounce s) (hnodup : (hashes.map (·.1)).Nodup) :
    Kept root dir debounce
      { s with cache := { s.cache with hashes }.schedule s.now, changed := some s.now } where
  file := h.file
  delay := h.delay
  distinct := hnodup
  stored := nofun
  due := by
    rintro t ⟨⟩
    exact ⟨s.now, rfl, by rw [← h.delay], Nat.le_add_right _ _⟩

/-- Hashes that were written do not wait any more. -/
theorem Kept.write {hashes : Hashes} {after : Disk} (h : Kept root dir debounce s)
    (hnodup : (hashes.map (·.1)).Nodup) (hafter : s.cache.writeHashes hashes s.disk = .ok after) (now : Nat) :
    Kept root dir debounce
      { s with cache := { s.cache with hashes, due := none }, disk := after, now } where
  file := h.file
  delay := h.delay
  distinct := hnodup
  stored _ := HashCache.readHashes_of_writeHashes h.file hnodup hafter
  due := nofun

/-- As long as a write is not late, time may go by. -/
theorem Kept.wait {now : Nat} (h : Kept root dir debounce s) (hdue : ∀ t, s.cache.due = some t → now ≤ t) :
    Kept root dir debounce { s with now } where
  file := h.file
  delay := h.delay
  distinct := h.distinct
  stored := h.stored
  due t ht := by
    obtain ⟨changed, hchanged, heq, -⟩ := h.due t ht
    exact ⟨changed, hchanged, heq, hdue t ht⟩

/-- Doing one thing keeps what the cache holds. -/
theorem Kept.apply (h : Kept root dir debounce s) (saves : s.Saves op) :
    Kept root dir debounce (s.apply op) := by
  cases op with
  | record path hash => exact h.change (Hashes.nodup_put h.distinct)
  | forget paths =>
    rw [CacheSession.apply, HashCache.forget]
    split_ifs
    · exact h.change (Hashes.nodup_foldl_erase h.distinct)
    · exact h
  | clear =>
    obtain ⟨after, hafter⟩ := saves.exists_writeHashes rfl
    rw [CacheSession.apply, HashCache.clear, HashCache.save_of_writeHashes hafter]
    have hnodup : (([] : Hashes).map (·.1)).Nodup := List.nodup_nil
    exact h.write hnodup hafter s.now
  | flush =>
    obtain ⟨after, hafter⟩ := saves.exists_writeHashes rfl
    rw [CacheSession.apply, HashCache.flush, HashCache.save_of_writeHashes hafter]
    exact h.write h.distinct hafter s.now
  | load =>
    exact {
      file := h.file
      delay := h.delay
      distinct := HashCache.nodup_readHashes
      stored := fun _ => rfl
      due := h.due }
  | wait duration =>
    rw [CacheSession.apply, HashCache.tick]
    cases hdue : s.cache.due with
    | none => exact h.wait fun t ht => by cases hdue.symm.trans ht
    | some t =>
      dsimp only
      split_ifs with hlate
      · have hwrites : s.written? (.wait duration) = some s.cache.hashes := by
          rw [written?, hdue]
          simp [hlate]
        obtain ⟨after, hafter⟩ := saves.exists_writeHashes hwrites
        rw [HashCache.save_of_writeHashes hafter]
        exact h.write h.distinct hafter (s.now + duration)
      · refine h.wait fun t' ht' => ?_
        cases hdue.symm.trans ht'
        exact Nat.not_lt.1 hlate

/-- What a cache has just loaded is in its file. -/
theorem kept_load {c : HashCache} {now : Nat} {disk : Disk} (hfile : c.file = cacheFile root dir)
    (hdelay : c.debounce = debounce) (hdue : c.due = none) :
    Kept root dir debounce { cache := c.load disk, disk, now } where
  file := hfile
  delay := hdelay
  distinct := HashCache.nodup_readHashes
  stored := fun _ => rfl
  due := fun t ht => by cases hdue.symm.trans ht

/-- So does a whole session. -/
theorem Kept.run (h : Kept root dir debounce s) (saves : s.AllSaved ops) :
    Kept root dir debounce (s.run ops) := by
  induction ops generalizing s with
  | nil => exact h
  | cons op ops ih => exact ih (h.apply saves.1) saves.2

/-- After an operation that writes at once nothing waits to be written. -/
theorem due_run_flush : (s.run (ops ++ [.flush])).cache.due = none := by
  rw [run, List.foldl_append, List.foldl_cons, List.foldl_nil, CacheSession.apply, HashCache.flush]

theorem due_run_clear : (s.run (ops ++ [.clear])).cache.due = none := by
  rw [run, List.foldl_append, List.foldl_cons, List.foldl_nil, CacheSession.apply, HashCache.clear]

/-- When more than one debounce has gone by since the last change, nothing waits to be written. -/
theorem Kept.due_eq_none (h : Kept root dir debounce s)
    (hquiet : ∀ t ∈ s.changed, t + debounce < s.now) : s.cache.due = none := by
  cases hdue : s.cache.due with
  | none => rfl
  | some t =>
    obtain ⟨changed, hchanged, rfl, hnow⟩ := h.due t hdue
    exact absurd (hquiet changed hchanged) (Nat.not_lt.2 hnow)

/-- When nothing waits to be written, the hashes are in the file. -/
theorem Kept.readHashes_eq (h : Kept root dir debounce s) (hdue : s.cache.due = none) :
    HashCache.readHashes (cacheFile root dir) s.disk = s.cache.hashes := by
  rw [← h.file]
  exact h.stored hdue

end CacheSession

/-- In every session of a cache whose writes succeed: when nothing waits to be written, because the last
operation wrote or because more than one debounce has gone by since the last change, a new cache finds
exactly the hashes that this one holds; and whenever the hashes differ from those in the file, they wait
to be written. -/
theorem HashCache.found_again (root dir : String) (debounce now : Nat) (disk : Disk)
    (ops : List CacheOperation) (saves : (CacheSession.start root dir debounce now disk).AllSaved ops) :
    let s := (CacheSession.start root dir debounce now disk).run ops
    (ops.getLast? = some .flush ∨ ops.getLast? = some .clear ∨ (∀ t ∈ s.changed, t + debounce < s.now) →
      s.cache.due = none ∧
        ((HashCache.new root dir debounce).load s.disk).hashes = s.cache.hashes) ∧
    (HashCache.readHashes (cacheFile root dir) s.disk ≠ s.cache.hashes → s.cache.due.isSome) := by
  intro s
  have hkept : CacheSession.Kept root dir debounce s :=
    (CacheSession.kept_load (HashCache.file_new debounce) rfl rfl).run saves
  have hdue : (ops.getLast? = some .flush ∨ ops.getLast? = some .clear ∨
      ∀ t ∈ s.changed, t + debounce < s.now) → s.cache.due = none := by
    rintro (hlast | hlast | hquiet)
    · obtain ⟨front, rfl⟩ := List.getLast?_eq_some_iff.1 hlast
      exact CacheSession.due_run_flush
    · obtain ⟨front, rfl⟩ := List.getLast?_eq_some_iff.1 hlast
      exact CacheSession.due_run_clear
    · exact hkept.due_eq_none hquiet
  clear_value s
  refine ⟨fun hquiet => ⟨hdue hquiet, ?_⟩, fun hdiffers => ?_⟩
  · rw [HashCache.hashes_load, HashCache.file_new]
    exact hkept.readHashes_eq (hdue hquiet)
  · rw [Option.isSome_iff_ne_none]
    exact fun hnone => hdiffers (hkept.readHashes_eq hnone)

/-- Two changes, the first of them written at once and the second after the debounce. -/
def twoChanges : List CacheOperation :=
  [.record "/w/π.md" "1", .flush, .record "/w/\n" "\x22", .wait 101]

theorem HashCache.found_again_twoChanges :
    (CacheSession.start "/w" "/c" 100 0 {}).AllSaved twoChanges ∧
      ((HashCache.new "/w" "/c" 100).load
        ((CacheSession.start "/w" "/c" 100 0 {}).run twoChanges).disk).hashes =
          [("/w/π.md", "1"), ("/w/\n", "\x22")] := by
  have hrun : (CacheSession.start "/w" "/c" 100 0 {}).AllSaved twoChanges ∧
      (∀ t ∈ ((CacheSession.start "/w" "/c" 100 0 {}).run twoChanges).changed,
        t + 100 < ((CacheSession.start "/w" "/c" 100 0 {}).run twoChanges).now) ∧
      ((CacheSession.start "/w" "/c" 100 0 {}).run twoChanges).cache.hashes =
        [("/w/π.md", "1"), ("/w/\n", "\x22")] := by
    decide +kernel
  obtain ⟨hsaved, hquiet, hhashes⟩ := hrun
  have hfound := (found_again "/w" "/c" 100 0 {} twoChanges hsaved).1 (.inr (.inr hquiet))
  exact ⟨hsaved, hfound.2.trans hhashes⟩

/-- When exactly one debounce has gone by since the last change, the hashes still wait to be written. -/
theorem CacheSession.waits_at_debounce :
    let s := (CacheSession.start "/w" "/c" 100 0 {}).run [.record "a" "1", .wait 100]
    (CacheSession.start "/w" "/c" 100 0 {}).AllSaved [.record "a" "1", .wait 100] ∧
      (∀ t ∈ s.changed, t + 100 ≤ s.now) ∧
      ((HashCache.new "/w" "/c" 100).load s.disk).hashes ≠ s.cache.hashes := by
  have hload (c : HashCache) : (c.load {}).hashes = [] := HashCache.readHashes_empty
  have hwaits (c : HashCache) (hdelay : c.debounce = 100) (hhashes : c.hashes = []) (hdue : c.due = none) :
      let s := CacheSession.run { cache := c, disk := {}, now := 0 } [.record "a" "1", .wait 100]
      CacheSession.AllSaved { cache := c, disk := {}, now := 0 } [.record "a" "1", .wait 100] ∧
        s.changed = some 0 ∧ s.now = 100 ∧ s.disk = {} ∧ s.cache.hashes = [("a", "1")] := by
    simp [CacheSession.run, CacheSession.apply, CacheSession.AllSaved, CacheSession.Saves,
      CacheSession.written?, HashCache.record, HashCache.schedule, HashCache.tick, hdelay, hhashes,
      Hashes.put]
  obtain ⟨hsaved, hchanged, hnow, hdisk, hhashes⟩ :=
    hwaits ((HashCache.new "/w" "/c" 100).load {}) rfl (hload _) rfl
  refine ⟨hsaved, fun t ht => ?_, fun heq => ?_⟩
  · cases hchanged.symm.trans ht
    exact hnow.ge
  · have hlist := heq.symm.trans ((congrArg (fun disk => ((HashCache.new "/w" "/c" 100).load disk).hashes)
      hdisk).trans (hload _))
    cases hhashes.symm.trans hlist

end SourceIndex
