import SourceIndex.Proofs.Index.Histories
import SourceIndex.Proofs.Index.Storing
/-!
# A start that fails beside a batch of changes

A start that fails empties the store and then the cache, and a batch of changes that is under way goes on
meanwhile. So the index is not always empty when both are done: the batch may enter hashes behind the
cleaning. `cached_beside_failed_start` says which hashes there may be and which points stand behind
them: of a file's points those that the batch put after the store was cleared. They are all of them unless
the store was cleared between two calls of the batch, in which case the file is taken for indexed and later
starts skip it: `cached_without_points`.
-/

namespace SourceIndex.Premises

variable {e : Premises} {s : Services} {L L' : Scene} {log : List Effect} {file : String}
  {deleted : List String} {tally : Change.Tally} {total : Nat} {results : List ChangeResult}
  {failure : IndexError}

/-! ## The log of a start that fails -/

/-- What is done when a run fails clears the store, unless the call fails, and empties the cache. -/
theorem ensures_giveUp_log (clears : ¬e.fails .clearStore) :
    (Lifecycle.giveUp failure).Ensures e.logs log fun _ log' => log' = log ++ [.cleared, .emptied] := by
  unfold Lifecycle.giveUp
  refine ensures_log_bind fun x effects hx => ?_
  obtain ⟨-, rfl⟩ := hx.resolve_right fun h => clears h.1
  refine ensures_log_bind fun y effects hy => ?_
  have heffects : effects = [.emptied] := hy
  rw [heffects]
  refine ensures_log_idle_bind (fun _ _ hx => hx) fun _ => ensures_log_ask fun _ effects hz => ?_
  have heffects : effects = [] := hz
  rw [heffects, List.append_nil, List.append_assoc]
  rfl

/-- Whatever a start did before it failed, in the end it clears the store and empties the cache. -/
theorem ensures_start_log (clears : ¬e.fails .clearStore) :
    (Lifecycle.start s).Ensures e.logs log fun x log' => ∀ failure, x = .error failure →
      ∃ new, log' = log ++ (new ++ [.cleared, .emptied]) := by
  unfold Lifecycle.start
  refine ensures_log_idle_bind (fun _ _ hx => hx) fun (running : Bool) => ?_
  refine Program.ensures_ite (fun _ => Program.ensures_pure.2 nofun) fun _ => ?_
  refine ensures_log_idle_bind (fun _ _ hx => hx) fun (state : IndexState) => ?_
  refine Program.ensures_ite (fun _ => ?_) fun _ => ?_
  · exact ensures_log_idle_bind (fun _ _ hx => hx) fun _ => Program.ensures_pure.2 nofun
  refine ensures_log_idle_bind (fun _ _ hx => hx) fun _ => ?_
  refine Program.Ensures.bind (fun _ _ hrun => hrun.exists_append) fun x log₁ ⟨new, h₁⟩ => ?_
  refine ensures_log_idle_bind (fun _ _ hx => hx) fun _ => ?_
  cases x with
  | ok _ => exact Program.ensures_pure.2 nofun
  | error failure =>
    refine (ensures_giveUp_log clears).bind fun _ log₂ h₂ => Program.ensures_pure.2 fun _ _ => ⟨new, ?_⟩
    rw [h₂, h₁, List.append_assoc]

/-! ## Points behind the clear -/

section
variable {before behind : List (Bool × Effect)} {names : List String} {rest : List Effect}
  {points : List Point}

/-- Behind the clear the start only empties the cache, so that the points there are those of the batch. -/
theorem foldl_onPoints_behind {base : List Point} (hstart : Program.side true behind = [.emptied] ∨
      Program.side true behind = []) (hkept : ∀ effect ∈ Program.side false behind, ¬effect.Wipes file) :
    (behind.map (·.2)).foldl (Effect.onPoints file) base =
      (putsOf file (Program.side false behind)).foldl MemoryStore.put base := by
  have hnone : putsOf file (Program.side true behind) = [] := by
    rcases hstart with h | h
    · rw [h]
      rfl
    · rw [h]
      rfl
  rw [← putsOf_map_snd false hnone]
  refine foldl_onPoints_of_forall fun effect hmem => ?_
  obtain ⟨mark, hmem⟩ := Program.mem_map_snd.1 hmem
  cases mark with
  | false => exact hkept effect hmem
  | true =>
    rcases hstart with h | h
    · rw [h] at hmem
      rw [List.mem_singleton.1 hmem]
      exact id
    · rw [h] at hmem
      cases hmem

/-- Of a file that a batch brings, the points put behind the clear are there: all of them, unless some were
put in front of it. -/
theorem exists_late_of_cleared
    (hbatch : Program.side false before ++ Program.side false behind = .deleted names :: rest)
    (hstart : Program.side true behind = [.emptied]) (hfile : file ∈ names)
    (hbrings : Brings file points rest) (hkept : ∀ effect ∈ rest, ¬effect.Wipes file) :
    ∃ early late, points = early ++ late ∧
      (∀ q, q ∈ (behind.map (·.2)).foldl (Effect.onPoints file) [] ↔
        q ∈ late.foldl MemoryStore.put []) ∧
      (early ≠ [] → putsOf file (Program.side false before) ≠ []) := by
  rcases List.append_eq_cons_iff.1 hbatch with ⟨-, hbehind⟩ | ⟨front, hbefore, rfl⟩
  · -- the batch deletes the old points behind the clear
    have hfront : Program.side false behind = [] ++ .deleted names :: rest := hbehind
    obtain ⟨between, others, rfl, -, hothers⟩ := Program.exists_of_side_eq hfront
    refine ⟨[], points, rfl, fun q => ?_, fun hne => absurd rfl hne⟩
    have hwiped : ∀ base, Effect.onPoints file base (.deleted names) = [] := fun _ => if_pos hfile
    rw [List.map_append, List.map_cons, List.foldl_append, List.foldl_cons, hwiped,
      foldl_onPoints_behind _ (hothers ▸ hkept), hothers]
    · exact hbrings.all [] q
    · rw [Program.side_append, Program.side_cons, if_neg Bool.noConfusion] at hstart
      rcases List.append_eq_singleton_iff.1 hstart with ⟨-, h⟩ | ⟨-, h⟩
      · exact Or.inl h
      · exact Or.inr h
  · -- it has deleted them before
    obtain ⟨early, late, hpoints, hlate, hearly⟩ := hbrings front _ rfl
    refine ⟨early, late, hpoints, fun q => ?_, fun hne => ?_⟩
    · rw [foldl_onPoints_behind (Or.inl hstart) fun effect hmem =>
        hkept effect (List.mem_append_right _ hmem)]
      exact hlate [] q
    · rw [hbefore, putsOf_cons]
      exact hearly.resolve_left hne

/-- Behind the clear the cache is emptied, so that a hash that is there then was entered by the batch. -/
theorem recorded_mem_of_emptied {base : Option String} {path hash : String}
    (hstart : Program.side true behind = [.emptied])
    (h : (behind.map (·.2)).foldl (Effect.onHash path) base = some hash) :
    .recorded path hash ∈ Program.side false behind := by
  have hfront : Program.side true behind = [] ++ [.emptied] := hstart
  obtain ⟨between, others, rfl, -, hothers⟩ := Program.exists_of_side_eq hfront
  rw [List.map_append, List.map_cons, List.foldl_append, List.foldl_cons] at h
  have hnone : (others.map (·.2)).foldl (Effect.onHash path) none = some hash := h
  have hmem := (recorded_mem_of_foldl_onHash hnone).resolve_left nofun
  obtain ⟨mark, hmem⟩ := Program.mem_map_snd.1 hmem
  cases mark with
  | false =>
    rw [Program.side_append, Program.side_cons, if_neg Bool.noConfusion]
    exact List.mem_append_right _ hmem
  | true =>
    rw [hothers] at hmem
    cases hmem

end

/-! ## Hashes and points when both are done -/

/-- When a start fails beside a batch of changes, then in the end, wherever the clearing fell and whatever
else failed, each hash in the cache is that of a file of the batch, and the stored points of the file are
the last of its points: those put behind the clear. The hash is backed if these are all of them; if some are
missing, the batch had put points of the file before the store was cleared. -/
theorem cached_beside_failed_start (distinct : e.Distinct) (serves : e.Serves s)
    (clears : ¬e.fails .clearStore) (hready : ∀ file ∈ tally.ready, ∃ text, e.Prepared file text)
    (nodup : (tally.ready.map (·.path)).Nodup)
    (run : Program.EndsBoth e.rules (Lifecycle.start s) (Change.storing s total deleted tally) L
      (.error failure) results L') :
    ∃ before behind : List (Bool × Effect),
      L' = L.replay ((before ++ (true, .cleared) :: behind).map (·.2)) ∧
      Program.Ends e.logs (Lifecycle.start s) [] (.error failure)
        (Program.side true before ++ [.cleared, .emptied]) ∧
      Program.side true behind = [.emptied] ∧
      Program.Ends e.logs (Change.storing s total deleted tally) [] results
        (Program.side false before ++ Program.side false behind) ∧
      ∀ path hash, L'.hashes.get? path = some hash → ∃ file ∈ tally.ready, file.path = path ∧
        file.hash = hash ∧ ∃ early late, file.points = early ++ late ∧
          (L'.pointsOf (e.name path)).Perm (late.foldl MemoryStore.put []) ∧
          (early = [] → e.Backed L' path hash) ∧
          (early ≠ [] → putsOf (e.name path) (Program.side false before) ≠ []) := by
  have hfiled : ∀ file ∈ tally.ready, e.Filed file := fun file hfile =>
    let ⟨_, hprepared⟩ := hready file hfile
    hprepared.filed
  obtain ⟨log, hstart, hbatch, hreplay⟩ := run.exists_log e.does [] []
  rw [List.nil_append] at hstart hbatch
  obtain ⟨new, hnew⟩ := ensures_start_log clears _ _ hstart failure rfl
  obtain ⟨stored, hstored, hlog⟩ := ensures_storing_log serves _ _ hbatch
  rw [List.nil_append] at hnew hlog
  obtain ⟨before, behind, rfl, rfl, hbehind⟩ := Program.exists_of_side_eq hnew
  have hparts : Program.side false (before ++ (true, .cleared) :: behind) =
      Program.side false before ++ Program.side false behind := by
    rw [Program.side_append, Program.side_cons, if_neg Bool.noConfusion]
  rw [hnew] at hstart
  rw [hparts] at hbatch hlog
  refine ⟨before, behind, hreplay, hstart, hbehind, hbatch, fun path hash hget => ?_⟩
  -- the scene when the store was cleared, and what was done from then on
  have hcleared : L' = (L.replay (before.map (·.2))).clearPoints.replay (behind.map (·.2)) := by
    rw [hreplay, Scene.replay, List.map_append, List.foldl_append]
    rfl
  rw [hcleared, get?_replay] at hget
  have hrecorded := recorded_mem_of_emptied hbehind hget
  have hmem : .recorded path hash ∈ stored := hlog ▸ List.mem_append_right _ hrecorded
  obtain ⟨file, hfile, rfl, rfl, names, rest, rfl, hname, hbrings, hkept⟩ :=
    hstored.exists_brings distinct hfiled nodup hmem
  obtain ⟨early, late, hpoints, hlate, hearly⟩ :=
    exists_late_of_cleared hlog hbehind hname hbrings hkept
  have hknows : e.Knows (behind.map (·.2)) := by
    intro effect heffect
    obtain ⟨mark, heffect⟩ := Program.mem_map_snd.1 heffect
    cases mark with
    | false => exact hstored.knows hfiled effect (hlog ▸ List.mem_append_right _ heffect)
    | true =>
      rw [hbehind] at heffect
      rw [List.mem_singleton.1 heffect]
      exact nofun
  have hperm : (L'.pointsOf (e.name file.path)).Perm (late.foldl MemoryStore.put []) := by
    refine MemoryStore.perm_of_mem_iff ?_ (MemoryStore.nodup_foldl_put List.nodup_nil) fun q => ?_
    · rw [hcleared]
      exact MemoryStore.nodup_pointsOf (nodup_replay List.nodup_nil)
    · rw [hcleared, pointsOf_replay distinct (List.forall_mem_nil _) hknows]
      exact hlate q
  refine ⟨file, hfile, rfl, rfl, early, late, hpoints, hperm, fun hnone => ?_, hearly⟩
  obtain ⟨text, version, hhash, vectors, hlen, hown⟩ := hready file hfile
  rw [hnone, List.nil_append, hown] at hpoints
  exact ⟨text, vectors, version.2, hhash.symm, hlen, hpoints ▸ hperm⟩

/-! ### A file that is taken for indexed -/

/-- Whether a request stores a point of the second file. -/
def storesOther : Action → Bool
  | .upsert points => points.any (·.payload.filePath == "b.rs")
  | _ => false

/-- The first file, read and embedded by a batch. -/
def firstReady : ReadyFile where
  path := "/w/a.rs"
  hash := contentHash (smallText "/w/a.rs")
  points := small.points "/w/a.rs" (smallText "/w/a.rs") [[]]

/-- The batch that has read the first file. -/
def firstBatch : Procedure (List ChangeResult) :=
  Change.storing smallServices 1 [] { ready := [firstReady] }

/-- Two files that are not indexed yet. -/
def unindexed : Scene where
  files path := some (smallText path)

/-- A start that found the second file only fails since it cannot be stored. When it is about to clear the
store the batch deletes and upserts; the clearing comes next, and then the batch goes on. -/
def cleanup : (Except IndexError Unit × List ChangeResult) × Scene :=
  Program.runBoth (respond ["/w/b.rs"] storesOther)
    (List.replicate 23 true ++ [false, false]) (Lifecycle.start smallServices) firstBatch unindexed

theorem endsBoth_cleanup : ∃ failure, Program.EndsBoth small.rules (Lifecycle.start smallServices)
    firstBatch unindexed (.error failure) cleanup.1.2 cleanup.2 := by
  have hrun := Program.endsBoth_runBoth (@rules_respond small ["/w/b.rs"] storesOther (by decide)
    (fun _ h => List.mem_cons_of_mem _ h) (fun a h => by
      cases a with
      | upsert points => exact trivial
      | _ => cases h)) (List.replicate 23 true ++ [false, false]) (Lifecycle.start smallServices)
    firstBatch unindexed
  have hfails : cleanup.1.1 ≠ .ok () := by decide +kernel
  cases houtcome : cleanup.1.1 with
  | ok _ => exact absurd houtcome hfails
  | error failure => exact ⟨failure, houtcome ▸ hrun⟩

/-- What is left when both are done: the hash of the first file and none of its points. -/
theorem cleanup_leaves : cleanup.2.hashes.get? "/w/a.rs" = some (contentHash (smallText "/w/a.rs")) ∧
    cleanup.2.pointsOf (small.name "/w/a.rs") = [] := by
  decide +kernel

/-- The start that comes next. -/
def nextStart : Except IndexError Unit × Scene :=
  (Lifecycle.start smallServices).run (respond ["/w/a.rs", "/w/b.rs"] fun _ => false) cleanup.2

/-- When a start failed beside a batch of changes, the first file has its hash in the cache and no points in
the store; the next start, in which nothing fails, ends well and leaves it so. -/
theorem cached_without_points : ∃ failure results L' L'',
    Program.EndsBoth small.rules (Lifecycle.start smallServices) firstBatch unindexed
      (.error failure) results L' ∧
    L'.hashes.get? "/w/a.rs" = some (contentHash (smallText "/w/a.rs")) ∧
    L'.pointsOf (small.name "/w/a.rs") = [] ∧
    Program.Ends small.rules (Lifecycle.start smallServices) L' (.ok ()) L'' ∧
    L''.hashes.get? "/w/a.rs" = some (contentHash (smallText "/w/a.rs")) ∧
    L''.pointsOf (small.name "/w/a.rs") = [] := by
  obtain ⟨failure, hboth⟩ := endsBoth_cleanup
  have hnext : Program.Ends small.rules (Lifecycle.start smallServices) cleanup.2 nextStart.1 nextStart.2 :=
    ends_respond ["/w/a.rs", "/w/b.rs"] (fun _ => false) (by decide) (fun _ h => h)
      (fun _ h => Bool.noConfusion h) _ _
  have hleft : nextStart.1 = .ok () ∧
      nextStart.2.hashes.get? "/w/a.rs" = some (contentHash (smallText "/w/a.rs")) ∧
      nextStart.2.pointsOf (small.name "/w/a.rs") = [] := by
    decide +kernel
  exact ⟨failure, _, _, _, hboth, cleanup_leaves.1, cleanup_leaves.2, hleft.1 ▸ hnext, hleft.2⟩

/-- The batch had put points of the first file before the store was cleared. -/
theorem cached_beside_failed_start_small : ∃ before behind : List (Bool × Effect),
    cleanup.2 = unindexed.replay ((before ++ (true, .cleared) :: behind).map (·.2)) ∧
      putsOf (small.name "/w/a.rs") (Program.side false before) ≠ [] := by
  obtain ⟨failure, hboth⟩ := endsBoth_cleanup
  have hready : ∀ file ∈ [firstReady], ∃ text, small.Prepared file text := by
    rw [List.forall_mem_singleton]
    refine ⟨_, ⟨List.mem_cons_self, rfl⟩, rfl, [[]], ?_, rfl⟩
    decide +kernel
  obtain ⟨before, behind, hreplay, -, -, -, hcached⟩ := cached_beside_failed_start small_distinct
    ⟨rfl, rfl, rfl⟩ (fun h => h) hready (by decide) hboth
  obtain ⟨file, hfile, -, -, early, late, hpoints, hperm, -, hearly⟩ :=
    hcached _ _ cleanup_leaves.1
  refine ⟨before, behind, hreplay, hearly fun hnone => ?_⟩
  -- all of its points would be behind the clear, but there are none
  rw [List.mem_singleton.1 hfile, hnone, List.nil_append] at hpoints
  rw [cleanup_leaves.2, ← hpoints] at hperm
  have hsome : firstReady.points.foldl MemoryStore.put [] ≠ [] := by decide +kernel
  exact hsome hperm.nil_eq.symm

end SourceIndex.Premises
