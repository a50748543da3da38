import SourceIndex.Proofs.Index.Batches
/-!
# What a scan does to each file

`Premises.Scanned` says what a scan leaves of one file: it keeps the file's hash and points, or it
stores the points of the file's text and enters the hash of that text. `Scanning` is the invariant that
carries this through the files of a scan: files that were not looked at yet and files whose blocks wait
for a batch are as they were (`Premises.Same`), every other file was scanned or has a failed item.

`ensures_scan` is the result: after a scan every file has left the cache or was scanned.
-/

namespace SourceIndex.Premises

/-- From one scene to another nothing happened to a file. -/
structure Same (e : Premises) (path : String) (L L' : Scene) : Prop where
  hash : L'.hashes.get? path = L.hashes.get? path
  points : ∀ q, q ∈ L'.pointsOf (e.name path) ↔ q ∈ L.pointsOf (e.name path)
  refused : e.name path ∈ L'.refused ↔ e.name path ∈ L.refused

/-- What the points of a new text were put over: nothing, if the older ones were deleted; what was there,
if no older text is known or the deletion was refused. -/
inductive Beneath (e : Premises) (path : String) (L₀ L : Scene) : List Point → Prop where
  | deleted (cached : (L₀.hashes.get? path).isSome)
      (refused : e.name path ∈ L.refused ↔ e.name path ∈ L₀.refused) : Beneath e path L₀ L []
  | unknown (uncached : L₀.hashes.get? path = none)
      (refused : e.name path ∈ L.refused ↔ e.name path ∈ L₀.refused) :
      Beneath e path L₀ L (L₀.pointsOf (e.name path))
  | refused (cached : (L₀.hashes.get? path).isSome) (refused : e.name path ∈ L.refused)
      (fails : ∃ paths, e.fails (.deletePoints paths)) :
      Beneath e path L₀ L (L₀.pointsOf (e.name path))

/-- What a scan that began in `L₀` leaves of a file. -/
inductive Scanned (e : Premises) (path : String) (L₀ L : Scene) : Prop where
  | kept (hash : L.hashes.get? path = L₀.hashes.get? path)
      (points : ∀ q, q ∈ L.pointsOf (e.name path) ↔ q ∈ L₀.pointsOf (e.name path))
  | stored {text : String} {vectors : List Vector32} {base : List Point}
      (file : L₀.files path = some text)
      (changed : L₀.hashes.get? path ≠ some (contentHash text))
      (hash : L.hashes.get? path = some (contentHash text))
      (length : vectors.length = (e.blocks path text).length)
      (beneath : e.Beneath path L₀ L base)
      (points : ∀ q, q ∈ L.pointsOf (e.name path) ↔
        q ∈ (e.points path text vectors).foldl MemoryStore.put base)

variable {e : Premises} {L₀ L L' : Scene} {path text : String} {paths : List String}

/-- What is beneath new points depends on the scene behind only by what was refused. -/
theorem Beneath.congr {base : List Point} (h : e.Beneath path L₀ L base)
    (hr : e.name path ∈ L'.refused ↔ e.name path ∈ L.refused) : e.Beneath path L₀ L' base := by
  cases h with
  | deleted cached refused => exact .deleted cached (hr.trans refused)
  | unknown uncached refused => exact .unknown uncached (hr.trans refused)
  | refused cached refused fails => exact .refused cached (hr.2 refused) fails

namespace Same

theorem refl (e : Premises) (path : String) (L : Scene) : e.Same path L L :=
  ⟨rfl, fun _ => Iff.rfl, Iff.rfl⟩

theorem trans (h : e.Same path L₀ L) (h' : e.Same path L L') : e.Same path L₀ L' :=
  ⟨h'.hash.trans h.hash, fun q => (h'.points q).trans (h.points q), h'.refused.trans h.refused⟩

/-- Deleting the points of other files does nothing to a file. -/
theorem deletePoints (h : e.name path ∉ paths) : e.Same path L (L.deletePoints paths) :=
  ⟨rfl, fun q => by rw [Scene.pointsOf_deletePoints, if_neg h], Iff.rfl⟩

/-- That points of other files were not deleted does nothing to a file. -/
theorem refuse (h : e.name path ∉ paths) : e.Same path L (L.refuse paths) := by
  refine ⟨rfl, fun _ => Iff.rfl, ?_⟩
  simp [Scene.refuse, h]

/-- Entering the hash of another file does nothing to a file. -/
theorem record {other hash : String} (h : path ≠ other) : e.Same path L (L.record other hash) :=
  ⟨by rw [Scene.get?_record, if_neg h], fun _ => Iff.rfl, Iff.rfl⟩

/-- Taking other files out of the cache does nothing to a file. -/
theorem forget (h : path ∉ paths) : e.Same path L (L.forget paths) :=
  ⟨by rw [Scene.get?_forget, if_neg h], fun _ => Iff.rfl, Iff.rfl⟩

end Same

namespace Scanned

/-- A file to which nothing happened was scanned and kept. -/
theorem of_same (h : e.Same path L₀ L) : e.Scanned path L₀ L :=
  .kept h.hash h.points

/-- What a scan left of a file stays as long as nothing happens to the file. -/
theorem same (h : e.Scanned path L₀ L) (hs : e.Same path L L') : e.Scanned path L₀ L' := by
  cases h with
  | kept hash points => exact .kept (hs.hash.trans hash) fun q => (hs.points q).trans (points q)
  | stored file changed hash length beneath points =>
    exact .stored file changed (hs.hash.trans hash) length (beneath.congr hs.refused)
      fun q => (hs.points q).trans (points q)

/-- A file that was in step is in step after a scan that could delete the points of replaced files. -/
theorem inStep (h : e.Scanned path L₀ L) (hpath : e.paths path) (ho₀ : e.Orderly L₀)
    (ho : e.Orderly L) (deletes : ∀ paths, ¬e.fails (.deletePoints paths))
    (hstep : e.InStep L₀ path) : e.InStep L path := by
  cases h with
  | kept hash points => exact hstep.congr ho₀ ho hash points
  | stored file changed hash length beneath points =>
    refine InStep.of_mem ho hash (ho₀.texts hpath file) length fun q => ?_
    rw [points]
    cases beneath with
    | deleted cached refused => rfl
    | unknown uncached refused => rw [hstep.absent uncached]
    | refused cached refused fails =>
      obtain ⟨paths, hfails⟩ := fails
      exact absurd hfails (deletes paths)

end Scanned

/-- The files whose blocks were taken, each with its text, among those that were looked at: together they
have the blocks that were found. Each of them has got its hash, unless blocks of it are in the buffer or
something failed; every other file has the hash it had, or none. -/
structure Tallied (e : Premises) (L₀ : Scene) (taken : List (String × String))
    (seen : List String) (found : Nat) (buffer : List PendingBlock) (L : Scene) : Prop where
  nodup : (taken.map (·.1)).Nodup
  found : found = (taken.map fun v => (e.blocks v.1 v.2).length).sum
  looked : ∀ v ∈ taken, e.paths v.1 ∧ v.1 ∈ seen ∧ L₀.files v.1 = some v.2
  pending : ∀ item ∈ buffer, item.block.filePath ∈ taken.map (·.1)
  entered : ∀ v ∈ taken, itemsOf v.1 buffer = [] →
    (∃ a, e.fails a) ∨ L.hashes.get? v.1 = some (contentHash v.2)
  others : ∀ {path}, e.paths path → path ∉ taken.map (·.1) →
    L.hashes.get? path = L₀.hashes.get? path ∨ L.hashes.get? path = none

namespace Tallied

variable {taken : List (String × String)} {seen seen' : List String} {found found' : Nat}
  {buffer items : List PendingBlock}

theorem start (e : Premises) (L : Scene) : e.Tallied L [] [] 0 [] L where
  nodup := List.nodup_nil
  found := rfl
  looked := nofun
  pending := nofun
  entered := nofun
  others _ _ := Or.inl rfl

/-- More files may be looked at, as long as the hashes of files stay or failures remove them. -/
theorem mono (h : e.Tallied L₀ taken seen found buffer L) (hseen : seen ⊆ seen')
    (hhashes : ∀ {path}, e.paths path → L'.hashes.get? path = L.hashes.get? path ∨
      L'.hashes.get? path = none ∧ (path ∈ taken.map (·.1) → ∃ a, e.fails a)) :
    e.Tallied L₀ taken seen' found buffer L' where
  nodup := h.nodup
  found := h.found
  looked v hv := (h.looked v hv).imp_right fun ⟨hin, hfile⟩ => ⟨hseen hin, hfile⟩
  pending := h.pending
  entered v hv hitems := by
    rcases hhashes (h.looked v hv).1 with heq | ⟨-, hfails⟩
    · rw [heq]
      exact h.entered v hv hitems
    · exact Or.inl (hfails (List.mem_map_of_mem hv))
  others hpath hnot := by
    rcases hhashes hpath with heq | ⟨hnone, -⟩
    · rw [heq]
      exact h.others hpath hnot
    · exact Or.inr hnone

/-- One more file is taken; if it has no blocks to wait for, it gets its hash. -/
theorem take (h : e.Tallied L₀ taken seen found buffer L) (hpath : e.paths path)
    (hunseen : path ∉ seen) (file : L₀.files path = some text)
    (hitems : ∀ item ∈ items, item.block.filePath = path)
    (entered : items = [] → L'.hashes.get? path = some (contentHash text))
    (hothers : ∀ {other}, e.paths other → other ≠ path →
      L'.hashes.get? other = L.hashes.get? other) :
    e.Tallied L₀ (taken ++ [(path, text)]) (seen ++ [path])
      (found + (e.blocks path text).length) (buffer ++ items) L' := by
  have hnew : path ∉ taken.map (·.1) := by
    intro hin
    obtain ⟨v, hv, rfl⟩ := List.mem_map.1 hin
    exact hunseen (h.looked v hv).2.1
  have happ : ∀ {other}, itemsOf other (buffer ++ items) = itemsOf other buffer ++ itemsOf other items :=
    List.filter_append ..
  refine ⟨?_, ?_, fun v hv => ?_, fun item hitem => ?_, fun v hv hnone => ?_, fun {other} hother hnot => ?_⟩
  · rw [List.map_append, List.nodup_append]
    refine ⟨h.nodup, List.nodup_singleton _, fun a ha b hb heq => hnew ?_⟩
    exact (heq.trans (List.mem_singleton.1 hb) : a = path) ▸ ha
  · rw [h.found, List.map_append, List.sum_append, List.map_singleton, List.sum_singleton]
  · rcases List.mem_append.1 hv with hv | hv
    · obtain ⟨hp, hin, hfile⟩ := h.looked v hv
      exact ⟨hp, List.mem_append_left _ hin, hfile⟩
    · cases List.mem_singleton.1 hv
      exact ⟨hpath, List.mem_append_right _ List.mem_cons_self, file⟩
  · rw [List.map_append]
    rcases List.mem_append.1 hitem with hitem | hitem
    · exact List.mem_append_left _ (h.pending item hitem)
    · exact List.mem_append_right _ (hitems item hitem ▸ List.mem_cons_self)
  · rw [happ, List.append_eq_nil_iff] at hnone
    rcases List.mem_append.1 hv with hv | hv
    · have hne : v.1 ≠ path := fun heq => hnew (heq ▸ List.mem_map_of_mem hv)
      rw [hothers (h.looked v hv).1 hne]
      exact h.entered v hv hnone.1
    · cases List.mem_singleton.1 hv
      refine Or.inr (entered ?_)
      rw [← hnone.2]
      exact (List.filter_eq_self.2 fun item hitem => beq_iff_eq.2 (hitems item hitem)).symm
  · rw [List.map_append, List.mem_append, not_or] at hnot
    have hne : other ≠ path := fun heq => hnot.2 (heq ▸ List.mem_cons_self)
    rw [hothers hother hne]
    exact h.others hother hnot.1

end Tallied

/-- The invariant of a scan that began in `L₀`, when the files in `seen` were looked at. -/
structure Scanning (e : Premises) (L₀ : Scene) (seen : List String) (state : ScanState)
    (L : Scene) : Prop where
  orderly : e.Orderly L
  files : L.files = L₀.files
  settled : ∀ {path}, e.paths path → state.batches.Lost path ∨ e.Scanned path L₀ L
  untouched : ∀ {path}, e.paths path → path ∉ seen ∨ itemsOf path state.buffer ≠ [] →
    e.Same path L₀ L
  pends : ∀ item ∈ state.buffer, e.Pends item ∧ item.block.filePath ∈ seen
  waiting : ∀ {path}, e.paths path → itemsOf path state.buffer = [] ∨ ∃ text,
    L₀.files path = some text ∧ L₀.hashes.get? path ≠ some (contentHash text) ∧
      itemsOf path state.buffer =
        (e.blocks path text).map fun block => ⟨block, (L₀.hashes.get? path).isSome⟩
  fails : ∀ {path}, state.batches.Lost path → ∃ a, e.fails a
  tallied : ∃ taken, e.Tallied L₀ taken seen state.found state.buffer L

/-- Before the first file everything is as it was. -/
theorem Scanning.start (ho : e.Orderly L) : e.Scanning L [] {} L where
  orderly := ho
  files := rfl
  settled _ := Or.inr (Scanned.of_same (Same.refl ..))
  untouched _ _ := Same.refl ..
  pends := nofun
  waiting _ := Or.inl rfl
  fails h := absurd h (BatchResult.not_lost_empty _)
  tallied := ⟨[], Tallied.start e L⟩

/-- Changing the other counters of a scan does not touch its invariant. -/
theorem Scanning.of_eq {seen : List String} {state state' : ScanState}
    (h : e.Scanning L₀ seen state L) (hbuffer : state'.buffer = state.buffer)
    (hbatches : state'.batches = state.batches) (hfound : state'.found = state.found) :
    e.Scanning L₀ seen state' L := by
  obtain ⟨h1, h2, h3, h4, h5, h6, h7, h8⟩ := h
  exact ⟨h1, h2, hbatches ▸ h3, hbuffer ▸ h4, hbuffer ▸ h5, hbuffer ▸ h6, hbatches ▸ h7,
    hbuffer ▸ hfound ▸ h8⟩

/-! ## Sending a batch off -/

theorem itemsOf_eq_nil {items : List PendingBlock} (h : ∀ item ∈ items, item.block.filePath ≠ path) :
    itemsOf path items = [] :=
  List.filter_eq_nil_iff.2 (by simpa using h)

/-- The items of a file's blocks are items of this file only. -/
theorem itemsOf_blocks {replaces : Bool} {other : String} :
    itemsOf other ((e.blocks path text).map fun block => (⟨block, replaces⟩ : PendingBlock)) =
      if other = path then (e.blocks path text).map fun block => ⟨block, replaces⟩ else [] := by
  have hown : ∀ item ∈ (e.blocks path text).map fun block => (⟨block, replaces⟩ : PendingBlock),
      item.block.filePath = path :=
    List.forall_mem_map.2 fun block hblock => filePath_of_mem_blocks hblock
  split
  · rename_i heq
    exact List.filter_eq_self.2 fun item hitem => beq_iff_eq.2 ((hown item hitem).trans heq.symm)
  · rename_i hne
    exact itemsOf_eq_nil fun item hitem heq => hne (heq.symm.trans (hown item hitem))

/-- The deletion in front of a batch does nothing to files that are not replaced. -/
theorem Purged.same_of_not_stale {items : List PendingBlock} {L₁ : Scene} (h : e.Purged items L L₁)
    (hname : e.name path ∉ e.staleOf items) : e.Same path L L₁ := by
  rcases h with rfl | ⟨-, rfl⟩
  · exact Same.deletePoints hname
  · exact Same.refuse hname

/-- The deletion in front of a batch does nothing to files without items in it. -/
theorem Purged.same {items : List PendingBlock} {L₁ : Scene} (distinct : e.Distinct)
    (h : e.Purged items L L₁) (hs : ∀ item ∈ items, e.Pends item) (hpath : e.paths path)
    (hitems : itemsOf path items = []) : e.Same path L L₁ := by
  refine h.same_of_not_stale fun hmem => ?_
  obtain ⟨item, hitem, -⟩ := (name_mem_staleOf distinct hs hpath).1 hmem
  rw [hitems] at hitem
  cases hitem

/-- A batch does nothing to files without items in it. -/
theorem Batched.same {items : List PendingBlock} {r : BatchResult} (h : e.Batched items {} r L L')
    (hpath : e.paths path) (hitems : itemsOf path items = []) : e.Same path L L' := by
  rcases h.took hpath with hl | ⟨⟨vectors, hlen, hmem⟩, hhash⟩
  · rcases h.fails hl with hl | ⟨hne, -⟩
    · exact absurd hl (BatchResult.not_lost_empty path)
    · exact absurd hitems hne
  · rw [hitems] at hmem hhash
    exact ⟨hhash, hmem, by rw [h.refused]⟩

theorem exists_replaces_iff {blocks : List Block} {cached : Bool} (h : blocks ≠ []) :
    (∃ item ∈ blocks.map fun block => (⟨block, cached⟩ : PendingBlock), item.replaces = true) ↔
      cached = true := by
  obtain ⟨block, hblock⟩ := List.exists_mem_of_ne_nil blocks h
  constructor
  · rintro ⟨item, hitem, hreplaces⟩
    obtain ⟨_, -, rfl⟩ := List.mem_map.1 hitem
    exact hreplaces
  · exact fun hcached => ⟨_, List.mem_map_of_mem hblock, hcached⟩

/-- What the deletion in front of a batch leaves of a file whose blocks are in the batch. -/
theorem Purged.beneath {items : List PendingBlock} {L₁ : Scene} {blocks : List Block}
    (h : e.Purged items L L₁) (hsame : e.Same path L₀ L)
    (hitems : itemsOf path items =
      blocks.map fun block => ⟨block, (L₀.hashes.get? path).isSome⟩)
    (distinct : e.Distinct) (hs : ∀ item ∈ items, e.Pends item) (hpath : e.paths path)
    (hne : itemsOf path items ≠ []) :
    ∃ base, e.Beneath path L₀ L₁ base ∧ ∀ q, q ∈ L₁.pointsOf (e.name path) ↔ q ∈ base := by
  have hstale : e.name path ∈ e.staleOf items ↔ (L₀.hashes.get? path).isSome = true := by
    rw [name_mem_staleOf distinct hs hpath]
    rw [hitems] at hne ⊢
    exact exists_replaces_iff fun hnone => hne (by rw [hnone, List.map_nil])
  by_cases hcached : (L₀.hashes.get? path).isSome = true
  · have hin := hstale.2 hcached
    rcases h with rfl | ⟨hfails, rfl⟩
    · refine ⟨[], .deleted hcached hsame.refused, fun q => ?_⟩
      rw [Scene.pointsOf_deletePoints, if_pos hin]
    · exact ⟨_, .refused hcached (List.mem_append_right _ hin) hfails, hsame.points⟩
  · have hkept := hsame.trans (h.same_of_not_stale fun hin => hcached (hstale.1 hin))
    exact ⟨_, .unknown (by simpa using hcached) hkept.refused, hkept.points⟩

/-- A file all of whose blocks are in a batch gets the hash of its text, unless some of them fail. -/
theorem Batched.get?_hashes {items : List PendingBlock} {r r' : BatchResult} {L₁ : Scene}
    {replaces : Bool} (h : e.Batched items r r' L₁ L') (hpath : e.paths path)
    (hitems : itemsOf path items = (e.blocks path text).map fun block => ⟨block, replaces⟩)
    (hne : itemsOf path items ≠ []) :
    r'.Lost path ∨ L'.hashes.get? path = some (contentHash text) := by
  refine (h.took hpath).imp_right fun took => ?_
  have hlast : (itemsOf path items).getLast? = some ((itemsOf path items).getLast hne) :=
    List.getLast?_eq_some_getLast hne
  generalize (itemsOf path items).getLast hne = last at hlast
  have hlastHash : last.block.fileHash = contentHash text := by
    have hin := List.mem_of_getLast? hlast
    rw [hitems] at hin
    obtain ⟨block, hb, rfl⟩ := List.mem_map.1 hin
    exact Chunk.fileHash_of_mem_parse hb
  rw [took.hash, hlast, Option.map_some, hlastHash]
  rfl

/-- What a batch leaves of a file all of whose blocks are in it. -/
theorem Batched.scanned {items : List PendingBlock} {r r' : BatchResult} {L₁ : Scene}
    {base : List Point} (h : e.Batched items r r' L₁ L') (hpath : e.paths path)
    (file : L₀.files path = some text) (changed : L₀.hashes.get? path ≠ some (contentHash text))
    (hitems : itemsOf path items =
      (e.blocks path text).map fun block => ⟨block, (L₀.hashes.get? path).isSome⟩)
    (hne : itemsOf path items ≠ []) (beneath : e.Beneath path L₀ L₁ base)
    (hbase : ∀ q, q ∈ L₁.pointsOf (e.name path) ↔ q ∈ base) :
    r'.Lost path ∨ e.Scanned path L₀ L' := by
  rcases h.get?_hashes hpath hitems hne with hl | hhash
  · exact Or.inl hl
  refine (h.took hpath).imp_right fun ⟨⟨vectors, hlen, hmem⟩, _⟩ => ?_
  have hbeneath : e.Beneath path L₀ L' base := beneath.congr (by rw [h.refused])
  have hlength : vectors.length = (e.blocks path text).length := by
    rw [hlen, hitems, List.length_map]
  refine .stored file changed hhash hlength hbeneath fun q => (hmem q).trans ?_
  rw [MemoryStore.mem_foldl_put_congr hbase, hitems, List.zipWith_map_left]
  rfl

/-- A batch that is sent off leaves the tally right, and nothing waits behind it. -/
theorem Scanning.tallied_submit {seen : List String} {state : ScanState} {batch : List PendingBlock}
    {r : BatchResult} {L₁ : Scene} (h : e.Scanning L₀ seen { state with buffer := batch } L)
    (hbatched : e.Batched batch {} r L₁ L')
    (hsame : ∀ {path}, e.paths path → itemsOf path batch = [] → e.Same path L L') :
    ∃ taken, e.Tallied L₀ taken seen state.found [] L' := by
  obtain ⟨taken, ht⟩ := h.tallied
  refine ⟨taken, ht.nodup, ht.found, ht.looked, nofun, fun v hv _ => ?_, fun {path} hpath hnot => ?_⟩
  · obtain ⟨hpath, -, hfile⟩ := ht.looked v hv
    by_cases hitems : itemsOf v.1 batch = []
    · rw [(hsame hpath hitems).hash]
      exact ht.entered v hv hitems
    · obtain ⟨text, file, -, hblocks⟩ := (h.waiting hpath).resolve_left hitems
      rw [hfile, Option.some_inj] at file
      subst file
      refine (hbatched.get?_hashes hpath hblocks hitems).imp_left fun hl => ?_
      exact ((hbatched.fails hl).resolve_left (BatchResult.not_lost_empty _)).2
  · have hitems : itemsOf path batch = [] :=
      itemsOf_eq_nil fun item hitem heq => hnot (heq ▸ ht.pending item hitem)
    rw [(hsame hpath hitems).hash]
    exact ht.others hpath hnot

/-- Telling what happens changes nothing. -/
def Quiet (e : Premises) (mode : ScanMode) : Prop :=
  ∀ event L, (mode.tell event).Ensures e.rules L fun _ L' => L' = L

section
variable {s : Services} {mode : ScanMode} {seen : List String} {state : ScanState}

/-- A batch that is sent off keeps the invariant, and nothing waits behind it. -/
theorem ensures_submit (distinct : e.Distinct) (serves : e.Serves s) (quiet : e.Quiet mode)
    {batch : List PendingBlock} (h : e.Scanning L₀ seen { state with buffer := batch } L) :
    (Scan.submit s mode { state with buffer := [] } batch).Ensures e.rules L fun state' L' =>
      state'.buffer = [] ∧ e.Scanning L₀ seen state' L' := by
  have hs : ∀ item ∈ batch, e.Pends item := fun item hitem => (h.pends item hitem).1
  unfold Scan.submit
  rw [serves.1]
  refine (ensures_process distinct (fun _ _ => quiet _) hs h.orderly).bind fun r L' hr => ?_
  obtain ⟨L₁, hpurged, hbatched⟩ := hr
  have hsame : ∀ {path}, e.paths path → itemsOf path batch = [] → e.Same path L L' :=
    fun hpath hitems => (hpurged.same distinct hs hpath hitems).trans (hbatched.same hpath hitems)
  refine Program.ensures_pure.2 ⟨rfl, ?_⟩
  refine ⟨hbatched.orderly, ?_, fun {path} hpath => ?_, fun {path} hpath hor => ?_, nofun,
    fun _ => Or.inl rfl, fun hl => ?_, h.tallied_submit hbatched hsame⟩
  · rw [hbatched.files]
    rcases hpurged with rfl | ⟨-, rfl⟩
    · exact h.files
    · exact h.files
  · rw [BatchResult.lost_merge, or_assoc]
    by_cases hitems : itemsOf path batch = []
    · rcases h.settled hpath with hl | hscanned
      · exact Or.inl hl
      · exact Or.inr (Or.inr (hscanned.same (hsame hpath hitems)))
    · obtain ⟨text, file, changed, hblocks⟩ := (h.waiting hpath).resolve_left hitems
      have huntouched := h.untouched hpath (Or.inr hitems)
      obtain ⟨base, beneath, hbase⟩ :=
        hpurged.beneath huntouched hblocks distinct hs hpath hitems
      exact Or.inr (hbatched.scanned hpath file changed hblocks hitems beneath hbase)
  · have hunseen : path ∉ seen := hor.resolve_right fun h => h rfl
    have hitems : itemsOf path batch = [] :=
      itemsOf_eq_nil fun item hitem heq => hunseen (heq ▸ (h.pends item hitem).2)
    exact (h.untouched hpath (Or.inl hunseen)).trans (hsame hpath hitems)
  · rcases BatchResult.lost_merge.1 hl with hl | hl
    · exact h.fails hl
    · exact ((hbatched.fails hl).resolve_left (BatchResult.not_lost_empty _)).2

/-! ## Looking at a file -/

/-- No block of a file that was not looked at waits for a batch. -/
theorem Scanning.itemsOf_eq_nil (h : e.Scanning L₀ seen state L) (hunseen : path ∉ seen) :
    itemsOf path state.buffer = [] :=
  Premises.itemsOf_eq_nil fun item hitem heq => hunseen (heq ▸ (h.pends item hitem).2)

/-- A file may be looked at and left alone. -/
theorem Scanning.pass (h : e.Scanning L₀ seen state L) (path : String) :
    e.Scanning L₀ (seen ++ [path]) state L where
  orderly := h.orderly
  files := h.files
  settled := h.settled
  untouched hpath hor := h.untouched hpath (hor.imp_left fun hn hin => hn (List.mem_append_left _ hin))
  pends item hitem := (h.pends item hitem).imp_right (List.mem_append_left _)
  waiting := h.waiting
  fails := h.fails
  tallied := h.tallied.imp fun _ ht => ht.mono (List.subset_append_left ..) fun _ => Or.inl rfl

/-- A scene in which something happened to the file at `path` only, which was looked at meanwhile. -/
theorem Scanning.change (h : e.Scanning L₀ seen state L) (hunseen : path ∉ seen)
    (ho : e.Orderly L') (hfiles : L'.files = L.files)
    (others : ∀ {other}, e.paths other → other ≠ path → e.Same other L L')
    (hscanned : e.Scanned path L₀ L')
    (tallied : ∃ taken, e.Tallied L₀ taken (seen ++ [path]) state.found state.buffer L') :
    e.Scanning L₀ (seen ++ [path]) state L' where
  orderly := ho
  files := hfiles.trans h.files
  settled {other} hother := by
    by_cases heq : other = path
    · exact Or.inr (heq ▸ hscanned)
    · exact (h.settled hother).imp_right fun hs => hs.same (others hother heq)
  untouched {other} hother hor := by
    have hne : other ≠ path := by
      rintro rfl
      exact hor.elim (fun hn => hn (List.mem_append_right _ List.mem_cons_self))
        fun hn => hn (h.itemsOf_eq_nil hunseen)
    refine (h.untouched hother ?_).trans (others hother hne)
    exact hor.imp_left fun hn hin => hn (List.mem_append_left _ hin)
  pends item hitem := (h.pends item hitem).imp_right (List.mem_append_left _)
  waiting := h.waiting
  fails := h.fails
  tallied := tallied

/-- The blocks of a new or changed file come to wait behind the others. -/
theorem Scanning.join (h : e.Scanning L₀ seen state L) (hpath : e.paths path)
    (hunseen : path ∉ seen) (file : L.files path = some text)
    (changed : L.hashes.get? path ≠ some (contentHash text)) (hblocks : e.blocks path text ≠ []) :
    e.Scanning L₀ (seen ++ [path])
      { state with
        found := state.found + (e.blocks path text).length
        buffer := state.buffer ++
          (e.blocks path text).map fun block => ⟨block, (L.hashes.get? path).isSome⟩ } L := by
  have hsame := h.untouched hpath (Or.inl hunseen)
  have hown : itemsOf path ((e.blocks path text).map fun block =>
        (⟨block, (L.hashes.get? path).isSome⟩ : PendingBlock)) =
      (e.blocks path text).map fun block => ⟨block, (L₀.hashes.get? path).isSome⟩ := by
    rw [hsame.hash]
    refine List.filter_eq_self.2 fun item hitem => ?_
    obtain ⟨block, hb, rfl⟩ := List.mem_map.1 hitem
    exact beq_iff_eq.2 (filePath_of_mem_blocks hb)
  have hothers : ∀ {other}, other ≠ path → itemsOf other ((e.blocks path text).map fun block =>
        (⟨block, (L.hashes.get? path).isSome⟩ : PendingBlock)) = [] := by
    intro other hne
    refine Premises.itemsOf_eq_nil fun item hitem heq => ?_
    obtain ⟨block, hb, rfl⟩ := List.mem_map.1 hitem
    exact hne (heq.symm.trans (filePath_of_mem_blocks hb))
  have happ : ∀ {other} {more : List PendingBlock}, itemsOf other (state.buffer ++ more) =
      itemsOf other state.buffer ++ itemsOf other more := List.filter_append ..
  refine ⟨h.orderly, h.files, h.settled, fun {other} hother hor => ?_, fun item hitem => ?_,
    fun {other} hother => ?_, h.fails, ?_⟩
  · by_cases heq : other = path
    · exact heq ▸ hsame
    · rw [happ, hothers heq, List.append_nil] at hor
      exact h.untouched hother (hor.imp_left fun hn hin => hn (List.mem_append_left _ hin))
  · rcases List.mem_append.1 hitem with hitem | hitem
    · exact (h.pends item hitem).imp_right (List.mem_append_left _)
    · obtain ⟨block, hb, rfl⟩ := List.mem_map.1 hitem
      have hblock := filePath_of_mem_blocks hb
      refine ⟨⟨text, ?_, ?_⟩, ?_⟩
      · exact hblock.symm ▸ ⟨hpath, h.orderly.texts hpath file⟩
      · exact hblock.symm ▸ hb
      · exact List.mem_append_right _ (hblock ▸ List.mem_cons_self)
  · rw [happ]
    by_cases heq : other = path
    · subst heq
      rw [h.itemsOf_eq_nil hunseen, hown, List.nil_append]
      exact Or.inr ⟨text, h.files ▸ file, hsame.hash ▸ changed, rfl⟩
    · rw [hothers heq, List.append_nil]
      exact h.waiting hother
  · obtain ⟨taken, ht⟩ := h.tallied
    refine ⟨_, ht.take hpath hunseen (h.files ▸ file) (fun item hitem => ?_) (fun hnone => ?_)
      fun _ _ => rfl⟩
    · obtain ⟨block, hb, rfl⟩ := List.mem_map.1 hitem
      exact filePath_of_mem_blocks hb
    · exact absurd (List.map_eq_nil_iff.1 hnone) hblocks

/-- A file without blocks loses its older points, if it had any, and gets its hash; if the points cannot
be deleted, nothing happens to it. -/
theorem Scanning.empty (distinct : e.Distinct) (h : e.Scanning L₀ seen state L)
    (hpath : e.paths path) (hunseen : path ∉ seen) (file : L.files path = some text)
    (changed : L.hashes.get? path ≠ some (contentHash text)) (hblocks : e.blocks path text = [])
    {L₁ : Scene} (hdeleted : L₁ = L.deletePoints [e.name path] ∧ (L.hashes.get? path).isSome ∨
      L₁ = L ∧ L.hashes.get? path = none) :
    e.Scanning L₀ (seen ++ [path]) state (L₁.record path (contentHash text)) := by
  have hsame := h.untouched hpath (Or.inl hunseen)
  have hnot : ∀ {other}, e.paths other → other ≠ path → e.name other ∉ [e.name path] :=
    fun hother hne hin => hne (distinct.names hother hpath (List.mem_singleton.1 hin))
  have hget : (L₁.record path (contentHash text)).hashes.get? path = some (contentHash text) := by
    rw [Scene.get?_record, if_pos rfl]
  have hlen : ([] : List Vector32).length = (e.blocks path text).length := by
    rw [hblocks]
    rfl
  have hnone : e.points path text [] = [] := by
    rw [points, hblocks]
    rfl
  have htallied : ∃ taken, e.Tallied L₀ taken (seen ++ [path]) state.found state.buffer
      (L₁.record path (contentHash text)) := by
    obtain ⟨taken, ht⟩ := h.tallied
    refine ⟨taken ++ [(path, text)], ?_⟩
    have hothers : ∀ {other}, e.paths other → other ≠ path →
        (L₁.record path (contentHash text)).hashes.get? other = L.hashes.get? other := by
      intro other _ hne
      rw [Scene.get?_record, if_neg hne]
      rcases hdeleted with ⟨rfl, -⟩ | ⟨rfl, -⟩
      · rfl
      · rfl
    have htaken := ht.take hpath hunseen (h.files ▸ file) (List.forall_mem_nil _) (fun _ => hget) hothers
    rwa [hblocks, List.length_nil, Nat.add_zero, List.append_nil] at htaken
  rw [hsame.hash] at hdeleted changed
  rcases hdeleted with ⟨rfl, hcached⟩ | ⟨rfl, hcached⟩
  · refine h.change hunseen (h.orderly.deletePoints.record hpath) rfl
      (fun hother hne => (Same.deletePoints (hnot hother hne)).trans (Same.record hne)) ?_ htallied
    refine .stored (h.files ▸ file) changed hget hlen (.deleted hcached hsame.refused) fun q => ?_
    rw [hnone]
    show q ∈ (L.deletePoints [e.name path]).pointsOf (e.name path) ↔ q ∈ []
    rw [Scene.pointsOf_deletePoints, if_pos (List.mem_singleton_self _)]
  · refine h.change hunseen (h.orderly.record hpath) rfl
      (fun hother hne => Same.record hne) ?_ htallied
    refine .stored (h.files ▸ file) changed hget hlen (.unknown hcached hsame.refused) fun q => ?_
    rw [hnone]
    exact hsame.points q

theorem ensures_gather (distinct : e.Distinct) (serves : e.Serves s) (quiet : e.Quiet mode)
    {blocks : List PendingBlock}
    (h : e.Scanning L₀ seen { state with buffer := state.buffer ++ blocks } L) :
    (Scan.gather s mode state blocks).Ensures e.rules L fun state' L' =>
      e.Scanning L₀ seen state' L' := by
  unfold Scan.gather
  dsimp only
  split
  · exact (ensures_submit distinct serves quiet h).mono fun _ _ h' => h'.2
  · exact Program.ensures_pure.2 h

/-- A deletion that is asked for under a condition is made, refused, or not asked for. -/
theorem ensures_deleteIf_bind {α : Type} {condition : Bool} {post : α → Scene → Prop}
    {f : Except ServiceError Unit → Procedure α}
    (made : ∀ L', condition = true ∧ L' = L.deletePoints paths ∨ condition = false ∧ L' = L →
      (f (.ok ())).Ensures e.rules L' post)
    (refused : ∀ failure, (∃ paths, e.fails (.deletePoints paths)) →
      (f (.error failure)).Ensures e.rules (L.refuse paths) post) :
    Program.Ensures e.rules
      (if condition then ask (.deletePoints paths) >>= f else pure (.ok ()) >>= f) L post := by
  cases condition with
  | false => exact Program.ensures_bind.2 (Program.ensures_pure.2 (made L (Or.inr ⟨rfl, rfl⟩)))
  | true =>
    refine ensures_ask_bind fun x L' hx => ?_
    rcases hx with ⟨rfl, rfl⟩ | ⟨hfails, ⟨failure, rfl⟩, rfl⟩
    · exact made _ (Or.inl ⟨rfl, rfl⟩)
    · exact refused failure ⟨_, hfails⟩

/-- A deletion of a file's older points that is refused keeps the invariant. -/
theorem Scanning.refuse (distinct : e.Distinct) (h : e.Scanning L₀ seen state L)
    (hpath : e.paths path) (hunseen : path ∉ seen) :
    e.Scanning L₀ (seen ++ [path]) state (L.refuse [e.name path]) := by
  have hsame := h.untouched hpath (Or.inl hunseen)
  refine h.change hunseen h.orderly.refuse rfl (fun {other} hother hne => Same.refuse ?_)
    (.kept hsame.hash hsame.points)
    (h.tallied.imp fun _ ht => ht.mono (List.subset_append_left ..) fun _ => Or.inl rfl)
  exact fun hin => hne (distinct.names hother hpath (List.mem_singleton.1 hin))

/-- Taking the blocks of a new or changed file keeps the invariant, and the file was looked at. -/
theorem ensures_takeBlocks (distinct : e.Distinct) (serves : e.Serves s) (quiet : e.Quiet mode)
    (indexes : mode.indexes = true) (h : e.Scanning L₀ seen state L) (hpath : e.paths path)
    (hunseen : path ∉ seen) (file : L.files path = some text)
    (changed : L.hashes.get? path ≠ some (contentHash text)) :
    (Scan.takeBlocks s mode state path (contentHash text) (L.hashes.get? path).isSome
      (e.blocks path text)).Ensures e.rules L fun x L' =>
        e.Scanning L₀ (seen ++ [path]) x.1 L' := by
  have hname : Path.relativeTo s.root path = e.name path := by
    rw [serves.1]
    rfl
  unfold Scan.takeBlocks
  refine (quiet _ L).bind fun _ L₁ h₁ => ?_
  subst h₁
  simp only [indexes, Bool.not_true, Bool.false_eq_true, if_false]
  split
  · rename_i hempty
    have hblocks := List.isEmpty_iff.1 hempty
    have hfound : state.found + (e.blocks path text).length = state.found := by
      rw [hblocks, List.length_nil, Nat.add_zero]
    refine ensures_deleteIf_bind (fun L₂ hdeleted => ?_) fun failure _ => ?_
    · refine ensures_record_bind (Program.ensures_pure.2 ?_)
      refine (h.empty distinct hpath hunseen file changed hblocks ?_).of_eq rfl rfl hfound
      rw [hname] at hdeleted
      rcases hdeleted with ⟨hcached, hL⟩ | ⟨hcached, hL⟩
      · exact Or.inl ⟨hL, hcached⟩
      · exact Or.inr ⟨hL, by simpa using hcached⟩
    · refine Program.ensures_pure.2 ?_
      rw [hname]
      exact (h.refuse distinct hpath hunseen).of_eq rfl rfl hfound
  · rename_i hsome
    have hblocks : e.blocks path text ≠ [] := fun hnone => hsome (List.isEmpty_iff.2 hnone)
    refine Program.Ensures.bind (ensures_gather distinct serves quiet
      ((h.join hpath hunseen file changed hblocks).of_eq rfl rfl rfl)) fun state' L₂ h₂ => ?_
    exact Program.ensures_pure.2 h₂

/-- Scanning a file keeps the invariant, and the file was looked at. -/
theorem ensures_scanFile (distinct : e.Distinct) (serves : e.Serves s) (quiet : e.Quiet mode)
    (indexes : mode.indexes = true) (h : e.Scanning L₀ seen state L) (hpath : e.paths path)
    (hunseen : path ∉ seen) :
    (Scan.scanFile s mode state path).Ensures e.rules L fun x L' =>
      e.Scanning L₀ (seen ++ [path]) x.1 L' := by
  unfold Scan.scanFile
  refine ensures_idle_bind (fun _ _ hx => hx) fun x => ?_
  cases x with
  | error failure => exact Program.ensures_pure.2 (h.pass path)
  | ok size =>
    dsimp only
    split
    · exact Program.ensures_pure.2 ((h.pass path).of_eq rfl rfl rfl)
    · refine ensures_ask_bind fun y L₁ ⟨hL, hread⟩ => ?_
      rw [hL]
      cases y with
      | error failure => exact Program.ensures_pure.2 (h.pass path)
      | ok text =>
        refine ensures_ask_bind fun hashes L₂ ⟨hL₂, hhashes⟩ => ?_
        subst hhashes
        rw [hL₂]
        split
        · exact Program.ensures_pure.2 ((h.pass path).of_eq rfl rfl rfl)
        · rename_i hchanged
          have hblocks : Chunk.parse s.trees s.tuning.chunk path text (contentHash text) =
              e.blocks path text := by
            rw [serves.2.1, serves.2.2]
            rfl
          rw [hblocks]
          exact ensures_takeBlocks distinct serves quiet indexes h hpath hunseen (hread text rfl)
            (by simpa using hchanged)

/-- Scanning files one after the other keeps the invariant, and all of them were looked at. -/
theorem ensures_scanFiles (distinct : e.Distinct) (serves : e.Serves s) (quiet : e.Quiet mode)
    (indexes : mode.indexes = true) {todo : List String} (h : e.Scanning L₀ seen state L)
    (hpaths : ∀ path ∈ todo, e.paths path) (hnodup : (seen ++ todo).Nodup) :
    (Scan.scanFiles s mode state todo).Ensures e.rules L fun state' L' =>
      e.Scanning L₀ (seen ++ todo) state' L' := by
  induction todo generalizing seen state L with
  | nil => exact Program.ensures_pure.2 (by rwa [List.append_nil])
  | cons path todo ih =>
    unfold Scan.scanFiles
    have hunseen : path ∉ seen := fun hin =>
      (List.nodup_append.1 hnodup).2.2 path hin path List.mem_cons_self rfl
    have happ : seen ++ path :: todo = (seen ++ [path]) ++ todo := by simp
    rw [happ] at hnodup ⊢
    have hrest : ∀ other ∈ todo, e.paths other :=
      fun other hin => hpaths other (List.mem_cons_of_mem path hin)
    refine (ensures_scanFile distinct serves quiet indexes h (hpaths path List.mem_cons_self)
      hunseen).bind fun x L₁ h₁ => ?_
    obtain ⟨state₁, error⟩ := x
    cases error with
    | none => exact Program.ensures_bind.2 (Program.ensures_pure.2 (ih h₁ hrest hnodup))
    | some error =>
      refine (quiet _ L₁).bind fun _ L₂ h₂ => ?_
      rw [h₂]
      exact ih h₁ hrest hnodup

/-! ## The end of a scan -/

theorem ensures_tellErrors (quiet : e.Quiet mode) {messages : List String} :
    (Scan.tellErrors mode messages).Ensures e.rules L fun _ L' => L' = L := by
  induction messages with
  | nil => exact Program.ensures_pure.2 rfl
  | cons message messages ih =>
    refine (quiet _ L).bind fun _ L₁ h₁ => ?_
    rw [h₁]
    exact ih

/-- The files with failed items leave the cache. -/
theorem ensures_settle (quiet : e.Quiet mode) {batches : BatchResult} :
    (Scan.settle mode batches).Ensures e.rules L fun _ L' => L' = L.forget batches.failedFiles := by
  unfold Scan.settle
  refine (ensures_tellErrors quiet).bind fun _ L₁ h₁ => ?_
  rw [h₁]
  refine Program.ensures_ite (fun _ => ensures_ask fun _ _ h => h) fun hempty => ?_
  · have hnil : batches.failedFiles = [] := by simpa using hempty
    rw [hnil]
    exact Program.ensures_pure.2 rfl

/-- What becomes of the files that are cached but no longer listed: they lose points and hash, unless the
deletion is refused. -/
theorem ensures_removeVanished (serves : e.Serves s) (quiet : e.Quiet mode)
    (indexes : mode.indexes = true) {listed : List String} :
    (Scan.removeVanished s mode listed).Ensures e.rules L fun _ L' =>
      ∃ vanished : List String,
        (∀ path, path ∈ vanished ↔ (L.hashes.get? path).isSome ∧ path ∉ listed) ∧
        (L' = (L.deletePoints (vanished.map e.name)).forget vanished ∨
          (∃ paths, e.fails (.deletePoints paths)) ∧ L' = L.refuse (vanished.map e.name)) := by
  have hname : Path.relativeTo s.root = e.name := by
    rw [serves.1]
    rfl
  unfold Scan.removeVanished
  refine ensures_ask_bind fun hashes L₁ ⟨hL, hhashes⟩ => ?_
  subst hhashes
  rw [hL]
  have hvanished : ∀ path, path ∈ ((L.hashes.map (·.1)).filter fun path => !listed.contains path) ↔
      (L.hashes.get? path).isSome ∧ path ∉ listed := by
    intro path
    rw [List.mem_filter, Hashes.isSome_get?_iff]
    simp
  refine Program.ensures_ite (fun hempty => ?_) fun _ => ?_
  · refine Program.ensures_pure.2 ⟨_, hvanished, Or.inl ?_⟩
    rw [List.isEmpty_iff.1 hempty]
    exact (Scene.deletePoints_nil L).symm
  · refine ensures_deleteIf_bind (fun L₂ hmade => ?_) fun failure hfails => ?_
    · rw [hname] at hmade
      rcases hmade with ⟨-, rfl⟩ | ⟨hfalse, -⟩
      · exact ensures_ask fun _ _ h => ⟨_, hvanished, Or.inl h⟩
      · rw [indexes] at hfalse
        cases hfalse
    · refine (quiet _ _).mono fun _ L₂ h₂ => ⟨_, hvanished, Or.inr ⟨hfails, ?_⟩⟩
      rw [h₂, hname]

/-- The name of a file is not among those of other files of the cache. -/
theorem name_notMem_map (distinct : e.Distinct) (ho : e.Orderly L) {others : List String}
    (hpath : e.paths path) (hothers : ∀ other ∈ others, (L.hashes.get? other).isSome)
    (h : path ∉ others) : e.name path ∉ others.map e.name := by
  intro hmem
  obtain ⟨other, hother, heq⟩ := List.mem_map.1 hmem
  obtain ⟨hash, hhash⟩ := Option.isSome_iff_exists.1 (hothers other hother)
  exact h (distinct.names (ho.cached hhash) hpath heq ▸ hother)

/-- What a scan leaves of a scene it found. -/
structure Swept (e : Premises) (L₀ L : Scene) : Prop where
  orderly : e.Orderly L
  files : L.files = L₀.files
  scanned : ∀ {path}, e.paths path →
    L.hashes.get? path = none ∧ ((∃ a, e.fails a) ∨ (L₀.hashes.get? path).isSome) ∨
      e.Scanned path L₀ L

section
variable {listed vanished : List String}

/-- Files that vanished leave the cache; the others are as the scan left them. -/
theorem Scanning.swept (distinct : e.Distinct) (h : e.Scanning L₀ listed state L)
    (hvanished : ∀ path ∈ vanished,
      ((L.forget state.batches.failedFiles).hashes.get? path).isSome ∧ path ∉ listed)
    (hL' : L' = ((L.forget state.batches.failedFiles).deletePoints
        (vanished.map e.name)).forget vanished ∨
      L' = (L.forget state.batches.failedFiles).refuse (vanished.map e.name)) :
    e.Swept L₀ L' := by
  have ho : e.Orderly (L.forget state.batches.failedFiles) := h.orderly.forget
  refine ⟨?_, ?_, fun {path} hpath => ?_⟩
  · rcases hL' with rfl | rfl
    · exact ho.deletePoints.forget
    · exact ho.refuse
  · rcases hL' with rfl | rfl
    · exact h.files
    · exact h.files
  · by_cases hlost : path ∈ state.batches.failedFiles
    · refine Or.inl ⟨?_, Or.inl (h.fails (BatchResult.mem_failedFiles.1 hlost))⟩
      have hnone : (L.forget state.batches.failedFiles).hashes.get? path = none := by
        rw [Scene.get?_forget, if_pos hlost]
      rcases hL' with rfl | rfl
      · rw [Scene.get?_forget, Scene.deletePoints_hashes, hnone, ite_self]
      · exact hnone
    · have hscanned := (h.settled hpath).resolve_left fun hl =>
        hlost (BatchResult.mem_failedFiles.2 hl)
      have hforget : e.Same path L (L.forget state.batches.failedFiles) := Same.forget hlost
      by_cases hin : path ∈ vanished
      · have hsame := (h.untouched hpath (Or.inl (hvanished path hin).2)).trans hforget
        rcases hL' with rfl | rfl
        · refine Or.inl ⟨?_, Or.inr (hsame.hash ▸ (hvanished path hin).1)⟩
          rw [Scene.get?_forget, if_pos hin]
        · exact Or.inr (.kept hsame.hash hsame.points)
      · right
        have hname := name_notMem_map distinct ho hpath (fun other h => (hvanished other h).1) hin
        rcases hL' with rfl | rfl
        · exact hscanned.same (hforget.trans ((Same.deletePoints hname).trans (Same.forget hin)))
        · exact hscanned.same (hforget.trans (Same.refuse hname))

/-- The tally of a scan is right to its end. -/
theorem Scanning.tallied_end (h : e.Scanning L₀ listed state L) (hbuffer : state.buffer = [])
    (hvanished : ∀ path ∈ vanished,
      ((L.forget state.batches.failedFiles).hashes.get? path).isSome ∧ path ∉ listed)
    (hL' : L' = ((L.forget state.batches.failedFiles).deletePoints
        (vanished.map e.name)).forget vanished ∨
      L' = (L.forget state.batches.failedFiles).refuse (vanished.map e.name)) :
    ∃ taken, e.Tallied L₀ taken listed state.found [] L' := by
  obtain ⟨taken, ht⟩ := h.tallied
  rw [hbuffer] at ht
  refine ⟨taken, ht.mono (List.Subset.refl _) fun {path} hpath => ?_⟩
  have hforget : (L.forget state.batches.failedFiles).hashes.get? path = L.hashes.get? path ∨
      (L.forget state.batches.failedFiles).hashes.get? path = none ∧ ∃ a, e.fails a := by
    rw [Scene.get?_forget]
    split
    · rename_i hlost
      exact Or.inr ⟨rfl, h.fails (BatchResult.mem_failedFiles.1 hlost)⟩
    · exact Or.inl rfl
  rcases hL' with rfl | rfl
  · rw [Scene.get?_forget, Scene.deletePoints_hashes]
    split
    · rename_i hin
      refine Or.inr ⟨rfl, fun htaken => ?_⟩
      obtain ⟨v, hv, rfl⟩ := List.mem_map.1 htaken
      exact absurd (ht.looked v hv).2.1 (hvanished _ hin).2
    · exact hforget.imp_right fun h => ⟨h.1, fun _ => h.2⟩
  · exact hforget.imp_right fun h => ⟨h.1, fun _ => h.2⟩

end

/-- After a scan every file of the workspace has left the cache, or it was kept as it was, or its points
and its hash are those of its text; and the blocks that were found are those of the files that were
taken. -/
theorem ensures_scan (distinct : e.Distinct) (serves : e.Serves s) (quiet : e.Quiet mode)
    (indexes : mode.indexes = true) (ho : e.Orderly L) :
    (scan s mode).Ensures e.rules L fun result L' => e.Swept L L' ∧
      ∃ taken seen, e.Tallied L taken seen result.total [] L' := by
  unfold scan
  refine ensures_ask_bind fun found L₁ ⟨hL, hnodup, hfound⟩ => ?_
  rw [hL]
  have hlisted : ∀ path ∈ List.filter s.rules.accepts found, e.paths path :=
    fun path hpath => hfound path (List.mem_of_mem_filter hpath)
  refine (ensures_scanFiles distinct serves quiet indexes (Scanning.start ho) hlisted
    (hnodup.filter _)).bind fun state L₂ h₂ => ?_
  have hend : ∀ {state' : ScanState} {L₃}, state'.buffer = [] →
      e.Scanning L (List.filter s.rules.accepts found) state' L₃ →
      ∀ {post : ScanResult}, post.total = state'.found → Program.Ensures e.rules (do
        Scan.settle mode state'.batches
        Scan.removeVanished s mode (List.filter s.rules.accepts found)
        pure post) L₃ fun result L' => e.Swept L L' ∧
          ∃ taken seen, e.Tallied L taken seen result.total [] L' := by
    intro state' L₃ hbuffer h₃ post htotal
    refine (ensures_settle quiet).bind fun _ L₄ h₄ => ?_
    refine (ensures_removeVanished serves quiet indexes).bind fun _ L₅ h₅ => ?_
    refine Program.ensures_pure.2 ?_
    rw [h₄] at h₅
    rw [htotal]
    obtain ⟨vanished, hvanished, hcases⟩ := h₅
    have hcases := hcases.imp_right And.right
    have hgone := fun path => (hvanished path).1
    exact ⟨h₃.swept distinct hgone hcases, (h₃.tallied_end hbuffer hgone hcases).imp fun _ h => ⟨_, h⟩⟩
  split
  · rename_i hempty
    exact hend (List.isEmpty_iff.1 hempty) h₂ rfl
  · refine (ensures_submit distinct serves quiet (h₂.of_eq rfl rfl rfl)).bind fun state' L₃ h₃ => ?_
    exact hend h₃.1 h₃.2 rfl

end

end SourceIndex.Premises
