import SourceIndex.Proofs.Index.Agreement
/-!
# What a batch leaves behind

A batch goes through its segments one by one. `ensures_runSegment` says what one segment leaves: all of its
points with the hashes of their files, or only some of its points and its items marked as failed.
`Premises.Took` is what this means for one file, and `ensures_process` is the whole batch: every file
without a failed item has got all of its points and its hash.
-/

namespace SourceIndex

/-! ## Retrying -/

/-- Trying an operation until it succeeds ensures what one try ensures, provided that a failed try leaves
behind a state to try again from. -/
theorem RetryPolicy.ensures_run {I : Interface} {σ ε α : Type} {rules : Program.Rules I σ}
    {p : RetryPolicy} {pause : Nat → Program I Unit} {operation : Program I (Except ε α)}
    (again : σ → Prop) (post : Except ε α → σ → Prop)
    (idle : ∀ d s, (pause d).Ensures rules s fun _ s' => s' = s)
    (once : ∀ s, again s → operation.Ensures rules s fun x s' =>
      post x s' ∧ ∀ failure, x = .error failure → again s')
    {s : σ} (hs : again s) : (p.run pause operation).Ensures rules s post := by
  have go : ∀ more attempt s, again s →
      (p.runFrom pause operation attempt more).Ensures rules s post := by
    intro more
    induction more with
    | zero => exact fun _ s hs => (once s hs).mono fun _ _ h => h.1
    | succ more ih =>
      intro attempt s hs
      refine (once s hs).bind fun x s₁ hx => ?_
      cases x with
      | ok a => exact Program.ensures_pure.2 hx.1
      | error failure =>
        refine (idle _ s₁).bind fun _ s₂ h₂ => ?_
        exact ih _ s₂ (h₂ ▸ hx.2 failure rfl)
  exact go _ _ s hs

/-! ## Results of batches -/

namespace BatchResult

/-- Some item of the file failed. -/
def Lost (r : BatchResult) (path : String) : Prop :=
  ∃ i ∈ r.items, i.filePath = path ∧ i.success = false

theorem not_lost_empty (path : String) : ¬Lost {} path := by
  rintro ⟨_, h, -⟩
  cases h

theorem lost_merge {a b : BatchResult} {path : String} :
    (a.merge b).Lost path ↔ a.Lost path ∨ b.Lost path := by
  simp only [Lost, merge, List.mem_append, or_and_right, exists_or]

/-- The files with a failed item are those that are to leave the cache. -/
theorem mem_failedFiles {r : BatchResult} {path : String} :
    path ∈ r.failedFiles ↔ r.Lost path := by
  simp only [failedFiles, Text.sortDistinct, Text.sort, List.mem_eraseDups, List.mem_mergeSort,
    List.mem_map, List.mem_filter, Lost]
  constructor
  · rintro ⟨i, ⟨hi, hs⟩, rfl⟩
    exact ⟨i, hi, rfl, by simpa using hs⟩
  · rintro ⟨i, hi, rfl, hs⟩
    exact ⟨i, ⟨hi, by simpa using hs⟩, rfl⟩

end BatchResult

theorem Batch.not_lost_succeeded {α : Type} {strategy : BatchStrategy α} {segment : List α}
    {path : String} : ¬(Batch.succeeded strategy segment).Lost path := by
  rintro ⟨i, hi, -, hs⟩
  obtain ⟨_, -, rfl⟩ := List.mem_map.1 hi
  cases hs

theorem Batch.lost_gaveUp {α : Type} {strategy : BatchStrategy α} {limits : BatchLimits}
    {segment : List α} {message path : String} :
    (Batch.gaveUp strategy limits segment message).Lost path ↔
      ∃ item ∈ segment, strategy.filePath item = path := by
  constructor
  · rintro ⟨i, hi, rfl, -⟩
    obtain ⟨item, hitem, rfl⟩ := List.mem_map.1 hi
    exact ⟨item, hitem, rfl⟩
  · rintro ⟨item, hitem, rfl⟩
    exact ⟨_, List.mem_map.2 ⟨item, hitem, rfl⟩, rfl, rfl⟩

theorem flatten_segmentsOf {α : Type} (size : Nat) (items : List α) :
    (segmentsOf size items).flatten = items := by
  fun_induction segmentsOf size items with
  | case1 => rfl
  | case2 item rest ih => rw [List.flatten_cons, ih, List.cons_append, List.take_append_drop]

namespace Premises

variable {e : Premises} {L L' : Scene} {items segment : List PendingBlock} {path : String}

/-- The point of an item. -/
def itemPoint (e : Premises) (item : PendingBlock) (vector : Vector32) : Point :=
  Point.ofBlock e.root item.block vector

/-- An item holds a block of some version of its file. -/
def Pends (e : Premises) (item : PendingBlock) : Prop :=
  ∃ text, e.Version item.block.filePath text ∧ item.block ∈ e.blocks item.block.filePath text

/-- The items of one file. -/
def itemsOf (path : String) (items : List PendingBlock) : List PendingBlock :=
  items.filter fun item => item.block.filePath == path

/-- Points of some items, whatever their vectors. -/
def PartOf (e : Premises) (segment : List PendingBlock) (part : List Point) : Prop :=
  ∀ q ∈ part, ∃ item ∈ segment, ∃ vector, q = e.itemPoint item vector

/-- The cache after the hashes of items were entered. -/
def recordAll (items : List PendingBlock) (L : Scene) : Scene :=
  items.foldl (fun L item => L.record item.block.filePath item.block.fileHash) L

theorem Pends.known {item : PendingBlock} (h : e.Pends item) (vector : Vector32) :
    e.Known (e.itemPoint item vector) := by
  obtain ⟨text, version, hb⟩ := h
  exact .ofBlock version hb vector

theorem Pends.filePath {item : PendingBlock} (h : e.Pends item) (vector : Vector32) :
    (e.itemPoint item vector).payload.filePath = e.name item.block.filePath := by
  obtain ⟨text, version, hb⟩ := h
  exact filePath_ofBlock hb vector

theorem Pends.paths {item : PendingBlock} (h : e.Pends item) : e.paths item.block.filePath := by
  obtain ⟨text, version, -⟩ := h
  exact version.1

theorem partOf_zipWith (vectors : List Vector32) :
    e.PartOf segment (segment.zipWith e.itemPoint vectors) :=
  fun _ => exists_of_mem_zipWith

theorem PartOf.known {part : List Point} (h : e.PartOf segment part)
    (hs : ∀ item ∈ segment, e.Pends item) : ∀ q ∈ part, e.Known q := by
  intro q hq
  obtain ⟨item, hitem, vector, rfl⟩ := h q hq
  exact (hs item hitem).known vector

/-- If there is a vector for every item, every item has its point. -/
theorem exists_mem_zipWith {item : PendingBlock} (h : item ∈ segment) {vectors : List Vector32}
    (hlen : vectors.length = segment.length) :
    ∃ vector, e.itemPoint item vector ∈ segment.zipWith e.itemPoint vectors := by
  induction segment generalizing vectors with
  | nil => cases h
  | cons first segment ih =>
    cases vectors with
    | nil => cases hlen
    | cons vector vectors =>
      rw [List.zipWith_cons_cons]
      rcases List.mem_cons.1 h with rfl | h
      · exact ⟨vector, List.mem_cons_self⟩
      · obtain ⟨vector', hmem⟩ := ih h (Nat.succ.inj hlen)
        exact ⟨vector', List.mem_cons_of_mem _ hmem⟩

/-- Every identifier of a part of a segment's points is written when all of them are. -/
theorem PartOf.covered {part : List Point} (h : e.PartOf segment part) {vectors : List Vector32}
    (hlen : vectors.length = segment.length) :
    ∀ r ∈ part, ∃ p ∈ segment.zipWith e.itemPoint vectors, p.id = r.id := by
  intro r hr
  obtain ⟨item, hitem, vector, rfl⟩ := h r hr
  obtain ⟨vector', hmem⟩ := exists_mem_zipWith hitem hlen
  exact ⟨_, hmem, rfl⟩

theorem recordAll_points : (recordAll items L).points = L.points := by
  induction items generalizing L with
  | nil => rfl
  | cons item items ih => exact ih

theorem recordAll_files : (recordAll items L).files = L.files := by
  induction items generalizing L with
  | nil => rfl
  | cons item items ih => exact ih

theorem recordAll_refused : (recordAll items L).refused = L.refused := by
  induction items generalizing L with
  | nil => rfl
  | cons item items ih => exact ih

/-- After the hashes of items were entered, a file has the hash of its last item. -/
theorem get?_recordAll : (recordAll items L).hashes.get? path =
    ((itemsOf path items).getLast?.map (·.block.fileHash)).or (L.hashes.get? path) := by
  induction items generalizing L with
  | nil => rfl
  | cons item items ih =>
    refine (ih.trans ?_ : (recordAll items _).hashes.get? path = _)
    rw [Scene.get?_record, itemsOf, itemsOf, List.filter_cons]
    by_cases h : item.block.filePath = path
    · rw [if_pos h.symm, if_pos (by simpa using h), List.getLast?_cons]
      cases (items.filter fun item => item.block.filePath == path).getLast? with
      | none => rfl
      | some last => rfl
    · rw [if_neg (Ne.symm h), if_neg (by simpa using h)]

theorem Orderly.recordAll (h : e.Orderly L) (hs : ∀ item ∈ items, e.Pends item) :
    e.Orderly (recordAll items L) := by
  induction items generalizing L with
  | nil => exact h
  | cons item items ih =>
    exact ih (h.record (hs item List.mem_cons_self).paths)
      fun item' h' => hs item' (List.mem_cons_of_mem item h')

/-! ## What one file has got -/

/-- From one scene to another a file has got the points of all of its items and their hash. -/
structure Took (e : Premises) (items : List PendingBlock) (path : String) (L L' : Scene) :
    Prop where
  points : ∃ vectors, vectors.length = (itemsOf path items).length ∧
    ∀ q, q ∈ L'.pointsOf (e.name path) ↔
      q ∈ ((itemsOf path items).zipWith e.itemPoint vectors).foldl MemoryStore.put
        (L.pointsOf (e.name path))
  hash : L'.hashes.get? path =
    ((itemsOf path items).getLast?.map (·.block.fileHash)).or (L.hashes.get? path)

/-- A file without items keeps its points and its hash. -/
theorem Took.of_not_mem (hitems : itemsOf path items = [])
    (hmem : ∀ q, q ∈ L'.pointsOf (e.name path) ↔ q ∈ L.pointsOf (e.name path))
    (hget : L'.hashes.get? path = L.hashes.get? path) : e.Took items path L L' where
  points := ⟨[], by rw [hitems]; rfl, by rw [hitems]; exact hmem⟩
  hash := by rw [hitems, hget]; rfl

/-- What a file takes from one list of items and then from another it takes from both together. -/
theorem Took.append {L₁ : Scene} {more : List PendingBlock} (h : e.Took items path L L₁)
    (h' : e.Took more path L₁ L') : e.Took (items ++ more) path L L' := by
  obtain ⟨⟨vectors, hlen, hmem⟩, hhash⟩ := h
  obtain ⟨⟨vectors', hlen', hmem'⟩, hhash'⟩ := h'
  have happ : itemsOf path (items ++ more) = itemsOf path items ++ itemsOf path more :=
    List.filter_append ..
  refine ⟨⟨vectors ++ vectors', ?_, fun q => ?_⟩, ?_⟩
  · rw [happ, List.length_append, List.length_append, hlen, hlen']
  · rw [happ, List.zipWith_append hlen.symm, List.foldl_append, hmem']
    exact MemoryStore.mem_foldl_put_congr hmem
  · rw [hhash', hhash, happ, List.getLast?_append]
    cases (itemsOf path more).getLast? with
    | none => rfl
    | some last => rfl

/-- Of the points of some items, those of one file are the points of its items. -/
theorem exists_pointsOf_zipWith (distinct : e.Distinct) (hs : ∀ item ∈ items, e.Pends item)
    (hpath : e.paths path) {vectors : List Vector32} (hlen : vectors.length = items.length) :
    ∃ own : List Vector32, own.length = (itemsOf path items).length ∧
      MemoryStore.pointsOf (e.name path) (items.zipWith e.itemPoint vectors) =
        (itemsOf path items).zipWith e.itemPoint own := by
  induction items generalizing vectors with
  | nil => exact ⟨[], rfl, rfl⟩
  | cons item items ih =>
    cases vectors with
    | nil => cases hlen
    | cons vector vectors =>
      obtain ⟨own, hown, hpoints⟩ :=
        ih (fun item' h' => hs item' (List.mem_cons_of_mem item h')) (Nat.succ.inj hlen)
      have hitem := hs item List.mem_cons_self
      have hname := hitem.filePath vector
      unfold MemoryStore.pointsOf at hpoints ⊢
      unfold itemsOf at hpoints hown ⊢
      rw [List.zipWith_cons_cons, List.filter_cons, List.filter_cons, hpoints, hname]
      by_cases h : item.block.filePath = path
      · rw [if_pos (by simp [h]), if_pos (by simp [h])]
        exact ⟨vector :: own, congrArg Nat.succ hown, rfl⟩
      · have hne : e.name item.block.filePath ≠ e.name path :=
          fun heq => h (distinct.names hitem.paths hpath heq)
        rw [if_neg (by simpa using h), if_neg (by simpa using hne)]
        exact ⟨own, hown, rfl⟩

/-- What a segment that was stored leaves: every file has got the points of all of its items. -/
theorem took_of_stored (distinct : e.Distinct) (ho : e.Orderly L)
    (hs : ∀ item ∈ segment, e.Pends item) {part : List Point} (hpart : e.PartOf segment part)
    {vectors : List Vector32} (hlen : vectors.length = segment.length) (hpath : e.paths path) :
    e.Took segment path L
      (recordAll segment ((L.upsert part).upsert (segment.zipWith e.itemPoint vectors))) := by
  obtain ⟨own, hown, hpoints⟩ := exists_pointsOf_zipWith distinct hs hpath hlen
  refine ⟨⟨own, hown, fun q => ?_⟩, get?_recordAll⟩
  rw [Scene.pointsOf, recordAll_points, ← hpoints]
  exact mem_pointsOf_upsert_upsert distinct ho ((partOf_zipWith vectors).known hs)
    (hpart.covered hlen)

/-- What a segment that was not stored leaves: the files without items in it have all they had. -/
theorem took_of_lost (distinct : e.Distinct) (ho : e.Orderly L)
    (hs : ∀ item ∈ segment, e.Pends item) {part : List Point} (hpart : e.PartOf segment part)
    (hpath : e.paths path) (hnot : ∀ item ∈ segment, item.block.filePath ≠ path) :
    e.Took segment path L (L.upsert part) := by
  refine Took.of_not_mem (List.filter_eq_nil_iff.2 (by simpa using hnot)) (fun q => ?_) rfl
  rw [pointsOf_upsert_of_ne distinct ho (hpart.known hs)]
  intro r hr
  obtain ⟨item, hitem, vector, rfl⟩ := hpart r hr
  rw [(hs item hitem).filePath]
  exact fun heq => hnot item hitem (distinct.names (hs item hitem).paths hpath heq)

/-! ## Runs of a batch -/

/-- One try stores all points of a segment, or fails and may have stored some of them. -/
theorem ensures_embedAndUpsert :
    (Batch.embedAndUpsert (blockStrategy e.root) segment).Ensures e.rules L fun x L' =>
      x = .ok () ∧ (∃ vectors, vectors.length = segment.length ∧
        L' = L.upsert (segment.zipWith e.itemPoint vectors)) ∨
      (∃ failure, x = .error failure) ∧ (∃ a, e.fails a) ∧
        ∃ part, e.PartOf segment part ∧ L' = L.upsert part := by
  unfold Batch.embedAndUpsert
  refine ensures_ask_bind fun x L₁ ⟨hL, hx⟩ => ?_
  rw [hL]
  cases x with
  | error failure =>
    rcases hx with ⟨_, hx, -⟩ | hfails
    · cases hx
    · exact Program.ensures_pure.2 (Or.inr ⟨⟨_, rfl⟩, ⟨_, hfails⟩, [], nofun, rfl⟩)
  | ok embeddings =>
    dsimp only
    split
    · rename_i hlen
      rcases hx with ⟨_, hx, hlen'⟩ | hfails
      · cases hx
        rw [List.length_map] at hlen'
        simp [hlen'] at hlen
      · exact Program.ensures_pure.2 (Or.inr ⟨⟨_, rfl⟩, ⟨_, hfails⟩, [], nofun, rfl⟩)
    · rename_i hlen
      have hlen : embeddings.vectors.length = segment.length := by simpa using hlen
      refine ensures_ask_bind fun y L₂ hy => ?_
      rcases hy with ⟨rfl, rfl⟩ | ⟨hfails, ⟨failure, rfl⟩, part, hpart, rfl⟩
      · exact Program.ensures_pure.2 (Or.inl ⟨rfl, embeddings.vectors, hlen, rfl⟩)
      · exact Program.ensures_pure.2 (Or.inr ⟨⟨_, rfl⟩, ⟨_, hfails⟩, part,
          fun q hq => partOf_zipWith embeddings.vectors q (hpart hq), rfl⟩)

/-- Entering the hashes of items one by one enters them all. -/
theorem ensures_recordHashes :
    (Batch.recordHashes (blockStrategy e.root) items).Ensures e.rules L fun _ L' =>
      L' = recordAll items L := by
  induction items generalizing L with
  | nil => exact Program.ensures_pure.2 rfl
  | cons item items ih => exact ensures_record_bind ih

/-- A segment ends with all of its points stored and its files' hashes entered, or with some of its points
stored and all of its items marked as failed. -/
theorem ensures_runSegment {limits : BatchLimits} :
    (Batch.runSegment (blockStrategy e.root) limits segment).Ensures e.rules L fun r L' =>
      ∃ part, e.PartOf segment part ∧
        (r = Batch.succeeded (blockStrategy e.root) segment ∧ (∃ vectors,
          vectors.length = segment.length ∧ L' =
            recordAll segment ((L.upsert part).upsert (segment.zipWith e.itemPoint vectors))) ∨
        (∃ message, r = Batch.gaveUp (blockStrategy e.root) limits segment message) ∧
          (∃ a, e.fails a) ∧ L' = L.upsert part) := by
  unfold Batch.runSegment
  let again (L₁ : Scene) : Prop := ∃ part, e.PartOf segment part ∧ L₁ = L.upsert part
  let post (x : Except IndexError Unit) (L₁ : Scene) : Prop :=
    x = .ok () ∧ (∃ part vectors, e.PartOf segment part ∧ vectors.length = segment.length ∧
      L₁ = (L.upsert part).upsert (segment.zipWith e.itemPoint vectors)) ∨
    (∃ failure, x = .error failure) ∧ (∃ a, e.fails a) ∧ again L₁
  refine Program.Ensures.bind (RetryPolicy.ensures_run again post ?_ ?_ ⟨[], nofun, rfl⟩) ?_
  · exact fun d L₁ => ensures_ask fun _ _ h => h
  · rintro L₁ ⟨part, hpart, rfl⟩
    refine ensures_embedAndUpsert.mono fun x L₂ hx => ?_
    rcases hx with ⟨rfl, vectors, hlen, rfl⟩ | ⟨hfailure, hfails, more, hmore, rfl⟩
    · exact ⟨Or.inl ⟨rfl, part, vectors, hpart, hlen, rfl⟩, nofun⟩
    · have hboth : again ((L.upsert part).upsert more) := by
        refine ⟨part ++ more, fun q hq => ?_, ?_⟩
        · exact (List.mem_append.1 hq).elim (hpart q) (hmore q)
        · unfold Scene.upsert
          rw [List.foldl_append]
      exact ⟨Or.inr ⟨hfailure, hfails, hboth⟩, fun _ _ => hboth⟩
  · intro x L₁ hx
    rcases hx with ⟨rfl, part, vectors, hpart, hlen, rfl⟩ |
      ⟨⟨failure, rfl⟩, hfails, part, hpart, rfl⟩
    · refine ensures_recordHashes.bind fun _ L₂ h₂ => ?_
      exact Program.ensures_pure.2 ⟨part, hpart, Or.inl ⟨rfl, vectors, hlen, h₂⟩⟩
    · exact Program.ensures_pure.2 ⟨part, hpart, Or.inr ⟨⟨_, rfl⟩, hfails, rfl⟩⟩

/-- What a batch leaves of a scene it found. -/
structure Batched (e : Premises) (items : List PendingBlock) (r r' : BatchResult)
    (L L' : Scene) : Prop where
  orderly : e.Orderly L'
  files : L'.files = L.files
  refused : L'.refused = L.refused
  lost : ∀ {path}, r.Lost path → r'.Lost path
  fails : ∀ {path}, r'.Lost path → r.Lost path ∨ itemsOf path items ≠ [] ∧ ∃ a, e.fails a
  took : ∀ {path}, e.paths path → r'.Lost path ∨ e.Took items path L L'

theorem Batched.trans {r r₁ r' : BatchResult} {L₁ : Scene} {more : List PendingBlock}
    (h : e.Batched items r r₁ L L₁) (h' : e.Batched more r₁ r' L₁ L') :
    e.Batched (items ++ more) r r' L L' where
  orderly := h'.orderly
  files := h'.files.trans h.files
  refused := h'.refused.trans h.refused
  lost hl := h'.lost (h.lost hl)
  fails {path} hl := by
    have happ : itemsOf path (items ++ more) = itemsOf path items ++ itemsOf path more :=
      List.filter_append ..
    rw [happ]
    rcases h'.fails hl with hl | ⟨hne, hfails⟩
    · rcases h.fails hl with hl | ⟨hne, hfails⟩
      · exact Or.inl hl
      · exact Or.inr ⟨List.append_ne_nil_of_left_ne_nil hne _, hfails⟩
    · exact Or.inr ⟨List.append_ne_nil_of_right_ne_nil _ hne, hfails⟩
  took {path} hpath := by
    rcases h.took hpath with hl | ht
    · exact Or.inl (h'.lost hl)
    · rcases h'.took hpath with hl | ht'
      · exact Or.inl hl
      · exact Or.inr (ht.append ht')

/-- A segment leaves every file without a failed item with all of its points and its hash. -/
theorem ensures_runSegment_batched (distinct : e.Distinct) (ho : e.Orderly L)
    (hs : ∀ item ∈ segment, e.Pends item) {limits : BatchLimits} (r : BatchResult) :
    (Batch.runSegment (blockStrategy e.root) limits segment).Ensures e.rules L fun r' L' =>
      e.Batched segment r (r.merge r') L L' := by
  refine ensures_runSegment.mono fun r' L' h => ?_
  obtain ⟨part, hpart, ⟨rfl, vectors, hlen, rfl⟩ | ⟨⟨message, rfl⟩, hfails, rfl⟩⟩ := h
  · have hall := (partOf_zipWith (e := e) vectors).known hs
    exact {
      orderly := ((ho.upsert (hpart.known hs)).upsert hall).recordAll hs
      files := recordAll_files
      refused := recordAll_refused
      lost := fun hl => BatchResult.lost_merge.2 (Or.inl hl)
      fails := fun hl => Or.inl ((BatchResult.lost_merge.1 hl).resolve_right
        Batch.not_lost_succeeded)
      took := fun hpath => Or.inr (took_of_stored distinct ho hs hpart hlen hpath) }
  · refine ⟨ho.upsert (hpart.known hs), rfl, rfl, fun hl => BatchResult.lost_merge.2 (Or.inl hl),
      fun {path} hl => (BatchResult.lost_merge.1 hl).imp_right fun hl => ?_, fun {path} hpath => ?_⟩
    · obtain ⟨item, hitem, heq⟩ := Batch.lost_gaveUp.1 hl
      refine ⟨List.ne_nil_of_mem (List.mem_filter.2 ⟨hitem, ?_⟩), hfails⟩
      exact beq_iff_eq.2 heq
    by_cases hin : ∃ item ∈ segment, item.block.filePath = path
    · exact Or.inl (BatchResult.lost_merge.2 (Or.inr (Batch.lost_gaveUp.2 hin)))
    · have hnot : ∀ item ∈ segment, item.block.filePath ≠ path :=
        fun item hitem heq => hin ⟨item, hitem, heq⟩
      exact Or.inr (took_of_lost distinct ho hs hpart hpath hnot)

/-- The segments of a batch together leave what each of them leaves. -/
theorem ensures_runSegments (distinct : e.Distinct) {limits : BatchLimits}
    {progress : Nat → Nat → Procedure Unit}
    (quiet : ∀ a b L, (progress a b).Ensures e.rules L fun _ L' => L' = L)
    {segments : List (List PendingBlock)} (hs : ∀ item ∈ segments.flatten, e.Pends item)
    (ho : e.Orderly L) (r : BatchResult) :
    (Batch.runSegments (blockStrategy e.root) limits progress r segments).Ensures e.rules L
      fun r' L' => e.Batched segments.flatten r r' L L' := by
  induction segments generalizing r L with
  | nil =>
    exact Program.ensures_pure.2 ⟨ho, rfl, rfl, id, Or.inl,
      fun _ => Or.inr (Took.of_not_mem rfl (fun _ => Iff.rfl) rfl)⟩
  | cons segment segments ih =>
    rw [List.flatten_cons] at hs ⊢
    have hfirst : ∀ item ∈ segment, e.Pends item :=
      fun item h => hs item (List.mem_append_left _ h)
    have hrest : ∀ item ∈ segments.flatten, e.Pends item :=
      fun item h => hs item (List.mem_append_right _ h)
    refine (ensures_runSegment_batched distinct ho hfirst r).bind fun r₁ L₁ h₁ => ?_
    refine (quiet _ _ L₁).bind fun _ L₂ h₂ => ?_
    rw [h₂]
    exact (ih hrest h₁.orderly (r.merge r₁)).mono fun _ _ h => h₁.trans h

/-- The files whose old points a batch deletes first. -/
def staleOf (e : Premises) (items : List PendingBlock) : List String :=
  (blockStrategy e.root).staleFiles items

theorem mem_staleOf {file : String} : file ∈ e.staleOf items ↔
    ∃ item ∈ items, item.replaces = true ∧ e.name item.block.filePath = file := by
  simp only [staleOf, blockStrategy, Text.sortDistinct, Text.sort, List.mem_eraseDups,
    List.mem_mergeSort, List.mem_map, List.mem_filter, and_assoc]
  rfl

theorem staleOf_nil : e.staleOf [] = [] := by
  rw [List.eq_nil_iff_forall_not_mem]
  intro file h
  obtain ⟨item, hitem, -⟩ := mem_staleOf.1 h
  cases hitem

/-- The old points of a file are deleted if some item of it replaces an older one. -/
theorem name_mem_staleOf (distinct : e.Distinct) (hs : ∀ item ∈ items, e.Pends item)
    (hpath : e.paths path) :
    e.name path ∈ e.staleOf items ↔ ∃ item ∈ itemsOf path items, item.replaces = true := by
  rw [mem_staleOf]
  constructor
  · rintro ⟨item, hitem, hreplaces, heq⟩
    have hown := distinct.names (hs item hitem).paths hpath heq
    exact ⟨item, List.mem_filter.2 ⟨hitem, beq_iff_eq.2 hown⟩, hreplaces⟩
  · rintro ⟨item, hmem, hreplaces⟩
    obtain ⟨hitem, hown⟩ := List.mem_filter.1 hmem
    exact ⟨item, hitem, hreplaces, by rw [beq_iff_eq.1 hown]⟩

/-- What the deletion in front of a batch leaves. -/
def Purged (e : Premises) (items : List PendingBlock) (L L₁ : Scene) : Prop :=
  L₁ = L.deletePoints (e.staleOf items) ∨
    (∃ paths, e.fails (.deletePoints paths)) ∧ L₁ = L.refuse (e.staleOf items)

theorem Purged.orderly {L₁ : Scene} (h : e.Purged items L L₁) (ho : e.Orderly L) :
    e.Orderly L₁ := by
  rcases h with rfl | ⟨-, rfl⟩
  · exact ho.deletePoints
  · exact ho.refuse

/-- The deletion in front of a batch is made or refused as a whole. -/
theorem ensures_deleteStale {paths : List String} :
    (Batch.deleteStale paths).Ensures e.rules L fun _ L₁ => L₁ = L.deletePoints paths ∨
      (∃ paths, e.fails (.deletePoints paths)) ∧ L₁ = L.refuse paths := by
  unfold Batch.deleteStale
  split
  · rename_i hempty
    rw [List.isEmpty_iff.1 hempty]
    exact Program.ensures_pure.2 (Or.inl (Scene.deletePoints_nil L).symm)
  · refine ensures_ask_bind fun x L₁ hx => ?_
    rcases hx with ⟨rfl, rfl⟩ | ⟨hfails, ⟨failure, rfl⟩, rfl⟩
    · exact Program.ensures_pure.2 (Or.inl rfl)
    · exact Program.ensures_pure.2 (Or.inr ⟨⟨_, hfails⟩, rfl⟩)

/-- A batch first deletes the old points of replaced files, and then leaves every file without a failed
item with all of its points and its hash. -/
theorem ensures_process (distinct : e.Distinct) {limits : BatchLimits}
    {progress : Nat → Nat → Procedure Unit}
    (quiet : ∀ a b L, (progress a b).Ensures e.rules L fun _ L' => L' = L)
    (hs : ∀ item ∈ items, e.Pends item) (ho : e.Orderly L) :
    (Batch.process (blockStrategy e.root) limits progress items).Ensures e.rules L fun r L' =>
      ∃ L₁, e.Purged items L L₁ ∧ e.Batched items {} r L₁ L' := by
  unfold Batch.process
  split
  · rename_i hempty
    rw [List.isEmpty_iff.1 hempty]
    have hpurged : L = L.deletePoints (e.staleOf []) := by
      rw [staleOf_nil, Scene.deletePoints_nil]
    refine Program.ensures_pure.2 ⟨L, Or.inl hpurged, ?_⟩
    exact ⟨ho, rfl, rfl, id, Or.inl, fun _ => Or.inr (Took.of_not_mem rfl (fun _ => Iff.rfl) rfl)⟩
  · refine ensures_deleteStale.bind fun errors L₁ h₁ => ?_
    have hpurged : e.Purged items L L₁ := h₁
    have hflat := flatten_segmentsOf limits.segmentSize items
    refine (ensures_runSegments distinct quiet (hflat.symm ▸ hs) (hpurged.orderly ho) _).mono
      fun r L' h => ⟨L₁, hpurged, ?_⟩
    rw [hflat] at h
    exact ⟨h.orderly, h.files, h.refused, h.lost, h.fails, h.took⟩

end Premises

end SourceIndex
