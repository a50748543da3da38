import Mathlib.Data.List.Induction
import Mathlib.Data.List.Nodup
import SourceIndex.Block.Dedup
/-!
# Which blocks of a file are kept

A sink refuses a draft whose segment hash it holds already (`Sink.push_eq_false_iff`) and adds the block of every
other one, so that it holds the blocks of the drafts that were added (`Sink.mem_collected_pushAll_iff`): each
segment hash once (`Sink.nodup_collected_pushAll`), and that of each draft that was pushed
(`Sink.exists_mem_collected_pushAll`). Of overlapping blocks some are dropped, and nothing new comes in
(`Block.mem_of_mem_deduplicate`).
-/

namespace SourceIndex

variable {b : Block}

namespace Block

theorem mem_of_mem_keepUncontained {kept blocks : List Block}
    (h : b ∈ keepUncontained kept blocks) : b ∈ kept ∨ b ∈ blocks := by
  induction blocks generalizing kept with
  | nil => exact Or.inl (List.mem_reverse.1 h)
  | cons c rest ih =>
    rw [keepUncontained] at h
    split at h
    · exact (ih h).imp_right (List.mem_cons_of_mem c)
    · rcases ih h with hk | hr
      · rcases List.mem_cons.1 hk with rfl | hk
        · exact Or.inr List.mem_cons_self
        · exact Or.inl hk
      · exact Or.inr (List.mem_cons_of_mem c hr)

/-- What was kept stays. -/
theorem mem_keepUncontained_of_mem {kept blocks : List Block} (h : b ∈ kept) :
    b ∈ keepUncontained kept blocks := by
  induction blocks generalizing kept with
  | nil => exact List.mem_reverse.2 h
  | cons c rest ih =>
    rw [keepUncontained]
    split
    · exact ih h
    · exact ih (List.mem_cons_of_mem c h)

/-- What is left after the contained blocks were dropped was there before. -/
theorem mem_of_mem_deduplicate {blocks : List Block} (h : b ∈ deduplicate blocks) : b ∈ blocks := by
  unfold deduplicate at h
  rcases mem_of_mem_keepUncontained (List.mem_mergeSort.1 h) with hk | hb
  · cases hk
  · exact List.mem_mergeSort.1 hb

end Block

namespace Sink

variable {s : Sink} {d e : Draft} {drafts : List Draft}

/-- A sink is for the same file whatever is pushed into it. -/
theorem push_file (s : Sink) (d : Draft) :
    (s.push d).1.filePath = s.filePath ∧ (s.push d).1.fileHash = s.fileHash := by
  unfold push
  dsimp only
  split
  · exact ⟨rfl, rfl⟩
  · exact ⟨rfl, rfl⟩

/-- A draft is refused if the sink holds its segment hash. -/
theorem push_eq_false_iff : (s.push d).2 = false ↔
    ∃ b ∈ s.collected, b.segmentHash = (d.toBlock s.filePath s.fileHash).segmentHash := by
  unfold push
  dsimp only
  split
  · rename_i hany
    obtain ⟨b, hb, heq⟩ := List.any_eq_true.1 hany
    exact iff_of_true rfl ⟨b, hb, beq_iff_eq.1 heq⟩
  · rename_i hany
    refine iff_of_false nofun ?_
    rintro ⟨b, hb, heq⟩
    exact hany (List.any_eq_true.2 ⟨b, hb, beq_iff_eq.2 heq⟩)

/-- The block of a draft is added unless the draft is refused. -/
theorem collected_push (s : Sink) (d : Draft) : (s.push d).1.collected =
    if (s.push d).2 then d.toBlock s.filePath s.fileHash :: s.collected else s.collected := by
  unfold push
  dsimp only
  split
  · rfl
  · rfl

/-- What a sink holds it goes on holding. -/
theorem mem_collected_push_of_mem (h : b ∈ s.collected) : b ∈ (s.push d).1.collected := by
  rw [collected_push]
  split
  · exact List.mem_cons_of_mem _ h
  · exact h

theorem pushAll_concat : s.pushAll (drafts ++ [d]) = ((s.pushAll drafts).push d).1 := by
  rw [pushAll, pushAll, List.foldl_append]
  rfl

theorem pushAll_file (s : Sink) (drafts : List Draft) :
    (s.pushAll drafts).filePath = s.filePath ∧ (s.pushAll drafts).fileHash = s.fileHash := by
  induction drafts using List.reverseRecOn with
  | nil => exact ⟨rfl, rfl⟩
  | append_singleton drafts d ih =>
    obtain ⟨hpath, hhash⟩ := push_file (s.pushAll drafts) d
    rw [pushAll_concat, hpath, hhash]
    exact ih

/-- A draft of a sequence was added when its turn came. -/
def Accepts (s : Sink) (drafts : List Draft) (e : Draft) : Prop :=
  ∃ front back, drafts = front ++ e :: back ∧ ((s.pushAll front).push e).2 = true

theorem Accepts.mem (h : s.Accepts drafts e) : e ∈ drafts := by
  obtain ⟨front, back, rfl, -⟩ := h
  exact List.mem_append_right front List.mem_cons_self

theorem accepts_concat : s.Accepts (drafts ++ [d]) e ↔
    s.Accepts drafts e ∨ e = d ∧ ((s.pushAll drafts).push d).2 = true := by
  constructor
  · rintro ⟨front, back, hdrafts, hpush⟩
    rcases List.eq_nil_or_concat back with rfl | ⟨back, last, rfl⟩
    · obtain ⟨rfl, hlast⟩ := List.append_inj' hdrafts rfl
      cases hlast
      exact Or.inr ⟨rfl, hpush⟩
    · rw [List.concat_eq_append, ← List.cons_append, ← List.append_assoc] at hdrafts
      exact Or.inl ⟨front, back, (List.append_inj' hdrafts rfl).1, hpush⟩
  · rintro (⟨front, back, rfl, hpush⟩ | ⟨rfl, hpush⟩)
    · exact ⟨front, back ++ [d], by rw [List.append_assoc, List.cons_append], hpush⟩
    · exact ⟨drafts, [], rfl, hpush⟩

/-- A sink holds what it held, and the blocks of the drafts that were added. -/
theorem mem_collected_pushAll_iff : b ∈ (s.pushAll drafts).collected ↔
    b ∈ s.collected ∨ ∃ e, s.Accepts drafts e ∧ b = e.toBlock s.filePath s.fileHash := by
  induction drafts using List.reverseRecOn with
  | nil =>
    refine (or_iff_left ?_).symm
    rintro ⟨e, haccepts, -⟩
    exact absurd haccepts.mem List.not_mem_nil
  | append_singleton drafts d ih =>
    obtain ⟨hpath, hhash⟩ := pushAll_file s drafts
    rw [pushAll_concat, collected_push, hpath, hhash]
    simp only [accepts_concat]
    split
    · rename_i hadded
      simp only [List.mem_cons, ih, hadded, and_true, or_and_right, exists_or, exists_eq_left]
      rw [or_comm, or_assoc]
    · rename_i hrefused
      simp only [hrefused, Bool.false_eq_true, and_false, or_false]
      exact ih

/-- A block is in a sink after drafts were pushed only if it was there before or is the block of one of
them. -/
theorem mem_collected_pushAll (h : b ∈ (s.pushAll drafts).collected) :
    b ∈ s.collected ∨ ∃ d ∈ drafts, b = d.toBlock s.filePath s.fileHash :=
  (mem_collected_pushAll_iff.1 h).imp_right fun ⟨d, hd, hb⟩ => ⟨d, hd.mem, hb⟩

/-- After drafts were pushed a sink holds the segment hash of each of them, and what it held before. -/
theorem exists_mem_collected_pushAll : (∀ b ∈ s.collected, b ∈ (s.pushAll drafts).collected) ∧
    ∀ d ∈ drafts, ∃ b ∈ (s.pushAll drafts).collected,
      b.segmentHash = (d.toBlock s.filePath s.fileHash).segmentHash := by
  induction drafts generalizing s with
  | nil => exact ⟨fun _ h => h, nofun⟩
  | cons d drafts ih =>
    obtain ⟨hkept, hpushed⟩ := @ih (s.push d).1
    obtain ⟨hpath, hhash⟩ := push_file s d
    refine ⟨fun b hb => hkept b (mem_collected_push_of_mem hb), fun e he => ?_⟩
    rcases List.mem_cons.1 he with rfl | he
    · cases hpush : (s.push e).2 with
      | false =>
        obtain ⟨b, hb, heq⟩ := push_eq_false_iff.1 hpush
        exact ⟨b, hkept b (mem_collected_push_of_mem hb), heq⟩
      | true =>
        refine ⟨e.toBlock s.filePath s.fileHash, hkept _ ?_, rfl⟩
        rw [collected_push, if_pos hpush]
        exact List.mem_cons_self
    · obtain ⟨b, hb, heq⟩ := hpushed e he
      rw [hpath, hhash] at heq
      exact ⟨b, hb, heq⟩

/-- A sink holds blocks of the drafts in their order. -/
theorem sublist_pushAll : (s.pushAll drafts).collected.reverse.Sublist
    (s.collected.reverse ++ drafts.map (Draft.toBlock s.filePath s.fileHash)) := by
  induction drafts generalizing s with
  | nil => simp [pushAll]
  | cons d drafts ih =>
    obtain ⟨hpath, hhash⟩ := push_file s d
    have hrest := @ih (s.push d).1
    rw [hpath, hhash] at hrest
    refine hrest.trans ?_
    rw [collected_push]
    split
    · simp
    · exact (List.sublist_cons_self ..).append_left _

/-- The blocks in a sink have different segment hashes. -/
theorem nodup_collected_pushAll (h : (s.collected.map (·.segmentHash)).Nodup) :
    ((s.pushAll drafts).collected.map (·.segmentHash)).Nodup := by
  induction drafts generalizing s with
  | nil => exact h
  | cons d drafts ih =>
    refine @ih (s.push d).1 ?_
    rw [collected_push]
    split
    · rename_i hadded
      rw [List.map_cons, List.nodup_cons, List.mem_map]
      refine ⟨fun hheld => ?_, h⟩
      rw [push_eq_false_iff.2 hheld] at hadded
      cases hadded
    · exact h

end Sink

end SourceIndex
