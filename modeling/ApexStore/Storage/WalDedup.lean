import ApexStore.Storage.Wal

/-!
# Deduplication of recovered records

`deduplicate_records` collects the positions to keep in a hash map and a list
and sorts them afterwards.  The result is a left fold over the records in file
order (`deduplicateRecords_eq`): each point record takes the place of the
earlier point records of its column family and key, and range tombstones are
always kept.
-/

namespace ApexStore

open List

/-- Whether an earlier record outlives a later one in the deduplicated log:
only a point record supersedes, and only the point records with its key. -/
def LogRecord.survives (later earlier : LogRecord) : Bool :=
  later.isRangeTombstone || earlier.isRangeTombstone || decide
    (earlier.pointKey ≠ later.pointKey)

/-- What one more record does to the deduplicated log. -/
def supersede (kept : List LogRecord) (record : LogRecord) : List LogRecord :=
  kept.filter record.survives ++ [record]

/-- `positions` are the kept positions in file order, and they hold the
records that are kept. -/
structure Tracks (records : List LogRecord) (seen : Occurrences)
    (positions : List Nat) : Prop where
  sorted : positions.Pairwise (· < ·)
  perm : positions.Perm (seen.keep ++ seen.lastOccurrence.map (·.2))
  holds : positions.map (fun position => records[position]?) =
    (records.foldl supersede []).map some
  ranges : ∀ position ∈ seen.keep, ∃ record,
    records[position]? = some record ∧ record.isRangeTombstone = true
  points : ∀ entry ∈ seen.lastOccurrence, ∃ record,
    records[entry.2]? = some record ∧ record.isRangeTombstone = false ∧
      record.pointKey = entry.1

namespace Tracks

variable {records : List LogRecord} {seen : Occurrences}
  {positions : List Nat}

theorem position_lt (tracks : Tracks records seen positions) :
    ∀ position ∈ positions, position < records.length := by
  intro position member
  rw [tracks.perm.mem_iff, mem_append, mem_map] at member
  rcases member with range | ⟨entry, point, rfl⟩
  · obtain ⟨record, found, _⟩ := tracks.ranges position range
    exact (List.getElem?_eq_some_iff.mp found).1
  · obtain ⟨record, found, _⟩ := tracks.points entry point
    exact (List.getElem?_eq_some_iff.mp found).1

/-- The positions of the records that outlive a new one. -/
def surviving (records : List LogRecord) (record : LogRecord) (positions : List Nat) :
    List Nat :=
  positions.filter (fun position => records[position]?.any record.survives)

theorem surviving_perm (tracks : Tracks records seen positions) (record : LogRecord) :
    (surviving records record positions ++ [records.length]).Perm
      ((seen.visit (record, records.length)).keep ++
        (seen.visit (record, records.length)).lastOccurrence.map (·.2)) := by
  have keeps : surviving records record seen.keep = seen.keep := by
    apply filter_eq_self.mpr
    intro position member
    obtain ⟨found, at_position, range⟩ := tracks.ranges position member
    simp [at_position, LogRecord.survives, range]
  have filtered :=
    tracks.perm.filter (fun position => records[position]?.any record.survives)
  rw [filter_append, filter_map] at filtered
  change (surviving records record positions).Perm
    (surviving records record seen.keep ++ _) at filtered
  rw [keeps] at filtered
  cases range : record.isRangeTombstone with
  | true =>
    have all : seen.lastOccurrence.filter
        ((fun position => records[position]?.any record.survives) ∘ (·.2)) =
          seen.lastOccurrence := by
      apply filter_eq_self.mpr
      intro entry member
      obtain ⟨found, at_position, _⟩ := tracks.points entry member
      simp [at_position, LogRecord.survives, range]
    rw [all] at filtered
    simp only [Occurrences.visit, range, if_true, append_assoc]
    refine (filtered.append_right _).trans ?_
    rw [append_assoc]
    exact List.Perm.append_left _ perm_append_comm
  | false =>
    have others : seen.lastOccurrence.filter
        ((fun position => records[position]?.any record.survives) ∘ (·.2)) =
          seen.lastOccurrence.filter (fun entry => decide (entry.1 ≠ record.pointKey)) := by
      apply filter_congr
      intro entry member
      obtain ⟨found, at_position, point, key⟩ := tracks.points entry member
      simp [at_position, LogRecord.survives, range, point, key]
    rw [others] at filtered
    simp only [Occurrences.visit, range]
    refine (filtered.append_right _).trans ?_
    rw [append_assoc]
    exact List.Perm.append_left _ (perm_append_singleton _ _)

private theorem getElem?_concat {record found : LogRecord} {position : Nat}
    (at_position : records[position]? = some found) :
    (records ++ [record])[position]? = some found := by
  have inside := (List.getElem?_eq_some_iff.mp at_position).1
  rw [List.getElem?_append_left inside, at_position]

theorem visit (tracks : Tracks records seen positions) (record : LogRecord) :
    Tracks (records ++ [record]) (seen.visit (record, records.length))
      (surviving records record positions ++ [records.length]) where
  sorted := by
    rw [pairwise_append]
    refine ⟨tracks.sorted.filter _, pairwise_singleton _ _, ?_⟩
    intro position member last same
    rw [mem_singleton.mp same]
    exact tracks.position_lt position (mem_of_mem_filter member)
  perm := tracks.surviving_perm record
  holds := by
    have unchanged : (surviving records record positions).map
        (fun position => (records ++ [record])[position]?) =
          (surviving records record positions).map (fun position => records[position]?) := by
      apply map_congr_left
      intro position member
      exact getElem?_append_left (tracks.position_lt position (mem_of_mem_filter member))
    have survivors :
        (surviving records record positions).map (fun position => records[position]?) =
          ((records.foldl supersede []).filter record.survives).map some := by
      have mapped := congrArg (filter (Option.any record.survives)) tracks.holds
      rw [filter_map, filter_map] at mapped
      exact mapped
    rw [map_append, unchanged, survivors, foldl_concat, supersede]
    simp
  ranges := by
    intro position member
    unfold Occurrences.visit at member
    split at member
    · next range =>
        rcases mem_append.mp member with old | new
        · obtain ⟨found, at_position, is_range⟩ := tracks.ranges position old
          exact ⟨found, getElem?_concat at_position, is_range⟩
        · rw [mem_singleton.mp new]
          exact ⟨record, by simp, range⟩
    · obtain ⟨found, at_position, is_range⟩ := tracks.ranges position member
      exact ⟨found, getElem?_concat at_position, is_range⟩
  points := by
    intro entry member
    unfold Occurrences.visit at member
    split at member
    · obtain ⟨found, at_position, point⟩ := tracks.points entry member
      exact ⟨found, getElem?_concat at_position, point⟩
    · next point =>
        rcases mem_cons.mp member with new | old
        · subst new
          exact ⟨record, by simp, by simpa using point, rfl⟩
        · obtain ⟨found, at_position, old_point⟩ :=
            tracks.points entry (mem_of_mem_filter old)
          exact ⟨found, getElem?_concat at_position, old_point⟩

theorem scan (records : List LogRecord) : ∃ positions,
      Tracks records (records.zipIdx.foldl Occurrences.visit ⟨[], []⟩) positions := by
  induction records using reverseRecOn with
  | nil => exact ⟨[], ⟨.nil, .nil, rfl, by simp, by simp⟩⟩
  | append_singleton records record ih =>
    obtain ⟨positions, tracks⟩ := ih
    refine ⟨surviving records record positions ++ [records.length], ?_⟩
    rw [zipIdx_append]
    simpa using tracks.visit record

end Tracks

/-- Deduplication folds the records in, each superseding the earlier point
records with its key. -/
theorem deduplicateRecords_eq (records : List LogRecord) :
    deduplicateRecords records = records.foldl supersede [] := by
  obtain ⟨positions, tracks⟩ := Tracks.scan records
  unfold deduplicateRecords
  dsimp only
  generalize records.zipIdx.foldl Occurrences.visit ⟨[], []⟩ = seen at tracks ⊢
  have ordered : (seen.keep ++ seen.lastOccurrence.map (·.2)).mergeSort =
      positions := by
    apply List.Perm.eq_of_sortedLE
    · exact sortedLE_mergeSort
    · exact (tracks.sorted.imp Nat.le_of_lt).sortedLE
    · exact (mergeSort_perm _ _).trans tracks.perm.symm
  rw [ordered]
  have holds := congrArg (filterMap id) tracks.holds
  simpa using holds

theorem deduplicateRecords_concat (records : List LogRecord) (record : LogRecord) :
    deduplicateRecords (records ++ [record]) =
      supersede (deduplicateRecords records) record := by
  rw [deduplicateRecords_eq, deduplicateRecords_eq, foldl_concat]

@[simp] theorem deduplicateRecords_nil : deduplicateRecords [] = [] := by
  rw [deduplicateRecords_eq]
  rfl

theorem deduplicateRecords_append (records continuation : List LogRecord) :
    deduplicateRecords (records ++ continuation) = (deduplicateRecords records).filter
          (fun earlier => continuation.all (·.survives earlier)) ++
        deduplicateRecords continuation := by
  induction continuation using reverseRecOn with
  | nil => simp
  | append_singleton continuation record ih =>
    rw [← append_assoc, deduplicateRecords_concat, ih,
      deduplicateRecords_concat, supersede, supersede]
    simp [Bool.and_comm]

theorem deduplicateRecords_pairwise (records : List LogRecord) :
    (deduplicateRecords records).Pairwise
      (fun earlier later => later.survives earlier = true) := by
  induction records using reverseRecOn with
  | nil => simp
  | append_singleton records record ih =>
    rw [deduplicateRecords_concat, supersede, pairwise_append]
    refine ⟨ih.filter _, pairwise_singleton _ _, ?_⟩
    intro earlier member later last
    rw [mem_singleton.mp last]
    exact (mem_filter.mp member).2

variable {records : List LogRecord} {record : LogRecord}

theorem mem_of_mem_deduplicateRecords (member : record ∈ deduplicateRecords records) :
    record ∈ records := by
  induction records using reverseRecOn with
  | nil => simp at member
  | append_singleton records last ih =>
    rw [deduplicateRecords_concat, supersede, mem_append] at member
    rw [mem_append]
    exact member.imp (fun kept => ih (mem_of_mem_filter kept)) id

theorem deduplicateRecords_ranges (records : List LogRecord) :
    (deduplicateRecords records).filter (·.isRangeTombstone) =
      records.filter (·.isRangeTombstone) := by
  induction records using reverseRecOn with
  | nil => simp
  | append_singleton records record ih =>
    rw [deduplicateRecords_concat, supersede, filter_append, filter_append, ← ih,
      filter_filter]
    congr 1
    apply filter_congr
    intro earlier _
    simp only [LogRecord.survives]
    cases earlier.isRangeTombstone <;> simp

theorem exists_mem_deduplicateRecords (member : record ∈ records)
    (point : record.isRangeTombstone = false) : ∃ kept ∈ deduplicateRecords records,
      kept.isRangeTombstone = false ∧ kept.pointKey = record.pointKey := by
  induction records using reverseRecOn with
  | nil => simp at member
  | append_singleton records last ih =>
    rw [deduplicateRecords_concat, supersede]
    rcases mem_append.mp member with old | new
    · obtain ⟨kept, kept_member, kept_point, key⟩ := ih old
      by_cases survives : last.survives kept = true
      · exact ⟨kept, by simp [kept_member, survives], kept_point, key⟩
      · simp only [LogRecord.survives, kept_point,
          Bool.or_eq_true, decide_eq_true_eq, not_or, not_not] at survives
        exact ⟨last, by simp, by simpa using survives.1, survives.2.symm.trans key⟩
    · rw [mem_singleton] at new
      subst new
      exact ⟨record, by simp, point, rfl⟩

/-- A continuation leaves the deduplicated log as it was exactly when it holds
no range tombstone and its records repeat the end of that log. -/
theorem deduplicateRecords_append_eq_iff (records continuation : List LogRecord) :
    deduplicateRecords (records ++ continuation) = deduplicateRecords records ↔
      (∀ record ∈ continuation, record.isRangeTombstone = false) ∧
        deduplicateRecords continuation <:+ deduplicateRecords records := by
  rw [deduplicateRecords_append]
  constructor
  · intro same
    refine ⟨?_, ⟨_, same⟩⟩
    have ranges := congrArg (filter (·.isRangeTombstone)) same
    rw [filter_append, filter_filter, deduplicateRecords_ranges continuation] at ranges
    have untouched : (deduplicateRecords records).filter (fun earlier =>
        earlier.isRangeTombstone && continuation.all (·.survives earlier)) =
        (deduplicateRecords records).filter (·.isRangeTombstone) := by
      apply filter_congr
      intro earlier _
      cases range : earlier.isRangeTombstone <;> simp [LogRecord.survives, range]
    rw [untouched] at ranges
    simpa using ranges
  · rintro ⟨points, kept, split⟩
    have pairwise := deduplicateRecords_pairwise records
    rw [← split, pairwise_append] at pairwise
    have kept_stay :
        kept.filter (fun earlier => continuation.all (·.survives earlier)) = kept := by
      apply filter_eq_self.mpr
      intro earlier member
      rw [all_eq_true]
      intro record from_continuation
      obtain ⟨later, later_member, later_point, key⟩ :=
        exists_mem_deduplicateRecords from_continuation (points record from_continuation)
      have survives := pairwise.2.2 earlier member later later_member
      simpa [LogRecord.survives, later_point, key,
        points record from_continuation] using survives
    have repeated_go : (deduplicateRecords continuation).filter
        (fun earlier => continuation.all (·.survives earlier)) = [] := by
      rw [filter_eq_nil_iff]
      intro record member all
      have own := mem_of_mem_deduplicateRecords member
      have survives := all_eq_true.mp all record own
      simp [LogRecord.survives, points record own] at survives
    rw [← split, filter_append, kept_stay, repeated_go, append_nil]

end ApexStore
