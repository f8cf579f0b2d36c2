import ApexStore.Engine.Transaction

/-!
# What a family holds in memory

Reads see the memtables of a family through two views: the newest record of a
key, and the range tombstones of the engine and of the memtables taken
together.  The steps of the write operations are stated here as changes of
these views.
-/

namespace ApexStore

open List

theorem MemTable.updateLast_concat (update : MemTable → MemTable)
    (older : List MemTable)
    (mem : MemTable) : updateLast update (older ++ [mem]) = older ++ [update mem] := by
  induction older with
  | nil => rfl
  | cons oldest older ih =>
    cases older with
    | nil => rfl
    | cons next rest =>
      have later := ih
      simp only [cons_append] at later ⊢
      rw [updateLast, later]

/-- Changing the newest memtable in a way that keeps or sets what is found of
a key in one memtable. -/
theorem MemTable.findSome?_updateLast {α : Type} (view : MemTable → Option α)
    {update : MemTable → MemTable} (found : Option α)
    (fresh : view newUnlimited = none)
    (updated : ∀ mem, view (update mem) = found.or (view mem))
    (memtables : List MemTable) :
    (updateLast update memtables).reverse.findSome? view =
      found.or (memtables.reverse.findSome? view) := by
  rcases eq_nil_or_concat memtables with rfl | ⟨older, mem, rfl⟩
  · simp [updateLast, updated, fresh]
  · rw [concat_eq_append, updateLast_concat, reverse_append, reverse_append]
    simp only [reverse_singleton, singleton_append, List.findSome?_cons, updated]
    cases found with
    | some value => rfl
    | none => rfl

private theorem max?_append (first second : List Nanos) : (first ++ second).max? =
      match first.max?, second.max? with
      | some left, some right => some (max left right)
      | left, right => left.or right := by
  induction first with
  | nil =>
    rw [nil_append]
    cases second.max? <;> rfl
  | cons head first ih =>
    rw [cons_append, List.max?_cons, List.max?_cons, ih]
    cases first.max? <;> cases second.max? <;> simp [max_assoc]

theorem maxCovering_append (first second : List RangeTombstone) (key : Bytes) :
    maxCovering (first ++ second) key =
      match maxCovering first key, maxCovering second key with
      | some left, some right => some (max left right)
      | left, right => left.or right := by
  simp only [maxCovering, filter_append, map_append, max?_append]

theorem maxCovering_eq_some_iff {ranges : List RangeTombstone} {key : Bytes}
    {newest : Nanos} : maxCovering ranges key = some newest ↔
      (∃ range ∈ ranges, range.covers key = true ∧ range.timestamp = newest) ∧
      ∀ range ∈ ranges, range.covers key = true → range.timestamp ≤ newest := by
  rw [maxCovering, List.max?_eq_some_iff]
  simp only [mem_map, mem_filter]
  constructor
  · rintro ⟨⟨range, ⟨member, covers⟩, rfl⟩, bound⟩
    exact ⟨⟨range, member, covers, rfl⟩, fun other listed covered =>
      bound _ ⟨other, ⟨listed, covered⟩, rfl⟩⟩
  · rintro ⟨⟨range, member, covers, rfl⟩, bound⟩
    refine ⟨⟨range, ⟨member, covers⟩, rfl⟩, ?_⟩
    rintro _ ⟨other, ⟨listed, covered⟩, rfl⟩
    exact bound other listed covered

theorem maxCovering_congr {first second : List RangeTombstone}
    (same : ∀ range, range ∈ first ↔ range ∈ second) (key : Bytes) :
    maxCovering first key = maxCovering second key := by
  apply Option.ext
  intro newest
  rw [maxCovering_eq_some_iff, maxCovering_eq_some_iff]
  simp only [same]

namespace EngineCore

/-- The range tombstones in the memtables of a family. -/
def memtableRanges (core : EngineCore) (cf : String) : List RangeTombstone :=
  (core.memtablesOf cf).flatMap (·.rangeTombstones)

/-- All range tombstones of a family that are in force. -/
def allRanges (core : EngineCore) (cf : String) : List RangeTombstone :=
  core.rangesOf cf ++ core.memtableRanges cf

theorem max?_filterMap_maxCovering (memtables : List MemTable) (key : Bytes) :
    (memtables.filterMap (·.maxCoveringRangeTombstone key)).max? =
      maxCovering (memtables.flatMap (·.rangeTombstones)) key := by
  induction memtables with
  | nil => rfl
  | cons mem memtables ih =>
    rw [flatMap_cons, maxCovering_append, ← ih, filterMap_cons]
    simp only [MemTable.maxCoveringRangeTombstone]
    cases maxCovering mem.rangeTombstones key with
    | none =>
      cases (memtables.filterMap
        (fun mem => maxCovering mem.rangeTombstones key)).max? <;> rfl
    | some newest =>
      rw [List.max?_cons]
      cases (memtables.filterMap
        (fun mem => maxCovering mem.rangeTombstones key)).max? <;> rfl

theorem coveringRangeTombstoneTs_eq (core : EngineCore) (cf : String) (key : Bytes) :
    core.coveringRangeTombstoneTs cf key = maxCovering (core.allRanges cf) key := by
  rw [coveringRangeTombstoneTs, max?_filterMap_maxCovering, allRanges, maxCovering_append]
  rfl

/-! ## Inserting records -/

theorem memtableRecord_insertMemtable (core : EngineCore) (cf other : String)
    (record : LogRecord)
    (size : Nat) (key : Bytes) :
    (core.insertMemtable cf record size).memtableRecord other key =
      if cf = other ∧ record.key =
        key then some record else core.memtableRecord other key := by
  have memtables : (core.insertMemtable cf record size).memtablesOf other =
      (core.updateMemtable cf (·.insert record)).memtablesOf other := rfl
  rw [memtableRecord, memtables, memtablesOf_updateMemtable]
  by_cases family : cf = other
  · subst family
    rw [if_pos rfl, MemTable.findSome?_updateLast (·.data[key]?)
      (if record.key = key then some record else none) (by rfl)]
    · by_cases here : record.key = key
      · simp [here]
      · simp [here, memtableRecord]
    · intro mem
      rw [MemTable.insert, ByteMap.getElem?_insert]
      split <;> rfl
  · rw [if_neg family, if_neg (by simp [family])]
    rfl

theorem memtableRanges_updateMemtable (update : MemTable → MemTable)
    (added : List RangeTombstone)
    (updated : ∀ mem, (update mem).rangeTombstones = mem.rangeTombstones ++ added)
    (core : EngineCore) (cf other : String) :
    (core.updateMemtable cf update).memtableRanges other =
      core.memtableRanges other ++ if cf = other then added else [] := by
  rw [memtableRanges, memtablesOf_updateMemtable]
  by_cases family : cf = other
  · subst family
    rw [if_pos rfl, if_pos rfl, memtableRanges]
    rcases eq_nil_or_concat (core.memtablesOf cf) with empty | ⟨older, mem, memtables⟩
    · simp [empty, MemTable.updateLast, updated, MemTable.newUnlimited]
    · rw [memtables, concat_eq_append, MemTable.updateLast_concat]
      simp [updated]
  · rw [if_neg family, if_neg family, append_nil]
    rfl

theorem memtableRanges_insertMemtable (core : EngineCore)
    (cf other : String) (record : LogRecord) (size : Nat) :
    (core.insertMemtable cf record size).memtableRanges other =
      core.memtableRanges other := by
  have ranges := memtableRanges_updateMemtable (·.insert record) []
    (fun mem => by simp [MemTable.insert]) core cf other
  rw [ite_self, append_nil] at ranges
  exact ranges

theorem allRanges_insertMemtable (core : EngineCore) (cf other : String)
    (record : LogRecord)
    (size : Nat) :
    (core.insertMemtable cf record size).allRanges other = core.allRanges other := by
  rw [allRanges, memtableRanges_insertMemtable]
  rfl

def insertRange (core : EngineCore) (cf : String) (range : RangeTombstone) :
    EngineCore :=
  (core.addRange cf range).updateMemtable cf (·.addRangeTombstone range)

section

variable (core : EngineCore) (cf other : String) (range : RangeTombstone)

theorem memtableRecord_insertRange (key : Bytes) :
    (core.insertRange cf range).memtableRecord other key =
      core.memtableRecord other key := by
  rw [memtableRecord, insertRange, memtablesOf_updateMemtable]
  by_cases family : cf = other
  · subst family
    have unchanged : ∀ mem : MemTable, (mem.addRangeTombstone range).data[key]? =
          (none : Option LogRecord).or mem.data[key]? := fun _ => rfl
    rw [if_pos rfl, MemTable.findSome?_updateLast (·.data[key]?) none (by rfl) unchanged]
    rfl
  · rw [if_neg family]
    rfl

theorem memtableRanges_insertRange : (core.insertRange cf range).memtableRanges other =
      core.memtableRanges other ++ if cf = other then [range] else [] :=
  memtableRanges_updateMemtable (·.addRangeTombstone range) [range]
    (fun _ => rfl) (core.addRange cf range) cf other

theorem rangesOf_insertRange : (core.insertRange cf range).rangesOf other =
      core.rangesOf other ++ if cf = other then [range] else [] := by
  refine (rangesOf_addRange core cf other range).trans ?_
  split
  · next same => rw [same]
  · simp

/-! ## Batches -/

end

theorem key_stored (write : BatchWrite) : write.stored.key = write.key := by
  unfold BatchWrite.stored BatchWrite.record
  split <;> rfl

theorem memtableRecord_insertBatch (core : EngineCore) (cf other : String)
    (writes : List BatchWrite) (key : Bytes) :
    (core.insertBatch cf writes).memtableRecord other key = if cf = other then
        ((writes.reverse.find? (fun write => decide (write.key = key))).map
          (·.stored)).or
            (core.memtableRecord other key) else core.memtableRecord other key := by
  induction writes using List.reverseRecOn with
  | nil => simp [insertBatch]
  | append_singleton writes write ih =>
    rw [insertBatch] at ih ⊢
    rw [foldl_concat, memtableRecord_insertMemtable, ih, key_stored]
    by_cases family : cf = other
    · by_cases here : write.key = key
      · simp [family, here]
      · simp [here]
    · simp [family]

theorem memtableRanges_insertBatch (core : EngineCore) (cf other : String)
    (writes : List BatchWrite) : (core.insertBatch cf writes).memtableRanges other =
      core.memtableRanges other := by
  induction writes using List.reverseRecOn with
  | nil => rfl
  | append_singleton writes write ih =>
    rw [insertBatch] at ih ⊢
    rw [foldl_concat, memtableRanges_insertMemtable, ih]

theorem insertBatch_frame (core : EngineCore) (cf : String)
    (writes : List BatchWrite) :
    (core.insertBatch cf writes).store = core.store ∧
      (core.insertBatch cf writes).logs = core.logs ∧
      (core.insertBatch cf writes).rangeTombstones = core.rangeTombstones := by
  induction writes using List.reverseRecOn with
  | nil => exact ⟨rfl, rfl, rfl⟩
  | append_singleton writes write ih =>
    rw [insertBatch] at ih ⊢
    rw [foldl_concat]
    exact ih

end EngineCore

end ApexStore
