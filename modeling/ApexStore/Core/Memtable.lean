import ApexStore.Core.LogRecord

/-!
# Memtables

The unflushed records of a column family, with the range tombstones written
since the memtable was created.
-/

namespace ApexStore

structure MemTable where
  data : ByteMap LogRecord
  rangeTombstones : List RangeTombstone

namespace MemTable

/-- `MemTable::new_unlimited`. -/
def newUnlimited : MemTable := { data := ∅, rangeTombstones := [] }

def insert (mem : MemTable) (record : LogRecord) : MemTable :=
  { mem with data := mem.data.insert record.key record }

def addRangeTombstone (mem : MemTable) (range : RangeTombstone) : MemTable :=
  { mem with rangeTombstones := mem.rangeTombstones ++ [range] }

def maxCoveringRangeTombstone (mem : MemTable) (key : Bytes) : Option Nanos :=
  maxCovering mem.rangeTombstones key

/-- Change the newest memtable of a family, which is created if there is
none. -/
def updateLast (update : MemTable → MemTable) : List MemTable → List MemTable
  | [] => [update newUnlimited]
  | [mem] => [update mem]
  | mem :: newer :: newest => mem :: updateLast update (newer :: newest)

end MemTable

/-- A family has at most one memtable: a new one is only pushed when there is
none. -/
theorem MemTable.length_updateLast {update : MemTable → MemTable}
    {memtables : List MemTable}
    (single : memtables.length ≤ 1) : (updateLast update memtables).length = 1 := by
  match memtables, single with
  | [], _ => rfl
  | [mem], _ => rfl

variable {ranges : List RangeTombstone} {key : Bytes}

/-- Whether a list of range tombstones covers a key is a matter of its
members. -/
theorem maxCovering_eq_none_iff :
    maxCovering ranges key = none ↔ ∀ range ∈ ranges, range.covers key = false := by
  simp [maxCovering]

theorem le_maxCovering {range : RangeTombstone} (member : range ∈ ranges)
    (covered : range.covers key = true) :
    ∃ newest, maxCovering ranges key = some newest ∧ range.timestamp ≤ newest := by
  have listed : range.timestamp ∈ (ranges.filter (·.covers key)).map (·.timestamp) :=
    List.mem_map.mpr ⟨range, List.mem_filter.mpr ⟨member, covered⟩, rfl⟩
  cases found : maxCovering ranges key with
  | none =>
    rw [maxCovering_eq_none_iff.mp found range member] at covered
    cases covered
  | some newest =>
    exact ⟨newest, rfl, (List.max?_eq_some_iff.mp found).2 _ listed⟩

end ApexStore
