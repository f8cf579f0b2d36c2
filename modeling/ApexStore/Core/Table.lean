import ApexStore.Core.MergeUnion
import ApexStore.Storage.Sstable

/-!
# Tables

A `Table` describes one SSTable to the engine: the file behind it, its key
range and Bloom filter, and an in-memory copy `data` of its raw values.  The
copy is filled for tables created in this process and is empty for tables
opened from disk with `from_sstable_path`.
-/

namespace ApexStore

structure Table where
  data : ByteMap Bytes
  level : Nat
  path : Option String
  minKey : Bytes
  maxKey : Bytes
  bloomFilter : Option BloomFilter
  /-- The size of the blocks in its file. -/
  blockSize : Nat

namespace Table

variable (config : StorageConfig)

/-- A table without a file, as the transaction path builds it. -/
def build (data : ByteMap Bytes) : Table :=
  { data, level := 0, path := none
    minKey := data.minKey?.getD [], maxKey := data.maxKey?.getD []
    bloomFilter :=
      if data.isEmpty then none else some (.ofKeys config data.keys)
    blockSize := config.blockSize }

/-- A table described by the metadata of its file alone. -/
def ofRecords (path : String) (records : ByteMap LogRecord) : Table :=
  { data := ∅, level := 1, path := some path
    minKey := records.minKey?.getD [], maxKey := records.maxKey?.getD []
    bloomFilter := some (.ofKeys config records.keys)
    blockSize := config.blockSize }

def fromSstablePath (dir : SstDir) (path : String) : Except LsmError Table :=
  match dir.openTable path with
  | .ok records => .ok (ofRecords config path records)
  | .error error => .error error

variable {config}

def size (table : Table) : Nat :=
  (table.data.toList.map (fun entry => entry.1.length + entry.2.length)).sum

def bloomAdmits (table : Table) (key : Bytes) : Bool :=
  table.bloomFilter.all (·.check key)

/-- The tests `VersionSet::get` makes before it looks into a table: a range
with an empty bound admits every key. -/
def admits (table : Table) (key : Bytes) : Bool :=
  !(!table.minKey.isEmpty && !table.maxKey.isEmpty &&
      (decide (key < table.minKey) || decide (table.maxKey < key))) && table.bloomAdmits key

/-- The same tests as `VersionSet::get_record` makes them: here each bound
counts by itself. -/
def admitsRecord (table : Table) (key : Bytes) : Bool :=
  !(!table.minKey.isEmpty && decide (key < table.minKey) ||
      !table.maxKey.isEmpty && decide (table.maxKey < key)) && table.bloomAdmits key

/-- The record `SstableReader::get` finds in the file behind the table. -/
def fileRecord (dir : SstDir) (table : Table) (key : Bytes) : Option LogRecord :=
  match table.path with
  | some path => (dir.get path key).toOption.join
  | none => none

variable {dir : SstDir} {table : Table} {path : String} {records : ByteMap LogRecord}

theorem fileRecord_of_table (located : table.path = some path)
    (file : dir[path]? = some (.table records)) (key : Bytes) :
    table.fileRecord dir key = records[key]? := by
  simp [fileRecord, located, SstDir.get_of_table file, Except.toOption]

theorem fromSstablePath_ok (opened : fromSstablePath config dir path = .ok table) :
    ∃ records, dir[path]? = some (.table records) ∧
      table = ofRecords config path records := by
  unfold fromSstablePath SstDir.openTable at opened
  cases file : dir[path]? with
  | none => simp [file] at opened
  | some content =>
    cases content with
    | unfinished => simp [file] at opened
    | table records =>
      simp only [file, Except.ok.injEq] at opened
      exact ⟨records, rfl, opened.symm⟩

/-- The filter and the key range of a table let its keys through. -/
theorem filters_of_mem {α : Type} (config : StorageConfig) {entries : ByteMap α}
    {key : Bytes}
    (present : key ∈ entries) :
    ¬ key < entries.minKey?.getD [] ∧ ¬ entries.maxKey?.getD [] < key ∧
      (BloomFilter.ofKeys config entries.keys).check key = true :=
  ⟨not_lt.mpr (ByteMap.minKey_le present), not_lt.mpr (ByteMap.le_maxKey present),
    BloomFilter.check_of_mem (Std.ExtTreeMap.mem_keys.mpr present)⟩

theorem ofRecords_admits (config : StorageConfig) (path : String) {key : Bytes}
    (present : key ∈ records) : (ofRecords config path records).admits key = true ∧
      (ofRecords config path records).admitsRecord key = true := by
  obtain ⟨low, high, bloom⟩ := filters_of_mem config present
  simp [admits, admitsRecord, bloomAdmits, ofRecords, bloom, low, high]

end Table

end ApexStore
