import ApexStore.Storage.RecordCodec

/-!
# SSTable files

An SSTable file is modelled by the records it holds: what `SstableReader::get`
returns for a key is what the builder was given for it.  A file that a builder
created without finishing it is on disk too, and cannot be opened.

The builder checks that keys arrive in strictly increasing order and that each
entry fits a block of its own; `Storage/Blocks` says how entries are grouped
into blocks and searched.  That a file gives back every entry needs legible
entries (`legible_of_entryFits`).
-/

namespace ApexStore

open List

structure StorageConfig where
  blockSize : Nat
  /-- Which keys outside a set its Bloom filter reports all the same. -/
  bloomCollides : List Bytes → Bytes → Bool

/-- `Block::add` writes the lengths of key and record as `u16`; longer ones are
cut, and the entry cannot be decoded.  Blocks of up to 64 KiB have no room for
such entries. -/
def StorageConfig.Legible (config : StorageConfig) : Prop :=
  config.blockSize ≤ 2 ^ 16

instance StorageConfig.decidableLegible (config : StorageConfig) :
    Decidable config.Legible :=
  Nat.decLe _ _

/-- A Bloom filter over `keys`, with the false positives of its hash bits. -/
structure BloomFilter where
  keys : List Bytes
  collides : Bytes → Bool

namespace BloomFilter

def check (filter : BloomFilter) (key : Bytes) : Bool :=
  filter.keys.contains key || filter.collides key

def ofKeys (config : StorageConfig) (keys : List Bytes) : BloomFilter :=
  { keys, collides := config.bloomCollides keys }

theorem check_of_mem {filter : BloomFilter} {key : Bytes}
    (member : key ∈ filter.keys) : filter.check key = true := by
  simp [check, member]

end BloomFilter

/-- What a file of the SSTable directory holds. -/
inductive SstFile where
  | table (records : ByteMap LogRecord)
  /-- Created by a builder that was dropped before it finished. -/
  | unfinished

/-- The SSTable directory: file names and what the files hold. -/
abbrev SstDir := NameMap SstFile

/-- Opening a table file reads and validates its metadata. -/
def SstDir.openTable (dir : SstDir) (path : String) :
    Except LsmError (ByteMap LogRecord) :=
  match dir[path]? with
  | some (.table records) => .ok records
  | some .unfinished =>
    .error (.invalidSstableFormat "file is shorter than header and footer")
  | none => .error .io

/-- `SstableReader::open` followed by `get`. -/
def SstDir.get (dir : SstDir) (path : String) (key : Bytes) :
    Except LsmError (Option LogRecord) :=
  match dir.openTable path with
  | .ok records => .ok records[key]?
  | .error error => .error error

theorem SstDir.get_of_table {dir : SstDir} {path : String}
    {records : ByteMap LogRecord} (file : dir[path]? = some (.table records))
    (key : Bytes) : dir.get path key = .ok records[key]? := by
  simp [get, openTable, file]

structure SstableBuilder where
  config : StorageConfig
  records : ByteMap LogRecord
  prevKey : Option Bytes

namespace SstableBuilder

def new (config : StorageConfig) : SstableBuilder :=
  { config, records := ∅, prevKey := none }

/-- Whether an entry fits an empty block: two length fields, one offset, the
entry count, the flags and the checksum come on top of key and value. -/
def entryFits (config : StorageConfig) (key : Bytes) (record : LogRecord) : Bool :=
  decide (key.length + record.encode.length + 17 ≤ config.blockSize)

/-- Whether the lengths of an entry are written in full. -/
def legible (key : Bytes) (record : LogRecord) : Bool :=
  decide (key.length < 2 ^ 16 ∧ record.encode.length < 2 ^ 16)

theorem legible_of_entryFits {config : StorageConfig} (small : config.Legible)
    {key : Bytes} {record : LogRecord} (fits : entryFits config key record = true) :
    legible key record = true := by
  unfold StorageConfig.Legible at small
  simp only [entryFits, legible, decide_eq_true_eq] at fits ⊢
  omega

def add (builder : SstableBuilder) (key : Bytes) (record : LogRecord) :
    Except LsmError SstableBuilder :=
  if builder.prevKey.any (fun prev => decide (key ≤ prev)) then
    .error (.invalidSstableFormat "Keys must be added in strictly increasing order")
  else if !entryFits builder.config key record then
    .error (.compactionFailed "Entry too large for a single block")
  else
    .ok { builder with
          records := builder.records.insert key record, prevKey := some key }

def addAll (builder : SstableBuilder) : List (Bytes × LogRecord) →
    Except LsmError SstableBuilder
  | [] => .ok builder
  | (key, record) :: rest =>
    match builder.add key record with
    | .ok builder => builder.addAll rest
    | .error error => .error error

def finish (builder : SstableBuilder) : Except LsmError SstFile :=
  if builder.records.isEmpty then
    .error (.compactionFailed "Cannot create SSTable with no blocks")
  else .ok (.table builder.records)

variable {builder : SstableBuilder} {entries : List (Bytes × LogRecord)}

theorem finish_ok {file : SstFile} (finished : builder.finish = .ok file) :
    file = .table builder.records := by
  unfold finish at finished
  split at finished
  · cases finished
  · cases finished
    rfl

theorem addAll_ok {final : SstableBuilder}
    (added : builder.addAll entries = .ok final) :
    final.records = builder.records.insertAll entries ∧
      (∀ entry ∈ entries, entryFits builder.config entry.1 entry.2 = true) ∧
      (entries.map (·.1)).Pairwise (· < ·) ∧
      ∀ prev ∈ builder.prevKey, ∀ entry ∈ entries, prev < entry.1 := by
  induction entries generalizing builder with
  | nil =>
    cases added
    simp [ByteMap.insertAll]
  | cons entry entries ih =>
    obtain ⟨key, record⟩ := entry
    rw [addAll] at added
    split at added
    · next next_builder accepted =>
      unfold add at accepted
      split at accepted
      · cases accepted
      next ordered =>
        split at accepted
        · cases accepted
        next fits =>
          cases accepted
          obtain ⟨records, others_fit, sorted, above⟩ := ih added
          have first_above : ∀ other ∈ entries, key < other.1 :=
            fun other member => above key rfl other member
          refine ⟨records, ?_, ?_, ?_⟩
          · intro other member
            rcases mem_cons.mp member with rfl | later
            · simpa using fits
            · exact others_fit other later
          · rw [map_cons, pairwise_cons]
            refine ⟨?_, sorted⟩
            intro other member
            obtain ⟨pair, later, rfl⟩ := mem_map.mp member
            exact first_above pair later
          · intro prev is_prev other member
            have below : prev < key := by
              rw [Option.mem_def] at is_prev
              simpa [is_prev] using ordered
            rcases mem_cons.mp member with rfl | later
            · exact below
            · exact below.trans (first_above other later)
    · cases added

theorem addAll_of_sorted
    (fits : ∀ entry ∈ entries, entryFits builder.config entry.1 entry.2 = true)
    (sorted : (entries.map (·.1)).Pairwise (· < ·))
    (above : ∀ prev ∈ builder.prevKey, ∀ entry ∈ entries, prev < entry.1) :
    ∃ final, builder.addAll entries = .ok final := by
  induction entries generalizing builder with
  | nil => exact ⟨builder, rfl⟩
  | cons entry entries ih =>
    obtain ⟨key, record⟩ := entry
    rw [map_cons, pairwise_cons] at sorted
    have ordered : builder.prevKey.any (fun prev => decide (key ≤ prev)) =
        false := by
      cases prev : builder.prevKey with
      | none => rfl
      | some previous =>
        have below := above previous (by simp [prev]) (key, record) mem_cons_self
        simpa using below
    have fit := fits (key, record) mem_cons_self
    have accepted : builder.add key record =
        .ok { builder with
              records := builder.records.insert key record
              prevKey := some key } := by
      simp [add, ordered, fit]
    rw [addAll, accepted]
    apply ih
    · intro other member
      exact fits other (mem_cons_of_mem _ member)
    · exact sorted.2
    · intro prev is_prev other member
      cases is_prev
      exact sorted.1 other.1 (mem_map_of_mem member)

end SstableBuilder

/-- All entries of the files can be decoded. -/
def SstDir.legible (dir : SstDir) : Bool :=
  dir.toList.all (fun file =>
    match file.2 with
    | .table records =>
      records.toList.all (fun entry => SstableBuilder.legible entry.1 entry.2)
    | .unfinished => true)

end ApexStore
