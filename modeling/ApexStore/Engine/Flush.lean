import ApexStore.Engine.CompactionMerge

/-!
# Writing a memtable to an SSTable

The part of `flush_memtable_impl` between taking a memtable and installing the
table: records that have expired are left out, the others are written, and for
every record with an expiry time a further entry under a `__ttl:` key is
written with it.  `flushTable_ok` says what a successful flush leaves behind.
-/

namespace ApexStore

open SstableBuilder ByteMap List

/-! ## TTL keys -/

def isContinuation (byte : UInt8) : Bool :=
  decide (0x80 ≤ byte ∧ byte ≤ 0xBF)

/-- The length of a UTF-8 sequence by its first byte; zero for bytes that start
none. -/
def utf8CharWidth (first : UInt8) : Nat :=
  if first < 0x80 then 1
  else if first < 0xC2 then 0
  else if first < 0xE0 then 2
  else if first < 0xF0 then 3
  else if first < 0xF5 then 4
  else 0

/-- Whether a byte may follow the first byte of a longer sequence: overlong
forms, surrogates and values above U+10FFFF are ruled out here. -/
def secondByteFits (first second : UInt8) : Bool :=
  if utf8CharWidth first < 2 then false
  else if first = 0xE0 then decide (0xA0 ≤ second ∧ second ≤ 0xBF)
  else if first = 0xED then decide (0x80 ≤ second ∧ second ≤ 0x9F)
  else if first = 0xF0 then decide (0x90 ≤ second ∧ second ≤ 0xBF)
  else if first = 0xF4 then decide (0x80 ≤ second ∧ second ≤ 0x8F)
  else isContinuation second

/-- How many bytes after the first one belong to its sequence, as far as it is
well formed. -/
def sequenceLength (first : UInt8) : Bytes → Nat
  | [] => 0
  | second :: rest =>
    if secondByteFits first second then
      1 + min (utf8CharWidth first - 2) (rest.takeWhile isContinuation).length
    else 0

/-- The bytes of `String::from_utf8_lossy`: every broken sequence becomes one
replacement character. -/
def fromUtf8Lossy : Bytes → Bytes
  | [] => []
  | first :: rest =>
    let length := sequenceLength first rest
    (if utf8CharWidth first = length + 1 then first :: rest.take length
      else [0xEF, 0xBF, 0xBD]) ++ fromUtf8Lossy (rest.drop length)
termination_by bytes => bytes.length
decreasing_by simp

/-- The bytes of `__ttl:`. -/
def ttlPrefix : Bytes := [95, 95, 116, 116, 108, 58]

def ttlKey (key : Bytes) : Bytes := ttlPrefix ++ fromUtf8Lossy key

/-! ## The written entries -/

/-- The clock readings of a flush: one for the flush itself, one for each TTL
entry. -/
structure FlushClock where
  now : Nanos
  stamp : Bytes → Nanos

def ttlRecord (clock : FlushClock) (key : Bytes) (expiresAt : Nanos) : LogRecord :=
  LogRecord.new (clock.stamp key) (ttlKey key) (leBytes 16 expiresAt.val)

/-- The entries for one record of the memtable. -/
def flushedPair (clock : FlushClock) (entry : Bytes × LogRecord) :
    List (Bytes × LogRecord) :=
  if entry.2.isExpiredAt clock.now then []
  else
    entry :: entry.2.expiresAt.toList.map (fun expiresAt =>
      (ttlKey entry.1, ttlRecord clock entry.1 expiresAt))

/-- All entries, sorted by key once more because of the TTL entries. -/
def combinedEntries (clock : FlushClock) (data : ByteMap LogRecord) :
    List (Bytes × LogRecord) :=
  (data.toList.flatMap (flushedPair clock)).mergeSort
    (fun left right => decide (left.1 ≤ right.1))

def rawData (clock : FlushClock) (data : ByteMap LogRecord) : ByteMap Bytes :=
  insertAll ((data.filter (fun _ record => !record.isExpiredAt clock.now)).map
      (fun _ record => record.value))
    (((combinedEntries clock data).filter (fun entry =>
      ttlPrefix.isPrefixOf entry.1)).map (fun entry => (entry.1, entry.2.value)))

def flushName (now : Nanos) : String := "flush_" ++ toString now.val ++ ".sst"

/-- Returns the new table and the directory afterwards; a builder that fails
leaves its file behind. -/
def flushTable (config : StorageConfig) (dir : SstDir) (clock : FlushClock)
    (data : ByteMap LogRecord) : Except LsmError Table × SstDir :=
  let path := flushName clock.now
  match (SstableBuilder.new config).addAll (combinedEntries clock data) with
  | .error error => (.error error, dir.insert path .unfinished)
  | .ok builder =>
    match builder.finish with
    | .error error => (.error error, dir.insert path .unfinished)
    | .ok file =>
      let written := dir.insert path file
      match Table.fromSstablePath config written path with
      | .error error => (.error error, written)
      | .ok table =>
        (.ok { table with data := rawData clock data, level := 0 }, written)

variable {clock : FlushClock} {data : ByteMap LogRecord} {key : Bytes}
  {record : LogRecord} {config : StorageConfig} {dir dir' : SstDir}

theorem mem_combinedEntries : (key, record) ∈ combinedEntries clock data ↔
      (data[key]? = some record ∧ record.isExpiredAt clock.now = false) ∨
        ∃ (owner : Bytes) (owned : LogRecord) (expiresAt : Nanos),
          data[owner]? = some owned ∧ owned.isExpiredAt clock.now = false ∧
          owned.expiresAt = some expiresAt ∧ key = ttlKey owner ∧
          record = ttlRecord clock owner expiresAt := by
  rw [combinedEntries, mem_mergeSort, mem_flatMap]
  constructor
  · rintro ⟨⟨owner, owned⟩, listed, produced⟩
    rw [ByteMap.mem_toList] at listed
    unfold flushedPair at produced
    split at produced
    · cases produced
    · next live =>
      have unexpired : owned.isExpiredAt clock.now = false := Bool.eq_false_iff.mpr live
      rcases mem_cons.mp produced with same | ttl
      · cases same
        exact .inl ⟨listed, unexpired⟩
      · obtain ⟨expiresAt, expires, same⟩ := mem_map.mp ttl
        cases same
        exact .inr ⟨owner, owned, expiresAt, listed, unexpired,
          Option.mem_toList.mp expires, rfl, rfl⟩
  · rintro (⟨listed, unexpired⟩ |
      ⟨owner, owned, expiresAt, listed, unexpired, expires, rfl, rfl⟩)
    · refine ⟨(key, record), (ByteMap.mem_toList _ _ _).mpr listed, ?_⟩
      simp [flushedPair, unexpired]
    · refine ⟨(owner, owned), (ByteMap.mem_toList _ _ _).mpr listed, ?_⟩
      simp [flushedPair, unexpired, expires]

theorem isPrefixOf_ttlKey (key : Bytes) :
    ttlPrefix.isPrefixOf (ttlKey key) = true := by
  rw [List.isPrefixOf_iff_prefix]
  exact prefix_append ttlPrefix (fromUtf8Lossy key)

theorem rawData_eq
    (sorted : ((combinedEntries clock data).map (·.1)).Pairwise (· < ·)) :
    rawData clock data = (insertAll ∅ (combinedEntries clock data)).map
        (fun _ record => record.value) := by
  apply Std.ExtTreeMap.ext_getElem?
  intro key
  rw [Std.ExtTreeMap.getElem?_map]
  have ttl_sorted : ((((combinedEntries clock data).filter (fun entry =>
      ttlPrefix.isPrefixOf entry.1)).map
        (fun entry => (entry.1, entry.2.value))).map (·.1)).Pairwise (· < ·) := by
    rw [map_map]
    exact List.Pairwise.sublist (filter_sublist.map _) sorted
  by_cases ttl : key ∈ (((combinedEntries clock data).filter (fun entry =>
      ttlPrefix.isPrefixOf entry.1)).map (fun entry => (entry.1, entry.2.value))).map (·.1)
  · obtain ⟨⟨same, value⟩, listed, rfl⟩ := mem_map.mp ttl
    obtain ⟨⟨other, record⟩, filtered, pair⟩ := mem_map.mp listed
    obtain ⟨rfl, rfl⟩ := Prod.mk.inj pair
    have member := (mem_filter.mp filtered).1
    rw [rawData, ByteMap.getElem?_insertAll_of_mem ttl_sorted listed,
      (ByteMap.getElem?_insertAll_empty sorted _ _).mpr member]
    rfl
  · rw [rawData, ByteMap.getElem?_insertAll_of_not_mem _ ttl,
      Std.ExtTreeMap.getElem?_map, Std.ExtTreeMap.getElem?_filter']
    congr 1
    apply Option.ext
    intro record
    rw [ByteMap.getElem?_insertAll_empty sorted, mem_combinedEntries,
      Option.filter_eq_some_iff, Bool.not_eq_true']
    constructor
    · exact .inl
    · rintro (plain | ⟨owner, owned, expiresAt, listed, unexpired, expires, rfl, rfl⟩)
      · exact plain
      · -- A TTL entry would be among the entries added last.
        exfalso
        apply ttl
        have member : (ttlKey owner, ttlRecord clock owner expiresAt) ∈
            combinedEntries clock data :=
          mem_combinedEntries.mpr (.inr ⟨owner, owned, expiresAt, listed,
            unexpired, expires, rfl, rfl⟩)
        rw [map_map]
        exact mem_map.mpr ⟨_, mem_filter.mpr ⟨member, isPrefixOf_ttlKey owner⟩, rfl⟩

variable {table : Table}

/-- What a successful flush leaves behind: a file with the entries and a table
of level 0 with the same contents in memory. -/
theorem flushTable_ok (done : flushTable config dir clock data = (.ok table, dir')) :
    ((combinedEntries clock data).map (·.1)).Pairwise (· < ·) ∧
      dir' = dir.insert (flushName clock.now)
        (.table (insertAll ∅ (combinedEntries clock data))) ∧
      table = Table.withContents config (flushName clock.now)
        (insertAll ∅ (combinedEntries clock data)) 0 := by
  unfold flushTable at done
  dsimp only at done
  split at done
  · cases done
  next builder added =>
    obtain ⟨records, _, sorted, _⟩ := addAll_ok added
    split at done
    · cases done
    next file finished =>
      have written := SstableBuilder.finish_ok finished
      split at done
      · cases done
      next opened_table opened =>
        cases done
        subst written
        obtain ⟨stored, stored_file, rfl⟩ := Table.fromSstablePath_ok opened
        have same : stored = builder.records := by
          simpa using stored_file.symm
        rw [same, records, rawData_eq sorted]
        exact ⟨sorted, rfl, rfl⟩

theorem flushTable_error {error : LsmError}
    (failed : flushTable config dir clock data = (.error error, dir')) :
    dir' = dir.insert (flushName clock.now) .unfinished := by
  unfold flushTable at failed
  split at failed
  · cases failed
    rfl
  next builder added =>
    split at failed
    · cases failed
      rfl
    next file finished =>
      unfold SstableBuilder.finish at finished
      split at finished
      · cases finished
      · cases finished
        simp [Table.fromSstablePath, SstDir.openTable] at failed

/-- Entries in strictly increasing key order that fit their blocks are
written. -/
theorem flushTable_succeeds (dir : SstDir)
    (sorted : ((combinedEntries clock data).map (·.1)).Pairwise (· < ·))
    (fits : ∀ entry ∈ combinedEntries clock data, entryFits config entry.1 entry.2 =
      true)
    (nonempty : combinedEntries clock data ≠ []) :
    ∃ table dir', flushTable config dir clock data = (.ok table, dir') := by
  obtain ⟨builder, added⟩ : ∃ builder,
      (SstableBuilder.new config).addAll (combinedEntries clock data) = .ok builder :=
    addAll_of_sorted fits sorted (by simp [SstableBuilder.new])
  have records := (addAll_ok added).1
  change builder.records = insertAll ∅ (combinedEntries clock data) at records
  have finished : builder.finish = .ok (.table builder.records) := by
    rw [SstableBuilder.finish, if_neg]
    intro empty
    obtain ⟨⟨key, record⟩, entry⟩ := exists_mem_of_ne_nil _ nonempty
    have stored := (ByteMap.getElem?_insertAll_empty sorted _ _).mpr entry
    rw [← records, Std.ExtTreeMap.isEmpty_iff.mp empty] at stored
    simp at stored
  have opened : Table.fromSstablePath config
      (dir.insert (flushName clock.now) (.table builder.records)) (flushName clock.now) =
        .ok (Table.ofRecords config (flushName clock.now) builder.records) := by
    simp [Table.fromSstablePath, SstDir.openTable]
  unfold flushTable
  rw [added]
  dsimp only
  rw [finished]
  dsimp only
  rw [opened]
  exact ⟨_, _, rfl⟩

/-- What the builder accepts of a memtable. -/
structure Flushable (config : StorageConfig) (clock : FlushClock)
    (data : ByteMap LogRecord) : Prop where
  sorted : ((combinedEntries clock data).map (·.1)).Pairwise (· < ·)
  fits : ∀ entry ∈ combinedEntries clock data, entryFits config entry.1 entry.2 = true
  nonempty : combinedEntries clock data ≠ []

theorem Flushable.flushTable (flushable : Flushable config clock data) (dir : SstDir) :
    flushTable config dir clock data =
      (.ok (Table.withContents config (flushName clock.now)
          (insertAll ∅ (combinedEntries clock data)) 0),
            dir.insert (flushName clock.now)
          (.table (insertAll ∅ (combinedEntries clock data)))) := by
  obtain ⟨table, dir', done⟩ := flushTable_succeeds dir flushable.sorted
    flushable.fits flushable.nonempty
  obtain ⟨_, rfl, rfl⟩ := flushTable_ok done
  exact done

theorem flushTable_dir (config : StorageConfig) (dir : SstDir) (clock : FlushClock)
    (data : ByteMap LogRecord) {name : String} (other : name ≠ flushName clock.now) :
    (flushTable config dir clock data).2[name]? = dir[name]? := by
  have kept : ∀ file, (dir.insert (flushName clock.now) file)[name]? = dir[name]? := by
    intro file
    rw [NameMap.getElem?_insert, if_neg other.symm]
  unfold flushTable
  dsimp only
  split
  · exact kept _
  split
  · exact kept _
  split <;> exact kept _

section

variable (sorted : ((data.toList.flatMap (flushedPair clock)).map (·.1)).Pairwise
  (· < ·))
include sorted

/-- Where the TTL entries fall into place, the entries are written in the order
of the memtable. -/
theorem combinedEntries_of_sorted :
    combinedEntries clock data = data.toList.flatMap (flushedPair clock) := by
  apply mergeSort_of_pairwise
  exact (pairwise_map.mp sorted).imp (fun below =>
    decide_eq_true below.le)

theorem Flushable.of_sorted (fits : ∀ entry ∈ data.toList.flatMap (flushedPair clock),
      entryFits config entry.1 entry.2 = true)
    (nonempty : data.toList.flatMap (flushedPair clock) ≠ []) :
    Flushable config clock data := by
  rw [← combinedEntries_of_sorted sorted] at fits nonempty
  refine ⟨?_, fits, nonempty⟩
  rw [combinedEntries_of_sorted sorted]
  exact sorted

end

theorem combinedEntries_single (clock : FlushClock)
    (lasting : record.expiresAt = none) :
    combinedEntries clock ((∅ : ByteMap LogRecord).insert key record) =
      [(key, record)] := by
  have listed : ((∅ : ByteMap LogRecord).insert key record).toList = [(key, record)] := rfl
  simp [combinedEntries, listed, flushedPair, LogRecord.isExpiredAt, lasting]

theorem flushable_single (clock : FlushClock) (lasting : record.expiresAt = none)
    (fits : entryFits config key record = true) :
    Flushable config clock ((∅ : ByteMap LogRecord).insert key record) := by
  have entries := @combinedEntries_single key record clock lasting
  refine ⟨by simp [entries], ?_, by simp [entries]⟩
  intro entry member
  rw [entries, mem_singleton] at member
  rw [member]
  exact fits

theorem flushTable_single (dir : SstDir) (clock : FlushClock)
    (lasting : record.expiresAt = none) (fits : entryFits config key record = true) :
    flushTable config dir clock ((∅ : ByteMap LogRecord).insert key record) =
      (.ok (.withContents config (flushName clock.now)
          ((∅ : ByteMap LogRecord).insert key record) 0),
            dir.insert (flushName clock.now)
          (.table ((∅ : ByteMap LogRecord).insert key record))) := by
  rw [(flushable_single clock lasting fits).flushTable, combinedEntries_single clock lasting]
  rfl

end ApexStore
