import ApexStore.Library.Newest
import ApexStore.Engine.Compaction

/-!
# What a compaction keeps

`executeCompaction_ok` says what a successful merge returns: nothing, when
nothing survives, or one table whose contents are the newest in-memory values
of the group, without empty values and keys under a range tombstone.

A live record of the group's files survives exactly when its value is not
empty and the newest in-memory copy inside the group has it
(`compact_keeps_live_iff`).
-/

namespace ApexStore

open Table SstableBuilder List

/-- The newest in-memory version of a key among tables listed oldest first. -/
def newestData (tables : List Table) (key : Bytes) : Option Bytes :=
  tables.reverse.findSome? (·.data[key]?)

/-- The newest version of a key in the files behind the tables. -/
def newestRecord (dir : SstDir) (tables : List Table) (key : Bytes) :
    Option LogRecord :=
  tables.reverse.findSome? (·.fileRecord dir key)

def survivor (tables : List Table) (tombstones : List RangeTombstone)
    (key : Bytes) : Option Bytes :=
  (newestData tables key).filter
    (fun value => !value.isEmpty && !isKeyInRangeTombstones key tombstones)

variable {tables outputs : List Table} {tombstones : List RangeTombstone}
  {key value : Bytes} {config : StorageConfig} {path name : String}
  {dir dir' : SstDir} {clock : CompactionClock} {target : OutputTarget}
  {strategy : CompactionStrategy} {indices : List Nat}
  {records : ByteMap LogRecord}

theorem survivor_eq_some : survivor tables tombstones key = some value ↔
      newestData tables key = some value ∧ value ≠ [] ∧
        isKeyInRangeTombstones key tombstones = false := by
  simp [survivor]

theorem mem_mergedEntries : (key, value) ∈ mergedEntries tables tombstones ↔
      survivor tables tombstones key = some value := by
  have merged := MergeIterator.mem_drain_new (tables.reverse.map (·.data)) key value
  rw [mergedEntries, survivor_eq_some]
  have newest :
      newestData tables key = (tables.reverse.map (·.data)).findSome? (·[key]?) := by
    rw [List.findSome?_map]
    rfl
  rw [newest, ← merged]
  simp [Function.comp_def]

theorem mergedEntries_sorted (tables : List Table) (tombstones : List RangeTombstone) :
    ((mergedEntries tables tombstones).map (·.1)).Pairwise (· < ·) := by
  have sorted := MergeIterator.drain_new_sorted (tables.reverse.map (·.data))
  rw [map_map] at sorted
  rw [pairwise_map]
  exact List.Pairwise.filter _ sorted

theorem mergedEntries_eq_nil_iff : mergedEntries tables tombstones = [] ↔
      ∀ key, survivor tables tombstones key = none := by
  constructor
  · intro empty key
    rw [Option.eq_none_iff_forall_ne_some]
    intro value survives
    have member := mem_mergedEntries.mpr survives
    simp [empty] at member
  · intro none
    rw [eq_nil_iff_forall_not_mem]
    rintro ⟨key, value⟩ member
    have survives := mem_mergedEntries.mp member
    simp [none key] at survives

/-- The table a flush or a compaction describes a file it wrote by: metadata
and an in-memory copy of the values. -/
def Table.withContents (config : StorageConfig) (path : String)
    (records : ByteMap LogRecord) (level : Nat) : Table :=
  { ofRecords config path records with
    data := records.map (fun _ record => record.value), level }

def Table.Filled (config : StorageConfig) (dir : SstDir) (table : Table) : Prop :=
  ∃ path records, dir[path]? = some (.table records) ∧
    table = withContents config path records table.level

def Table.Reopened (config : StorageConfig) (dir : SstDir) (table : Table) : Prop :=
  ∃ path records, dir[path]? = some (.table records) ∧ table = ofRecords config path records

/-- The contents of a file with one live record. -/
def singleRecord (now : Nanos) (key value : Bytes) : ByteMap LogRecord :=
  (∅ : ByteMap LogRecord).insert key (LogRecord.new now key value)

/-- The one table a merge returns when something survives. -/
structure MergeOutput (config : StorageConfig) (dir : SstDir)
    (path : String) (contents : Bytes → Option Bytes) (table : Table) : Prop where
  filled : table.Filled config dir
  path : table.path = some path
  data : ∀ key, table.data[key]? = contents key
  /-- Its file holds live records that never expire. -/
  live : ∀ key record, table.fileRecord dir key = some record →
    record.isDeleted = false ∧ record.expiresAt = none
  nonempty : ∃ key, contents key ≠ none

/-- What a merge with the given contents returns: nothing, or one table. -/
def GroupOutput (config : StorageConfig) (dir : SstDir) (path : String)
    (contents : Bytes → Option Bytes) (outputs : List Table) : Prop :=
  (outputs = [] ∧ ∀ key, contents key = none) ∨
    ∃ table, outputs = [table] ∧ MergeOutput config dir path contents table

/-- The entries of a merge with the records built for them. -/
def mergedRecords (clock : CompactionClock) (tables : List Table)
    (tombstones : List RangeTombstone) : List (Bytes × LogRecord) :=
  (mergedEntries tables tombstones).map (fun entry =>
    (entry.1, LogRecord.new (clock.stamp entry.1) entry.1 entry.2))

theorem mergedRecords_sorted (clock : CompactionClock) (tables : List Table)
    (tombstones : List RangeTombstone) :
    ((mergedRecords clock tables tombstones).map (·.1)).Pairwise (· < ·) := by
  rw [mergedRecords, map_map]
  exact mergedEntries_sorted tables tombstones

theorem insertAll_mergedRecords (clock : CompactionClock)
    (tables : List Table) (tombstones : List RangeTombstone) (key : Bytes) :
    (ByteMap.insertAll ∅ (mergedRecords clock tables tombstones))[key]? =
      (survivor tables tombstones key).map (LogRecord.new (clock.stamp key) key) := by
  apply Option.ext
  intro record
  rw [ByteMap.getElem?_insertAll_empty (mergedRecords_sorted clock tables tombstones)]
  constructor
  · intro member
    obtain ⟨⟨other, value⟩, entry, same⟩ := mem_map.mp member
    obtain ⟨rfl, rfl⟩ := Prod.mk.inj same
    simp [mem_mergedEntries.mp entry]
  · intro found
    obtain ⟨value, survives, rfl⟩ := Option.map_eq_some_iff.mp found
    exact mem_map.mpr ⟨(key, value), mem_mergedEntries.mpr survives, rfl⟩

theorem insertAll_mergedEntries (tables : List Table)
    (tombstones : List RangeTombstone)
    (key : Bytes) : (ByteMap.insertAll ∅ (mergedEntries tables tombstones))[key]? =
      survivor tables tombstones key := by
  apply Option.ext
  intro value
  rw [ByteMap.getElem?_insertAll_empty (mergedEntries_sorted tables tombstones),
    mem_mergedEntries]

theorem executeCompaction_ok
    (done : executeCompaction config dir clock target tables tombstones =
      (.ok outputs, dir')) : GroupOutput config dir' (target.fileName clock.timestamp)
      (survivor tables tombstones) outputs := by
  unfold executeCompaction at done
  split at done
  · next empty =>
    cases done
    have no_tables : tables = [] := by simpa using empty
    exact .inl ⟨rfl, fun key => by simp [survivor, newestData, no_tables]⟩
  dsimp only at done
  split at done
  · cases done
  next builder added =>
    obtain ⟨records, _⟩ := addAll_ok added
    change builder.records =
      ByteMap.insertAll ∅ (mergedRecords clock tables tombstones) at records
    split at done
    · next empty =>
      cases done
      exact .inl ⟨rfl, mergedEntries_eq_nil_iff.mp (by simpa using empty)⟩
    next nonempty =>
      split at done
      · cases done
      next file finished =>
        have written := SstableBuilder.finish_ok finished
        split at done
        · cases done
        next table opened =>
          cases done
          subst written
          obtain ⟨stored, stored_file, rfl⟩ := fromSstablePath_ok opened
          have same : stored = builder.records := by
            simpa using stored_file.symm
          subst same
          refine .inr ⟨_, rfl, ?_, rfl, ?_, ?_, ?_⟩
          · refine ⟨_, builder.records, stored_file, ?_⟩
            have values : ByteMap.insertAll ∅ (mergedEntries tables tombstones) =
                builder.records.map (fun _ record => record.value) := by
              apply Std.ExtTreeMap.ext_getElem?
              intro key
              rw [insertAll_mergedEntries, records, Std.ExtTreeMap.getElem?_map]
              rw [insertAll_mergedRecords]
              cases survivor tables tombstones key <;> rfl
            rw [values]
            rfl
          · exact insertAll_mergedEntries tables tombstones
          · intro key record found
            rw [fileRecord_of_table rfl stored_file, records,
              insertAll_mergedRecords] at found
            obtain ⟨value, _, rfl⟩ := Option.map_eq_some_iff.mp found
            exact ⟨rfl, rfl⟩
          · have some_entry : mergedEntries tables tombstones ≠ [] := by
              simpa using nonempty
            obtain ⟨⟨key, value⟩, entry⟩ := exists_mem_of_ne_nil _ some_entry
            exact ⟨key, by rw [mem_mergedEntries.mp entry]; simp⟩

/-- The tables of a group, in the order of its positions. -/
def groupTables (tables : List Table) (indices : List Nat) : List Table :=
  indices.filterMap (fun index => tables[index]?)

/-- The name of the file a compaction of the group writes. -/
def outputName (strategy : CompactionStrategy) (tables : List Table)
    (indices : List Nat) (clock : CompactionClock) : String :=
  (strategy.target (groupTables tables indices)).fileName clock.timestamp

theorem compact_ok
    (done : compact strategy config dir clock indices tables tombstones =
      (.ok outputs, dir')) :
    GroupOutput config dir' (outputName strategy tables indices clock)
      (survivor (groupTables tables indices) tombstones) outputs := by
  change (if (groupTables tables indices).isEmpty then _ else _) = _ at done
  split at done
  · next empty =>
    cases done
    have no_tables : groupTables tables indices = [] := by simpa using empty
    exact .inl ⟨rfl, fun key => by simp [no_tables, survivor, newestData]⟩
  · exact executeCompaction_ok done

theorem executeCompaction_dir (config : StorageConfig) (dir : SstDir)
    (clock : CompactionClock) (target : OutputTarget) (tables : List Table)
    (tombstones : List RangeTombstone)
    (other : name ≠ target.fileName clock.timestamp) :
    (executeCompaction config dir clock target tables tombstones).2[name]? =
      dir[name]? := by
  have kept : ∀ file, (dir.insert (target.fileName clock.timestamp) file)[name]? = dir[name]? := by
    intro file
    rw [NameMap.getElem?_insert, if_neg other.symm]
  unfold executeCompaction
  split
  · rfl
  dsimp only
  split
  · exact kept _
  split
  · exact kept _
  split
  · exact kept _
  split <;> exact kept _

theorem compact_dir (strategy : CompactionStrategy) (config : StorageConfig)
    (dir : SstDir) (clock : CompactionClock) (indices : List Nat) (tables : List Table)
    (tombstones : List RangeTombstone)
    (other : name ≠ outputName strategy tables indices clock) :
    (compact strategy config dir clock indices tables tombstones).2[name]? =
      dir[name]? := by
  unfold compact
  dsimp only
  split
  · rfl
  · exact executeCompaction_dir config dir clock _ _ tombstones other

/-- A file that is a table after a successful merge was one before or is that
of the output. -/
theorem executeCompaction_listed
    (done : executeCompaction config dir clock target tables tombstones =
      (.ok outputs, dir'))
    (file : dir'[name]? = some (.table records)) :
    dir[name]? = some (.table records) ∨
      ∃ table ∈ outputs, table.path = some name := by
  by_cases own : name = target.fileName clock.timestamp
  · unfold executeCompaction at done
    split at done
    · cases done
      exact .inl file
    dsimp only at done
    split at done
    · cases done
    split at done
    · cases done
      simp [own] at file
    split at done
    · cases done
    split at done
    · cases done
    next table opened =>
      cases done
      obtain ⟨_, _, rfl⟩ := fromSstablePath_ok opened
      exact .inr ⟨_, mem_singleton.mpr rfl, by rw [own]; rfl⟩
  · have kept := executeCompaction_dir config dir clock target tables tombstones own
    rw [done, file] at kept
    exact .inl kept.symm

theorem compact_listed
    (done : compact strategy config dir clock indices tables tombstones =
      (.ok outputs, dir')) (file : dir'[name]? = some (.table records)) :
    dir[name]? = some (.table records) ∨
      ∃ table ∈ outputs, table.path = some name := by
  unfold compact at done
  dsimp only at done
  split at done
  · cases done
    exact .inl file
  · exact executeCompaction_listed done file

theorem executeCompaction_live
    (file : (executeCompaction config dir clock target tables
      tombstones).2[name]? = some (.table records)) :
    dir[name]? = some (.table records) ∨
      ∀ (key : Bytes) (record : LogRecord), records[key]? = some record →
        record.isDeleted = false := by
  by_cases own : name = target.fileName clock.timestamp
  · unfold executeCompaction at file
    split at file
    · exact .inl file
    dsimp only at file
    split at file
    · simp [own] at file
    next builder added =>
      have contents := (addAll_ok added).1
      change builder.records = ByteMap.insertAll ∅
        (mergedRecords clock tables tombstones) at contents
      split at file
      · simp [own] at file
      split at file
      · simp [own] at file
      next written finished =>
        have same := SstableBuilder.finish_ok finished
        have stored : builder.records = records := by
          split at file <;> simpa [own, same] using file
        right
        intro key record found
        rw [← stored, contents, insertAll_mergedRecords] at found
        obtain ⟨value, _, rfl⟩ := Option.map_eq_some_iff.mp found
        rfl
  · have kept := executeCompaction_dir config dir clock target tables tombstones own
    rw [file] at kept
    exact .inl kept.symm

theorem compact_live (file : (compact strategy config dir clock indices tables
      tombstones).2[name]? = some (.table records)) :
    dir[name]? = some (.table records) ∨
      ∀ (key : Bytes) (record : LogRecord), records[key]? = some record →
        record.isDeleted = false := by
  unfold compact at file
  dsimp only at file
  split at file
  · exact .inl file
  · exact executeCompaction_live file

theorem executeCompaction_succeeds (dir : SstDir) (clock : CompactionClock)
    (target : OutputTarget)
    (fits : ∀ key value, survivor tables tombstones key = some value →
      entryFits config key (LogRecord.new (clock.stamp key) key value) = true) :
    ∃ outputs dir', executeCompaction config dir clock target tables tombstones =
        (.ok outputs, dir') := by
  have records_fit : ∀ entry ∈ mergedRecords clock tables tombstones,
      entryFits (SstableBuilder.new config).config entry.1 entry.2 = true := by
    intro entry member
    obtain ⟨⟨key, value⟩, merged, rfl⟩ := mem_map.mp member
    exact fits key value (mem_mergedEntries.mp merged)
  obtain ⟨builder, added⟩ := addAll_of_sorted records_fit
    (mergedRecords_sorted clock tables tombstones) (by simp [SstableBuilder.new])
  have records := (addAll_ok added).1
  change (SstableBuilder.new config).addAll
    ((mergedEntries tables tombstones).map _) = _ at added
  unfold executeCompaction
  by_cases no_tables : tables.isEmpty = true
  · exact ⟨[], dir, by rw [if_pos no_tables]⟩
  by_cases no_entries : mergedEntries tables tombstones = []
  · exact ⟨[], _, by simp [no_tables, no_entries]; rfl⟩
  have finished : builder.finish = .ok (.table builder.records) := by
    rw [SstableBuilder.finish, if_neg]
    intro empty
    obtain ⟨⟨key, value⟩, entry⟩ := exists_mem_of_ne_nil _ no_entries
    have stored := insertAll_mergedRecords clock tables tombstones key
    rw [mem_mergedEntries.mp entry] at stored
    have same : builder.records =
        ByteMap.insertAll ∅ (mergedRecords clock tables tombstones) := records
    rw [← same, Std.ExtTreeMap.isEmpty_iff.mp empty] at stored
    simp at stored
  have opened : fromSstablePath config
      (dir.insert (target.fileName clock.timestamp) (.table builder.records))
      (target.fileName clock.timestamp) =
        .ok (ofRecords config (target.fileName clock.timestamp) builder.records) := by
    simp [fromSstablePath, SstDir.openTable]
  rw [if_neg no_tables]
  dsimp only
  rw [added]
  dsimp only
  rw [if_neg (by simpa using no_entries), finished]
  dsimp only
  rw [opened]
  exact ⟨_, _, rfl⟩

theorem compact_succeeds (strategy : CompactionStrategy) (dir : SstDir)
    (clock : CompactionClock)
    (fits : ∀ key value, survivor (groupTables tables indices) tombstones key =
      some value →
      entryFits config key (LogRecord.new (clock.stamp key) key value) = true) :
    ∃ outputs dir', compact strategy config dir clock indices tables tombstones =
        (.ok outputs, dir') := by
  unfold compact
  dsimp only
  split
  · exact ⟨[], dir, rfl⟩
  · exact executeCompaction_succeeds dir clock _ fits

theorem compact_of_no_survivor (strategy : CompactionStrategy)
    (config : StorageConfig) (dir : SstDir) (clock : CompactionClock) (nothing : ∀ key,
      survivor (groupTables tables indices) tombstones key = none) :
    (compact strategy config dir clock indices tables tombstones).1 = .ok [] := by
  change (if (groupTables tables indices).isEmpty then _ else
    executeCompaction _ _ _ _ (groupTables tables indices) _).1 = _
  have no_entries := mergedEntries_eq_nil_iff.mpr nothing
  split
  · rfl
  · next some_tables =>
    simp [executeCompaction, some_tables, no_entries, addAll]

namespace Table

/-- A table has a live value of a key, in memory and in its file. -/
structure Holds (dir : SstDir) (table : Table) (key value : Bytes) : Prop where
  data : table.data[key]? = some value
  file : ∃ record, table.fileRecord dir key = some record ∧
    record.value = value ∧ record.isDeleted = false ∧ record.expiresAt = none

variable {config : StorageConfig} {dir : SstDir} {table : Table}

theorem Filled.data_eq (filled : table.Filled config dir) (key : Bytes) :
    table.data[key]? = (table.fileRecord dir key).map (·.value) := by
  obtain ⟨path, records, file, same⟩ := filled
  have located : table.path = some path := by rw [same]; rfl
  rw [fileRecord_of_table located file, same]
  simp [withContents]

theorem Filled.admits (filled : table.Filled config dir) {key : Bytes}
    {record : LogRecord}
    (found : table.fileRecord dir key = some record) : table.admits key = true := by
  obtain ⟨path, records, file, same⟩ := filled
  have located : table.path = some path := by rw [same]; rfl
  rw [fileRecord_of_table located file] at found
  have present : key ∈ records :=
    Std.ExtTreeMap.mem_iff_isSome_getElem?.mpr (by rw [found]; rfl)
  rw [same]
  exact (ofRecords_admits config path present).1

end Table

/-- For tables created in this process the in-memory copies have the newest
versions of the files. -/
theorem newestData_of_filled (filled : ∀ table ∈ tables, table.Filled config dir)
    (key : Bytes) :
    newestData tables key = (newestRecord dir tables key).map (·.value) := by
  rw [newestRecord, map_findSome?]
  apply findSome?_congr
  intro table member
  exact (filled table (mem_reverse.mp member)).data_eq key

theorem newestData_of_reopened (reopened : ∀ table ∈ tables, table.Reopened config dir)
    (key : Bytes) : newestData tables key = none := by
  rw [newestData, List.findSome?_eq_none_iff]
  intro table member
  obtain ⟨path, records, _, rfl⟩ := reopened table (mem_reverse.mp member)
  simp [ofRecords]

variable {contents : Bytes → Option Bytes} {table : Table}

theorem MergeOutput.holds_iff (output : MergeOutput config dir path contents table)
    (key value : Bytes) : table.Holds dir key value ↔ contents key = some value := by
  rw [← output.data]
  constructor
  · exact fun holds => holds.data
  · intro data
    refine ⟨data, ?_⟩
    have values := output.filled.data_eq key
    rw [data] at values
    obtain ⟨record, found, value_eq⟩ := Option.map_eq_some_iff.mp values.symm
    obtain ⟨live, permanent⟩ := output.live key record found
    exact ⟨record, found, value_eq, live, permanent⟩

theorem MergeOutput.of_same_file (output : MergeOutput config dir path contents table)
    (same : dir'[path]? = dir[path]?) :
    MergeOutput config dir' path contents table := by
  obtain ⟨other, records, file, table_eq⟩ := output.filled
  have located : table.path = some other := by rw [table_eq]; rfl
  have path_eq : other = path := Option.some.inj (located.symm.trans output.path)
  subst path_eq
  have file' : dir'[other]? = some (.table records) := same.trans file
  refine ⟨⟨other, records, file', table_eq⟩, output.path, output.data, ?_, output.nonempty⟩
  intro key record found
  rw [fileRecord_of_table located file', ← fileRecord_of_table located file] at found
  exact output.live key record found

/-- The newest version of `key` in the files of a group is `record`, it is live
at `now`, and no range tombstone deletes it: those that cover the key are not
newer than the record. -/
structure LiveInGroup (dir : SstDir) (group : List Table)
    (tombstones : List RangeTombstone) (now : Nanos) (key : Bytes)
    (record : LogRecord) : Prop where
  newest : newestRecord dir group key = some record
  live : record.isDeleted = false
  unexpired : record.isExpiredAt now = false
  visible : ∀ range ∈ tombstones, range.covers key = true →
    range.timestamp ≤ record.timestamp

/-- Compaction keeps all live records of a group exactly when each of them has
a non-empty value, is the newest version among the in-memory copies of the
group too, and lies in no range tombstone, however old. -/
theorem compact_keeps_live_iff {strategy : CompactionStrategy} {config : StorageConfig}
    {dir dir' : SstDir} {clock : CompactionClock} {indices : List Nat}
    {tables outputs : List Table} {tombstones : List RangeTombstone} (now : Nanos)
    (done : compact strategy config dir clock indices tables tombstones =
      (.ok outputs, dir')) :
    (∀ key record, LiveInGroup dir
      (groupTables tables indices) tombstones now key record →
        ∃ output ∈ outputs, output.Holds dir' key record.value) ↔ ∀ key record,
        LiveInGroup dir (groupTables tables indices) tombstones now key record →
          record.value ≠ [] ∧
          newestData (groupTables tables indices) key = some record.value ∧
          isKeyInRangeTombstones key tombstones = false := by
  have kept : ∀ key value, (∃ output ∈ outputs, output.Holds dir' key value) ↔
        survivor (groupTables tables indices) tombstones key = some value := by
    intro key value
    rcases compact_ok done with ⟨rfl, nothing⟩ | ⟨table, rfl, output⟩
    · simp [nothing key]
    · simp [output.holds_iff]
  simp only [kept, survivor_eq_some]
  constructor
  · intro keeps key record live
    obtain ⟨newest, nonempty, uncovered⟩ := keeps key record live
    exact ⟨nonempty, newest, uncovered⟩
  · intro condition key record live
    obtain ⟨nonempty, newest, uncovered⟩ := condition key record live
    exact ⟨newest, nonempty, uncovered⟩

/-- Two flushed versions of a key merge into the newer one. -/
theorem compact_keeps_live_of_flushed :
    let config : StorageConfig :=
      { blockSize := 4096, bloomCollides := fun _ _ => false }
    let first := (∅ : ByteMap LogRecord).insert [1] (LogRecord.new 1 [1] [10])
    let second := (∅ : ByteMap LogRecord).insert [1] (LogRecord.new 2 [1] [20])
    let dir : SstDir := ((∅ : SstDir).insert "flush_1.sst" (.table first)).insert
      "flush_2.sst" (.table second)
    let tables := [withContents config "flush_1.sst" first 0,
      withContents config "flush_2.sst" second 0]
    let strategy := CompactionStrategy.sizeTiered .default
    let clock : CompactionClock := { timestamp := 3, stamp := fun _ => 3 }
    ∃ outputs dir',
      compact strategy config dir clock [0, 1] tables [] = (.ok outputs, dir') ∧
        ∃ output ∈ outputs, output.Holds dir' [1] [20] := by
  intro config first second dir tables strategy clock
  have filled : ∀ table ∈ groupTables tables [0, 1], table.Filled config dir := by
    have both : ∀ table ∈ tables, table.Filled config dir := by
      simp only [tables, forall_mem_cons]
      exact ⟨⟨"flush_1.sst", first, rfl, rfl⟩, ⟨"flush_2.sst", second, rfl, rfl⟩, by simp⟩
    exact both
  have newest : ∀ key, newestRecord dir (groupTables tables [0, 1]) key =
      if [1] = key then some (LogRecord.new 2 [1] [20]) else none := by
    intro key
    have later : tables[1].fileRecord dir key = second[key]? := fileRecord_of_table rfl
        (rfl : dir["flush_2.sst"]? = some (.table second)) key
    have earlier : tables[0].fileRecord dir key = first[key]? := fileRecord_of_table rfl
        (rfl : dir["flush_1.sst"]? = some (.table first)) key
    change [tables[1], tables[0]].findSome? (·.fileRecord dir key) = _
    rw [List.findSome?_cons, List.findSome?_cons, later, earlier,
      ByteMap.getElem?_insert, ByteMap.getElem?_insert]
    by_cases same : [1] = key <;> simp [same]
  obtain ⟨outputs, dir', done⟩ := exists_of_isOk
    (by decide +kernel : (compact strategy config dir clock [0, 1] tables []).1.isOk = true)
  refine ⟨outputs, dir', done, ?_⟩
  refine (compact_keeps_live_iff 3 done).mpr ?_ [1] (LogRecord.new 2 [1] [20])
    ⟨by rw [newest, if_pos rfl], rfl, rfl, by simp⟩
  intro key record live
  have found := live.newest
  rw [newest] at found
  split at found
  · cases found
    refine ⟨by simp [LogRecord.new], ?_, rfl⟩
    rw [newestData_of_filled filled, live.newest]
    rfl
  · cases found

/-- Tables opened at startup lose everything: their records are live in their
files, and compaction of the group returns no table at all. -/
theorem compact_drops_reopened_tables :
    let config : StorageConfig :=
      { blockSize := 4096, bloomCollides := fun _ _ => false }
    let record := LogRecord.new 1 [1] [10]
    let first := (∅ : ByteMap LogRecord).insert [1] record
    let second := (∅ : ByteMap LogRecord).insert [2] (LogRecord.new 2 [2] [20])
    let dir : SstDir := ((∅ : SstDir).insert "flush_1.sst" (.table first)).insert
      "flush_2.sst" (.table second)
    let tables := [ofRecords config "flush_1.sst" first,
      ofRecords config "flush_2.sst" second]
    let strategy := CompactionStrategy.sizeTiered .default
    let clock : CompactionClock := { timestamp := 3, stamp := fun _ => 3 }
    [0, 1] ∈ strategy.pickTables tables ∧
      LiveInGroup dir (groupTables tables [0, 1]) [] 3 [1] record ∧
      (compact strategy config dir clock [0, 1] tables []).1 = .ok [] := by
  intro config record first second dir tables strategy clock
  refine ⟨by decide +kernel, ⟨rfl, rfl, rfl, by simp⟩, ?_⟩
  apply compact_of_no_survivor
  intro key
  have reopened : ∀ table ∈ tables, table.Reopened config dir := by
    simp only [tables, forall_mem_cons]
    exact ⟨⟨"flush_1.sst", first, rfl, rfl⟩, ⟨"flush_2.sst", second, rfl, rfl⟩, by simp⟩
  have data := newestData_of_reopened reopened key
  change newestData (groupTables tables [0, 1]) key = none at data
  simp [survivor, data]

end ApexStore
