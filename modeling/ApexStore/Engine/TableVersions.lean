import ApexStore.Engine.CompactionMerge

/-!
# The versions tables stand for

A table stands for the versions in its file, or in its memory when it has no
file.  A lookup passes over a table without a version of the key and stops at
a tombstone.
-/

namespace ApexStore

open VersionSet List

namespace Table

/-- The version of a key a table stands for: the record of its file, or, for a
table without a file, the in-memory value with an empty value as tombstone. -/
def version (dir : SstDir) (table : Table) (key : Bytes) : Option LogRecord :=
  match table.path with
  | some _ => table.fileRecord dir key
  | none =>
    table.data[key]?.map (fun value =>
      { LogRecord.new 0 key value with isDeleted := value.isEmpty })

/-- The table has no version of the key or a tombstone. -/
def NotLive (dir : SstDir) (table : Table) (key : Bytes) : Prop :=
  ∀ record, table.version dir key = some record → record.isDeleted = true

/-- Tables as the engine makes them: by a flush or a compaction, by opening a
file, or in memory. -/
def Produced (config : StorageConfig) (dir : SstDir) (table : Table) : Prop :=
  table.Filled config dir ∨ table.Reopened config dir ∨
    table = { build config table.data with level := table.level }

/-- Such tables, with tombstones that carry no value. -/
structure WellFormed (config : StorageConfig) (dir : SstDir) (table : Table) :
    Prop where
  produced : table.Produced config dir
  tombstones : ∀ key record, table.version dir key = some record →
    record.isDeleted = true → record.value = []

variable {config : StorageConfig} {dir dir' : SstDir} {table : Table}
  {key : Bytes}

theorem version_of_path {path : String} (located : table.path = some path)
    (key : Bytes) : table.version dir key = table.fileRecord dir key := by
  rw [version, located]

theorem build_admits (config : StorageConfig) {data : ByteMap Bytes} (level : Nat)
    (present : key ∈ data) :
    ({ build config data with level } : Table).admits key = true ∧
      ({ build config data with level } : Table).admitsRecord key = true := by
  obtain ⟨low, high, bloom⟩ := filters_of_mem config present
  have nonempty := Std.ExtTreeMap.ne_empty_of_mem present
  simp [admits, admitsRecord, bloomAdmits, build, nonempty, bloom, low, high]

/-- A table is backed by a readable file that has all its in-memory values, or
lives in memory only; it admits every key it has. -/
theorem Produced.cases (produced : table.Produced config dir) :
    (∃ (path : String) (records : ByteMap LogRecord),
        table.path = some path ∧ dir[path]? = some (.table records) ∧ (∀ key ∈ records,
          table.admits key = true ∧ table.admitsRecord key = true) ∧
        ∀ (key value : Bytes), table.data[key]? = some value →
          (records[key]?).map (·.value) = some value) ∨
            (table.path = none ∧ ∀ key ∈ table.data,
        table.admits key = true ∧ table.admitsRecord key = true) := by
  rcases produced with ⟨path, records, file, same⟩ | ⟨path, records, file, same⟩ | same
  · left
    refine ⟨path, records, by rw [same]; rfl, file, ?_, ?_⟩
    · intro key present
      rw [same]
      exact ofRecords_admits config path present
    · intro key value held
      rw [same] at held
      simpa [withContents] using held
  · left
    refine ⟨path, records, by rw [same]; rfl, file, ?_, ?_⟩
    · intro key present
      rw [same]
      exact ofRecords_admits config path present
    · intro key value held
      rw [same] at held
      simp [ofRecords] at held
  · right
    refine ⟨by rw [same]; rfl, ?_⟩
    intro key present
    rw [same]
    exact build_admits config table.level present

theorem Produced.probe_of_absent (produced : table.Produced config dir)
    (absent : table.version dir key = none) (hasBlockCache : Bool)
    (quarantined : List String)
    (now : Nanos) : table.probe dir hasBlockCache quarantined now key = .miss := by
  rcases produced.cases with ⟨path, records, located, file, _, values⟩ | ⟨located, _⟩
  · rw [version_of_path located, fileRecord_of_table located file] at absent
    have data : table.data[key]? = none := by
      apply Option.eq_none_iff_forall_ne_some.mpr
      intro value held
      simpa [absent] using values key value held
    simp [probe, data, probeFile, located, SstDir.get_of_table file, absent]
  · have data : table.data[key]? = none := by
      simpa [version, located] using absent
    simp [probe, data, probeFile, located]

/-- A table with a tombstone ends the search, unless its file is not looked
at. -/
theorem WellFormed.probe_of_tombstone (wellFormed : table.WellFormed config dir)
    {record : LogRecord} (found : table.version dir key = some record)
    (deleted : record.isDeleted = true) (hasBlockCache : Bool)
    (quarantined : List String) (now : Nanos) :
    table.probe dir hasBlockCache quarantined now key =
      match table.path with
      | none => .deleted
      | some path =>
        if quarantined.contains path || !hasBlockCache then .miss
        else .deleted := by
  have value := wellFormed.tombstones key record found deleted
  rcases wellFormed.produced.cases with
    ⟨path, records, located, file, admitted, values⟩ | ⟨located, admitted⟩
  · rw [version_of_path located, fileRecord_of_table located file] at found
    have admits : table.admits key = true := (admitted key
      (Std.ExtTreeMap.mem_iff_isSome_getElem?.mpr (by rw [found]; rfl))).1
    have at_file : table.probe dir hasBlockCache quarantined now key =
        table.probeFile dir hasBlockCache quarantined now key := by
      cases held : table.data[key]? with
      | none => simp [probe, admits, held]
      | some other =>
        have same : other = [] := by
          have stored := values key other held
          rw [found, Option.map_some, value] at stored
          exact (Option.some.inj stored).symm
        simp [probe, admits, held, same, located]
    rw [at_file]
    by_cases isolated : path ∈ quarantined
    · simp [probeFile, located, isolated]
    · cases hasBlockCache with
      | false => simp [probeFile, located]
      | true =>
        simp [probeFile, located, SstDir.get_of_table file, found, deleted]
  · have held : table.data[key]? = some [] := by
      rw [version, located] at found
      obtain ⟨other, held, rfl⟩ := Option.map_eq_some_iff.mp found
      rw [held]
      exact congrArg some value
    have admits : table.admits key = true := (admitted key
      (Std.ExtTreeMap.mem_iff_isSome_getElem?.mpr (by rw [held]; rfl))).1
    simp [probe, admits, held, located]

theorem WellFormed.probe_of_notLive (wellFormed : table.WellFormed config dir)
    (notLive : table.NotLive dir key) (hasBlockCache : Bool)
    (quarantined : List String)
    (now : Nanos) : table.probe dir hasBlockCache quarantined now key = .miss ∨
      table.probe dir hasBlockCache quarantined now key = .deleted := by
  cases found : table.version dir key with
  | none =>
    exact .inl (wellFormed.produced.probe_of_absent found hasBlockCache quarantined now)
  | some record =>
    rw [wellFormed.probe_of_tombstone found (notLive record found)]
    split
    · exact .inr rfl
    · split
      · exact .inl rfl
      · exact .inr rfl

variable {value : Bytes}

theorem Produced.version_of_data (produced : table.Produced config dir)
    (held : table.data[key]? = some value) :
    ∃ record, table.version dir key = some record ∧ record.value = value := by
  rcases produced.cases with ⟨path, records, located, file, _, values⟩ | ⟨located, _⟩
  · rw [version_of_path located, fileRecord_of_table located file]
    exact Option.map_eq_some_iff.mp (values key value held)
  · rw [version, located]
    exact ⟨_, by rw [held]; rfl, rfl⟩

theorem WellFormed.data_of_notLive (wellFormed : table.WellFormed config dir)
    (notLive : table.NotLive dir key) (held : table.data[key]? = some value) :
    value = [] := by
  obtain ⟨record, found, rfl⟩ := wellFormed.produced.version_of_data held
  exact wellFormed.tombstones key record found (notLive record found)

theorem fileRecord_congr
    (same : ∀ path, table.path = some path → dir'[path]? = dir[path]?)
    (key : Bytes) : table.fileRecord dir' key = table.fileRecord dir key := by
  cases located : table.path with
  | none => simp [fileRecord, located]
  | some path =>
    simp [fileRecord, located, SstDir.get, SstDir.openTable, same path located]

theorem version_congr
    (same : ∀ path, table.path = some path → dir'[path]? = dir[path]?)
    (key : Bytes) : table.version dir' key = table.version dir key := by
  rw [version, version, fileRecord_congr same]

theorem Produced.of_same_file (produced : table.Produced config dir)
    (same : ∀ path, table.path = some path → dir'[path]? = dir[path]?) :
    table.Produced config dir' := by
  rcases produced with ⟨path, records, file, table_eq⟩ |
    ⟨path, records, file, table_eq⟩ | built
  · have located : table.path = some path := by rw [table_eq]; rfl
    exact .inl ⟨path, records, (same path located).trans file, table_eq⟩
  · have located : table.path = some path := by rw [table_eq]; rfl
    exact .inr (.inl ⟨path, records, (same path located).trans file, table_eq⟩)
  · exact .inr (.inr built)

theorem WellFormed.of_same_file (wellFormed : table.WellFormed config dir)
    (same : ∀ path, table.path = some path → dir'[path]? = dir[path]?) :
    table.WellFormed config dir' := by
  refine ⟨wellFormed.produced.of_same_file same, ?_⟩
  intro key record found
  rw [version_congr same] at found
  exact wellFormed.tombstones key record found

end Table

section Search

variable {config : StorageConfig} {dir : SstDir} (hasBlockCache : Bool)
  (now : Nanos) {key : Bytes}

theorem search_append_of_absent {newer : List Table} (older : List Table)
    (produced : ∀ table ∈ newer, table.Produced config dir)
    (absent : ∀ table ∈ newer, table.version dir key = none)
    (quarantined : List String) :
    search dir hasBlockCache now key (newer ++ older) quarantined =
      search dir hasBlockCache now key older quarantined := by
  induction newer with
  | nil => rfl
  | cons table newer ih =>
    have probed := (produced table mem_cons_self).probe_of_absent
      (absent table mem_cons_self) hasBlockCache quarantined now
    rw [cons_append, search, probed]
    apply ih
    · exact (forall_mem_cons.mp produced).2
    · exact (forall_mem_cons.mp absent).2

theorem search_of_notLive {tables : List Table}
    (wellFormed : ∀ table ∈ tables, table.WellFormed config dir)
    (notLive : ∀ table ∈ tables, table.NotLive dir key) (quarantined : List String) :
    (search dir hasBlockCache now key tables quarantined).1 = none := by
  induction tables with
  | nil => rfl
  | cons table tables ih =>
    rw [search]
    rcases (wellFormed table mem_cons_self).probe_of_notLive
      (notLive table mem_cons_self) hasBlockCache quarantined now with
      passed | ended
    · rw [passed]
      apply ih
      · exact fun other member =>
          wellFormed other (mem_cons_of_mem _ member)
      · exact fun other member =>
          notLive other (mem_cons_of_mem _ member)
    · rw [ended]

end Search

variable {config : StorageConfig} {dir : SstDir} {quarantined : List String}

/-- One turn of the loop of `get_record`: a table with a version of the key
ends it. -/
theorem getRecordIn_cons {table : Table} (older : List Table) (key : Bytes)
    (produced : table.Produced config dir)
    (readable : ∀ path, table.path = some path → path ∉ quarantined) :
    getRecordIn dir quarantined key (table :: older) =
      match table.version dir key with
      | some record => .ok (some record)
      | none => getRecordIn dir quarantined key older := by
  rcases produced.cases with ⟨path, records, located, file, admitted, _⟩ |
    ⟨located, admitted⟩
  · rw [Table.version_of_path located, Table.fileRecord_of_table located file]
    cases found : records[key]? with
    | none =>
      simp [getRecordIn, located, readable path located, SstDir.get_of_table file, found]
    | some record =>
      have admits := (admitted key
        (Std.ExtTreeMap.mem_iff_isSome_getElem?.mpr (by rw [found]; rfl))).2
      simp [getRecordIn, admits, located, readable path located,
        SstDir.get_of_table file, found]
  · rw [Table.version]
    cases held : table.data[key]? with
    | none => simp [getRecordIn, located, held]
    | some value =>
      have admits := (admitted key
        (Std.ExtTreeMap.mem_iff_isSome_getElem?.mpr (by rw [held]; rfl))).2
      simp [getRecordIn, admits, located, held]

theorem getRecordIn_eq {tables : List Table} (key : Bytes)
    (produced : ∀ table ∈ tables, table.Produced config dir)
    (readable : ∀ table ∈ tables, ∀ path, table.path = some path →
      path ∉ quarantined) :
    getRecordIn dir quarantined key tables =
      .ok (tables.findSome? (·.version dir key)) := by
  induction tables with
  | nil => rfl
  | cons table tables ih =>
    have later := ih (forall_mem_cons.mp produced).2
      (forall_mem_cons.mp readable).2
    rw [getRecordIn_cons tables key (produced table mem_cons_self)
      (readable table mem_cons_self), List.findSome?_cons, later]
    cases table.version dir key <;> rfl

theorem get_of_uncached {versions : VersionSet} {key : Bytes}
    (uncached : versions.kvCache[key]? = none) (dir : SstDir) (now : Nanos)
    (cf : String) :
    (versions.get dir now cf key).1 = (search dir versions.hasBlockCache now key
        (versions.getTables cf).reverse versions.quarantined).1 := by
  rw [VersionSet.get, uncached]
  rw [getUncached]
  dsimp only
  split
  · next found => rw [found]
  · next found => rw [found]

end ApexStore
