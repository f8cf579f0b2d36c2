import ApexStore.Engine.CompactionRuns

/-!
# Finding the tables again at startup

Without a manifest `discover_sstables_from_disk` takes every file of the
SSTable directory, in the order of the file names, for a table of the default
family.  Files that cannot be opened are moved to quarantine.
`discoverSstablesFromDisk_ok` says what it finds.
-/

namespace ApexStore

open VersionSet List

inductive TableLoad where
  | healthy (table : Table)
  | degradedBloom (table : Table)
  | corrupt (error : LsmError)

/-- Structural damage is told apart from errors that end the startup. -/
def Table.loadForRecovery (config : StorageConfig) (dir : SstDir) (path : String) :
    Except LsmError TableLoad :=
  match fromSstablePath config dir path with
  | .ok table =>
    if table.bloomFilter.isNone then .ok (.degradedBloom table)
    else .ok (.healthy table)
  | .error error =>
    match error with
    | .invalidSstableFormat _ => .ok (.corrupt error)
    | .corruptedData _ => .ok (.corrupt error)
    | .codec => .ok (.corrupt error)
    | _ => .error error

structure Candidate where
  cf : String
  path : String
  outcome : TableLoad

namespace Recovery

/-- Every file is inspected before anything is moved. -/
def inspect (config : StorageConfig) (dir : SstDir) :
    List (String × String) → Except LsmError (List Candidate)
  | [] => .ok []
  | (cf, path) :: paths =>
    match Table.loadForRecovery config dir path with
    | .error error => .error error
    | .ok outcome =>
      match inspect config dir paths with
      | .error error => .error error
      | .ok candidates => .ok ({ cf, path, outcome } :: candidates)

def install (state : TableState) (candidate : Candidate) : TableState :=
  match candidate.outcome with
  | .healthy table =>
    { state with versions := state.versions.addTable candidate.cf table }
  | .degradedBloom table =>
    { state with versions := state.versions.addTable candidate.cf table }
  | .corrupt _ =>
    -- The file moves to the quarantine directory.
    { state with dir := state.dir.erase candidate.path }

def apply (state : TableState) (candidates : List Candidate) : TableState :=
  candidates.foldl install state

end Recovery

/-- The files of the directory with their names, sorted by name: a map lists
its entries in the order of the keys. -/
def discoverSstablesFromDisk (config : StorageConfig) (state : TableState) :
    Except LsmError TableState :=
  let paths := state.dir.toList.map (fun entry => ("default", entry.1))
  match Recovery.inspect config state.dir paths with
  | .error error => .error error
  | .ok candidates => .ok (Recovery.apply state candidates)

def SstFile.load (config : StorageConfig) (path : String) : SstFile → TableLoad
  | .table records => .healthy (Table.ofRecords config path records)
  | .unfinished =>
    .corrupt (.invalidSstableFormat "file is shorter than header and footer")

variable {dir : SstDir}

theorem loadForRecovery_eq (config : StorageConfig) {path : String} {file : SstFile}
    (present : dir[path]? = some file) :
    Table.loadForRecovery config dir path = .ok (file.load config path) := by
  cases file with
  | table records =>
    simp [Table.loadForRecovery, Table.fromSstablePath, SstDir.openTable,
      present, Table.ofRecords, SstFile.load]
  | unfinished =>
    simp [Table.loadForRecovery, Table.fromSstablePath, SstDir.openTable, present,
      SstFile.load]

theorem inspect_eq (config : StorageConfig) {entries : List (String × SstFile)}
    (present : ∀ entry ∈ entries, dir[entry.1]? = some entry.2) :
    Recovery.inspect config dir (entries.map (fun entry => ("default", entry.1))) =
      .ok (entries.map (fun entry =>
        { cf := "default", path := entry.1
          outcome := entry.2.load config entry.1 })) := by
  induction entries with
  | nil => rfl
  | cons entry entries ih =>
    have later := ih (forall_mem_cons.mp present).2
    have first := loadForRecovery_eq config (present entry mem_cons_self)
    rw [map_cons, Recovery.inspect, first]
    rw [later]
    rfl

def SstFile.reopen (config : StorageConfig) (path : String) : SstFile → Option Table
  | .table records => some (.ofRecords config path records)
  | .unfinished => none

/-- What discovery does to the tables and the files. -/
structure Discovered (config : StorageConfig)
    (entries : List (String × SstFile)) (before after : TableState) : Prop where
  tables : after.versions.getTables "default" =
    before.versions.getTables "default" ++ entries.filterMap
      (fun entry => entry.2.reopen config entry.1)
  others : ∀ cf, cf ≠ "default" → after.versions.getTables cf = before.versions.getTables cf
  cache : before.versions.kvCache = ∅ → after.versions.kvCache = ∅
  hasBlockCache : after.versions.hasBlockCache = before.versions.hasBlockCache
  quarantined : after.versions.quarantined = before.versions.quarantined
  files : ∀ name, (name, .unfinished) ∉ entries → after.dir[name]? = before.dir[name]?
  removed : ∀ name, (name, .unfinished) ∈ entries → after.dir[name]? = none

theorem discovered_install (config : StorageConfig) (state : TableState)
    (entry : String × SstFile) :
    Discovered config [entry] state (Recovery.install state
        { cf := "default", path := entry.1
          outcome := entry.2.load config entry.1 }) := by
  obtain ⟨name, file⟩ := entry
  cases file with
  | table records =>
    refine ⟨?_, ?_, fun _ => rfl, rfl, rfl, fun _ _ => rfl, by simp⟩
    · simp [Recovery.install, SstFile.load, SstFile.reopen, addTable,
        getTables, setTables, clearCache, bumpGeneration]
    · intro cf other
      simp [Recovery.install, SstFile.load, addTable, getTables, setTables,
        clearCache, bumpGeneration, NameMap.getElem?_insert, other.symm]
  | unfinished =>
    refine ⟨by simp [Recovery.install, SstFile.load, SstFile.reopen], fun _ _ =>
      rfl, id, rfl,
      rfl, ?_, ?_⟩
    · intro other absent
      have apart : other ≠ name := by simpa using absent
      simp [Recovery.install, SstFile.load, Std.ExtTreeMap.getElem?_erase, apart.symm]
    · intro other member
      have same : other = name := by simpa using member
      simp [Recovery.install, SstFile.load, same]

theorem discovered_apply (config : StorageConfig)
    (entries : List (String × SstFile))
      (state : TableState) : Discovered config entries state
      (Recovery.apply state (entries.map (fun entry =>
        { cf := "default", path := entry.1
          outcome := entry.2.load config entry.1 }))) := by
  induction entries generalizing state with
  | nil =>
    exact ⟨by simp [Recovery.apply], fun _ _ => rfl, id, rfl, rfl, fun _ _ => rfl, by simp⟩
  | cons entry entries ih =>
    have first := discovered_install config state entry
    have later := ih (Recovery.install state
      { cf := "default", path := entry.1
        outcome := entry.2.load config entry.1 })
    refine ⟨?_, ?_, ?_, ?_, ?_, ?_, ?_⟩
    · refine later.tables.trans ?_
      rw [first.tables, append_assoc, ← filterMap_append]
      rfl
    · intro cf other
      exact (later.others cf other).trans (first.others cf other)
    · exact fun empty => later.cache (first.cache empty)
    · exact later.hasBlockCache.trans first.hasBlockCache
    · exact later.quarantined.trans first.quarantined
    · intro name absent
      rw [mem_cons, not_or] at absent
      exact (later.files name absent.2).trans (first.files name (by simpa using absent.1))
    · intro name member
      by_cases again : (name, SstFile.unfinished) ∈ entries
      · exact later.removed name again
      · refine (later.files name again).trans (first.removed name ?_)
        rcases mem_cons.mp member with here | there
        · exact mem_singleton.mpr here
        · exact absurd there again

theorem discoverSstablesFromDisk_ok (config : StorageConfig) (state : TableState) :
    ∃ after, discoverSstablesFromDisk config state = .ok after ∧
      Discovered config state.dir.toList state after := by
  have present : ∀ entry ∈ state.dir.toList, state.dir[entry.1]? = some entry.2 := by
    intro entry member
    exact (NameMap.mem_toList _ _ _).mp member
  refine ⟨_, ?_, discovered_apply config state.dir.toList state⟩
  rw [discoverSstablesFromDisk, inspect_eq config present]

end ApexStore
