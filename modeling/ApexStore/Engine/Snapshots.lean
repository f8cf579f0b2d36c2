import ApexStore.Engine.FlushAll

/-!
# Snapshots

`create_snapshot` reads the logs, flushes all families, copies the tables and
writes the logs it has read.  `list_snapshots` takes a directory for a snapshot
if it has a `wal.log`, and that file is written if the default family has
logged something or no family has (`snapshot_is_listed_iff`).
-/

namespace ApexStore

open List EngineCore

/-- A snapshot directory: its table files, the manifest and its log files. -/
structure EngineSnapshot where
  tables : SstDir
  manifest : List (String × List String)
  logs : NameMap Bytes

def persistTableToSstable (config : StorageConfig) (stamp : Bytes → Nanos)
    (table : Table) :
    Except LsmError SstFile :=
  match (SstableBuilder.new config).addAll
    (table.data.toList.map fun entry => (entry.1, .new (stamp entry.1) entry.1 entry.2)) with
  | .error error => .error error
  | .ok builder => builder.finish

def walFileName (cf : String) : String :=
  if cf = "default" ∨ cf = "" then "wal.log" else "wal-" ++ cf ++ ".log"

def snapshotLogs (saved : List (String × Bytes)) : NameMap Bytes :=
  let filled := saved.filter (!·.2.isEmpty)
  if filled.isEmpty then .ofList [("wal.log", [])]
  else .ofList (filled.map fun entry => (walFileName entry.1, entry.2))

namespace EngineCore

def savedWals (options : EngineOptions) (core : EngineCore) : List (String × Bytes) :=
  core.logs.toList.map fun entry =>
    (entry.1, entry.2.flatMap (WriteAheadLog.frame options.encryptor))

/-- The name and the contents that a table has in the snapshot. -/
def snapshotTable (options : EngineOptions) (stamp : Bytes → Nanos) (core : EngineCore)
    (cf : String) (table : Table × Nat) : Except LsmError (String × SstFile) :=
  match table.1.path with
  | some path =>
    match core.store.dir[path]? with
    | none => .error .io
    | some file => .ok (path, file)
  | none => (persistTableToSstable options.storage stamp table.1).map
      (cf ++ "_" ++ toString table.2 ++ ".sst", ·)

/-- The tables of all families, and then the files that no table has. -/
def snapshotTables (options : EngineOptions) (stamp : Bytes → Nanos)
    (core : EngineCore) :
    Except LsmError (SstDir × List (String × List String)) := do
  let families ← core.store.versions.tables.toList.mapM fun entry => do
    let files ← entry.2.zipIdx.mapM (core.snapshotTable options stamp entry.1)
    pure (entry.1, files)
  let copied := (families.flatMap (·.2)).foldl (fun dir file => dir.insert file.1 file.2) ∅
  let tables :=
    core.store.dir.toList.foldl (fun dir file => dir.insertIfNew file.1 file.2) copied
  pure (tables, families.map fun family => (family.1, family.2.map (·.1)))

/-- `create_snapshot`; `none` as long as the flush has not returned. -/
def createSnapshot (options : EngineOptions) (order : List String)
    (clocks : Nat → FlushClock)
    (turns : Nat) (stamp : Bytes → Nanos) (core : EngineCore) :
    Option (Except LsmError EngineSnapshot × EngineCore) :=
  let saved := core.savedWals options
  match core.flushAllMemtables options order clocks turns 0 with
  | none => none
  | some (.error error, core) => some (.error error, core)
  | some (.ok _, core) =>
    match core.snapshotTables options stamp with
    | .error error => some (.error error, core)
    | .ok (tables, manifest) =>
      some (.ok { tables, manifest, logs := snapshotLogs saved }, core)

end EngineCore

/-- The snapshots among the subdirectories of a backup directory. -/
def listSnapshots (backup : NameMap EngineSnapshot) : List String :=
  (backup.toList.filter (·.2.logs.contains "wal.log")).map (·.1)

theorem walFileName_eq_iff (cf : String) :
    walFileName cf = "wal.log" ↔ cf = "default" ∨ cf = "" := by
  rw [walFileName]
  split
  · next unnamed => simp [unnamed]
  · next named =>
    refine iff_of_false (fun same => ?_) named
    -- the fourth letter is a dash and not a dot
    have letters := congrArg (·.toList[3]?) same
    have dash : "wal-".toList = ['w', 'a', 'l', '-'] := by decide
    have dot : "wal.log".toList = ['w', 'a', 'l', '.', 'l', 'o', 'g'] := by decide
    simp [String.toList_append, dash, dot] at letters

theorem snapshotLogs_contains (saved : List (String × Bytes)) :
    (snapshotLogs saved).contains "wal.log" = true ↔
      (∃ entry ∈ saved, entry.2 ≠ [] ∧ (entry.1 = "default" ∨ entry.1 = "")) ∨
        ∀ entry ∈ saved, entry.2 = [] := by
  have empty_iff : (saved.filter (!·.2.isEmpty)).isEmpty = true ↔
      ∀ entry ∈ saved, entry.2 = [] := by
    simp
  rw [snapshotLogs, ← empty_iff]
  split
  · next empty => exact iff_of_true (by simp) (.inr empty)
  · next filled =>
    rw [or_iff_left filled, Std.ExtTreeMap.contains_ofList, contains_iff_mem, map_map,
      mem_map]
    refine exists_congr fun entry => ?_
    rw [Function.comp_apply, walFileName_eq_iff, mem_filter, and_assoc]
    simp

/-- A log file is empty if nothing has been logged. -/
theorem frames_eq_nil_iff (encryptor : Encryptor) (entries : List WalEntry) :
    entries.flatMap (WriteAheadLog.frame encryptor) = [] ↔ entries = [] := by
  rw [flatMap_eq_nil_iff]
  constructor
  · intro none_framed
    refine eq_nil_iff_forall_not_mem.mpr fun entry member => ?_
    have length := congrArg List.length (none_framed entry member)
    simp [WriteAheadLog.frame, frameBytes, frameHead] at length
  · rintro rfl entry member
    cases member

theorem mem_listSnapshots_insert (backup : NameMap EngineSnapshot) (name : String)
    (snapshot : EngineSnapshot) : name ∈ listSnapshots (backup.insert name snapshot) ↔
      snapshot.logs.contains "wal.log" = true := by
  rw [listSnapshots, mem_map]
  constructor
  · rintro ⟨⟨_, other⟩, member, rfl⟩
    obtain ⟨present, found⟩ := mem_filter.mp member
    rw [NameMap.mem_toList, NameMap.getElem?_insert, if_pos rfl] at present
    cases present
    exact found
  · intro found
    refine ⟨(name, snapshot), mem_filter.mpr ⟨?_, found⟩, rfl⟩
    rw [NameMap.mem_toList, NameMap.getElem?_insert, if_pos rfl]

section

variable {options : EngineOptions} {order : List String} {clocks : Nat → FlushClock}
  {turns : Nat}
  {stamp : Bytes → Nanos} {core after : EngineCore} {snapshot : EngineSnapshot}

theorem EngineCore.createSnapshot_logs
    (created : core.createSnapshot options order clocks turns stamp =
      some (.ok snapshot, after)) :
    snapshot.logs = snapshotLogs (core.savedWals options) := by
  unfold createSnapshot at created
  dsimp only at created
  split at created
  · cases created
  · cases created
  · split at created
    · cases created
    · cases created
      rfl

/-- A snapshot that has been created is listed exactly if the default family
had logged something, or no family had.  The unnamed family shares its file. -/
theorem snapshot_is_listed_iff
    (created : core.createSnapshot options order clocks turns stamp =
      some (.ok snapshot, after))
    (backup : NameMap EngineSnapshot) (name : String) :
    name ∈ listSnapshots (backup.insert name snapshot) ↔
      (∃ entry ∈ core.logs.toList, entry.2 ≠ [] ∧
        (entry.1 = "default" ∨ entry.1 = "")) ∨
        ∀ entry ∈ core.logs.toList, entry.2 = [] := by
  rw [mem_listSnapshots_insert, createSnapshot_logs created, snapshotLogs_contains,
    savedWals, forall_mem_map]
  simp only [mem_map, exists_exists_and_eq_and, ne_eq, frames_eq_nil_iff]

end

/-- An engine in which one family has written one key. -/
def writtenOnce (cf : String) : EngineCore :=
  engineRun .default [.put (.instant 1) cf [7] [1] none]

def snapshotOnce (cf : String) :
    Option (Except LsmError EngineSnapshot × EngineCore) :=
  (writtenOnce cf).createSnapshot .default [cf]
    (fun _ => { now := 2, stamp := fun _ => 2 }) 2
    fun _ => 3

theorem snapshotOnce_created {cf : String}
    (works : (snapshotOnce cf).any (·.1.isOk) = true) :
    ∃ snapshot after, snapshotOnce cf = some (.ok snapshot, after) := by
  obtain ⟨result, returned, accepted⟩ := (Option.any_eq_true _ _).mp works
  obtain ⟨snapshot, after, rfl⟩ := exists_of_isOk accepted
  exact ⟨snapshot, after, returned⟩

theorem default_snapshot_is_listed : ∃ snapshot after,
    snapshotOnce "default" = some (.ok snapshot, after) ∧
      "monday" ∈ listSnapshots
        ((∅ : NameMap EngineSnapshot).insert "monday" snapshot) := by
  obtain ⟨snapshot, after, returned⟩ := @snapshotOnce_created "default" (by decide +kernel)
  refine ⟨snapshot, after, returned, (snapshot_is_listed_iff returned ∅ "monday").mpr (.inl ?_)⟩
  decide +kernel

/-- Only the family `users` has written: the snapshot is created, but not listed. -/
theorem users_snapshot_is_not_listed : ∃ snapshot after,
    snapshotOnce "users" = some (.ok snapshot, after) ∧
      "monday" ∉ listSnapshots
        ((∅ : NameMap EngineSnapshot).insert "monday" snapshot) := by
  obtain ⟨snapshot, after, returned⟩ := @snapshotOnce_created "users" (by decide +kernel)
  refine ⟨snapshot, after, returned, ?_⟩
  rw [mem_listSnapshots_insert, createSnapshot_logs returned]
  decide +kernel

end ApexStore
