import ApexStore.Engine.BackgroundRanges

/-!
# Removing orphaned files

`reconcile_tables` reads the table list under the lock, lists the directory
without it and removes every file that is not in the list.  A flush and a
compaction create a file first and enter it in the table list later, so the
steps of all three are interleaved here: files appear, tables are installed,
inputs are removed, and any number of calls of `reconcile_tables` look at one
file after the other.

A file is in danger from a call just if it waited to be installed at some time
since the call read the table list (`referenced_perform` says that nothing
else gets into the list).
-/

namespace ApexStore

open VersionSet EngineCore List SharedEngine

/-! ## Steps -/

/-- What the holder of the lock has still to do. -/
inductive LockedWork where
  /-- The file of a flush exists and is being written. -/
  | writing (cf : String) (clock : FlushClock) (data : ByteMap LogRecord)
  /-- The file has been loaded; the table is not in the list yet. -/
  | loaded (cf : String) (table : Table)
  /-- The files of the tables that a compaction has replaced. -/
  | removing (paths : List String)

/-- The engine between two steps on its files: who holds the lock, which
compactions are writing an output, and the paths that the calls of
`reconcile_tables` have read from the table list, by thread. -/
structure FileEngine where
  shared : SharedEngine
  lock : Option LockedWork
  merging : Nat → Option CompactionClock
  tracked : Nat → Option (List String)

inductive FileOp where
  /-- A record enters a memtable. -/
  | insert (cf : String) (record : LogRecord) (size : Nat)
  | startFlush (clock : FlushClock) (cf : String)
  | writeFlush
  | installFlush
  | plan (thread : Nat) (strategy : CompactionStrategy) (cf : String)
  | startMerge (thread : Nat) (clock : CompactionClock)
  | merge (thread : Nat)
  | installMerge (thread : Nat)
  | removeInput
  /-- The first part of `reconcile_tables`. -/
  | readTables (thread : Nat)
  /-- `reconcile_tables` comes to a file of the directory. -/
  | visit (thread : Nat) (path : String)
  | finish (thread : Nat)

/-- The paths `reconcile_tables` collects. -/
def VersionSet.trackedPaths (versions : VersionSet) : List String :=
  versions.tables.toList.flatMap (fun entry => entry.2.filterMap (·.path))

/-- Phase 2 of a compaction whose output file is gone when it is to be loaded:
the group fails, unless there was nothing to write. -/
def BackgroundCompaction.mergeRemoved (config : StorageConfig) (dir : SstDir)
    (clock : CompactionClock) (compaction : BackgroundCompaction) :
    BackgroundCompaction :=
  match compaction.groups with
  | [] => compaction
  | group :: groups =>
    match compact compaction.strategy config dir clock group
        compaction.tables compaction.tombstones with
    | (.ok [], _) =>
      { compaction with
        groups, results := compaction.results ++ [(group, [])] }
    | _ => { compaction with groups }

/-- The end of a flush, behind `add_table`: the family is empty again and its
log is cleared, or it has no byte count and the flush fails. -/
def EngineCore.endFlush (core : EngineCore) (cf : String) : EngineCore :=
  match core.memtableBytes[cf]? with
  | none => core
  | some _ =>
    { core with
      memtableBytes := core.memtableBytes.insert cf 0 }.clearLog cf

@[simp] theorem EngineCore.store_endFlush (core : EngineCore) (cf : String) :
    (core.endFlush cf).store = core.store := by
  unfold endFlush
  split <;> rfl

namespace FileEngine

def start (core : EngineCore) : FileEngine :=
  { shared := .start core, lock := none, merging := fun _ => none
    tracked := fun _ => none }

def core (state : FileEngine) : EngineCore := state.shared.core

def dir (state : FileEngine) : SstDir := state.core.store.dir

def withCore (state : FileEngine) (core : EngineCore) : FileEngine :=
  { state with shared := { state.shared with core } }

def withDir (state : FileEngine) (dir : SstDir) : FileEngine :=
  state.withCore
    { state.core with store := { state.core.store with dir } }

def insert (cf : String) (record : LogRecord) (size : Nat) (state : FileEngine) :
    FileEngine :=
  match state.lock with
  | some _ => state
  | none => state.withCore (state.core.insertMemtable cf record size)

/-- The builder creates its file before the first entry. -/
def startFlush (clock : FlushClock) (cf : String) (state : FileEngine) : FileEngine :=
  match state.lock with
  | some _ => state
  | none =>
    match (state.core.memtablesOf cf).getLast? with
    | none => state
    | some mem =>
      if mem.data.isEmpty then state.withCore (state.core.walHandle cf)
      else
        { (state.withCore (state.core.popMemtable cf)).withDir
            (state.dir.insert (flushName clock.now) .unfinished) with
          lock := some (.writing cf clock mem.data) }

def writeFlush (options : EngineOptions) (state : FileEngine) : FileEngine :=
  match state.lock with
  | some (.writing cf clock data) =>
    -- Without the file the table cannot be loaded.
    if (state.dir[flushName clock.now]?).isNone then
      { state with lock := none }
    else
      match flushTable options.storage state.dir clock data with
      | (.ok table, dir) =>
        { state.withDir dir with lock := some (.loaded cf table) }
      | (.error _, dir) => { state.withDir dir with lock := none }
  | _ => state

def installFlush (state : FileEngine) : FileEngine :=
  match state.lock with
  | some (.loaded cf table) =>
    { state.withCore
        ((state.core.installTable cf table state.dir).endFlush cf) with
      lock := none }
  | _ => state

def plan (options : EngineOptions) (thread : Nat)
    (strategy : CompactionStrategy) (cf : String) (state : FileEngine) : FileEngine :=
  match state.lock, state.shared.compactions thread with
  | none, none =>
    { state with
      shared := state.shared.plan options thread strategy cf
      merging := Function.update state.merging thread none }
  | _, _ => state

def startMerge (thread : Nat) (clock : CompactionClock) (state : FileEngine) :
    FileEngine :=
  match state.shared.compactions thread, state.merging thread with
  | some compaction, none =>
    match compaction.groups with
    | [] => state
    | group :: _ =>
      let created :=
        if (groupTables compaction.tables group).isEmpty then state
        else
          state.withDir (state.dir.insert (outputName compaction.strategy
            compaction.tables group clock) .unfinished)
      { created with
        merging := Function.update state.merging thread (some clock) }
  | _, _ => state

/-- The output of the next group of a compaction has been removed. -/
def outputRemoved (clock : CompactionClock)
    (compaction : BackgroundCompaction) (state : FileEngine) : Bool :=
  match compaction.groups with
  | [] => false
  | group :: _ =>
    !(groupTables compaction.tables group).isEmpty &&
      (state.dir[outputName compaction.strategy compaction.tables group clock]?).isNone

def merge (options : EngineOptions) (thread : Nat) (state : FileEngine) : FileEngine :=
  match state.shared.compactions thread, state.merging thread with
  | some compaction, some clock =>
    let shared :=
      if state.outputRemoved clock compaction then
        { state.shared with
          compactions := Function.update state.shared.compactions thread
            (some (compaction.mergeRemoved options.storage state.dir
              clock)) }
      else state.shared.merge options thread clock
    { state with
      shared, merging := Function.update state.merging thread none }
  | _, _ => state

/-- Phase 3 up to the replacement in the table list. -/
def installMerge (thread : Nat) (state : FileEngine) : FileEngine :=
  match state.lock, state.shared.compactions thread with
  | none, some compaction =>
    if compaction.groups ≠ [] then state
    else
      let compactions := Function.update state.shared.compactions thread none
      if compaction.generation ≠
          state.core.store.versions.compactionGeneration then
        { state with shared := { state.shared with compactions } }
      else
        let (removed, versions) :=
          state.core.store.versions.atomicReplaceGroups compaction.cf compaction.results
        { state with
          shared := { state.shared with
            core := { state.core with
              store := { state.core.store with versions } }
            compactions }
          lock := some (.removing removed) }
  | _, _ => state

def removeInput (state : FileEngine) : FileEngine :=
  match state.lock with
  | some (.removing []) => { state with lock := none }
  | some (.removing (path :: paths)) =>
    { state.withDir (state.dir.erase path) with
      lock := some (.removing paths) }
  | _ => state

def readTables (thread : Nat) (state : FileEngine) : FileEngine :=
  match state.lock with
  | some _ => state
  | none =>
    { state with
      tracked := Function.update state.tracked thread
        (some state.core.store.versions.trackedPaths) }

def visit (thread : Nat) (path : String) (state : FileEngine) : FileEngine :=
  match state.tracked thread with
  | none => state
  | some paths =>
    if path ∈ paths then state else state.withDir (state.dir.erase path)

def finish (thread : Nat) (state : FileEngine) : FileEngine :=
  { state with tracked := Function.update state.tracked thread none }

end FileEngine

def FileOp.perform (options : EngineOptions) (state : FileEngine) : FileOp → FileEngine
  | insert cf record size => state.insert cf record size
  | startFlush clock cf => state.startFlush clock cf
  | writeFlush => state.writeFlush options
  | installFlush => state.installFlush
  | plan thread strategy cf => state.plan options thread strategy cf
  | startMerge thread clock => state.startMerge thread clock
  | merge thread => state.merge options thread
  | installMerge thread => state.installMerge thread
  | removeInput => state.removeInput
  | readTables thread => state.readTables thread
  | visit thread path => state.visit thread path
  | finish thread => state.finish thread

namespace FileEngine

/-! ## The steps together -/

theorem insert_insert_file (dir : SstDir) (name : String) (first second : SstFile) :
    (dir.insert name first).insert name second = dir.insert name second := by
  apply Std.ExtTreeMap.ext_getElem?
  intro other
  simp only [NameMap.getElem?_insert]
  split <;> rfl

theorem flushTable_insert (config : StorageConfig) (dir : SstDir)
    (clock : FlushClock) (data : ByteMap LogRecord) (file : SstFile) :
    flushTable config (dir.insert (flushName clock.now) file) clock data =
      flushTable config dir clock data := by
  unfold flushTable
  simp only [insert_insert_file]

variable {cf : String}

theorem writeFlush_of_present (options : EngineOptions) {state : FileEngine}
    {clock : FlushClock}
    {data : ByteMap LogRecord} (held : state.lock = some (.writing cf clock data))
    (present : state.dir[flushName clock.now]? ≠ none) : state.writeFlush options =
      match flushTable options.storage state.dir clock data with
      | (.ok table, dir) =>
        { state.withDir dir with lock := some (.loaded cf table) }
      | (.error _, dir) => { state.withDir dir with lock := none } := by
  rw [writeFlush, held]
  dsimp only
  rw [if_neg]
  simpa using present

theorem core_flush (options : EngineOptions) (clock : FlushClock)
    (cf : String) {state : FileEngine} (free : state.lock = none) :
    ([.startFlush clock cf, .writeFlush, .installFlush].foldl
      (FileOp.perform options) state).core =
        (state.core.flushMemtableImpl options clock cf).2 := by
  have idle : ∀ {state : FileEngine}, state.lock = none →
      (state.writeFlush options).installFlush = state := by
    intro state free
    rw [writeFlush, free, installFlush, free]
  simp only [foldl_cons, foldl_nil, FileOp.perform]
  cases last : (state.core.memtablesOf cf).getLast? with
  | none =>
    simp only [flushMemtableImpl, startFlush, free, last]
    rw [idle free]
  | some mem =>
    by_cases empty : mem.data.isEmpty = true
    · simp only [flushMemtableImpl, startFlush, free, last, empty, if_true]
      have same : (state.withCore (state.core.walHandle cf)).lock = none := free
      rw [idle same]
      rfl
    · let created := (state.withCore (state.core.popMemtable cf)).withDir
        (state.dir.insert (flushName clock.now) .unfinished)
      have started : state.startFlush clock cf =
          { created with lock := some (.writing cf clock mem.data) } := by
        simp only [startFlush, free, last, empty, Bool.false_eq_true, if_false, created]
      have present : ({ created with
          lock := some (.writing cf clock mem.data) } :
            FileEngine).dir[flushName clock.now]? ≠ none := by
        show (state.dir.insert
          (flushName clock.now) .unfinished)[flushName clock.now]? ≠ none
        rw [NameMap.getElem?_insert, if_pos rfl]
        exact Option.some_ne_none _
      have table : flushTable options.storage created.dir clock mem.data =
          flushTable options.storage state.core.store.dir clock mem.data :=
        flushTable_insert options.storage state.dir clock mem.data .unfinished
      rw [started, writeFlush_of_present options rfl present]
      simp only [flushMemtableImpl, last, empty]
      show (match flushTable options.storage created.dir clock mem.data with
        | (.ok table, dir) =>
          { created.withDir dir with lock := some (.loaded cf table) }
        | (.error _, dir) => { created.withDir dir with lock := none } :
          FileEngine).installFlush.core = _
      rw [table]
      rcases flushTable options.storage state.core.store.dir clock mem.data
        with ⟨error | table, written⟩
      · rfl
      · show EngineCore.endFlush _ cf = _
        show (match state.core.memtableBytes[cf]? with
          | none => _
          | some _ => _) = _
        cases state.core.memtableBytes[cf]? <;> rfl

theorem core_flush_record :
    let clock : FlushClock := { now := 2, stamp := fun _ => 2 }
    let state := (start .empty).insert "default" (.new 1 [7] [1]) 2
    ([.startFlush clock "default", .writeFlush, .installFlush].foldl
        (FileOp.perform .default) state).core =
      (state.core.flushMemtableImpl .default clock "default").2 :=
  core_flush .default _ "default" rfl

/-- If nothing comes in between, the removals end with the directory without
the files. -/
theorem removeInputs (options : EngineOptions) (paths : List String)
    {state : FileEngine} (held : state.lock = some (.removing paths)) :
    (List.replicate (paths.length + 1) .removeInput).foldl
      (FileOp.perform options) state =
      { state.withDir (removeFiles state.dir paths) with lock := none } := by
  induction paths generalizing state with
  | nil =>
    obtain ⟨shared, lock, merging, tracked⟩ := state
    subst held
    rfl
  | cons path paths ih =>
    have first : FileOp.perform options state .removeInput =
        { state.withDir (state.dir.erase path) with
          lock := some (.removing paths) } := by
      rw [FileOp.perform, removeInput, held]
    rw [length_cons, replicate_succ, foldl_cons, first, ih rfl]
    rfl

variable {thread : Nat}

theorem shared_installMerge (options : EngineOptions) {state : FileEngine}
    (free : state.lock = none) : ∃ count,
      let after := (.installMerge thread :: replicate count .removeInput).foldl
        (FileOp.perform options) state
      after.shared = state.shared.install thread ∧ after.lock = none := by
  cases present : state.shared.compactions thread with
  | none =>
    refine ⟨0, ?_⟩
    simp only [replicate_zero, foldl_cons, foldl_nil, FileOp.perform,
      installMerge, free, present, install, and_self]
  | some compaction =>
    by_cases ready : compaction.groups = []
    · by_cases current : compaction.generation =
        state.core.store.versions.compactionGeneration
      · let replaced := state.core.store.versions.atomicReplaceGroups
          compaction.cf compaction.results
        refine ⟨replaced.1.length + 1, ?_⟩
        have installed : (state.installMerge thread).lock = some (.removing replaced.1) := by
          simp only [installMerge, free, present, ready, current, ne_eq,
            not_true_eq_false, if_false, replaced]
        rw [foldl_cons, FileOp.perform, removeInputs options replaced.1 installed]
        refine ⟨?_, rfl⟩
        have stays : ¬ compaction.generation ≠
            state.shared.core.store.versions.compactionGeneration := not_not.mpr current
        rw [install, present]
        dsimp only
        rw [if_neg (not_not.mpr ready), if_neg stays]
        simp only [installMerge, free, present, ready, current, ne_eq]
        rfl
      · refine ⟨0, ?_⟩
        have stale : compaction.generation ≠
            state.shared.core.store.versions.compactionGeneration := current
        rw [foldl_cons, FileOp.perform, installMerge, free, install, present]
        dsimp only
        rw [if_neg (not_not.mpr ready), if_pos current, if_neg (not_not.mpr ready),
          if_pos stale]
        exact ⟨rfl, rfl⟩
    · refine ⟨0, ?_⟩
      simp only [replicate_zero, foldl_cons, foldl_nil, FileOp.perform, installMerge,
        free, present,
        install, ne_eq, ready, not_false_eq_true, if_true, and_self]

theorem shared_installMerge_twoTables :
    let clock : CompactionClock := { timestamp := 40, stamp := fun _ => 40 }
    let state := [.plan 1 (.sizeTiered .default) "default", .startMerge 1 clock, .merge 1].foldl
      (FileOp.perform twoTables.1) (start twoTables.2)
    (state.shared.compactions 1).map
      (·.results.map (fun result => (result.1, result.2.length))) =
        some [([0, 1], 1)] ∧
      ∃ count,
        let after := (.installMerge 1 :: replicate count .removeInput).foldl
          (FileOp.perform twoTables.1) state
        after.shared = state.shared.install 1 ∧ after.lock = none :=
  ⟨by decide +kernel,
    shared_installMerge twoTables.1 (Option.isNone_iff_eq_none.mp (by decide +kernel))⟩

/-! ## Live files -/

def Referenced (state : FileEngine) (path : String) : Prop :=
  ∃ cf, ∃ table ∈ state.core.store.versions.getTables cf, table.path = some path

/-- A running flush or compaction has created the file, and may yet install
it. -/
inductive Waiting (state : FileEngine) (path : String) : Prop
  | writing (cf : String) (clock : FlushClock) (data : ByteMap LogRecord)
      (held : state.lock = some (.writing cf clock data))
        (named : path = flushName clock.now)
  | loaded (cf : String) (table : Table) (held : state.lock = some (.loaded cf table))
      (located : table.path = some path)
  | merging (thread : Nat) (compaction : BackgroundCompaction)
      (clock : CompactionClock) (group : List Nat) (groups : List (List Nat))
      (present : state.shared.compactions thread = some compaction)
      (started : state.merging thread = some clock)
        (first : compaction.groups = group :: groups)
      (named : path = outputName compaction.strategy compaction.tables group clock)
  | merged (thread : Nat) (compaction : BackgroundCompaction)
      (present : state.shared.compactions thread = some compaction)
      (table : Table) (member : table ∈ compaction.outputs)
        (located : table.path = some path)

def Live (state : FileEngine) (path : String) : Prop :=
  state.Referenced path ∨ state.Waiting path

/-- The call of `reconcile_tables` on this thread removes the file when it
comes to it. -/
def Removes (state : FileEngine) (thread : Nat) (path : String) : Prop :=
  ∃ paths, state.tracked thread = some paths ∧ path ∉ paths ∧ state.dir[path]? ≠ none

theorem mem_trackedPaths {versions : VersionSet} {table : Table}
    (member : table ∈ versions.getTables cf)
    {path : String} (located : table.path = some path) :
    path ∈ versions.trackedPaths := by
  rw [getTables] at member
  cases listed : versions.tables[cf]? with
  | none =>
    rw [listed] at member
    cases member
  | some tables =>
    rw [listed] at member
    exact mem_flatMap.mpr ⟨(cf, tables), (NameMap.mem_toList _ _ _).mpr listed,
      mem_filterMap.mpr ⟨table, member, located⟩⟩

variable {options : EngineOptions} {state : FileEngine} {path : String}

theorem Referenced.of_same {after : FileEngine}
    (same : after.core.store.versions = state.core.store.versions)
    (referenced : after.Referenced path) : state.Live path := by
  obtain ⟨cf, table, member, located⟩ := referenced
  rw [same] at member
  exact .inl ⟨cf, table, member, located⟩

theorem referenced_installFlush
    (referenced : state.installFlush.Referenced path) : state.Live path := by
  unfold installFlush at referenced
  split at referenced
  · next cf table held =>
    obtain ⟨other, listed, member, located⟩ := referenced
    have there : listed ∈ (state.core.store.versions.addTable cf table).getTables other := by
      rw [core, withCore, store_endFlush] at member
      exact member
    by_cases family : cf = other
    · subst family
      rw [getTables_addTable] at there
      rcases mem_append.mp there with old | new
      · exact .inl ⟨cf, listed, old, located⟩
      · rw [mem_singleton.mp new] at located
        exact .inr (.loaded cf table held located)
    · rw [getTables_addTable_ne family] at there
      exact .inl ⟨other, listed, there, located⟩
  · exact .inl referenced

theorem referenced_installMerge
    (referenced : (state.installMerge thread).Referenced path) :
    state.Live path := by
  unfold installMerge at referenced
  split at referenced
  · next compaction free present =>
    split at referenced
    · exact .inl referenced
    · dsimp only at referenced
      split at referenced
      · exact .inl referenced
      · obtain ⟨cf, table, member, located⟩ := referenced
        by_cases family : compaction.cf = cf
        · subst family
          have listed :=
            (getTables_atomicReplaceGroups state.core.store.versions compaction.cf
            compaction.results) ▸ member
          rcases mem_replaceGroups listed with ⟨index, old, _⟩ |
            ⟨replacement, in_results, output⟩
          · exact .inl ⟨_, table, mem_of_getElem? old, located⟩
          · exact .inr (.merged thread compaction present table
              (mem_flatMap.mpr ⟨replacement, in_results, output⟩) located)
        · have listed := (getTables_atomicReplaceGroups_ne family
            state.core.store.versions compaction.results) ▸ member
          exact .inl ⟨cf, table, listed, located⟩
  · exact .inl referenced

theorem versions_merge : (state.merge options thread).core.store.versions =
      state.core.store.versions := by
  unfold merge
  split
  · dsimp only [core]
    split
    · rfl
    · unfold SharedEngine.merge
      split <;> rfl
  · rfl

theorem referenced_perform (op : FileOp)
    (referenced : (op.perform options state).Referenced path) :
    state.Live path := by
  cases op with
  | insert cf record size =>
    refine referenced.of_same ?_
    rw [FileOp.perform, insert]
    split <;> rfl
  | startFlush clock cf =>
    refine referenced.of_same ?_
    rw [FileOp.perform, startFlush]
    split
    · rfl
    split
    · rfl
    split <;> rfl
  | writeFlush =>
    refine referenced.of_same ?_
    rw [FileOp.perform, writeFlush]
    split
    · split
      · rfl
      · split <;> rfl
    · rfl
  | installFlush => exact referenced_installFlush referenced
  | plan thread strategy cf =>
    refine referenced.of_same ?_
    rw [FileOp.perform, plan]
    split
    · rw [SharedEngine.plan]
      split <;> rfl
    · rfl
  | startMerge thread clock =>
    refine referenced.of_same ?_
    rw [FileOp.perform, startMerge]
    split
    · split
      · rfl
      · dsimp only
        split <;> rfl
    · rfl
  | merge thread => exact referenced.of_same versions_merge
  | installMerge thread => exact referenced_installMerge referenced
  | removeInput =>
    refine referenced.of_same ?_
    rw [FileOp.perform, removeInput]
    split <;> rfl
  | readTables thread =>
    refine referenced.of_same ?_
    rw [FileOp.perform, readTables]
    split <;> rfl
  | visit thread path =>
    refine referenced.of_same ?_
    rw [FileOp.perform, visit]
    split
    · rfl
    · split <;> rfl
  | finish thread => exact .inl referenced

theorem tracked_merge : (state.merge options thread).tracked = state.tracked := by
  unfold merge
  split <;> rfl

theorem tracked_installMerge :
    (state.installMerge thread).tracked = state.tracked := by
  unfold installMerge
  split
  · split
    · rfl
    · dsimp only
      split <;> rfl
  · rfl

/-- The call on the thread reads the table list in this step. -/
def Reads (state : FileEngine) (thread : Nat) (op : FileOp) : Prop :=
  op = .readTables thread ∧ state.lock = none

theorem tracked_perform (op : FileOp) {paths : List String}
    (read : (op.perform options state).tracked thread = some paths)
    (waits : ¬ state.Reads thread op) : state.tracked thread = some paths := by
  cases op with
  | insert cf record size =>
    rw [FileOp.perform, insert] at read
    split at read <;> exact read
  | startFlush clock cf =>
    rw [FileOp.perform, startFlush] at read
    split at read
    · exact read
    split at read
    · exact read
    split at read <;> exact read
  | writeFlush =>
    rw [FileOp.perform, writeFlush] at read
    split at read
    · split at read
      · exact read
      · split at read <;> exact read
    · exact read
  | installFlush =>
    rw [FileOp.perform, installFlush] at read
    split at read <;> exact read
  | plan other strategy cf =>
    rw [FileOp.perform, plan] at read
    split at read <;> exact read
  | startMerge other clock =>
    rw [FileOp.perform, startMerge] at read
    split at read
    · split at read
      · exact read
      · dsimp only at read
        split at read <;> exact read
    · exact read
  | merge other =>
    rw [FileOp.perform, tracked_merge] at read
    exact read
  | installMerge other =>
    rw [FileOp.perform, tracked_installMerge] at read
    exact read
  | removeInput =>
    rw [FileOp.perform, removeInput] at read
    split at read <;> exact read
  | readTables other =>
    rw [FileOp.perform, readTables] at read
    split at read
    · exact read
    · next free =>
      by_cases same : thread = other
      · exact absurd ⟨same ▸ rfl, free⟩ waits
      · exact (Function.update_of_ne same _ _).symm.trans read
  | visit other path =>
    rw [FileOp.perform, visit] at read
    split at read
    · exact read
    · split at read <;> exact read
  | finish other =>
    by_cases same : thread = other
    · subst same
      cases (Function.update_self thread _ _).symm.trans read
    · exact (Function.update_of_ne same _ _).symm.trans read

/-- No other thread compacts. -/
def Alone (thread : Nat) (state : FileEngine) : Prop :=
  ∀ other, other ≠ thread → state.shared.compactions other = none

theorem Alone.perform (alone : state.Alone thread) {op : FileOp}
    (own : ∀ other strategy cf, op = .plan other strategy cf → other = thread) :
    (op.perform options state).Alone thread := by
  intro other differs
  have idle := alone other differs
  cases op with
  | plan planner strategy cf =>
    rw [own planner strategy cf rfl, FileOp.perform, plan]
    split
    · rw [SharedEngine.plan]
      split
      · exact idle
      · exact (Function.update_of_ne differs _ _).trans idle
    · exact idle
  | merge merger =>
    rw [FileOp.perform, merge]
    split
    · next compaction clock present started =>
      have mine : merger = thread := by
        by_contra differ
        rw [alone merger differ] at present
        cases present
      rw [mine]
      dsimp only
      split
      · exact (Function.update_of_ne differs _ _).trans idle
      · rw [SharedEngine.merge]
        split
        · exact idle
        · exact (Function.update_of_ne differs _ _).trans idle
    · exact idle
  | installMerge installer =>
    have cleared : Function.update state.shared.compactions installer none other = none := by
      by_cases here : other = installer
      · rw [here, Function.update_self]
      · rw [Function.update_of_ne here, idle]
    rw [FileOp.perform, installMerge]
    split
    · split
      · exact idle
      · dsimp only
        split <;> exact cleared
    · exact idle
  | startFlush clock cf =>
    rw [FileOp.perform, startFlush]
    split
    · exact idle
    split
    · exact idle
    split <;> exact idle
  | writeFlush =>
    rw [FileOp.perform, writeFlush]
    split
    · split
      · exact idle
      · split <;> exact idle
    · exact idle
  | startMerge other clock =>
    rw [FileOp.perform, startMerge]
    split
    · split
      · exact idle
      · dsimp only
        split <;> exact idle
    · exact idle
  | visit other path =>
    rw [FileOp.perform, visit]
    split
    · exact idle
    · split <;> exact idle
  | insert cf record size =>
    rw [FileOp.perform, insert]
    split <;> exact idle
  | installFlush =>
    rw [FileOp.perform, installFlush]
    split <;> exact idle
  | removeInput =>
    rw [FileOp.perform, removeInput]
    split <;> exact idle
  | readTables other =>
    rw [FileOp.perform, readTables]
    split <;> exact idle
  | finish other => exact idle

theorem Alone.run (core : EngineCore) {ops : List FileOp}
    (own : ∀ op ∈ ops, ∀ other strategy cf, op = .plan other strategy cf →
      other = thread) :
    (ops.foldl (FileOp.perform options) (.start core)).Alone thread := by
  induction ops using List.reverseRecOn with
  | nil => exact fun _ _ => rfl
  | append_singleton ops op ih =>
    rw [foldl_concat]
    exact (ih fun op member => own op (mem_append_left _ member)).perform
      (own op (mem_append_right _ mem_cons_self))

/-- The files that wait to be installed when only one thread compacts. -/
def waitingPaths (thread : Nat) (state : FileEngine) : List String :=
  (match state.lock with
    | some (.writing _ clock _) => [flushName clock.now]
    | some (.loaded _ table) => table.path.toList
    | _ => []) ++
  match state.shared.compactions thread with
  | none => []
  | some compaction =>
    (match state.merging thread, compaction.groups with
      | some clock, group :: _ =>
        [outputName compaction.strategy compaction.tables group clock]
      | _, _ => []) ++
    compaction.outputs.filterMap (·.path)

theorem Alone.mem_waitingPaths (alone : state.Alone thread)
    (waiting : state.Waiting path) : path ∈ state.waitingPaths thread := by
  have mine : ∀ {other compaction}, state.shared.compactions other = some compaction →
      other = thread := by
    intro other compaction present
    by_contra differs
    rw [alone other differs] at present
    cases present
  unfold waitingPaths
  cases waiting with
  | writing cf clock data held named => simp [held, named]
  | loaded cf table held located => simp [held, located]
  | merging other compaction clock group groups present started first named =>
    cases mine present
    simp [present, started, first, named]
  | merged other compaction present table member located =>
    cases mine present
    simp only [present, mem_append, mem_filterMap]
    exact .inr (.inr ⟨table, member, located⟩)

end FileEngine

/-! ## Runs -/

/-- The engine, and for each call of `reconcile_tables` the files that have
waited to be installed at some time since it read the table list; nothing reads
them. -/
structure WatchedEngine where
  engine : FileEngine
  unsettled : Nat → Set String

namespace WatchedEngine

def start (core : EngineCore) : WatchedEngine :=
  { engine := .start core, unsettled := fun _ => ∅ }

def step (options : EngineOptions) (state : WatchedEngine) (op : FileOp) :
    WatchedEngine :=
  let engine := op.perform options state.engine
  { engine
    unsettled := fun thread =>
      { path | engine.Waiting path ∨
        ¬ state.engine.Reads thread op ∧ path ∈ state.unsettled thread } }

/-- A call of `reconcile_tables` comes to no file that has waited to be
installed since it read the table list. -/
def Settled (state : WatchedEngine) : FileOp → Prop
  | .visit thread path => path ∉ state.unsettled thread
  | _ => True

/-- What is live was in the table list when a call read it, or has waited
since. -/
def Covered (state : WatchedEngine) : Prop :=
  ∀ thread paths, state.engine.tracked thread = some paths → ∀ path, state.engine.Live path →
      path ∈ paths ∨ path ∈ state.unsettled thread

variable {options : EngineOptions} {state : WatchedEngine}

theorem Covered.start (core : EngineCore) : Covered (.start core) := by
  intro thread paths read
  cases read

theorem Covered.step (covered : state.Covered) (op : FileOp) :
    (state.step options op).Covered := by
  intro thread paths read path live
  rcases live with referenced | waiting
  · by_cases reads : state.engine.Reads thread op
    · obtain ⟨rfl, free⟩ := reads
      simp only [WatchedEngine.step, FileOp.perform, FileEngine.readTables,
        free, Function.update_self, Option.some.injEq] at read referenced
      obtain ⟨cf, table, member, located⟩ := referenced
      exact .inl (read ▸ FileEngine.mem_trackedPaths member located)
    · have before := FileEngine.tracked_perform op read reads
      rcases covered thread paths before path
        (FileEngine.referenced_perform op referenced) with known | unsettled
      · exact .inl known
      · exact .inr (.inr ⟨reads, unsettled⟩)
  · exact .inr (.inl waiting)

theorem Covered.run (core : EngineCore) (ops : List FileOp) :
    (ops.foldl (WatchedEngine.step options) (.start core)).Covered := by
  induction ops using List.reverseRecOn with
  | nil => exact .start core
  | append_singleton ops op covered =>
    rw [foldl_concat]
    exact covered.step op

variable {core : EngineCore} {path : String} {thread : Nat}

theorem engine_foldl (ops : List FileOp) (state : WatchedEngine) :
    (ops.foldl (step options) state).engine =
      ops.foldl (FileOp.perform options) state.engine := by
  induction ops generalizing state with
  | nil => rfl
  | cons op ops ih => exact ih (state.step options op)

theorem waited_of_unsettled {ops : List FileOp}
    (waited : path ∈ (ops.foldl (step options) (.start core)).unsettled thread) :
    ∃ before ∈ ops.inits,
      (before.foldl (FileOp.perform options) (.start core)).Waiting path := by
  induction ops using List.reverseRecOn with
  | nil => cases waited
  | append_singleton ops op ih =>
    rw [foldl_concat] at waited
    rcases waited with waiting | ⟨_, earlier⟩
    · refine ⟨ops ++ [op], by simp, ?_⟩
      rw [foldl_concat]
      rwa [engine_foldl] at waiting
    · obtain ⟨before, initial, waiting⟩ := ih earlier
      rw [mem_inits] at initial
      exact ⟨before, (mem_inits _ _).mpr (initial.trans (prefix_append ops [op])), waiting⟩

end WatchedEngine

/-- In a run in which the calls of `reconcile_tables` come to no file that has
waited to be installed since they read the table list, they remove no file
that a table refers to or that a running flush or compaction may install. -/
theorem reconcile_removes_no_live_file {options : EngineOptions} {core : EngineCore}
    {ops : List FileOp}
    (run : Guarded (WatchedEngine.step options) WatchedEngine.Settled
      (.start core) ops) {before after : List FileOp} {thread : Nat} {path : String}
    (moment : ops = before ++ .visit thread path :: after)
    (removes : (before.foldl (WatchedEngine.step options)
      (.start core)).engine.Removes thread path) :
    ¬ (before.foldl (WatchedEngine.step options)
      (.start core)).engine.Live path := by
  subst moment
  have settled : path ∉ (before.foldl (WatchedEngine.step options)
      (.start core)).unsettled thread := (run.of_append).1
  obtain ⟨paths, read, unlisted, _⟩ := removes
  intro live
  rcases WatchedEngine.Covered.run core before thread paths read path live with known | unsettled
  · exact unlisted known
  · exact settled unsettled

/-- Next to the files of two tables lies that of a flush that did not end. -/
def orphanFile : EngineCore :=
  let core := twoTables.2
  { core with
    store := { core.store with dir := core.store.dir.insert "flush_1.sst" .unfinished } }

/-- Between the two parts of the call the two tables are compacted and another
flush has begun. -/
theorem reconcile_removes_orphan :
    let before : List FileOp :=
      [.plan 1 (.sizeTiered .default) "default", .readTables 0,
        .startMerge 1 { timestamp := 40, stamp := fun _ => 40 }, .merge 1, .installMerge 1,
        .removeInput, .removeInput, .removeInput, .insert "default" (.new 50 [3] [4]) 2,
        .startFlush { now := 51, stamp := fun _ => 51 } "default"]
    let state := before.foldl (WatchedEngine.step twoTables.1) (.start orphanFile)
    state.engine.Live "sst_40.sst" ∧ state.engine.Removes 0 "flush_1.sst" ∧
      ¬ state.engine.Live "flush_1.sst" := by
  intro before state
  have engine :
      state.engine = before.foldl (FileOp.perform twoTables.1) (.start orphanFile) :=
    WatchedEngine.engine_foldl before _
  have output : state.engine.Live "sst_40.sst" := by
    have paths : some "sst_40.sst" ∈
        (state.engine.core.store.versions.getTables "default").map (·.path) := by
      rw [engine]
      decide +kernel
    obtain ⟨table, member, located⟩ := mem_map.mp paths
    exact .inl ⟨"default", table, member, located⟩
  have removes : state.engine.Removes 0 "flush_1.sst" := by
    rw [engine]
    exact ⟨["flush_10.sst", "flush_20.sst"], by decide +kernel, by decide, by decide +kernel⟩
  have settled : state.Settled (.visit 0 "flush_1.sst") := by
    intro unsettled
    obtain ⟨initial, member, waiting⟩ := WatchedEngine.waited_of_unsettled unsettled
    have never : before.inits.all (fun initial => decide ("flush_1.sst" ∉
        (initial.foldl (FileOp.perform twoTables.1) (.start orphanFile)).waitingPaths 1)) =
          true := by decide +kernel
    refine of_decide_eq_true (all_eq_true.mp never initial member) ?_
    refine (FileEngine.Alone.run orphanFile
      fun op listed other strategy cf planned => ?_).mem_waitingPaths waiting
    have shorter := ((mem_inits _ _).mp member).subset listed
    rw [planned] at shorter
    simp only [before, mem_cons, FileOp.plan.injEq, reduceCtorEq, or_false,
      not_mem_nil] at shorter
    exact shorter.1
  have run : Guarded (WatchedEngine.step twoTables.1) WatchedEngine.Settled
      (.start orphanFile)
      (before ++ [.visit 0 "flush_1.sst", .writeFlush, .installFlush, .finish 0]) :=
    ⟨trivial, trivial, trivial, trivial, trivial, trivial, trivial, trivial, trivial,
      trivial,
      settled, trivial, trivial, trivial, trivial⟩
  exact ⟨output, removes, reconcile_removes_no_live_file run rfl removes⟩

/-- A flush that ends between the two parts of a call loses its file. -/
theorem reconcile_removes_flushed_file :
    let record := LogRecord.new 1 [7] [1]
    let before : List FileOp :=
      [.insert "default" record 2, .readTables 0,
        .startFlush { now := 2, stamp := fun _ => 2 } "default", .writeFlush,
        .installFlush]
    let state := before.foldl (WatchedEngine.step .default)
      (.start .empty)
    state.engine.Removes 0 "flush_2.sst" ∧ state.engine.Referenced "flush_2.sst" := by
  intro record before state
  refine ⟨⟨[], by decide +kernel, by simp, by decide +kernel⟩, "default", ?_⟩
  have paths : some "flush_2.sst" ∈ (state.engine.core.store.versions.getTables
      "default").map (·.path) := by decide +kernel
  obtain ⟨table, member, located⟩ := mem_map.mp paths
  exact ⟨table, member, located⟩

end ApexStore
