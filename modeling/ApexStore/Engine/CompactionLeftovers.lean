import ApexStore.Engine.BackgroundRanges
import ApexStore.Engine.FiledVersions

/-!
# What a compaction leaves on disk

A compaction that fails, that is dropped or that does not get to its end
leaves its output files in the directory, and the next startup takes every
file it finds for a table.  The steps of any number of compactions are
interleaved here, and the process may stop after any of them, while an output
is being written, or while the replaced files are being deleted.

Every step is judged by what it does to the files: `SstDir.Shows` is kept by
merges that write current values and by deletions of files that are shadowed.
-/

namespace ApexStore

open VersionSet EngineCore List Option

/-! ## Steps and exits -/

/-- A step of a compaction, in the foreground or in the background. -/
inductive CompactionStep where
  | plan (thread : Nat) (strategy : CompactionStrategy) (cf : String)
  | merge (thread : Nat) (clock : CompactionClock)
  /-- `compact_cf_core` returns the error of a merge. -/
  | giveUp (thread : Nat)
  | install (thread : Nat)

def SharedEngine.giveUp (thread : Nat) (state : SharedEngine) : SharedEngine :=
  { state with compactions := Function.update state.compactions thread none }

def CompactionStep.step (options : EngineOptions) (state : SharedEngine) :
    CompactionStep → SharedEngine
  | plan thread strategy cf => state.plan options thread strategy cf
  | merge thread clock => state.merge options thread clock
  | giveUp thread => state.giveUp thread
  | install thread => state.install thread

/-- Where the process stops: between two steps, while the output of the next
group is being written, or after some of the replaced files are deleted. -/
inductive CompactionExit where
  | between
  | writing (thread : Nat) (clock : CompactionClock)
  | deleting (thread count : Nat)

namespace SharedEngine

/-- The files that installing the outputs of a compaction deletes. -/
def replacedFiles (state : SharedEngine) (thread : Nat) : List String :=
  match state.compactions thread with
  | none => []
  | some compaction =>
    if compaction.groups ≠ [] then []
    else if compaction.generation ≠ state.core.store.versions.compactionGeneration then []
    else (state.core.store.versions.atomicReplaceGroups compaction.cf compaction.results).1

/-- The directory a process leaves that stops there. -/
def leave (state : SharedEngine) : CompactionExit → SstDir
  | .between => state.core.store.dir
  | .writing thread clock =>
    match state.compactions thread with
    | none => state.core.store.dir
    | some compaction =>
      match compaction.groups with
      | [] => state.core.store.dir
      | group :: _ =>
        state.core.store.dir.insert (outputName compaction.strategy
          compaction.tables group clock) .unfinished
  | .deleting thread count =>
    removeFiles state.core.store.dir ((state.replacedFiles thread).take count)

def stopped (state : SharedEngine) (exit : CompactionExit) : EngineCore :=
  { state.core with
    store := { state.core.store with dir := state.leave exit } }

/-- The files that an installation deletes can all go, in their order. -/
def Replaceable (state : SharedEngine) (thread : Nat) : Prop :=
  ∀ earlier path later, state.replacedFiles thread = earlier ++ path :: later →
    SstDir.Expendable (removeFiles state.core.store.dir earlier) path

end SharedEngine

/-- The merge of a group leaves a complete file under a new name, and the
values in it are those that a restart shows anyway. -/
structure SharedEngine.MergesCurrent (options : EngineOptions)
    (state : SharedEngine) (compaction : BackgroundCompaction)
    (group : List Nat) (clock : CompactionClock) : Prop where
  unused : state.core.store.dir[outputName compaction.strategy
    compaction.tables group clock]? = none
  nonempty : ∃ key,
    survivor (groupTables compaction.tables group) compaction.tombstones key ≠ none
  fits : ∀ key value, survivor (groupTables compaction.tables group)
      compaction.tombstones key = some value → SstableBuilder.entryFits options.storage key
      (LogRecord.new (clock.stamp key) key value) = true
  current : ∀ key value, survivor (groupTables compaction.tables group)
      compaction.tombstones key = some value →
        state.core.store.dir.filedValue key = some value

variable {options : EngineOptions}

variable {state : SharedEngine} {compaction : BackgroundCompaction} {group : List Nat}
  {clock : CompactionClock}

theorem SharedEngine.MergesCurrent.of_entries
    (unused : state.core.store.dir[outputName compaction.strategy
      compaction.tables group clock]? = none)
    (nonempty : mergedEntries
      (groupTables compaction.tables group) compaction.tombstones ≠ [])
    (checked : (mergedEntries (groupTables compaction.tables group)
      compaction.tombstones).all
        (fun entry => SstableBuilder.entryFits options.storage entry.1
          (LogRecord.new (clock.stamp entry.1) entry.1 entry.2) &&
        decide (state.core.store.dir.filedValue entry.1 = some entry.2)) = true) :
    state.MergesCurrent options compaction group clock := by
  have each : ∀ key value, survivor (groupTables compaction.tables group)
      compaction.tombstones key = some value → SstableBuilder.entryFits options.storage key
          (LogRecord.new (clock.stamp key) key value) = true ∧
        state.core.store.dir.filedValue key = some value := by
    intro key value survives
    have fine := all_eq_true.mp checked (key, value) (mem_mergedEntries.mpr survives)
    rwa [Bool.and_eq_true, decide_eq_true_eq] at fine
  refine ⟨unused, ?_, fun key value survives => (each key value survives).1,
    fun key value survives => (each key value survives).2⟩
  obtain ⟨⟨key, value⟩, member⟩ := exists_mem_of_ne_nil _ nonempty
  refine ⟨key, ?_⟩
  rw [mem_mergedEntries.mp member]
  exact some_ne_none value

def CompactionStep.Harmless (options : EngineOptions)
    (state : SharedEngine) : CompactionStep → Prop
  | merge thread clock =>
    ∀ compaction group, state.compactions thread = some compaction →
      compaction.groups.head? = some group →
        state.MergesCurrent options compaction group clock
  | install thread => state.Replaceable thread
  | _ => True

/-- The condition on the exit: no output is being written. -/
def CompactionExit.Harmless (state : SharedEngine) : CompactionExit → Prop
  | between => True
  | writing thread _ => ∀ compaction,
      state.compactions thread = some compaction → compaction.groups = []
  | deleting thread _ => state.Replaceable thread

theorem CompactionStep.logs_step (options : EngineOptions) (state : SharedEngine)
    (op : CompactionStep) : (op.step options state).core.logs = state.core.logs := by
  cases op with
  | plan thread strategy cf =>
    rw [step]
    unfold SharedEngine.plan
    split <;> rfl
  | merge thread clock =>
    rw [step]
    unfold SharedEngine.merge
    split <;> rfl
  | giveUp thread => rfl
  | install thread =>
    rw [step]
    unfold SharedEngine.install
    split
    · rfl
    · split
      · rfl
      · dsimp only
        split <;> rfl

/-! ## Runs -/

/-- What holds along a run that started from the engine `core`. -/
structure LeavesReadable (options : EngineOptions) (core : EngineCore)
    (state : SharedEngine) : Prop where
  background : BackgroundSound options state
  logs : state.core.logs = core.logs
  shows : core.store.dir.Shows state.core.store.dir

theorem SharedEngine.MergesCurrent.shows
    (current : state.MergesCurrent options compaction group clock) :
    state.core.store.dir.Shows (compact compaction.strategy options.storage
      state.core.store.dir clock group compaction.tables compaction.tombstones).2 := by
  obtain ⟨outputs, dir, done⟩ := compact_succeeds compaction.strategy
    state.core.store.dir clock current.fits
  have others :
      ∀ other, other ≠ outputName compaction.strategy compaction.tables group clock →
      dir[other]? = state.core.store.dir[other]? := by
    intro other differ
    have kept := compact_dir compaction.strategy options.storage
      state.core.store.dir clock group compaction.tables compaction.tombstones differ
    rwa [done] at kept
  rw [done]
  rcases compact_ok done with ⟨_, nothing⟩ | ⟨table, _, merged⟩
  · obtain ⟨key, survives⟩ := current.nonempty
    exact absurd (nothing key) survives
  obtain ⟨path, records, file, filled⟩ := merged.filled
  have named : path = outputName compaction.strategy compaction.tables group
      clock := by
    have located := merged.path
    rw [filled] at located
    exact Option.some.inj located
  subst named
  have located := merged.path
  refine .grown current.unused others file ?_ ?_
  · intro key record held
    apply merged.live key record
    rw [Table.fileRecord_of_table located file, held]
  · intro key record held
    apply current.current
    rw [← merged.data key, filled]
    change (records.map (fun _ record => record.value))[key]? = _
    rw [Std.ExtTreeMap.getElem?_map, held]
    rfl

namespace LeavesReadable

variable {options : EngineOptions} {core : EngineCore} {state : SharedEngine}

theorem start (sound : EngineSound options core) :
    LeavesReadable options core (.start core) :=
  ⟨.start sound, rfl, .refl _⟩

variable {thread : Nat}

section

variable (readable : LeavesReadable options core state)
include readable

theorem merge {clock : CompactionClock} (current : ∀ compaction group,
      state.compactions thread = some compaction →
        compaction.groups.head? = some group →
      state.MergesCurrent options compaction group clock) :
    LeavesReadable options core (state.merge options thread clock) := by
  refine ⟨readable.background.merge (fun compaction group present first =>
    (current compaction group present first).unused), ?_, ?_⟩
  · exact (CompactionStep.logs_step options state (.merge thread clock)).trans readable.logs
  · unfold SharedEngine.merge
    split
    · exact readable.shows
    next compaction present =>
      have outcome := compaction.mergeNext_outcome options.storage state.core.store.dir clock
      generalize compaction.mergeNext options.storage state.core.store.dir
        clock = result at outcome ⊢
      cases outcome with
      | finished _ => exact readable.shows
      | merged group groups first outputs dir done =>
        have grown := (current compaction group present (by rw [first]; rfl)).shows
        rw [done] at grown
        exact readable.shows.trans grown
      | failed group groups first error dir fails =>
        have grown := (current compaction group present (by rw [first]; rfl)).shows
        rw [fails] at grown
        exact readable.shows.trans grown

theorem deleted (replaceable : state.Replaceable thread) (count : Nat) :
    core.store.dir.Shows (removeFiles state.core.store.dir
      ((state.replacedFiles thread).take count)) := by
  refine readable.shows.trans (.removeFiles ?_)
  intro earlier path later split
  apply replaceable earlier path (later ++ (state.replacedFiles thread).drop count)
  calc
    state.replacedFiles thread = (state.replacedFiles thread).take count ++
          (state.replacedFiles thread).drop count := (take_append_drop count _).symm
    _ = earlier ++ path :: (later ++ (state.replacedFiles thread).drop count) := by
      rw [split, append_assoc, cons_append]

theorem install (replaceable : state.Replaceable thread) :
    LeavesReadable options core (state.install thread) := by
  have removed := readable.deleted replaceable (state.replacedFiles thread).length
  rw [take_length, SharedEngine.replacedFiles] at removed
  refine ⟨readable.background.install, ?_, ?_⟩
  · exact (CompactionStep.logs_step options state (.install thread)).trans readable.logs
  · unfold SharedEngine.install
    split
    · exact readable.shows
    next compaction present =>
      rw [present] at removed
      dsimp only at removed
      split
      · exact readable.shows
      next merged =>
        rw [if_neg merged] at removed
        split
        · exact readable.shows
        next current =>
          rw [if_neg current] at removed
          exact removed

theorem giveUp (thread : Nat) : LeavesReadable options core (state.giveUp thread) := by
  refine ⟨readable.background.add ?_, readable.logs, readable.shows⟩
  intro compaction none_added
  cases none_added

theorem plan (thread : Nat) (strategy : CompactionStrategy) (cf : String) :
    LeavesReadable options core (state.plan options thread strategy cf) := by
  refine ⟨readable.background.plan strategy cf, ?_, ?_⟩
  · exact (CompactionStep.logs_step options state
      (.plan thread strategy cf)).trans readable.logs
  · unfold SharedEngine.plan
    split <;> exact readable.shows

theorem step {op : CompactionStep} (harmless : op.Harmless options state) :
    LeavesReadable options core (op.step options state) := by
  cases op with
  | plan thread strategy cf => exact readable.plan thread strategy cf
  | merge thread clock => exact readable.merge harmless
  | giveUp thread => exact readable.giveUp thread
  | install thread => exact readable.install harmless

end

theorem run {ops : List CompactionStep} (sound : EngineSound options core)
    (guarded : Guarded (CompactionStep.step options)
      (CompactionStep.Harmless options) (.start core) ops) :
    LeavesReadable options core
      (ops.foldl (CompactionStep.step options) (.start core)) :=
  guarded.invariant (fun _ _ readable harmless => readable.step harmless) (start sound)

theorem leave (readable : LeavesReadable options core state) {exit : CompactionExit}
    (harmless : exit.Harmless state) : core.store.dir.Shows (state.leave exit) := by
  cases exit with
  | between => exact readable.shows
  | deleting thread count => exact readable.deleted harmless count
  | writing thread clock =>
    unfold SharedEngine.leave
    dsimp only
    split
    · exact readable.shows
    next compaction present =>
      rw [harmless compaction present]
      exact readable.shows

end LeavesReadable

theorem newGeneric_of_files {core : EngineCore} (sound : EngineSound options core)
    (readable : core.LogsReadable options) (apart : core.LogsApart)
    {found : List String}
    (lists : core.Lists found) {stopped : EngineCore} (logs : stopped.logs = core.logs)
    (bare : stopped.store.dir.Bare) :
    ∃ after, stopped.newGeneric options found = .ok after ∧
      Reopened options { core with store := stopped.store.shutdown } after := by
  have store : StoreSound options.storage stopped.store.shutdown := by
    refine ⟨?_, ?_, ?_, bare, rfl, rfl⟩
    · intro cf table member
      cases member
    · intro cf
      exact List.Pairwise.nil
    · intro cf other _ table member
      cases member
  have whole : EngineSound options
      { core with store := stopped.store.shutdown } := ⟨store, sound.memory.withStore _⟩
  obtain ⟨after, opened, reopened⟩ := newGeneric_ok whole
    (show LogsReadable options { core with store := stopped.store.shutdown }
      from ⟨readable.bounded, readable.reached⟩) apart lists
  refine ⟨after, ?_, reopened⟩
  have same : stopped.onDisk =
      ({ core with store := stopped.store.shutdown } : EngineCore).onDisk := by
    rw [onDisk, onDisk, logs]
    rfl
  rw [newGeneric, same]
  exact opened

/-- Compactions whose merges write values that a restart shows anyway, and
whose installations delete only files that are shadowed, change no read of a
restart, wherever they stop except inside a merge, and they leave no file that
a restart rejects. -/
theorem leftover_files_change_no_read {options : EngineOptions}
    (_ : options.storage.Legible) {core : EngineCore}
    (restorable : Restorable options core) (uncached : core.store.versions.kvCache = ∅)
    (permanent : core.store.dir.Permanent)
    (readable : core.LogsReadable options) {found : List String}
    (lists : core.Lists found) {ops : List CompactionStep}
    (run : Guarded (CompactionStep.step options)
      (CompactionStep.Harmless options) (.start core) ops)
    {exit : CompactionExit}
    (harmless : exit.Harmless
      (ops.foldl (CompactionStep.step options) (.start core))) :
    let stopped :=
      (ops.foldl (CompactionStep.step options) (.start core)).stopped exit
    (∃ reopened, stopped.newGeneric options found = .ok reopened ∧
      ∀ now cf key, (reopened.getCf now cf key).1 = (core.getCf now cf key).1) ∧
    ∀ name file, stopped.store.dir[name]? = some file →
      core.store.dir[name]? = none →
      ∃ table, Table.loadForRecovery options.storage stopped.store.dir name =
        .ok (.healthy table) := by
  intro stopped
  have kept := LeavesReadable.run restorable.sound run
  have shows : core.store.dir.Shows stopped.store.dir := kept.leave harmless
  have logs : stopped.logs = core.logs := kept.logs
  constructor
  · obtain ⟨plain, _, reopened⟩ :=
      newGeneric_ok restorable.sound readable restorable.logsApart lists
    obtain ⟨after, opened, reopened'⟩ :=
      newGeneric_of_files restorable.sound readable restorable.logsApart lists logs
        (shows.bare restorable.sound.store.tombstones)
    refine ⟨after, opened, ?_⟩
    intro now cf key
    have told := EngineCore.ExpiryTold.of_permanent restorable.sound.store
      (SstDir.permanent_iff_checked.mp permanent) now
    rw [getCf_eq reopened'.sound.store, getCf_eq restorable.sound.store,
      ← restorable.answer_eq uncached reopened told cf key,
      reopened.answer_eq reopened' rfl restorable.no_ranges permanent shows]
  · intro name file present fresh
    rw [loadForRecovery_eq options.storage present]
    cases file with
    | table records => exact ⟨_, rfl⟩
    | unfinished =>
      rw [shows.complete name present] at fresh
      cases fresh

theorem restorable_twoTables : Restorable twoTables.1 twoTables.2 ∧
    twoTables.2.store.versions.kvCache = ∅ := by
  let first : FlushClock := { now := 10, stamp := fun _ => 10 }
  let second : FlushClock := { now := 20, stamp := fun _ => 20 }
  let ops : List FamilyWrite :=
    [.put (.ticking 1) "default" [7] [1] none, .flush first "default",
      .put (.ticking 11) "default" [9] [2] none, .flush second "default"]
  have run : Guarded (FamilyWrite.step twoTables.1)
      (FamilyWrite.Kept twoTables.1) .empty ops := by
    refine ⟨⟨by decide, by decide +kernel, fun full => absurd full (by decide +kernel)⟩, ?_,
      ⟨by decide, by decide +kernel, fun full => absurd full (by decide +kernel)⟩, ?_,
        trivial⟩
    · exact .of_entries (by decide) (by decide +kernel) (by decide +kernel)
        (by decide +kernel) (by decide +kernel) (by decide +kernel)
    · exact .of_entries (by decide) (by decide +kernel) (by decide +kernel)
        (by decide +kernel) (by decide +kernel) (by decide +kernel)
  have initial : Restorable twoTables.1 .empty ∧
      EngineCore.empty.store.versions.kvCache = ∅ := ⟨.empty twoTables.1, rfl⟩
  exact @Guarded.invariant _ _ (FamilyWrite.step twoTables.1) _ .empty ops
    (fun core => Restorable twoTables.1 core ∧ core.store.versions.kvCache = ∅)
    (fun _ op held kept => ⟨held.1.step kept, op.step_uncached held.2⟩) run initial

/-- Two flushed tables are merged, and the process stops when the file of the
first is deleted and that of the second is not. -/
theorem leftover_files_change_no_read_while_deleting :
    let ops : List CompactionStep :=
      [.plan 0 (.sizeTiered .default) "default", .merge 0 { timestamp := 40, stamp := fun _ => 40 }]
    let state := ops.foldl (CompactionStep.step twoTables.1)
      (.start twoTables.2)
    state.replacedFiles 0 = ["flush_10.sst", "flush_20.sst"] ∧
    ∃ reopened, (state.stopped (.deleting 0 1)).newGeneric twoTables.1 [] =
        .ok reopened ∧
      ∀ now cf key, (reopened.getCf now cf key).1 = (twoTables.2.getCf now cf key).1 := by
  intro ops state
  have replaced : state.replacedFiles 0 = ["flush_10.sst", "flush_20.sst"] := by decide +kernel
  have restorable := restorable_twoTables
  have replaceable : state.Replaceable 0 := by
    intro earlier path later split
    rw [replaced] at split
    apply SstDir.Expendable.of_shadowed
    rcases earlier with _ | ⟨first, _ | ⟨second, earlier⟩⟩
    · obtain ⟨rfl, _⟩ := List.cons.inj split
      decide +kernel
    · obtain ⟨rfl, rest⟩ := List.cons.inj split
      obtain ⟨rfl, _⟩ := List.cons.inj rest
      decide +kernel
    · simp at split
  have merges : CompactionStep.Harmless twoTables.1
      (CompactionStep.step twoTables.1 (.start twoTables.2)
        (.plan 0 (.sizeTiered .default) "default"))
      (.merge 0 { timestamp := 40, stamp := fun _ => 40 }) := by
    intro compaction group planned first
    rw [BackgroundCompaction.eq_of_plan planned] at first ⊢
    have groups : (CompactionStrategy.sizeTiered .default).pickTables
        ((SharedEngine.start twoTables.2).core.store.versions.getTables "default") =
          [[0, 1]] := by decide +kernel
    rw [groups] at first
    cases first
    exact .of_entries (by decide +kernel) (by decide +kernel) (by decide +kernel)
  have run : Guarded (CompactionStep.step twoTables.1)
      (CompactionStep.Harmless twoTables.1) (.start twoTables.2) ops :=
        ⟨trivial, merges, trivial⟩
  have exits : (CompactionExit.deleting 0 1).Harmless state := replaceable
  exact ⟨replaced, (leftover_files_change_no_read (by decide) restorable.1 restorable.2
    (SstDir.permanent_iff_checked.mpr (by decide +kernel))
    (.of_logs (by decide +kernel)) (.of_logs (by decide +kernel)) run exits).1⟩

/-- A range is deleted and its keys are written again.  The compaction drops
both values, its output stays incomplete, and the process stops when the first
of the two tables is deleted: one value is gone, the other is still there, and
the restart finds a file it rejects. -/
theorem interrupted_compaction_loses_one_of_two_values :
    let options := { EngineOptions.default with compactionThreshold := 2 }
    let writes : List EngineOp :=
      [.deleteRange 1 2 (Vector.replicate 12 0) "default" [7] [9],
        .put (.ticking 3) "default" [8] [1] none,
        .flush { now := 10, stamp := fun _ => 10 } "default",
        .put (.ticking 11) "default" [7] [2] none,
        .flush { now := 20, stamp := fun _ => 20 } "default"]
    let core := writes.foldl (EngineOp.step options) .empty
    let ops : List CompactionStep :=
      [.plan 0 (.sizeTiered .default) "default", .merge 0 { timestamp := 40, stamp := fun _ => 40 }]
    let state := ops.foldl (CompactionStep.step options) (.start core)
    let stopped := state.stopped (.deleting 0 1)
    Reachable options core ∧
    (core.getCf 50 "default" [8]).1 = .ok (some [1]) ∧
    ((state.install 0).core.getCf 50 "default" [7]).1 = .ok none ∧
    (∃ reopened, stopped.newGeneric options [] = .ok reopened ∧
      (reopened.getCf 50 "default" [8]).1 = .ok none ∧
      (reopened.getCf 50 "default" [7]).1 = .ok (some [2])) ∧
    ∃ error, Table.loadForRecovery options.storage stopped.store.dir
      "sst_40.sst" = .ok (.corrupt error) := by
  intro options writes core ops state stopped
  have reachable : Reachable options core := .of_check (by decide +kernel)
  have sound := reachable.sound
  have background : BackgroundSound options state :=
    @BackgroundSound.merge _ _ 0
      (@BackgroundSound.plan _ _ 0 (.start sound) (.sizeTiered .default)
        "default") { timestamp := 40, stamp := fun _ => 40 }
      (BackgroundOp.safe_merge (by decide +kernel))
  have installed := @BackgroundSound.install _ _ 0 background
  refine ⟨reachable, ?_, ?_, ?_, ?_⟩
  · rw [getCf_eq_versions sound.store]
    decide +kernel
  · rw [getCf_eq_versions installed.sound.store]
    decide +kernel
  · have bare : stopped.store.dir.Bare := by
      intro name records present
      refine background.sound.store.tombstones name records ?_
      change (removeFiles state.core.store.dir _)[name]? = _ at present
      rw [getElem?_removeFiles] at present
      split at present
      · cases present
      · exact present
    have logs : stopped.logs = core.logs := by
      change state.core.logs = core.logs
      simp only [state, ops, foldl_cons, foldl_nil, CompactionStep.logs_step]
      rfl
    have lists : core.Lists [] := .of_logs (by decide +kernel)
    obtain ⟨after, opened, reopened⟩ := newGeneric_of_files sound
      (.of_logs (by decide +kernel)) (.of_logs (by decide +kernel)) lists logs bare
    refine ⟨after, opened, ?_, ?_⟩
    · rw [reopened.getCf_filed 50 (isNone_iff_eq_none.mp (by decide +kernel))
        (isEmpty_iff.mp (by decide +kernel)) (by decide +kernel)
        (isNone_iff_eq_none.mp (by decide +kernel))]
      exact congrArg Except.ok (by decide +kernel)
    · rw [reopened.getCf_filed 50 (isNone_iff_eq_none.mp (by decide +kernel))
        (isEmpty_iff.mp (by decide +kernel)) (by decide +kernel)
        (isNone_iff_eq_none.mp (by decide +kernel))]
      exact congrArg Except.ok (by decide +kernel)
  · have listed : stopped.store.dir["sst_40.sst"]?.isSome = true := by decide +kernel
    have fails : (stopped.store.dir.openTable "sst_40.sst").isOk = false := by decide +kernel
    obtain ⟨file, present⟩ := Option.isSome_iff_exists.mp listed
    cases file with
    | unfinished => exact ⟨_, loadForRecovery_eq options.storage present⟩
    | table records =>
      rw [SstDir.openTable, present] at fails
      cases fails

end ApexStore
