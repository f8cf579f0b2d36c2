import ApexStore.Engine.RangeDurability

/-!
# Background compaction

`maybe_compact` plans under the lock, merges without it and installs under
the lock again, if the tables have not changed in between.  `delete_range_cf`
takes its timestamp and writes its log record before it takes the lock.  The
steps of any number of both are interleaved here.

Every output waits in a file of its own until it is installed or dropped, so
the tables stay readable whatever the order of the steps (`BackgroundSound`).
-/

namespace ApexStore

open VersionSet EngineCore TableState List Function

/-! ## Steps -/

/-- A background compaction of a family: what the plan has captured, the
groups that are still to be merged, and the outputs of the others. -/
structure BackgroundCompaction where
  cf : String
  tables : List Table
  strategy : CompactionStrategy
  tombstones : List RangeTombstone
  generation : Nat
  groups : List (List Nat)
  results : List Replacement

namespace BackgroundCompaction

def plan (options : EngineOptions) (core : EngineCore)
    (strategy : CompactionStrategy) (cf : String) : Option BackgroundCompaction :=
  match core.store.versions.tables[cf]? with
  | none => none
  | some tables =>
    if tables.length < options.compactionThreshold then none
    else
      let groups := strategy.pickTables tables
      if groups.isEmpty then none
      else
        some { cf, tables, strategy, groups
               tombstones := core.rangesOf cf
               generation := core.store.versions.compactionGeneration
               results := [] }

theorem eq_of_plan {options : EngineOptions} {core : EngineCore}
    {strategy : CompactionStrategy} {cf : String}
    {compaction : BackgroundCompaction}
    (planned : plan options core strategy cf = some compaction) : compaction =
      { cf, tables := core.store.versions.getTables cf, strategy
        tombstones := core.rangesOf cf
        generation := core.store.versions.compactionGeneration
        groups := strategy.pickTables (core.store.versions.getTables cf)
        results := [] } := by
  unfold plan at planned
  split at planned
  · cases planned
  next tables listed =>
    split at planned
    · cases planned
    dsimp only at planned
    split at planned
    · cases planned
    cases planned
    rw [getTables, listed]
    rfl

/-- Phase 2 for the next group.  Unlike `compact_cf_core`, a group that fails
is left out and the others go on. -/
def mergeNext (config : StorageConfig) (dir : SstDir)
    (clock : CompactionClock) (compaction : BackgroundCompaction) :
    BackgroundCompaction × SstDir :=
  match compaction.groups with
  | [] => (compaction, dir)
  | group :: groups =>
    match compact compaction.strategy config dir clock group
        compaction.tables compaction.tombstones with
    | (.ok outputs, dir) =>
      ({ compaction with
          groups, results := compaction.results ++ [(group, outputs)] },
        dir)
    | (.error _, dir) => ({ compaction with groups }, dir)

/-- What phase 2 can do with the next group. -/
inductive MergeOutcome (config : StorageConfig) (dir : SstDir)
    (clock : CompactionClock) (compaction : BackgroundCompaction) :
    BackgroundCompaction × SstDir → Prop
  | finished (done : compaction.groups = []) :
      MergeOutcome config dir clock compaction (compaction, dir)
  | merged (group : List Nat) (groups : List (List Nat))
      (first : compaction.groups = group :: groups) (outputs : List Table)
      (written : SstDir)
      (done : compact compaction.strategy config dir clock group
        compaction.tables compaction.tombstones = (.ok outputs, written)) :
      MergeOutcome config dir clock compaction
        ({ compaction with
            groups, results := compaction.results ++ [(group, outputs)] },
          written)
  | failed (group : List Nat) (groups : List (List Nat))
      (first : compaction.groups = group :: groups) (error : LsmError) (left : SstDir)
      (fails : compact compaction.strategy config dir clock group
        compaction.tables compaction.tombstones = (.error error, left)) :
      MergeOutcome config dir clock compaction ({ compaction with groups }, left)

theorem mergeNext_outcome (config : StorageConfig) (dir : SstDir)
    (clock : CompactionClock) (compaction : BackgroundCompaction) :
    MergeOutcome config dir clock compaction
      (compaction.mergeNext config dir clock) := by
  unfold mergeNext
  split
  · next done => exact .finished done
  · next group groups first =>
    split
    · next outputs written done =>
      exact .merged group groups first outputs written done
    · next error left fails => exact .failed group groups first error left fails

/-- All groups of the plan that can have an output. -/
def allGroups (compaction : BackgroundCompaction) : List (List Nat) :=
  compaction.groups ++ compaction.results.map (·.1)

end BackgroundCompaction

/-- The engine with its background compactions and the range deletions that
have been logged but not applied, by thread.  `completed` keeps the range
deletions that have returned; nothing reads it. -/
structure SharedEngine where
  core : EngineCore
  compactions : Nat → Option BackgroundCompaction
  deletions : Nat → Option (String × RangeTombstone)
  completed : List (String × RangeTombstone)

def SharedEngine.start (core : EngineCore) : SharedEngine :=
  { core, compactions := fun _ => none, deletions := fun _ => none
    completed := [] }

inductive BackgroundOp where
  | plan (thread : Nat) (strategy : CompactionStrategy) (cf : String)
  | merge (thread : Nat) (clock : CompactionClock)
  | install (thread : Nat)
  /-- `delete_range_cf` up to the write to the log. -/
  | logRange (thread : Nat) (timestamp logged : Nanos) (nonce : Nonce)
      (cf : String) (start stop : Bytes)
  | applyRange (thread : Nat)

namespace SharedEngine

def plan (options : EngineOptions) (thread : Nat)
    (strategy : CompactionStrategy) (cf : String) (state : SharedEngine) :
    SharedEngine :=
  match state.compactions thread with
  | some _ => state
  | none =>
    { state with
      compactions := Function.update state.compactions thread
        (BackgroundCompaction.plan options state.core strategy cf) }

def merge (options : EngineOptions) (thread : Nat) (clock : CompactionClock)
    (state : SharedEngine) : SharedEngine :=
  match state.compactions thread with
  | none => state
  | some compaction =>
    let (compaction, dir) := compaction.mergeNext options.storage
      state.core.store.dir clock
    { state with
      core := { state.core with store := { state.core.store with dir } }
      compactions := Function.update state.compactions thread compaction }

/-- Phase 3: results of a plan that is not current are dropped. -/
def install (thread : Nat) (state : SharedEngine) : SharedEngine :=
  match state.compactions thread with
  | none => state
  | some compaction =>
    if compaction.groups ≠ [] then state
    else
      let compactions := Function.update state.compactions thread none
      if compaction.generation ≠
          state.core.store.versions.compactionGeneration then
        { state with compactions }
      else
        { state with
          core := { state.core with
            store := state.core.store.install compaction.cf
              compaction.results }
          compactions }

def logRange (thread : Nat) (timestamp logged : Nanos) (nonce : Nonce)
    (cf : String) (start stop : Bytes) (state : SharedEngine) : SharedEngine :=
  let range : RangeTombstone := { startKey := start, endKey := stop, timestamp }
  let record :=
    { LogRecord.rangeTombstone logged start stop with columnFamily := some cf }
  match state.deletions thread with
  | some _ => state
  | none =>
    { state with
      core := (state.core.walHandle cf).writeRecord cf { nonce, record }
      deletions := Function.update state.deletions thread
        (some (cf, range)) }

def applyRange (thread : Nat) (state : SharedEngine) : SharedEngine :=
  match state.deletions thread with
  | none => state
  | some (cf, range) =>
    { state with
      core := (state.core.addRange cf range).updateMemtable cf
        (·.addRangeTombstone range)
      deletions := Function.update state.deletions thread none
      completed := state.completed ++ [(cf, range)] }

@[simp] theorem completed_plan (options : EngineOptions) (thread : Nat)
    (strategy : CompactionStrategy) (cf : String) (state : SharedEngine) :
    (state.plan options thread strategy cf).completed = state.completed := by
  unfold plan
  split <;> rfl

@[simp] theorem completed_merge (options : EngineOptions) (thread : Nat)
    (clock : CompactionClock)
    (state : SharedEngine) :
    (state.merge options thread clock).completed = state.completed := by
  unfold merge
  split <;> rfl

@[simp] theorem completed_install (thread : Nat) (state : SharedEngine) :
    (state.install thread).completed = state.completed := by
  unfold install
  split
  · rfl
  · split
    · rfl
    · dsimp only
      split <;> rfl

end SharedEngine

def BackgroundOp.step (options : EngineOptions)
    (state : SharedEngine) : BackgroundOp → SharedEngine
  | plan thread strategy cf => state.plan options thread strategy cf
  | merge thread clock => state.merge options thread clock
  | install thread => state.install thread
  | logRange thread timestamp logged nonce cf start stop =>
    state.logRange thread timestamp logged nonce cf start stop
  | applyRange thread => state.applyRange thread

/-! ## Files -/

def BackgroundCompaction.outputs (compaction : BackgroundCompaction) : List Table :=
  compaction.results.flatMap (·.2)

/-- What holds between two steps: a plan of the current generation describes
the current tables, and every output has a file of its own. -/
structure BackgroundSound (options : EngineOptions) (state : SharedEngine) : Prop where
  sound : EngineSound options state.core
  planned : ∀ thread compaction, state.compactions thread = some compaction →
    compaction.generation ≤ state.core.store.versions.compactionGeneration
  captured : ∀ thread compaction, state.compactions thread = some compaction →
    compaction.generation = state.core.store.versions.compactionGeneration →
    state.core.store.versions.getTables compaction.cf = compaction.tables
  written : ∀ thread compaction, state.compactions thread = some compaction →
    ∀ replacement ∈ compaction.results, ∃ path,
      GroupOutput options.storage state.core.store.dir path
        (survivor (groupTables compaction.tables replacement.1) compaction.tombstones) replacement.2
  new : ∀ thread compaction, state.compactions thread = some compaction →
    ∀ table ∈ compaction.outputs, ∀ path, table.path = some path →
    ∀ cf, ∀ old ∈ state.core.store.versions.getTables cf, old.path ≠ some path
  distinct : ∀ thread compaction, state.compactions thread = some compaction →
    DistinctFiles compaction.outputs
  apart : ∀ thread other, thread ≠ other →
    ∀ mine yours, state.compactions thread = some mine →
    state.compactions other = some yours →
      ∀ table ∈ mine.outputs, ∀ table' ∈ yours.outputs, ∀ path,
      table.path = some path → table'.path ≠ some path

/-- What holds of the compaction of a thread. -/
structure BackgroundCompaction.Fits (options : EngineOptions) (state : SharedEngine)
    (thread : Nat) (compaction : BackgroundCompaction) : Prop where
  planned : compaction.generation ≤ state.core.store.versions.compactionGeneration
  captured : compaction.generation = state.core.store.versions.compactionGeneration →
    state.core.store.versions.getTables compaction.cf = compaction.tables
  written : ∀ replacement ∈ compaction.results, ∃ path,
    GroupOutput options.storage state.core.store.dir path
      (survivor (groupTables compaction.tables replacement.1) compaction.tombstones) replacement.2
  new : ∀ table ∈ compaction.outputs, ∀ path, table.path = some path →
    ∀ cf, ∀ old ∈ state.core.store.versions.getTables cf, old.path ≠ some path
  distinct : DistinctFiles compaction.outputs
  apart : ∀ other yours, other ≠ thread → state.compactions other = some yours →
    ∀ table ∈ compaction.outputs, ∀ table' ∈ yours.outputs, ∀ path,
      table.path = some path → table'.path ≠ some path

variable {config : StorageConfig} {dir : SstDir} {path : String}
  {contents : Bytes → Option Bytes} {table : Table}

theorem GroupOutput.merged_of_mem {outputs : List Table}
    (output : GroupOutput config dir path contents outputs)
    (member : table ∈ outputs) : MergeOutput config dir path contents table := by
  rcases output with ⟨empty, _⟩ | ⟨only, one, merged⟩
  · rw [empty] at member
    cases member
  · rw [one, mem_singleton] at member
    rwa [member]

theorem MergeOutput.file (output : MergeOutput config dir path contents table) :
    dir[path]? ≠ none := by
  obtain ⟨other, records, file, same⟩ := output.filled
  have located : table.path = some other := by rw [same]; rfl
  rw [← Option.some.inj (located.symm.trans output.path), file]
  exact Option.some_ne_none _

namespace BackgroundSound

variable {options : EngineOptions} {state : SharedEngine} {thread : Nat}
  {compaction : BackgroundCompaction} {added : Option BackgroundCompaction}

variable {core : EngineCore} {table : Table} {name : String}

theorem start (sound : EngineSound options core) :
    BackgroundSound options (.start core) := by
  refine ⟨sound, ?_, ?_, ?_, ?_, ?_, ?_⟩
  · intro _ _ present
    cases present
  · intro _ _ present
    cases present
  · intro _ _ present
    cases present
  · intro _ _ present
    cases present
  · intro _ _ present
    cases present
  · intro _ _ _ _ _ present
    cases present

variable (background : BackgroundSound options state)
include background

theorem merged_of_mem (present : state.compactions thread = some compaction)
    (member : table ∈ compaction.outputs) :
    ∃ replacement ∈ compaction.results, table ∈ replacement.2 ∧ ∃ path,
      MergeOutput options.storage state.core.store.dir path
        (survivor (groupTables compaction.tables replacement.1) compaction.tombstones) table := by
  obtain ⟨replacement, in_results, output⟩ := mem_flatMap.mp member
  obtain ⟨path, written⟩ :=
    background.written thread compaction present replacement in_results
  exact ⟨replacement, in_results, output, path, written.merged_of_mem output⟩

theorem ownFiles (present : state.compactions thread = some compaction) :
    OwnFiles options.storage state.core.store compaction.results := by
  refine ⟨?_, ?_, background.distinct thread compaction present⟩
  · intro replacement member table output
    obtain ⟨path, written⟩ := background.written thread compaction present replacement member
    exact .inl (written.merged_of_mem output).filled
  · intro replacement member table output
    exact background.new thread compaction present table
      (mem_flatMap.mpr ⟨replacement, member, output⟩)

theorem withCore (sound : EngineSound options core)
    (store : core.store = state.core.store)
    (deletions : Nat → Option (String × RangeTombstone))
    (completed : List (String × RangeTombstone)) : BackgroundSound options
      { state with core, deletions, completed } := by
  refine ⟨sound, ?_, ?_, ?_, ?_, background.distinct, background.apart⟩
  · dsimp only
    rw [store]
    exact background.planned
  · dsimp only
    rw [store]
    exact background.captured
  · dsimp only
    rw [store]
    exact background.written
  · dsimp only
    rw [store]
    exact background.new

theorem fits (present : state.compactions thread = some compaction) :
    compaction.Fits options state thread :=
  ⟨background.planned _ _ present, background.captured _ _ present,
    background.written _ _ present, background.new _ _ present,
      background.distinct _ _ present,
    fun _ yours differ => background.apart thread _
      (Ne.symm differ) compaction yours present⟩

theorem set (fitting : ∀ compaction, added = some compaction →
      compaction.Fits options state thread) : BackgroundSound options
      { state with
        compactions := Function.update state.compactions thread added } := by
  have all : ∀ other compaction, update state.compactions thread added other =
      some compaction → compaction.Fits options state other := by
    intro other compaction present
    by_cases here : other = thread
    · subst here
      rw [update_self] at present
      exact fitting compaction present
    · rw [update_of_ne here] at present
      exact background.fits present
  refine ⟨background.sound, fun _ _ present => (all _ _ present).planned,
    fun _ _ present => (all _ _ present).captured,
      fun _ _ present => (all _ _ present).written,
    fun _ _ present => (all _ _ present).new,
      fun _ _ present => (all _ _ present).distinct, ?_⟩
  -- of two threads one is not the one that is set
  intro first second differ mine yours is_mine is_yours table member table' member'
    path located same
  dsimp only at is_mine is_yours
  by_cases there : second = thread
  · have old := update_of_ne (there ▸ differ) added state.compactions ▸ is_mine
    exact (all second yours is_yours).apart first mine differ old table' member' table member
      path same located
  · have old := update_of_ne there added state.compactions ▸ is_yours
    exact (all first mine is_mine).apart second yours
      (Ne.symm differ) old table member table'
      member' path located same

theorem add (current : ∀ compaction, added = some compaction → compaction.generation =
          state.core.store.versions.compactionGeneration ∧
        state.core.store.versions.getTables compaction.cf =
          compaction.tables ∧ compaction.results = []) : BackgroundSound options
      { state with
        compactions := Function.update state.compactions thread added } := by
  apply background.set
  intro compaction new
  obtain ⟨generation, tables, empty⟩ := current compaction new
  have no_outputs : compaction.outputs = [] := by
    rw [BackgroundCompaction.outputs, empty]
    rfl
  exact ⟨generation.le, fun _ => tables, by simp [empty], by simp [no_outputs],
    by simp [no_outputs, DistinctFiles], by simp [no_outputs]⟩

theorem output_path_ne (present : state.compactions thread = some compaction)
    (unused : state.core.store.dir[name]? = none) :
    ∀ table ∈ compaction.outputs, table.path ≠ some name := by
  intro table member located
  obtain ⟨_, _, _, path, merged⟩ := background.merged_of_mem present member
  have same : path = name := Option.some.inj (merged.path.symm.trans located)
  exact merged.file (same ▸ unused)

theorem withDir {dir : SstDir} (unused : state.core.store.dir[name]? = none)
    (same : ∀ other, other ≠ name → dir[other]? = state.core.store.dir[other]?)
    (whole : StoreSound options.storage { state.core.store with dir }) :
    BackgroundSound options
      { state with
        core := { state.core with store := { state.core.store with dir } } } := by
  refine ⟨⟨whole, background.sound.memory.withStore _⟩, background.planned,
    background.captured, ?_, background.new, background.distinct, background.apart⟩
  intro thread compaction present replacement member
  obtain ⟨path, written⟩ := background.written thread compaction present replacement member
  rcases written with nothing | ⟨table, one, merged⟩
  · exact ⟨path, .inl nothing⟩
  · refine ⟨path, .inr ⟨table, one, merged.of_same_file (same path ?_)⟩⟩
    rintro rfl
    exact merged.file unused

theorem grown (compaction : BackgroundCompaction) (clock : CompactionClock)
    (group : List Nat) (unused : state.core.store.dir[outputName compaction.strategy
      compaction.tables group clock]? = none) : BackgroundSound options
      { state with
        core := { state.core with
          store := { state.core.store with
            dir := (compact compaction.strategy options.storage
              state.core.store.dir clock group compaction.tables
              compaction.tombstones).2 } } } :=
  background.withDir unused (fun _ differ => compact_dir _ _ _ _ _ _ _ differ)
    (background.sound.store.merged _ _ _ _ _ unused)

theorem push (present : state.compactions thread = some compaction)
    {after : BackgroundCompaction} {results : List Replacement}
    (plan : after.cf = compaction.cf ∧ after.tables = compaction.tables ∧
      after.tombstones = compaction.tombstones ∧
        after.generation = compaction.generation)
    (pushed : after.results = compaction.results ++ results)
    (written : ∀ replacement ∈ results, ∃ path,
      GroupOutput options.storage state.core.store.dir path
        (survivor (groupTables compaction.tables replacement.1)
          compaction.tombstones) replacement.2)
    (new : ∀ table ∈ results.flatMap (·.2), ∀ path, table.path = some path →
      (∀ cf, ∀ old ∈ state.core.store.versions.getTables cf, old.path ≠ some path) ∧
      ∀ other yours, state.compactions other = some yours →
        ∀ table' ∈ yours.outputs, table'.path ≠ some path)
    (distinct : DistinctFiles (results.flatMap (·.2))) : BackgroundSound options
      { state with
        compactions := Function.update state.compactions thread (some after) } := by
  obtain ⟨same_cf, same_tables, same_tombstones, same_generation⟩ := plan
  have outputs : after.outputs = compaction.outputs ++ results.flatMap (·.2) := by
    rw [BackgroundCompaction.outputs, pushed, flatMap_append]
    rfl
  have before := background.fits present
  apply background.set
  rintro _ ⟨⟩
  refine ⟨same_generation ▸ before.planned, ?_, ?_, ?_, ?_, ?_⟩
  · rw [same_generation, same_cf, same_tables]
    exact before.captured
  · rw [pushed, same_tables, same_tombstones]
    exact forall_mem_append.mpr ⟨before.written, written⟩
  · rw [outputs]
    exact forall_mem_append.mpr ⟨before.new, fun table last path located =>
      (new table last path located).1⟩
  · rw [outputs, DistinctFiles, pairwise_append]
    refine ⟨before.distinct, distinct, ?_⟩
    intro table old table' last path located same
    exact (new table' last path same).2 thread compaction present table old located
  · intro other yours differ is_theirs
    rw [outputs]
    exact forall_mem_append.mpr ⟨before.apart other yours differ is_theirs,
      fun table last table' member path located =>
        (new table last path located).2 other yours is_theirs table' member⟩

theorem merge {clock : CompactionClock}
    (fresh : ∀ compaction group, state.compactions thread = some compaction →
      compaction.groups.head? = some group →
      state.core.store.dir[outputName compaction.strategy compaction.tables group clock]? = none) :
    BackgroundSound options (state.merge options thread clock) := by
  unfold SharedEngine.merge
  split
  · exact background
  next compaction present =>
    have outcome := compaction.mergeNext_outcome options.storage state.core.store.dir clock
    generalize compaction.mergeNext options.storage state.core.store.dir clock =
      result at outcome ⊢
    cases outcome with
    | finished _ =>
      dsimp only
      rw [← present, update_eq_self]
      exact background
    | merged group groups first outputs dir done =>
      have unused := fresh compaction group present (by rw [first]; rfl)
      have grown := background.grown compaction clock group unused
      rw [done] at grown
      have output := compact_ok done
      refine grown.push present ⟨rfl, rfl, rfl, rfl⟩ rfl ?_ ?_ ?_
      · intro replacement member
        rw [mem_singleton.mp member]
        exact ⟨_, output⟩
      · intro table member path located
        rw [flatMap_singleton] at member
        have named := Option.some.inj (located.symm.trans (output.merged_of_mem member).path)
        rw [named]
        exact ⟨fun cf old listed =>
          background.sound.store.path_ne unused listed,
          fun other yours is_there =>
            background.output_path_ne is_there unused⟩
      · rw [flatMap_singleton]
        rcases output with ⟨empty, _⟩ | ⟨only, one, _⟩
        · rw [empty]
          exact List.Pairwise.nil
        · rw [one]
          exact pairwise_singleton _ _
    | failed group groups first error dir fails =>
      have unused := fresh compaction group present (by rw [first]; rfl)
      have grown := background.grown compaction clock group unused
      rw [fails] at grown
      exact grown.push present ⟨rfl, rfl, rfl, rfl⟩
        (append_nil _).symm (by simp) (by simp) List.Pairwise.nil

theorem install : BackgroundSound options (state.install thread) := by
  have dropped : ∀ {state : SharedEngine}, BackgroundSound options state →
      BackgroundSound options { state with
        compactions := update state.compactions thread none } := by
    intro state background
    apply background.add
    intro compaction none_added
    cases none_added
  unfold SharedEngine.install
  split
  · exact background
  next compaction present =>
    split
    · exact background
    split
    · exact dropped background
    next same_generation =>
      have own := background.ownFiles present
      have others : ∀ other yours, update state.compactions thread
          none other = some yours → other ≠ thread ∧
            state.compactions other = some yours := by
        intro other yours is_there
        rw [update_apply] at is_there
        split at is_there
        · cases is_there
        · next differ => exact ⟨differ, is_there⟩
      refine ⟨⟨background.sound.store.install own compaction.cf,
        background.sound.memory.withStore _⟩, ?_, ?_, ?_, ?_, ?_, ?_⟩
      · intro other yours is_there
        have before := background.planned other yours (others other yours is_there).2
        rcases atomicReplaceGroups_cases state.core.store.versions
          compaction.cf compaction.results with same | ⟨_, moved⟩
        · exact before.trans_eq (congrArg (·.compactionGeneration) same).symm
        · exact before.trans ((Nat.le_succ _).trans_eq
            (congrArg (·.compactionGeneration) moved).symm)
      · intro other yours is_there latest
        have is_theirs := (others other yours is_there).2
        rcases atomicReplaceGroups_cases state.core.store.versions
          compaction.cf compaction.results with same | ⟨_, moved⟩
        · have tables := background.captured other yours is_theirs
            (latest.trans (congrArg (·.compactionGeneration) same))
          exact (congrArg (·.getTables yours.cf) same).trans tables
        · have before := background.planned other yours is_theirs
          have after : _ = state.core.store.versions.compactionGeneration + 1 :=
            latest.trans (congrArg (·.compactionGeneration) moved)
          omega
      · intro other yours is_there replacement member
        have is_theirs := (others other yours is_there).2
        obtain ⟨path, written⟩ := background.written other yours is_theirs replacement member
        rcases written with nothing | ⟨table, one, merged⟩
        · exact ⟨path, .inl nothing⟩
        · refine ⟨path, .inr ⟨table, one, merged.of_same_file ?_⟩⟩
          apply dir_install
          intro index old at_index _
          apply background.new other yours is_theirs table ?_ path merged.path
            compaction.cf old (mem_of_getElem? at_index)
          exact mem_flatMap.mpr ⟨replacement, member, by rw [one]; simp⟩
      · intro other yours is_there table member path located cf old listed
        obtain ⟨differ, is_theirs⟩ := others other yours is_there
        by_cases here : compaction.cf = cf
        · subst here
          rw [getTables_install] at listed
          rcases mem_replaceGroups listed with
            ⟨index, at_index, _⟩ | ⟨replacement, in_results, output⟩
          · exact background.new other yours is_theirs table member path
              located compaction.cf old (mem_of_getElem? at_index)
          · exact background.apart other thread differ yours compaction
              is_theirs present table member old
              (mem_flatMap.mpr ⟨replacement, in_results, output⟩) path located
        · have tables := getTables_atomicReplaceGroups_ne here
            state.core.store.versions compaction.results
          exact background.new other yours is_theirs table member path located
            cf old (tables ▸ listed)
      · intro other yours is_there
        exact background.distinct other yours (others other yours is_there).2
      · intro first second differ mine yours is_mine is_yours
        exact background.apart first second differ mine yours
          (others first mine is_mine).2 (others second yours is_yours).2

/-- A table after an installation is an old one, with its file as it was, or
an output. -/
theorem installed_cases (present : state.compactions thread = some compaction)
    {cf : String} (member : table ∈ (state.core.store.install compaction.cf
      compaction.results).versions.getTables cf) :
    (table ∈ state.core.store.versions.getTables cf ∧
      ∀ path, table.path = some path → (state.core.store.install compaction.cf
          compaction.results).dir[path]? = state.core.store.dir[path]?) ∨
    (compaction.cf = cf ∧
      ∃ replacement ∈ compaction.results, ∃ path, MergeOutput options.storage
        (state.core.store.install compaction.cf compaction.results).dir path
        (survivor (groupTables compaction.tables replacement.1) compaction.tombstones) table) := by
  have store := background.sound.store
  by_cases here : compaction.cf = cf
  · subst here
    rw [getTables_install] at member
    rcases mem_replaceGroups member with
      ⟨index, at_index, stays⟩ | ⟨replacement, in_results, output⟩
    · refine .inl ⟨mem_of_getElem? at_index, ?_⟩
      intro path located
      apply dir_install
      intro position old at_position gone
      apply (store.distinct compaction.cf).path_ne at_index at_position ?_ located
      rintro rfl
      rw [stays] at gone
      cases gone
    · obtain ⟨path, written⟩ :=
        background.written thread compaction present replacement in_results
      have merged := written.merged_of_mem output
      refine .inr ⟨rfl, replacement, in_results, path, merged.of_same_file ?_⟩
      apply dir_install
      intro position old at_position _
      exact background.new thread compaction present table
        (mem_flatMap.mpr ⟨replacement, in_results, output⟩) path
        merged.path compaction.cf old (mem_of_getElem? at_position)
  · have tables := getTables_atomicReplaceGroups_ne here
      state.core.store.versions compaction.results
    have old : table ∈ state.core.store.versions.getTables cf := tables ▸ member
    refine .inl ⟨old, ?_⟩
    intro path located
    apply dir_install
    intro position owner at_position _
    exact store.apart cf compaction.cf (Ne.symm here) table old owner
      (mem_of_getElem? at_position) path located

theorem plan (strategy : CompactionStrategy) (cf : String) :
    BackgroundSound options (state.plan options thread strategy cf) := by
  unfold SharedEngine.plan
  split
  · exact background
  · apply background.add
    intro compaction planned
    rw [BackgroundCompaction.eq_of_plan planned]
    exact ⟨rfl, rfl, rfl⟩

theorem logRange (timestamp logged : Nanos) (nonce : Nonce) (cf : String)
    (start stop : Bytes) :
    BackgroundSound options
      (state.logRange thread timestamp logged nonce cf start stop) := by
  unfold SharedEngine.logRange
  split
  · exact background
  · have sound : EngineSound options ((state.core.walHandle cf).writeRecord cf
        { nonce, record :=
          { LogRecord.rangeTombstone logged start stop with
            columnFamily := some cf } }) :=
      ⟨background.sound.store,
        (background.sound.memory.walHandle cf).writeRecord cf (fun _ => rfl)⟩
    exact background.withCore sound rfl _ _

theorem applyRange : BackgroundSound options (state.applyRange thread) := by
  unfold SharedEngine.applyRange
  split
  · exact background
  · next cf range _ =>
    have sound : EngineSound options (state.core.insertRange cf range) :=
      ⟨background.sound.store, background.sound.memory.insertRange cf range⟩
    exact background.withCore sound rfl _ _

end BackgroundSound

end ApexStore
