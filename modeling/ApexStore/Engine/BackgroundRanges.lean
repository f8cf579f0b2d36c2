import ApexStore.Engine.BackgroundCompaction

/-!
# Range deletions beside background compactions

A merge gives the values it keeps new timestamps, and it knows only the range
tombstones of its plan.  A range deletion stays in force if it finds nothing
newer than itself and no compaction under way with a value of a deleted key
(`range_deletions_outlive_background_compactions`).
-/

namespace ApexStore

open VersionSet EngineCore SharedEngine List Option

variable {key : Bytes} {clock : CompactionClock} {state : SharedEngine} {limit : Nanos}

/-- Nothing of a key is left by the merges of a compaction. -/
def BackgroundCompaction.Forgets (compaction : BackgroundCompaction) (key : Bytes) :
    Prop :=
  ∀ group ∈ compaction.allGroups,
    survivor (groupTables compaction.tables group) compaction.tombstones key = none

/-- No merge of the compaction finds a value of the key that the range
tombstones of its plan do not cover. -/
def BackgroundCompaction.Spares (compaction : BackgroundCompaction) (key : Bytes) :
    Prop :=
  isKeyInRangeTombstones key compaction.tombstones = true ∨ ∀ group ∈ compaction.allGroups,
    ∀ table ∈ groupTables compaction.tables group, ∀ value,
      table.data[key]? = some value → value = []

theorem BackgroundCompaction.Spares.forgets {compaction : BackgroundCompaction}
    (spares : compaction.Spares key) : compaction.Forgets key := by
  intro group member
  apply eq_none_iff_forall_ne_some.mpr
  intro value survives
  obtain ⟨newest, nonempty, uncovered⟩ := survivor_eq_some.mp survives
  rcases spares with covered | empty
  · rw [covered] at uncovered
    cases uncovered
  · obtain ⟨table, listed, held⟩ := exists_of_findSome?_eq_some newest
    exact absurd (empty group member table (mem_reverse.mp listed) value held) nonempty

/-- The condition on the steps: outputs get new names, and a range deletion
that is applied finds only older versions of its keys, and no compaction of
the family that can still be installed and has a value of them. -/
def BackgroundOp.Safe (state : SharedEngine) : BackgroundOp → Prop
  | merge thread clock =>
    ∀ compaction group, state.compactions thread = some compaction →
      compaction.groups.head? = some group →
      state.core.store.dir[outputName compaction.strategy compaction.tables group clock]? = none
  | applyRange thread => ∀ cf range, state.deletions thread = some (cf, range) →
      ∀ key, range.covers key = true →
        (∀ record, state.core.memtableRecord cf key = some record →
        record.timestamp < range.timestamp) ∧
      (∀ table ∈ state.core.store.versions.getTables cf, ∀ record,
        table.version state.core.store.dir key = some record →
          record.timestamp < range.timestamp) ∧
      ∀ other compaction, state.compactions other = some compaction →
        compaction.cf = cf →
        compaction.generation = state.core.store.versions.compactionGeneration →
        compaction.Spares key
  | _ => True

/-- What keeps a deleted key from being read: the range tombstone is known,
all versions are older, and no compaction brings one back. -/
structure KeyHidden (state : SharedEngine) (cf : String)
    (range : RangeTombstone) (key : Bytes) : Prop where
  known : range ∈ state.core.rangesOf cf
  memtable : ∀ record, state.core.memtableRecord cf key = some record →
    record.timestamp < range.timestamp
  tables : ∀ table ∈ state.core.store.versions.getTables cf, ∀ record,
    table.version state.core.store.dir key = some record → record.timestamp < range.timestamp
  pending : ∀ thread compaction, state.compactions thread = some compaction →
    compaction.cf = cf →
    compaction.generation = state.core.store.versions.compactionGeneration →
      compaction.Forgets key

namespace KeyHidden

variable {options : EngineOptions} {state : SharedEngine} {cf : String}
  {range : RangeTombstone} {key : Bytes} {thread : Nat}

variable (hidden : KeyHidden state cf range key)
include hidden

theorem read (covers : range.covers key = true)
    (sound : EngineSound options state.core)
    (now : Nanos) : (state.core.getCf now cf key).1 = .ok none := by
  obtain ⟨newest, covering, later⟩ := le_maxCovering (mem_append_left _ hidden.known) covers
  have covered : state.core.coveringRangeTombstoneTs cf key = some newest := by
    rw [coveringRangeTombstoneTs_eq]
    exact covering
  rw [getCf_eq sound.store, answer_of_older covered]
  intro record found
  refine lt_of_lt_of_le ?_ later
  rcases newestRecord_cases found with held | ⟨table, entry⟩
  · exact hidden.memtable record held
  · obtain ⟨owner, member, version⟩ := exists_of_findSome?_eq_some entry
    obtain ⟨other, held, same⟩ := map_eq_some_iff.mp version
    cases same
    exact hidden.tables table (mem_reverse.mp member) record held

theorem plan (covers : range.covers key = true) (strategy : CompactionStrategy)
    (family : String) :
    KeyHidden (state.plan options thread strategy family) cf range key := by
  unfold SharedEngine.plan
  split
  · exact hidden
  · refine ⟨hidden.known, hidden.memtable, hidden.tables, ?_⟩
    intro other compaction present same_family current
    dsimp only at present
    rw [Function.update_apply] at present
    split at present
    · rw [BackgroundCompaction.eq_of_plan present] at same_family ⊢
      subst same_family
      apply BackgroundCompaction.Spares.forgets
      left
      exact any_eq_true.mpr ⟨range, hidden.known, covers⟩
    · exact hidden.pending other compaction present same_family current

theorem merge (background : BackgroundSound options state)
    (fresh : ∀ compaction group, state.compactions thread = some compaction →
      compaction.groups.head? = some group →
      state.core.store.dir[outputName compaction.strategy compaction.tables group clock]? = none) :
    KeyHidden (state.merge options thread clock) cf range key := by
  unfold SharedEngine.merge
  split
  · exact hidden
  next compaction present =>
    -- the tables keep their files, and the groups of the plan stay the same
    have step : ∀ (after : BackgroundCompaction) (dir : SstDir),
        (∀ table ∈ state.core.store.versions.getTables cf, ∀ path, table.path = some path →
          dir[path]? = state.core.store.dir[path]?) →
        after.cf = compaction.cf ∧ after.tables = compaction.tables ∧
          after.tombstones = compaction.tombstones ∧
            after.generation = compaction.generation →
        (∀ group ∈ after.allGroups, group ∈ compaction.allGroups) →
        KeyHidden { state with
          core := { state.core with store := { state.core.store with dir } }
          compactions := Function.update state.compactions thread after }
          cf range key := by
      rintro after dir files ⟨same_cf, same_tables, same_tombstones, same_generation⟩ groups
      refine ⟨hidden.known, hidden.memtable, ?_, ?_⟩
      · intro table member record held
        rw [Table.version_congr (files table member)] at held
        exact hidden.tables table member record held
      · intro other yours is_there family current
        dsimp only at is_there
        rw [Function.update_apply] at is_there
        split at is_there
        · cases is_there
          have forgets := hidden.pending thread compaction present
            (same_cf.symm.trans family) (same_generation.symm.trans current)
          intro group member
          rw [same_tables, same_tombstones]
          exact forgets group (groups group member)
        · exact hidden.pending other yours is_there family current
    have outcome := compaction.mergeNext_outcome options.storage state.core.store.dir clock
    generalize compaction.mergeNext options.storage state.core.store.dir clock =
      result at outcome ⊢
    have files : ∀ group, compaction.groups.head? = some group →
        ∀ table ∈ state.core.store.versions.getTables cf, ∀ path, table.path = some path →
          (compact compaction.strategy options.storage state.core.store.dir
            clock group compaction.tables compaction.tombstones).2[path]? =
              state.core.store.dir[path]? := by
      intro group first table member path located
      apply compact_dir
      rintro rfl
      exact background.sound.store.path_ne
        (fresh compaction group present first) member located
    cases outcome with
    | finished _ =>
      exact step compaction _ (fun _ _ _ _ => rfl) ⟨rfl, rfl, rfl, rfl⟩
        (fun _ member => member)
    | merged group groups first outputs dir done =>
      have kept := files group (by rw [first]; rfl)
      rw [done] at kept
      refine step _ dir kept ⟨rfl, rfl, rfl, rfl⟩ ?_
      intro other member
      simp only [BackgroundCompaction.allGroups, first, map_append,
        mem_append, mem_cons, map_cons] at member ⊢
      tauto
    | failed group groups first error dir fails =>
      have kept := files group (by rw [first]; rfl)
      rw [fails] at kept
      refine step _ dir kept ⟨rfl, rfl, rfl, rfl⟩ ?_
      intro other member
      simp only [BackgroundCompaction.allGroups, first] at member ⊢
      tauto

theorem install (background : BackgroundSound options state) :
    KeyHidden (state.install thread) cf range key := by
  have others : ∀ other yours, Function.update state.compactions thread none
      other = some yours → state.compactions other = some yours := by
    intro other yours is_there
    rw [Function.update_apply] at is_there
    split at is_there
    · cases is_there
    · exact is_there
  unfold SharedEngine.install
  split
  · exact hidden
  next compaction present =>
    split
    · exact hidden
    split
    · exact ⟨hidden.known, hidden.memtable, hidden.tables,
        fun other yours is_there =>
          hidden.pending other yours (others other yours is_there)⟩
    next same_generation =>
      have current := not_not.mp same_generation
      refine ⟨hidden.known, hidden.memtable, ?_, ?_⟩
      · intro table member record held
        rcases background.installed_cases present member with
          ⟨old, same⟩ | ⟨family, replacement, in_results, path, merged⟩
        · rw [Table.version_congr same] at held
          exact hidden.tables table old record held
        · have forgets := hidden.pending thread compaction present family current
          rw [merged.version_eq_none (forgets replacement.1
            (mem_append_right _ (mem_map_of_mem in_results)))] at held
          cases held
      · intro other yours is_there family latest
        have is_theirs := others other yours is_there
        rcases atomicReplaceGroups_cases state.core.store.versions
          compaction.cf compaction.results with same | ⟨_, moved⟩
        · exact hidden.pending other yours is_theirs family
            (latest.trans (congrArg (·.compactionGeneration) same))
        · have before := background.planned other yours is_theirs
          have after : _ = state.core.store.versions.compactionGeneration + 1 :=
            latest.trans (congrArg (·.compactionGeneration) moved)
          omega

theorem withCore (core : EngineCore) (store : core.store = state.core.store)
    (ranges : ∀ known ∈ state.core.rangesOf cf, known ∈ core.rangesOf cf)
    (memtable : core.memtableRecord cf key = state.core.memtableRecord cf key)
    (deletions : Nat → Option (String × RangeTombstone))
    (completed : List (String × RangeTombstone)) :
    KeyHidden { state with core, deletions, completed } cf range key := by
  refine ⟨ranges range hidden.known, ?_, ?_, ?_⟩
  · dsimp only
    rw [memtable]
    exact hidden.memtable
  · dsimp only
    rw [store]
    exact hidden.tables
  · dsimp only
    rw [store]
    exact hidden.pending

end KeyHidden

/-- What holds along a run. -/
structure RangesHidden (options : EngineOptions) (state : SharedEngine) : Prop where
  background : BackgroundSound options state
  hidden : ∀ cf range, (cf, range) ∈ state.completed →
    ∀ key, range.covers key = true → KeyHidden state cf range key

theorem RangesHidden.step {options : EngineOptions}
    (ranges : RangesHidden options state)
    {op : BackgroundOp} (safe : op.Safe state) :
    RangesHidden options (op.step options state) := by
  have background := ranges.background
  cases op with
  | plan thread strategy family =>
    refine ⟨background.plan strategy family, ?_⟩
    intro cf range completed key covers
    rw [BackgroundOp.step, completed_plan] at completed
    exact (ranges.hidden cf range completed key covers).plan covers strategy family
  | merge thread clock =>
    refine ⟨background.merge safe, ?_⟩
    intro cf range completed key covers
    rw [BackgroundOp.step, completed_merge] at completed
    exact (ranges.hidden cf range completed key covers).merge background safe
  | install thread =>
    refine ⟨background.install, ?_⟩
    intro cf range completed key covers
    rw [BackgroundOp.step, completed_install] at completed
    exact (ranges.hidden cf range completed key covers).install background
  | logRange thread timestamp logged nonce family start stop =>
    refine ⟨background.logRange timestamp logged nonce family start stop, ?_⟩
    unfold BackgroundOp.step logRange
    dsimp only
    split
    · exact ranges.hidden
    · intro cf range completed key covers
      exact (ranges.hidden cf range completed key covers).withCore
        ((state.core.walHandle family).writeRecord family _) rfl
          (fun _ known => known) rfl _ _
  | applyRange thread =>
    refine ⟨background.applyRange, ?_⟩
    unfold BackgroundOp.step applyRange
    dsimp only
    split
    · exact ranges.hidden
    next family new logged =>
      intro cf range completed key covers
      have known : ∀ old ∈ state.core.rangesOf cf,
          old ∈ (state.core.insertRange family new).rangesOf cf := by
        intro old member
        rw [rangesOf_insertRange]
        exact mem_append_left _ member
      have memtable := memtableRecord_insertRange state.core family cf new key
      rcases mem_append.mp completed with before | last
      · exact (ranges.hidden cf range before key covers).withCore
          (state.core.insertRange family new) rfl known memtable _ _
      · obtain ⟨rfl, rfl⟩ := Prod.mk.inj (mem_singleton.mp last)
        obtain ⟨older, tables, pending⟩ := safe cf range logged key covers
        refine ⟨?_, ?_, tables, ?_⟩
        · change range ∈ (state.core.insertRange cf range).rangesOf cf
          rw [rangesOf_insertRange, if_pos rfl]
          exact mem_append_right _ (mem_singleton_self _)
        · intro record held
          exact older record (memtable.symm.trans held)
        · intro other compaction present same_family current
          exact (pending other compaction present same_family current).forgets

/-- From every reachable state of the engine, over every interleaving of
background compactions and range deletions in which outputs get new names and
every range deletion, when it is applied, finds only older versions of its
keys and no compaction of the family under way with a value of them: the keys
of a completed range deletion are not read in any later state. -/
theorem range_deletions_outlive_background_compactions
    {options : EngineOptions} (_ : options.storage.Legible) {core : EngineCore}
    (reachable : Reachable options core) {ops : List BackgroundOp}
    (run : Guarded (BackgroundOp.step options) BackgroundOp.Safe
      (.start core) ops) :
    let state := ops.foldl (BackgroundOp.step options) (.start core)
    ∀ cf range, (cf, range) ∈ state.completed →
      ∀ key, range.covers key = true →
      ∀ now, (state.core.getCf now cf key).1 = .ok none := by
  intro state cf range completed key covers now
  have start : RangesHidden options (.start core) :=
    ⟨.start reachable.sound, by intro _ _ none_completed; cases none_completed⟩
  have preserved : ∀ state op, RangesHidden options state → BackgroundOp.Safe state op →
      RangesHidden options (BackgroundOp.step options state op) :=
    fun _ _ ranges safe => ranges.step safe
  have ranges : RangesHidden options state := Guarded.invariant preserved run start
  exact (ranges.hidden cf range completed key covers).read covers ranges.background.sound now

/-- Two flushed tables; compactions start at two tables. -/
def twoTables : EngineOptions × EngineCore :=
  let options := { EngineOptions.default with compactionThreshold := 2 }
  (options, [EngineOp.put (.ticking 1) "default" [7] [1] none,
      .flush { now := 10, stamp := fun _ => 10 } "default",
      .put (.ticking 11) "default" [9] [2] none,
      .flush { now := 20, stamp := fun _ => 20 } "default"].foldl (EngineOp.step options) .empty)

theorem reachable_twoTables :
    Reachable twoTables.1 twoTables.2 := .of_check (by decide +kernel)

/-- All records in files are older than an instant. -/
def SstDir.olderThan (limit : Nanos) (dir : SstDir) : Bool :=
  dir.toList.all (fun entry =>
    match entry.2 with
    | .table records => records.toList.all (fun held =>
      decide (held.2.timestamp < limit))
    | .unfinished => true)

theorem SstDir.olderThan_record {dir : SstDir} (older : dir.olderThan limit = true)
    {name : String}
    {records : ByteMap LogRecord} (file : dir[name]? = some (.table records))
    {record : LogRecord}
    (held : records[key]? = some record) : record.timestamp < limit := by
  have in_file :=
    all_eq_true.mp older (name, .table records) ((NameMap.mem_toList _ _ _).mpr file)
  have in_records :=
    all_eq_true.mp in_file (key, record) ((ByteMap.mem_toList _ _ _).mpr held)
  exact of_decide_eq_true in_records

theorem StoreSound.version_older {config : StorageConfig} {store : TableState}
    (sound : StoreSound config store) (older : store.dir.olderThan limit = true)
    {cf : String} (onDisk : (store.versions.getTables cf).all (·.path.isSome) = true) :
    ∀ table ∈ store.versions.getTables cf, ∀ (key : Bytes)
      (record : LogRecord), table.version store.dir key = some record →
      record.timestamp < limit := by
  intro table member key record held
  obtain ⟨path, located⟩ := isSome_iff_exists.mp (all_eq_true.mp onDisk table member)
  obtain ⟨records, file, versions⟩ := (sound.produced cf table member).file located
  rw [versions] at held
  exact SstDir.olderThan_record older file held

theorem BackgroundOp.safe_merge {thread : Nat}
    (unused : (state.compactions thread).all (fun compaction =>
      compaction.groups.head?.all
        (fun group => (state.core.store.dir[outputName compaction.strategy
          compaction.tables group clock]?).isNone)) = true) :
    (BackgroundOp.merge thread clock).Safe state := by
  intro compaction group present first
  rw [present, all_some, first] at unused
  exact isNone_iff_eq_none.mp unused

/-- A range is deleted before the compaction of its keys is planned. -/
theorem range_deletion_outlives_later_compaction :
    let ops : List BackgroundOp :=
      [.logRange 0 30 31 (Vector.replicate 12 0) "default" [7] [8],
        .applyRange 0, .plan 0 (.sizeTiered .default) "default",
        .merge 0 { timestamp := 40, stamp := fun _ => 40 }, .install 0]
    let state := ops.foldl (BackgroundOp.step twoTables.1)
      (.start twoTables.2)
    (state.core.store.versions.getTables "default").length = 1 ∧
    ∀ now, (state.core.getCf now "default" [7]).1 = .ok none := by
  intro ops state
  have versions := @StoreSound.version_older 30 _ _
    reachable_twoTables.sound.store (by decide +kernel) "default" (by decide +kernel)
  have no_memtable : twoTables.2.memtablesOf "default" = [] := by
    decide +kernel
  have run : Guarded (BackgroundOp.step twoTables.1) BackgroundOp.Safe
      (.start twoTables.2) ops := by
    refine ⟨trivial, ?_, trivial, BackgroundOp.safe_merge (by decide +kernel),
      trivial, trivial⟩
    intro cf range logged key _
    obtain ⟨rfl, rfl⟩ := Prod.mk.inj (Option.some.inj logged)
    refine ⟨?_, fun table member record => versions table member key record, ?_⟩
    · intro record held
      have missing : twoTables.2.memtableRecord "default" key = none := by
        rw [memtableRecord, no_memtable]
        rfl
      cases missing.symm.trans held
    · intro other compaction present
      cases present
  refine ⟨by decide +kernel, range_deletions_outlive_background_compactions
    (by decide) reachable_twoTables run "default"
    { startKey := [7], endKey := [8], timestamp := 30 } ?_ [7] (by decide)⟩
  simp only [ops, foldl_cons, foldl_nil, BackgroundOp.step, completed_install,
    completed_merge]
  exact mem_singleton_self _

/-- A compaction is planned before the range is deleted and merges after it:
the merge gives the deleted value a newer timestamp, and the value is back. -/
theorem background_compaction_revives_deleted_range :
    let ops : List BackgroundOp :=
      [.plan 0 (.sizeTiered .default) "default",
        .logRange 0 30 31 (Vector.replicate 12 0) "default" [7] [8],
        .applyRange 0,
        .merge 0 { timestamp := 40, stamp := fun _ => 40 }, .install 0]
    let range : RangeTombstone :=
      { startKey := [7], endKey := [8], timestamp := 30 }
    let deleted := (ops.take 3).foldl (BackgroundOp.step twoTables.1)
      (.start twoTables.2)
    let state := ops.foldl (BackgroundOp.step twoTables.1)
      (.start twoTables.2)
    Reachable twoTables.1 twoTables.2 ∧
    ("default", range) ∈ deleted.completed ∧ range.covers [7] = true ∧
    (deleted.core.getCf 50 "default" [7]).1 = .ok none ∧
    (state.core.getCf 50 "default" [7]).1 = .ok (some [1]) := by
  intro ops range deleted state
  have planned := @BackgroundSound.plan _ _ 0
    (.start reachable_twoTables.sound) (.sizeTiered .default) "default"
  have applied : BackgroundSound twoTables.1 deleted := @BackgroundSound.applyRange _ _ 0
      (@BackgroundSound.logRange _ _ 0 planned 30 31 (Vector.replicate 12 0) "default" [7] [8])
  have installed : BackgroundSound twoTables.1 state :=
    @BackgroundSound.install _ _ 0 (@BackgroundSound.merge _ _ 0 applied
      { timestamp := 40, stamp := fun _ => 40 }
        (BackgroundOp.safe_merge (by decide +kernel)))
  refine ⟨reachable_twoTables, mem_singleton_self _, by decide, ?_, ?_⟩
  · rw [getCf_eq_versions applied.sound.store]
    decide +kernel
  · rw [getCf_eq_versions installed.sound.store]
    decide +kernel

end ApexStore
