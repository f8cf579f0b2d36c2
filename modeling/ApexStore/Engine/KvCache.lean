import ApexStore.Engine.CompactionOrder
import ApexStore.Engine.CompactionRuns
import ApexStore.Engine.Lookup

/-!
# The value cache

The operations of the version set on one family, as steps.  The cache stays
consistent with the tables, and `get` returns what it would return with an
empty cache, as long as `remove_and_add_table`, which does not clear the
cache, meets an empty one, and every key that is read has neither an empty
live value nor an expired one in the files (`kv_cache_transparent`).
-/

namespace ApexStore

open VersionSet Table

inductive CacheOp where
  | addTable (table : Table)
  | atomicReplace (indices : List Nat) (newTables : List Table)
  | atomicReplaceGroups (groups : List Replacement)
  | removeAndAddTable (table : Table)
  | drainTables
  | get (now : Nanos) (key : Bytes)
  /-- The cache drops the entries of some keys. -/
  | evict (dropped : Bytes → Bool)
  /-- Files are written or removed. -/
  | disk (dir : SstDir)

def CacheOp.step (cf : String) (state : TableState) : CacheOp → TableState
  | addTable table =>
    { state with versions := state.versions.addTable cf table }
  | atomicReplace indices newTables =>
    { state with
      versions := (state.versions.atomicReplace cf indices newTables).2 }
  | atomicReplaceGroups groups =>
    { state with
      versions := (state.versions.atomicReplaceGroups cf groups).2 }
  | removeAndAddTable table =>
    { state with versions := state.versions.removeAndAddTable cf table }
  | drainTables =>
    { state with versions := (state.versions.drainTables cf).2 }
  | get now key =>
    { state with versions := (state.versions.get state.dir now cf key).2 }
  | evict dropped =>
    { state with
      versions := { state.versions with
        kvCache := state.versions.kvCache.filter
          (fun key _ => !dropped key) } }
  | disk dir => { state with dir }

/-- The live versions of the key in the files of the family have not expired
and are not empty, and the files give back all their entries. -/
structure PlainKey (cf : String) (state : TableState) (now : Nanos) (key : Bytes) :
    Prop where
  legible : state.dir.legible = true
  unexpired : ∀ table ∈ state.versions.getTables cf, table.Unexpired state.dir now key
  nonempty : ∀ table ∈ state.versions.getTables cf, table.NoEmptyValue state.dir key

/-- The condition on the steps of a run.  The last case is no condition on the
version set: files of tables in use do not change. -/
def CacheOp.Safe (cf : String) (state : TableState) : CacheOp → Prop
  | removeAndAddTable _ => state.versions.kvCache = ∅
  | get now key => PlainKey cf state now key
  | disk dir => ∀ table ∈ state.versions.getTables cf, ∀ path,
      table.path = some path → dir[path]? = state.dir[path]?
  | _ => True

/-- Cached values are not empty, and the tables have them too, as long as
nothing expires. -/
def CacheConsistent (cf : String) (state : TableState) : Prop :=
  ∀ key value, state.versions.kvCache[key]? = some value → value ≠ [] ∧
    ∀ now, (∀ table ∈ state.versions.getTables cf, table.Unexpired state.dir now key) →
      state.versions.lookup state.dir now cf key = some value

variable {cf : String} {state : TableState} {now : Nanos} {key : Bytes}

theorem CacheConsistent.of_empty (empty : state.versions.kvCache = ∅) :
    CacheConsistent cf state := by
  intro key value cached
  simp [empty] at cached

section

variable (consistent : CacheConsistent cf state)
include consistent

theorem CacheConsistent.get_eq (plain : PlainKey cf state now key) :
    (state.versions.get state.dir now cf key).1 =
      state.versions.lookup state.dir now cf key := by
  cases cached : state.versions.kvCache[key]? with
  | some value =>
    obtain ⟨nonempty, found⟩ := consistent key value cached
    rw [get_of_cached cached, found now plain.unexpired]
    simp [nonempty]
  | none =>
    obtain ⟨_, _, same⟩ := get_of_not_cached cached state.dir now cf
    rw [same]

theorem CacheConsistent.get (plain : PlainKey cf state now key) :
    CacheConsistent cf (CacheOp.step cf state (.get now key)) := by
  intro other value cached
  simp only [CacheOp.step, getTables_get, lookup_get] at cached ⊢
  cases known : state.versions.kvCache[key]? with
  | some found =>
    rw [get_of_cached known] at cached
    exact consistent other value cached
  | none =>
    obtain ⟨quarantined, _, result⟩ := get_of_not_cached known state.dir now cf
    rw [result] at cached
    split at cached
    · next found looked =>
      rw [ByteMap.getElem?_insert] at cached
      split at cached
      · next same_key =>
        -- The value just found is not empty and stays the answer.
        subst same_key
        cases cached
        refine ⟨lookup_ne_nil plain.nonempty looked, ?_⟩
        intro now' unexpired
        rw [lookup_congr_now plain.unexpired unexpired, looked]
      · exact consistent other value cached
    · exact consistent other value cached

theorem CacheConsistent.step {op : CacheOp} (safe : op.Safe cf state) :
    CacheConsistent cf (op.step cf state) := by
  have replaced : ∀ groups, CacheConsistent cf
      { state with
        versions := (state.versions.atomicReplaceGroups cf groups).2 } := by
    intro groups
    rcases atomicReplaceGroups_cases state.versions cf groups with unchanged | ⟨_, cleared⟩
    · rw [unchanged]
      exact consistent
    · exact .of_empty (congrArg (·.kvCache) cleared)
  cases op with
  | addTable table => exact .of_empty rfl
  | atomicReplace indices newTables => exact replaced [(indices, newTables)]
  | atomicReplaceGroups groups => exact replaced groups
  | removeAndAddTable table => exact .of_empty safe
  | drainTables => exact .of_empty rfl
  | get now key => exact consistent.get safe
  | evict dropped =>
    intro key value cached
    apply consistent key value
    simp only [CacheOp.step, Std.ExtTreeMap.getElem?_filter'] at cached
    exact (Option.filter_eq_some_iff.mp cached).1
  | disk dir =>
    intro key value cached
    obtain ⟨nonempty, found⟩ := consistent key value cached
    refine ⟨nonempty, ?_⟩
    intro now unexpired
    have same : ∀ table ∈ state.versions.getTables cf, ∀ path,
        table.path = some path → dir[path]? = state.dir[path]? := safe
    have looked : state.versions.lookup dir now cf key =
        state.versions.lookup state.dir now cf key := lookup_congr_dir same now key
    refine looked.trans (found now ?_)
    intro table member record at_record
    rw [← fileRecord_congr (same table member)] at at_record
    exact unexpired table member record at_record

end

/-- Over every run of operations that meet the condition, starting with an
empty cache, `get` returns what it returns with an empty cache, and the same
again when it is repeated. -/
theorem kv_cache_transparent {start : TableState}
    (empty : start.versions.kvCache = ∅) {ops : List CacheOp}
    (run : Guarded (CacheOp.step cf) (CacheOp.Safe cf) start ops)
    (plain : PlainKey cf (ops.foldl (CacheOp.step cf) start) now key) :
    let state := ops.foldl (CacheOp.step cf) start
    (state.versions.get state.dir now cf key).1 =
        (state.versions.clearCache.get state.dir now cf key).1 ∧
      ((state.versions.get state.dir now cf key).2.get state.dir now cf
        key).1 = (state.versions.get state.dir now cf key).1 := by
  intro state
  have consistent : CacheConsistent cf state :=
    run.invariant (fun _ _ consistent safe => consistent.step safe) (.of_empty empty)
  have cleared : CacheConsistent cf
      { state with versions := state.versions.clearCache } := .of_empty rfl
  have plain_cleared : PlainKey cf
      { state with versions := state.versions.clearCache } now key :=
    ⟨plain.legible, plain.unexpired, plain.nonempty⟩
  have plain_again : PlainKey cf (CacheOp.step cf state (.get now key)) now
      key := by
    refine ⟨plain.legible, ?_, ?_⟩
    · simpa only [CacheOp.step, getTables_get] using plain.unexpired
    · simpa only [CacheOp.step, getTables_get] using plain.nonempty
  have again := (consistent.get plain).get_eq plain_again
  simp only [CacheOp.step, lookup_get] at again
  constructor
  · rw [consistent.get_eq plain]
    exact (cleared.get_eq plain_cleared).symm
  · rw [again, consistent.get_eq plain]

/-! ## Two runs -/

/-- A value is read, read again, and read after the cache dropped it. -/
theorem kv_cache_transparent_for_value :
    let config : StorageConfig :=
      { blockSize := 4096, bloomCollides := fun _ _ => false }
    let table := withContents config "flush_1.sst"
      (singleRecord 1 [7] [1]) 0
    let start : TableState :=
      { versions := VersionSet.new true
        dir := (∅ : SstDir).insert "flush_1.sst" (.table (singleRecord 1 [7] [1])) }
    let ops : List CacheOp :=
      [.addTable table, .get 5 [7], .evict (fun _ => true), .get 6 [7]]
    let state := ops.foldl (CacheOp.step "default") start
    (state.versions.get state.dir 7 "default" [7]).1 =
        (state.versions.clearCache.get state.dir 7 "default" [7]).1 ∧
      ((state.versions.get state.dir 7 "default" [7]).2.get state.dir 7
        "default" [7]).1 =
        (state.versions.get state.dir 7 "default" [7]).1 := by
  intro config table start ops state
  have file : start.dir["flush_1.sst"]? = some (.table (singleRecord 1 [7] [1])) := by
    rw [NameMap.getElem?_insert, if_pos rfl]
  have live : table.LiveContents config start.dir := liveContents_single (by decide) file 0
  have plain : ∀ (other : TableState) (now : Nanos), other.dir = start.dir →
      other.versions.getTables "default" = [table] → PlainKey "default" other now [7] := by
    intro other now same listed
    refine ⟨by rw [same]; decide +kernel, ?_, ?_⟩
    · rw [listed, same]
      intro owner member record found _
      rw [List.mem_singleton.mp member] at found
      simp [LogRecord.isExpiredAt, (live.live [7] record found).2.1]
    · rw [listed, same]
      intro owner member record found _
      rw [List.mem_singleton.mp member] at found
      exact (live.live [7] record found).2.2
  have listed : (start.versions.addTable "default" table).getTables "default" = [table] := by
    rfl
  have run : Guarded (CacheOp.step "default") (CacheOp.Safe "default") start
      ops := by
    refine ⟨trivial, plain _ 5 rfl listed, trivial, plain _ 6 rfl ?_, trivial⟩
    exact (getTables_get _ _ _ _ _ _).trans listed
  have listed_at_end : state.versions.getTables "default" = [table] := by
    refine (getTables_get _ _ _ _ _ _).trans ?_
    exact (getTables_get _ _ _ _ _ _).trans listed
  exact kv_cache_transparent rfl run (plain state 7 rfl listed_at_end)

variable {versions : VersionSet} {dir : SstDir} {value : Bytes}

theorem get_of_lookup (uncached : versions.kvCache[key]? = none)
    (found : versions.lookup dir now cf key = some value) :
    (versions.get dir now cf key).1 = some value ∧
      (versions.get dir now cf key).2.kvCache[key]? = some value := by
  obtain ⟨_, _, result⟩ := get_of_not_cached uncached dir now cf
  rw [result, found]
  exact ⟨rfl, by simp⟩

theorem lookup_single {table : Table} (listed : versions.getTables cf = [table]) :
    versions.lookup dir now cf key =
      (table.answer dir versions.hasBlockCache versions.quarantined now key).join := by
  simp [lookup, listed]

theorem Table.answer_build (config : StorageConfig) (dir : SstDir)
    (hasBlockCache : Bool)
    (quarantined : List String) (now : Nanos) {key : Bytes} (nonempty : value ≠ []) :
    (build config ((∅ : ByteMap Bytes).insert key value)).answer dir
      hasBlockCache quarantined now key = some (some value) := by
  have present : key ∈ (∅ : ByteMap Bytes).insert key value := by simp
  have admitted : (build config ((∅ : ByteMap Bytes).insert key value)).admits
      key = true := (build_admits config 0 present).1
  have held : (build config ((∅ : ByteMap Bytes).insert key value)).data[key]? =
      some value := by simp [build]
  simp [answer, admitted, held, nonempty]

/-- An empty value is found once and then taken for a tombstone; a value
outlives the tables it was found in. -/
theorem kv_cache_changes_reads :
    let config : StorageConfig :=
      { blockSize := 4096, bloomCollides := fun _ _ => false }
    let dir := (∅ : SstDir).insert "flush_1.sst"
      (.table (singleRecord 1 [7] []))
    let versions := (VersionSet.new true).addTable "default"
      (withContents config "flush_1.sst" (singleRecord 1 [7] []) 0)
    let older := (VersionSet.new true).addTable "default"
      (build config ((∅ : ByteMap Bytes).insert [7] [1]))
    let replaced := ((older.get dir 5 "default" [7]).2).removeAndAddTable
      "default" (build config ((∅ : ByteMap Bytes).insert [7] [2]))
    (versions.get dir 5 "default" [7]).1 = some [] ∧
    ((versions.get dir 5 "default" [7]).2.get dir 5 "default" [7]).1 = none ∧
    (replaced.get dir 5 "default" [7]).1 = some [1] ∧
    (replaced.clearCache.get dir 5 "default" [7]).1 = some [2] := by
  intro config dir versions older replaced
  have empty : versions.lookup dir 5 "default" [7] = some [] := by
    rw [lookup_single (getTables_addTable _ _ _)]
    have admitted : (withContents config "flush_1.sst"
        (singleRecord 1 [7] []) 0).admits [7] = true :=
      (ofRecords_admits config "flush_1.sst" (by decide +kernel)).1
    have held : (withContents config "flush_1.sst"
        (singleRecord 1 [7] []) 0).data[([7] : Bytes)]? = some [] := by decide +kernel
    have stored : (singleRecord 1 [7] [])[([7] : Bytes)]? =
        some (LogRecord.new 1 [7] []) := by decide +kernel
    have answered : (withContents config "flush_1.sst"
        (singleRecord 1 [7] []) 0).answer dir true [] 5 [7] = some (some []) := by
      simp only [Table.answer, admitted, held]
      rfl
    exact congrArg Option.join answered
  obtain ⟨first, cached⟩ := get_of_lookup rfl empty
  have old : older.lookup dir 5 "default" [7] = some [1] := by
    rw [lookup_single (getTables_addTable _ _ _), answer_build config dir _ _ 5 (by decide)]
    rfl
  obtain ⟨_, old_cached⟩ := get_of_lookup rfl old
  have new : replaced.clearCache.lookup dir 5 "default" [7] = some [2] := by
    have listed : replaced.clearCache.getTables "default" =
        [build config ((∅ : ByteMap Bytes).insert [7] [2])] := by
      simp [replaced, removeAndAddTable, clearCache, getTables, setTables, bumpGeneration]
    rw [lookup_single listed, answer_build config dir _ _ 5 (by decide)]
    rfl
  refine ⟨first, ?_, ?_, (get_of_lookup rfl new).1⟩
  · rw [get_of_cached cached]
    rfl
  · have still_cached : replaced.kvCache[([7] : Bytes)]? = some [1] := old_cached
    rw [get_of_cached still_cached]
    rfl

/-! ## The generation -/

/-- A step on any family. -/
def CacheOp.stepAt (state : TableState) (op : String × CacheOp) : TableState :=
  op.2.step op.1 state

/-- The families that are drained have no tables. -/
def DrainsNothing (state : TableState) (op : String × CacheOp) : Prop :=
  op.2 = .drainTables → state.versions.getTables op.1 = []

/-- The tables are the same, or the generation has moved on. -/
def Detected (cf : String) (steps : Nat) (before after : VersionSet) : Prop :=
  (after.compactionGeneration = before.compactionGeneration ∧
    after.getTables cf = before.getTables cf) ∨
  before.compactionGeneration < after.compactionGeneration ∧
    after.compactionGeneration ≤ before.compactionGeneration + steps

@[simp] theorem VersionSet.compactionGeneration_get (versions : VersionSet)
    (dir : SstDir) (now : Nanos) (cf : String) (key : Bytes) :
    (versions.get dir now cf key).2.compactionGeneration =
      versions.compactionGeneration := by
  cases cached : versions.kvCache[key]? with
  | some value => rw [get_of_cached cached]
  | none =>
    obtain ⟨_, _, result⟩ := get_of_not_cached cached dir now cf
    rw [result]

theorem CacheOp.detected_stepAt {op : String × CacheOp} (idle : DrainsNothing state op)
    (cf : String) : Detected cf 1 state.versions (stepAt state op).versions := by
  have replaced : ∀ groups, Detected cf 1 state.versions
      (state.versions.atomicReplaceGroups op.1 groups).2 := by
    intro groups
    rcases atomicReplaceGroups_cases state.versions op.1 groups with same |
      ⟨_, same⟩ <;> rw [same]
    · exact .inl ⟨rfl, rfl⟩
    · exact .inr ⟨Nat.lt_succ_self _, le_rfl⟩
  obtain ⟨family, op⟩ := op
  cases op with
  | addTable table | removeAndAddTable table => exact .inr ⟨Nat.lt_succ_self _, le_rfl⟩
  | evict dropped | disk dir => exact .inl ⟨rfl, rfl⟩
  | atomicReplace indices tables => exact replaced [(indices, tables)]
  | atomicReplaceGroups groups => exact replaced groups
  | drainTables =>
    have nothing : state.versions.tables[family]?.getD [] = [] := idle rfl
    refine .inl ⟨rfl, ?_⟩
    by_cases here : family = cf
    · subst here
      simp [stepAt, step, VersionSet.drainTables, getTables, clearCache, nothing]
    · simp [stepAt, step, VersionSet.drainTables, getTables, clearCache,
        Std.ExtTreeMap.getElem?_erase, here]
  | get now key => exact .inl ⟨compactionGeneration_get .., getTables_get ..⟩

variable {start : TableState} {ops : List (String × CacheOp)}

theorem detected_of_run (run : Guarded CacheOp.stepAt DrainsNothing start ops)
    (cf : String) :
    Detected cf ops.length start.versions
      (ops.foldl CacheOp.stepAt start).versions := by
  induction ops generalizing start with
  | nil => exact .inl ⟨rfl, rfl⟩
  | cons op ops ih =>
    have later := ih run.2
    rw [List.foldl_cons, List.length_cons]
    rcases CacheOp.detected_stepAt run.1 cf with ⟨same, tables⟩ | moved
    · rw [Detected, same, tables] at later
      exact later.imp_right fun ⟨less, bound⟩ => ⟨less, bound.trans (Nat.le_succ _)⟩
    · unfold Detected at later ⊢
      omega

/-- Where drained families have no tables and the counter does not come round,
an unchanged generation means unchanged tables. -/
theorem generation_detects_change
    (run : Guarded CacheOp.stepAt DrainsNothing start ops)
    (few : ops.length < 2 ^ 64) (cf : String)
    (unmoved : (ops.foldl CacheOp.stepAt start).versions.compactionGeneration % 2 ^ 64 =
      start.versions.compactionGeneration % 2 ^ 64) :
    (ops.foldl CacheOp.stepAt start).versions.getTables cf =
      start.versions.getTables cf := by
  rcases detected_of_run run cf with ⟨_, tables⟩ | moved
  · exact tables
  · omega

/-- Reads, and calls on a family without tables, between two observations. -/
theorem generation_detects_idle_calls :
    let state : TableState :=
      { versions := (((VersionSet.new false).addTable "default" (singleTable 7 none)).addTable
          "default" (singleTable 8 none)).addTable "users" (singleTable 9 none)
        dir := ∅ }
    let ops : List (String × CacheOp) :=
      [("gone", .drainTables), ("default", .get 5 [7]), ("users", .get 6 [9]),
        ("default", .evict (· = [7]))]
    (ops.foldl CacheOp.stepAt state).versions.getTables "default" =
      [singleTable 7 none, singleTable 8 none] := by
  intro state ops
  have listed : state.versions.getTables "default" = [singleTable 7 none, singleTable 8 none] :=
    rfl
  have run : Guarded CacheOp.stepAt DrainsNothing state ops :=
    ⟨fun _ => rfl, nofun, nofun, nofun, trivial⟩
  have unmoved : (ops.foldl CacheOp.stepAt state).versions.compactionGeneration =
      state.versions.compactionGeneration := by
    simp [ops, CacheOp.stepAt, CacheOp.step, drainTables, clearCache]
  rw [generation_detects_change run (by decide) "default" (by rw [unmoved]), listed]

/-- `drain_tables` takes the tables of a family and leaves the generation. -/
theorem drain_keeps_generation : ∃ table : Table,
    let versions := (VersionSet.new false).addTable "default" table
    (versions.drainTables "default").2.compactionGeneration = versions.compactionGeneration ∧
      (versions.drainTables "default").2.getTables "default" ≠ versions.getTables "default" := by
  refine ⟨build { blockSize := 4096, bloomCollides := fun _ _ => false } ∅, rfl, ?_⟩
  rw [getTables_addTable]
  simp [VersionSet.drainTables, getTables, clearCache]

end ApexStore
