import ApexStore.Engine.ReadView

/-!
# Reads across a compaction

A read goes through the versions of a key from the newest table to the oldest.
The lemmas here say what a compaction does to this sequence: a key that no
merged table has keeps it, a key inside a range tombstone loses the versions
of the merged tables, and a key with values throughout is answered by the
groups from where they start.
-/

namespace ApexStore

open VersionSet List Option

variable {table : Table} {store : TableState} {config : StorageConfig}

def CompactionPlan.Merges (plan : CompactionPlan) (tables : List Table)
    (table : Table) : Prop :=
  ∃ job ∈ plan.jobs, ∃ index ∈ job.1, tables[index]? = some table

/-- The first decision on the versions of a key, from the newest table to the
oldest. -/
def TableState.newestDecision {β : Type} (state : TableState) (cf : String)
    (key : Bytes) (decision : Table → LogRecord → Option β) : Option β :=
  (state.versions.getTables cf).reverse.findSome? (fun table =>
    (table.version state.dir key).bind (decision table))

theorem EngineCore.newestEntry_eq (core : EngineCore) (cf : String) (key : Bytes) :
    core.newestEntry cf key = core.store.newestDecision cf key (fun table record =>
        some (table, record)) := by
  apply findSome?_congr
  intro table _
  rw [map_eq_bind]
  rfl

theorem TableState.seen_of_uncached (uncached : store.versions.kvCache = ∅)
    (now : Nanos) (cf : String) (key : Bytes) :
    store.seen now cf key =
      (store.newestDecision cf key (·.verdict now key)).join := by
  rw [seen, uncached]
  rfl

variable {cf : String} {key : Bytes}

theorem TableState.newestDecision_congr {before after : TableState}
    (tables : after.versions.getTables cf = before.versions.getTables cf)
    (files : ∀ table ∈ before.versions.getTables cf, ∀ path,
      table.path = some path → after.dir[path]? = before.dir[path]?)
    (key : Bytes) {β : Type} (decision : Table → LogRecord → Option β) :
    after.newestDecision cf key decision = before.newestDecision cf key decision := by
  rw [newestDecision, tables]
  apply findSome?_congr
  intro table member
  rw [Table.version_congr (files table (mem_reverse.mp member))]

/-- A version that a range tombstone of this time leaves visible. -/
abbrev unhidden (now timestamp : Nanos) (entry : Table × LogRecord) : Bool :=
  !entry.2.isDeleted && !entry.2.isExpiredAt now && decide (timestamp ≤ entry.2.timestamp)

/-- What a read needs to be answered as before, when only the tables have
changed. -/
theorem EngineCore.answerByVersions_withStore {core : EngineCore} {after : TableState}
    {now : Nanos}
    (side : after.seen now cf (ttlKey key) = core.store.seen now cf (ttlKey key))
    (uncovered : core.coveringRangeTombstoneTs cf key = none →
      after.seen now cf key = core.store.seen now cf key)
    (covered : ∀ timestamp, core.memtableRecord cf key = none →
      core.coveringRangeTombstoneTs cf key = some timestamp →
      (({ core with store := after } : EngineCore).newestEntry cf key).filter
          (unhidden now timestamp) =
            (core.newestEntry cf key).filter (unhidden now timestamp)) :
    ({ core with store := after } : EngineCore).answerByVersions now cf key =
      core.answerByVersions now cf key := by
  have memory : ({ core with store := after } : EngineCore).memtableRecord cf
      key = core.memtableRecord cf key := rfl
  have ranges : ({ core with store := after } : EngineCore).coveringRangeTombstoneTs cf key =
        core.coveringRangeTombstoneTs cf key := rfl
  rw [answerByVersions, answerByVersions, memory, ranges]
  cases missing : core.memtableRecord cf key with
  | some record => rfl
  | none =>
    dsimp only
    rw [side]
    congr 1
    cases covering : core.coveringRangeTombstoneTs cf key with
    | none => exact uncovered covering
    | some timestamp =>
      exact congrArg (Option.map _) (covered timestamp missing covering)

theorem findSome?_replaceGroups_of_dropped {β : Type} {tables : List Table}
    {replacements : List Replacement} {found : Table → Option β}
    (dropped : ∀ replacement ∈ replacements, ∀ table ∈ replacement.2, found table =
      none) :
    (replaceGroups tables replacements).reverse.findSome? found =
      newestAt tables.length (fun index => if isRemoved replacements index then none
        else tables[index]?.bind found) := by
  rw [replaceGroups, findSome?_reverse_flatMap, findSome?_reverse_eq, length_zipIdx]
  apply newestAt_congr
  intro index bound
  have nothing : ∀ table ∈ (outputsAt tables.length replacements
      index).reverse, found table = none := by
    intro table output
    obtain ⟨replacement, member, own, _⟩ := mem_outputsAt (mem_reverse.mp output)
    exact dropped replacement member table own
  rw [List.getElem?_zipIdx, List.getElem?_eq_getElem bound, map_some, bind_some,
    Nat.zero_add]
  rw [reverse_append, List.findSome?_append, List.findSome?_eq_none_iff.mpr nothing]
  split <;> simp

section Installed

variable {config : StorageConfig} {cf : String} {plan : CompactionPlan}
  {before after : TableState} {replacements : List Replacement} {key : Bytes}

variable (installed : Installed config cf plan before after replacements)
include installed

theorem Installed.isRemoved_iff (index : Nat) : isRemoved replacements index = true ↔
      ∃ job ∈ plan.jobs, index ∈ job.1 := by
  rw [ApexStore.isRemoved_iff, installed.groups]
  simp

theorem Installed.merges {index : Nat}
    (at_index : (before.versions.getTables cf)[index]? = some table)
    (removed : isRemoved replacements index = true) :
    plan.Merges (before.versions.getTables cf) table := by
  obtain ⟨job, in_plan, inside⟩ := (installed.isRemoved_iff index).mp removed
  exact ⟨job, in_plan, index, inside, at_index⟩

theorem Installed.newestDecision_of_dropped
    (dropped : ∀ replacement ∈ replacements, ∀ table ∈ replacement.2,
      table.version after.dir key = none) {β : Type}
        (decision : Table → LogRecord → Option β) :
    after.newestDecision cf key decision =
      newestAt (before.versions.getTables cf).length (fun index =>
        if isRemoved replacements index then none
        else (before.versions.getTables cf)[index]?.bind (fun table =>
          (table.version before.dir key).bind (decision table))) := by
  rw [TableState.newestDecision, installed.tables, findSome?_replaceGroups_of_dropped]
  · apply newestAt_congr
    intro index bound
    cases removed : isRemoved replacements index with
    | true => rfl
    | false =>
      have at_index := List.getElem?_eq_getElem bound
      rw [if_neg Bool.false_ne_true, if_neg Bool.false_ne_true, at_index, bind_some,
        bind_some,
        Table.version_congr (installed.kept index _ at_index removed)]
  · intro replacement member table output
    rw [dropped replacement member table output]
    rfl

theorem Installed.newestDecision_of_untouched (sound : before.Sound config cf)
    (untouched : ∀ table,
      plan.Merges (before.versions.getTables cf) table →
        table.version before.dir key = none)
    {β : Type} (decision : Table → LogRecord → Option β) :
    after.newestDecision cf key decision = before.newestDecision cf key decision := by
  have in_group : ∀ replacement ∈ replacements,
      ∀ table ∈ groupTables (before.versions.getTables cf) replacement.1,
      table.version before.dir key = none := by
    intro replacement member table listed
    obtain ⟨index, inside, at_index⟩ := mem_groupTables listed
    have removed : isRemoved replacements index = true := (ApexStore.isRemoved_iff index).mpr
        ⟨replacement.1, mem_map_of_mem member, inside⟩
    exact untouched table (installed.merges at_index removed)
  rw [installed.newestDecision_of_dropped, TableState.newestDecision, findSome?_reverse_eq]
  · apply newestAt_congr
    intro index bound
    have at_index := List.getElem?_eq_getElem bound
    split
    · next removed =>
      rw [at_index, bind_some, untouched _ (installed.merges at_index removed)]
      rfl
    · rfl
  · intro replacement member table output
    by_contra present
    obtain ⟨other, listed, held⟩ := installed.version_of_output sound member
      output (isSome_iff_ne_none.mpr present)
    rw [in_group replacement member other listed] at held
    cases held

theorem Installed.dropped_of_covered
    (covered : isKeyInRangeTombstones key plan.tombstones = true) :
    ∀ replacement ∈ replacements, ∀ table ∈ replacement.2,
      table.version after.dir key = none := by
  intro replacement member table output
  obtain ⟨_, _, _, merged⟩ := installed.mem_output member output
  apply merged.version_eq_none
  rw [survivor, covered]
  simp

end Installed

/-! ## Keys with values throughout -/

/-- In a table that was written in this process, a version with a value
decides by the value in memory. -/
theorem Table.decides_of_nonempty {dir : SstDir} (filled : table.Filled config dir)
    (wellFormed : table.WellFormed config dir)
    (nonempty : ∀ value, table.data[key]? = some value → value ≠ []) (now : Nanos) :
    (table.version dir key).bind (table.verdict now key) =
      table.data[key]?.map some := by
  have values := filled.data_eq key
  obtain ⟨path, records, file, same⟩ := filled
  have located : table.path = some path := by rw [same]; rfl
  rw [version_of_path located]
  cases held : table.fileRecord dir key with
  | none =>
    rw [held] at values
    rw [values]
    rfl
  | some record =>
    rw [held, map_some] at values
    have bare := wellFormed.tombstones key record (by rw [version_of_path located, held])
    have some_value := nonempty record.value values
    have live : record.isDeleted = false := by
      rw [Bool.eq_false_iff]
      exact fun deleted => some_value (bare deleted)
    have full : record.value.isEmpty = false := by
      rw [Bool.eq_false_iff, ne_eq, List.isEmpty_iff]
      exact some_value
    rw [bind_some, verdict, live, values, all_some, full]
    simp

theorem TableState.seen_of_nonempty (sound : StoreSound config store)
    (uncached : store.versions.kvCache = ∅)
    (filled : ∀ table ∈ store.versions.getTables cf, table.Filled config store.dir)
    (nonempty : ∀ table ∈ store.versions.getTables cf, ∀ value,
      table.data[key]? = some value → value ≠ []) (now : Nanos) :
    store.seen now cf key =
      newestData (store.versions.getTables cf) key := by
  have decided : store.newestDecision cf key (·.verdict now key) =
      (newestData (store.versions.getTables cf) key).map some := by
    rw [newestData, map_findSome?]
    apply findSome?_congr
    intro table member
    have listed := mem_reverse.mp member
    exact Table.decides_of_nonempty (filled table listed)
      (sound.wellFormed listed) (nonempty table listed) now
  rw [seen_of_uncached uncached, decided]
  cases newestData (store.versions.getTables cf) key <;> rfl

section Installed

variable {config : StorageConfig} {cf : String} {plan : CompactionPlan}
  {before after : TableState} {replacements : List Replacement} {key : Bytes}

theorem Table.Filled.of_same_file {dir dir' : SstDir}
    (filled : table.Filled config dir)
    (same : ∀ path, table.path = some path → dir'[path]? = dir[path]?) :
    table.Filled config dir' := by
  obtain ⟨path, records, file, table_eq⟩ := filled
  have located : table.path = some path := by rw [table_eq]; rfl
  exact ⟨path, records, (same path located).trans file, table_eq⟩

variable (installed : Installed config cf plan before after replacements)
include installed

theorem Installed.filled (filled : ∀ table ∈ before.versions.getTables cf,
      table.Filled config before.dir) :
    ∀ table ∈ after.versions.getTables cf, table.Filled config after.dir := by
  intro table member
  rcases installed.mem_tables member with ⟨old, same⟩ | ⟨_, _, merged⟩
  · exact (filled table old).of_same_file same
  · exact merged.filled

theorem Installed.nonempty (nonempty : ∀ table ∈ before.versions.getTables cf, ∀ value,
      table.data[key]? = some value → value ≠ []) :
    ∀ table ∈ after.versions.getTables cf, ∀ value,
      table.data[key]? = some value → value ≠ [] := by
  intro table member value held
  rw [installed.tables] at member
  rcases mem_replaceGroups member with ⟨index, at_index, _⟩ | ⟨replacement, in_plan, output⟩
  · exact nonempty table (mem_of_getElem? at_index) value held
  · obtain ⟨_, _, _, merged⟩ := installed.mem_output in_plan output
    rw [merged.data] at held
    exact (survivor_eq_some.mp held).2.1

/-- The newest value of a key that is in no range tombstone and has values
throughout, after a compaction. -/
theorem Installed.newestData_of_nonempty
    (valid : DisjointGroups (before.versions.getTables cf).length
      (plan.jobs.map (·.1)))
    (uncovered : isKeyInRangeTombstones key plan.tombstones = false)
    (nonempty : ∀ table ∈ before.versions.getTables cf, ∀ value,
      table.data[key]? = some value → value ≠ []) :
    newestData (after.versions.getTables cf) key =
      newestAt (before.versions.getTables cf).length
        (unitContents (before.versions.getTables cf).length
          (groupStart (plan.jobs.map (·.1)))
          (heldAt (before.versions.getTables cf) key)) := by
  rw [installed.tables, ← installed.groups]
  rw [← installed.groups] at valid
  apply newestData_replaceGroups valid
  intro replacement member
  obtain ⟨_, _, _, output⟩ := installed.outputs replacement member
  rw [output.newestData_eq]
  apply Option.ext
  intro value
  rw [survivor_eq_some]
  constructor
  · exact And.left
  · intro newest
    refine ⟨newest, ?_, uncovered⟩
    obtain ⟨table, listed, held⟩ := exists_of_findSome?_eq_some newest
    obtain ⟨index, _, at_index⟩ := mem_groupTables (mem_reverse.mp listed)
    exact nonempty table (mem_of_getElem? at_index) value held

theorem Installed.uncached (uncached : before.versions.kvCache = ∅) :
    after.versions.kvCache = ∅ := by
  rw [installed.versions]
  exact kvCache_atomicReplaceGroups cf replacements uncached

end Installed

end ApexStore
