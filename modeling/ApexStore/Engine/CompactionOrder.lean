import ApexStore.Engine.CompactionPlan

/-!
# Which overwrite wins after a compaction

Before a compaction the newest table that has a key answers.  Afterwards every
group stands where its oldest member stood, so the answer comes from the table
that is last by the start of its group and then by position.  A compaction
leaves all reads as they were exactly when the two tables agree for every key
(`compaction_preserves_winner_iff`).
-/

namespace ApexStore

open VersionSet List Table

/-! ## Reading tables of live values -/

/-- A table created in this process whose file has only live, non-empty values
without an expiry time. -/
structure Table.LiveContents (config : StorageConfig) (dir : SstDir) (table : Table) :
    Prop where
  filled : table.Filled config dir
  live : ∀ key record, table.fileRecord dir key = some record →
    record.isDeleted = false ∧ record.expiresAt = none ∧ record.value ≠ []

variable {config : StorageConfig} {dir : SstDir}

theorem Table.LiveContents.probe_eq {table : Table}
    (contents : table.LiveContents config dir) (hasBlockCache : Bool)
    (quarantined : List String) (now : Nanos) (key : Bytes) :
    table.probe dir hasBlockCache quarantined now key =
      match table.data[key]? with
      | some value => .found value
      | none => .miss := by
  have values := contents.filled.data_eq key
  cases found : table.fileRecord dir key with
  | some record =>
    obtain ⟨_, _, nonempty⟩ := contents.live key record found
    have admitted := contents.filled.admits found
    rw [found] at values
    simp [probe, admitted, values, nonempty]
  | none =>
    rw [found] at values
    obtain ⟨path, records, file, same⟩ := contents.filled
    have located : table.path = some path := by rw [same]; rfl
    rw [fileRecord_of_table located file] at found
    have nothing : table.probeFile dir hasBlockCache quarantined now key = .miss := by
      simp [probeFile, located, SstDir.get_of_table file, found]
    simp [probe, values, nothing]

theorem search_of_live (hasBlockCache : Bool) (now : Nanos) (key : Bytes)
    {tables : List Table} (live : ∀ table ∈ tables, table.LiveContents config dir)
    (quarantined : List String) : search dir hasBlockCache now key tables quarantined =
      (tables.findSome? (·.data[key]?), quarantined) := by
  induction tables with
  | nil => rfl
  | cons table tables ih =>
    have probed := (live table mem_cons_self).probe_eq hasBlockCache quarantined now key
    have later := ih (forall_mem_cons.mp live).2
    rw [search, probed, List.findSome?_cons]
    cases table.data[key]? with
    | some value => rfl
    | none => exact later

theorem get_of_live {versions : VersionSet} {cf : String}
    (empty : versions.kvCache = ∅)
    (live : ∀ table ∈ versions.getTables cf, table.LiveContents config dir)
    (now : Nanos)
    (key : Bytes) :
    (versions.get dir now cf key).1 = newestData (versions.getTables cf) key := by
  have searched := search_of_live versions.hasBlockCache now key
    (fun table member => live table (mem_reverse.mp member)) versions.quarantined
  rw [VersionSet.get, empty]
  rw [getUncached, searched, newestData]
  cases (versions.getTables cf).reverse.findSome? (·.data[key]?) <;> rfl

/-! ## Compaction of live tables -/

section Live

variable {config : StorageConfig} {dir dir' : SstDir}

variable {table : Table} {tables : List Table}

theorem Table.LiveContents.of_same_file (contents : table.LiveContents config dir)
    (same : ∀ path, table.path = some path → dir'[path]? = dir[path]?) :
    table.LiveContents config dir' := by
  obtain ⟨path, records, file, table_eq⟩ := contents.filled
  have located : table.path = some path := by rw [table_eq]; rfl
  have file' : dir'[path]? = some (.table records) := (same path located).trans file
  refine ⟨⟨path, records, file', table_eq⟩, ?_⟩
  intro key record found
  rw [fileRecord_of_table located file', ← fileRecord_of_table located file] at found
  exact contents.live key record found

theorem MergeOutput.liveContents {path : String} {tombstones : List RangeTombstone}
    (output : MergeOutput config dir path (survivor tables tombstones) table) :
    table.LiveContents config dir := by
  refine ⟨output.filled, ?_⟩
  intro key record found
  obtain ⟨live, permanent⟩ := output.live key record found
  refine ⟨live, permanent, ?_⟩
  have values := output.filled.data_eq key
  rw [found, output.data] at values
  exact (survivor_eq_some.mp values).2.1

theorem Table.LiveContents.data_ne_nil (contents : table.LiveContents config dir)
    {key value : Bytes} (held : table.data[key]? = some value) : value ≠ [] := by
  rw [contents.filled.data_eq] at held
  obtain ⟨record, found, rfl⟩ := Option.map_eq_some_iff.mp held
  exact (contents.live key record found).2.2

theorem survivor_of_live (live : ∀ table ∈ tables, table.LiveContents config dir)
    (key : Bytes) :
    survivor tables [] key = newestData tables key := by
  apply Option.ext
  intro value
  rw [survivor_eq_some]
  constructor
  · exact And.left
  · intro newest
    refine ⟨newest, ?_, rfl⟩
    obtain ⟨table, member, held⟩ := exists_of_findSome?_eq_some newest
    exact (live table (mem_reverse.mp member)).data_ne_nil held

theorem liveContents_replaceGroups {strategy : CompactionStrategy}
    {jobs : List CompactionJob}
    {replacements : List Replacement}
    (live : ∀ table ∈ tables, table.LiveContents config dir)
    (fresh : FreshNames strategy tables dir jobs)
    (plan : PlanOutput strategy config tables [] jobs dir dir' replacements) :
    ∀ table ∈ replaceGroups tables replacements, table.LiveContents config dir' := by
  intro table member
  rcases mem_replaceGroups member with ⟨index, at_index, _⟩ | ⟨replacement, in_plan, output⟩
  · have old := mem_of_getElem? at_index
    apply (live table old).of_same_file
    intro path located
    apply plan.untouched
    intro job in_jobs same
    obtain ⟨other, records, file, table_eq⟩ := (live table old).filled
    have other_path : table.path = some other := by rw [table_eq]; rfl
    have unused := fresh.unused job in_jobs
    rw [← same, Option.some.inj (located.symm.trans other_path), file] at unused
    cases unused
  · obtain ⟨_, _, _, produced⟩ := plan.outputs replacement in_plan
    rcases produced with ⟨empty, _⟩ | ⟨only, one, merged⟩
    · rw [empty] at output
      cases output
    · rw [one, mem_singleton] at output
      rw [output]
      exact merged.liveContents

end Live

section Plan

variable {strategy : CompactionStrategy} {config : StorageConfig}
  {dir dir' : SstDir} {versions : VersionSet} {cf : String}
  {jobs : List CompactionJob} {replacements : List Replacement}

/-- What is read after a compaction: every group answers from the position
where it starts. -/
theorem get_compacted (empty : versions.kvCache = ∅)
    (live : ∀ table ∈ versions.getTables cf, table.LiveContents config dir)
    (planned : jobs.map (·.1) = strategy.pickTables (versions.getTables cf))
    (fresh : FreshNames strategy (versions.getTables cf) dir jobs)
    (done : compactGroups strategy config (versions.getTables cf) [] dir jobs =
      (.ok replacements, dir')) (now : Nanos) (key : Bytes) :
    ((versions.atomicReplaceGroups cf replacements).2.get dir' now cf key).1 =
      newestAt (versions.getTables cf).length
        (unitContents (versions.getTables cf).length
          (groupStart (strategy.pickTables (versions.getTables cf)))
          (heldAt (versions.getTables cf) key)) := by
  have plan := compactGroups_ok fresh.distinct done
  have groups : replacements.map (·.1) =
      strategy.pickTables (versions.getTables cf) := plan.groups.trans planned
  have valid : DisjointGroups (versions.getTables cf).length (replacements.map (·.1)) := by
    rw [groups]
    exact pickTables_disjoint strategy _
  have merged : ∀ replacement ∈ replacements, newestData replacement.2 key =
        newestData (groupTables (versions.getTables cf) replacement.1) key := by
    intro replacement member
    obtain ⟨_, _, _, output⟩ := plan.outputs replacement member
    have group_live : ∀ table ∈ groupTables (versions.getTables cf) replacement.1,
        table.LiveContents config dir := by
      intro table in_group
      obtain ⟨index, _, found⟩ := mem_filterMap.mp in_group
      exact live table (mem_of_getElem? found)
    rw [output.newestData_eq, survivor_of_live group_live]
  have listed := getTables_atomicReplaceGroups versions cf replacements
  have still_live : ∀ table ∈ (versions.atomicReplaceGroups cf replacements).2.getTables cf,
      table.LiveContents config dir' := by
    rw [listed]
    exact liveContents_replaceGroups live fresh plan
  rw [get_of_live (kvCache_atomicReplaceGroups cf replacements empty) still_live,
    listed, newestData_replaceGroups valid merged, groups]

/-- Compaction leaves every read as it was exactly when, for every key, the
newest table that has it agrees with the table that is last by the start of
its group and then by position. -/
theorem compaction_preserves_winner_iff (empty : versions.kvCache = ∅)
    (live : ∀ table ∈ versions.getTables cf, table.LiveContents config dir)
    (planned : jobs.map (·.1) = strategy.pickTables (versions.getTables cf))
    (fresh : FreshNames strategy (versions.getTables cf) dir jobs)
    (done : compactGroups strategy config (versions.getTables cf) [] dir jobs =
      (.ok replacements, dir')) : (∀ now key,
        ((versions.atomicReplaceGroups cf replacements).2.get dir' now cf
          key).1 = (versions.get dir now cf key).1) ↔ ∀ key newest latest,
        Latest (versions.getTables cf).length id
          (heldAt (versions.getTables cf) key) newest →
        Latest (versions.getTables cf).length
          (groupStart (strategy.pickTables (versions.getTables cf)))
          (heldAt (versions.getTables cf) key) latest →
            heldAt (versions.getTables cf) key newest =
          heldAt (versions.getTables cf) key latest := by
  have after := get_compacted empty live planned fresh done
  have before : ∀ now key, (versions.get dir now cf key).1 = newestAt (versions.getTables cf).length
        (heldAt (versions.getTables cf) key) := by
    intro now key
    rw [get_of_live empty live, newestData_eq_newestAt]
  have inside := groupStart_lt (pickTables_disjoint strategy (versions.getTables cf))
  simp only [after, before]
  constructor
  · intro same key
    exact (newestAt_units_eq_iff inside).mp (same 0 key)
  · intro agree now key
    exact (newestAt_units_eq_iff inside).mpr (agree key)

end Plan

/-! ## Two plans -/

theorem Table.liveContents_single {path : String} {now : Nanos}
    {key value : Bytes} (nonempty : value ≠ [])
    (file : dir[path]? = some (.table (singleRecord now key value))) (level : Nat) :
    (withContents config path
      (singleRecord now key value) level).LiveContents config dir := by
  refine ⟨⟨path, _, file, rfl⟩, ?_⟩
  intro other record found
  rw [fileRecord_of_table rfl file, singleRecord, ByteMap.getElem?_insert] at found
  split at found
  · cases found
    exact ⟨rfl, rfl, nonempty⟩
  · simp at found

/-- Two flushed versions of a key are merged into the newer one, and reads
stay as they were. -/
theorem compaction_preserves_adjacent_winner :
    let config : StorageConfig :=
      { blockSize := 4096, bloomCollides := fun _ _ => false }
    let older := singleRecord 1 [7] [1]
    let newer := singleRecord 2 [7] [2]
    let dir : SstDir := ((∅ : SstDir).insert "flush_1.sst" (.table older)).insert
      "flush_2.sst" (.table newer)
    let tables := [Table.withContents config "flush_1.sst" older 0,
      Table.withContents config "flush_2.sst" newer 0]
    let versions := (VersionSet.new true).setTables "default" tables
    let strategy := CompactionStrategy.sizeTiered .default
    let clock : CompactionClock := { timestamp := 3, stamp := fun _ => 3 }
    ∃ replacements dir',
      compactGroups strategy config tables [] dir [([0, 1], clock)] =
        (.ok replacements, dir') ∧
      ∀ now key,
        ((versions.atomicReplaceGroups "default" replacements).2.get dir' now
          "default" key).1 = (versions.get dir now "default" key).1 := by
  intro config older newer dir tables versions strategy clock
  have planned : [([0, 1], clock)].map (·.1) =
      strategy.pickTables (versions.getTables "default") := by decide +kernel
  have live : ∀ table ∈ versions.getTables "default", table.LiveContents config dir := by
    change ∀ table ∈ tables, _
    simp only [tables, forall_mem_cons]
    exact ⟨liveContents_single (by simp) rfl 0, liveContents_single (by simp) rfl 0, by simp⟩
  have fresh : FreshNames strategy (versions.getTables "default") dir [([0, 1], clock)] := by
    decide +kernel
  obtain ⟨replacements, dir', done⟩ := exists_of_isOk
    (by decide +kernel : (compactGroups strategy config tables [] dir
      [([0, 1], clock)]).1.isOk = true)
  refine ⟨replacements, dir', done, ?_⟩
  apply (compaction_preserves_winner_iff rfl live planned fresh done).mpr
  intro key newest latest is_newest is_latest
  refine Latest.of_whole ?_ is_newest is_latest
  have whole : ∀ index < 2, groupStart (strategy.pickTables
      (versions.getTables "default")) index = 0 := by
    decide
  exact whole

/-- Lazy leveling merges two flushed tables around a table of level 1.  The
newest version of the key moves behind the one in the middle, which is read
from then on. -/
theorem compaction_revives_overwritten_value :
    let config : StorageConfig :=
      { blockSize := 4096, bloomCollides := fun _ _ => false }
    let first := singleRecord 1 [7] [1]
    let second := singleRecord 2 [7] [2]
    let third := singleRecord 3 [7] [3]
    let dir : SstDir := (((∅ : SstDir).insert "flush_1.sst" (.table first)).insert
      "sst_2.sst" (.table second)).insert "flush_3.sst" (.table third)
    let tables := [Table.withContents config "flush_1.sst" first 0,
      Table.withContents config "sst_2.sst" second 1,
      Table.withContents config "flush_3.sst" third 0]
    let versions := (VersionSet.new true).setTables "default" tables
    let strategy := CompactionStrategy.lazyLeveling .default .default
    let clock : CompactionClock := { timestamp := 4, stamp := fun _ => 4 }
    strategy.pickTables tables = [[0, 2]] ∧
    (∀ table ∈ tables, table.LiveContents config dir) ∧
    (versions.get dir 5 "default" [7]).1 = some [3] ∧
    ∃ replacements dir',
      compactGroups strategy config tables [] dir [([0, 2], clock)] =
        (.ok replacements, dir') ∧
      ((versions.atomicReplaceGroups "default" replacements).2.get dir' 5
        "default" [7]).1 = some [2] := by
  intro config first second third dir tables versions strategy clock
  have planned : [([0, 2], clock)].map (·.1) =
      strategy.pickTables (versions.getTables "default") := by decide +kernel
  have live : ∀ table ∈ versions.getTables "default", table.LiveContents config dir := by
    change ∀ table ∈ tables, _
    simp only [tables, forall_mem_cons]
    exact ⟨liveContents_single (by simp) rfl 0, liveContents_single (by simp) rfl 1,
      liveContents_single (by simp) rfl 0, by simp⟩
  have fresh : FreshNames strategy (versions.getTables "default") dir [([0, 2], clock)] := by
    decide +kernel
  obtain ⟨replacements, dir', done⟩ := exists_of_isOk
    (by decide +kernel : (compactGroups strategy config tables [] dir
      [([0, 2], clock)]).1.isOk = true)
  refine ⟨planned.symm, live, ?_, replacements, dir', done, ?_⟩
  · rw [get_of_live rfl live]
    decide +kernel
  · rw [get_compacted rfl live planned fresh done]
    decide +kernel

end ApexStore
