import ApexStore.Engine.CompactionOrder
import ApexStore.Engine.CompactionRuns

/-!
# Deleted keys under compaction

A merge drops the tombstones of its group whether or not older versions of
their keys live on elsewhere.  A deleted key therefore stays deleted over a
run of compactions as long as every compaction that takes in the table of its
tombstone finds no live version of the key outside the group and carries none
over from inside it (`deleted_key_stays_deleted`).
-/

namespace ApexStore

open VersionSet Table List

/-- The newest version of the key is the tombstone of a table that is read. -/
def TombstoneNewest (cf : String) (key : Bytes) (state : TableState) : Prop :=
  ∃ older table newer record, state.versions.getTables cf = older ++ table :: newer ∧
    table.version state.dir key = some record ∧ record.isDeleted = true ∧
    (∀ path, table.path = some path → path ∉ state.versions.quarantined) ∧
    ∀ other ∈ newer, other.version state.dir key = none

def NoLiveVersion (cf : String) (key : Bytes) (state : TableState) : Prop :=
  ∀ table ∈ state.versions.getTables cf, table.NotLive state.dir key

/-- A family in which the key is deleted. -/
structure Deleted (config : StorageConfig) (cf : String) (key : Bytes)
    (state : TableState) : Prop where
  sound : state.Sound config cf
  wellFormed : ∀ table ∈ state.versions.getTables cf, table.WellFormed config state.dir
  blockCache : state.versions.hasBlockCache = true
  uncached : state.versions.kvCache[key]? = none
  gone : TombstoneNewest cf key state ∨ NoLiveVersion cf key state

/-- A compaction that takes in the table with the newest version of the key
carries no value of the key over and leaves no live version behind. -/
def KeepsDeletion (cf : String) (key : Bytes) (state : TableState)
    (plan : CompactionPlan) : Prop :=
  ∀ older table newer, state.versions.getTables cf = older ++ table :: newer →
    (table.version state.dir key).isSome →
      (∀ other ∈ newer, other.version state.dir key = none) →
    ∀ group ∈ plan.jobs.map (·.1), older.length ∈ group → (∀ value,
        newestData (groupTables (state.versions.getTables cf) group) key = some value →
        value = [] ∨ isKeyInRangeTombstones key plan.tombstones = true) ∧
      ∀ index outside, (state.versions.getTables cf)[index]? = some outside →
        index ∉ group → outside.NotLive state.dir key

section

variable {config : StorageConfig} {cf : String} {key : Bytes}
  {before after : TableState} {plan : CompactionPlan}
  {replacements : List Replacement}

theorem Deleted.get_eq_none (deleted : Deleted config cf key before) (now : Nanos) :
    (before.versions.get before.dir now cf key).1 = none := by
  rw [get_of_uncached deleted.uncached]
  rcases deleted.gone with ⟨older, table, newer, record, listed, found,
    tombstone, readable, absent⟩ | notLive
  · have wellFormed := deleted.wellFormed
    rw [listed] at wellFormed
    have probed := (wellFormed table (by simp)).probe_of_tombstone found
      tombstone before.versions.hasBlockCache before.versions.quarantined now
    have ends : table.probe before.dir before.versions.hasBlockCache
        before.versions.quarantined now key = .deleted := by
      rw [probed]
      split
      · rfl
      · next path located =>
        simp [deleted.blockCache, readable path located]
    have order : (older ++ table :: newer).reverse =
        newer.reverse ++ table :: older.reverse := by simp
    rw [listed, order, search_append_of_absent]
    · rw [search, ends]
    · intro other member
      have listed_newer := mem_reverse.mp member
      exact (wellFormed other (mem_append_right _ (mem_cons_of_mem _ listed_newer))).produced
    · intro other member
      exact absent other (mem_reverse.mp member)
  · apply search_of_notLive
    · intro table member
      exact deleted.wellFormed table (mem_reverse.mp member)
    · intro table member
      exact notLive table (mem_reverse.mp member)

variable {tables older newer : List Table} {table : Table}

variable {dir : SstDir} {group : List Nat}

theorem survivor_of_notLive
    (wellFormed : ∀ table ∈ tables, table.WellFormed config dir)
    (notLive : ∀ table ∈ groupTables tables group, table.NotLive dir key)
    (tombstones : List RangeTombstone) :
    survivor (groupTables tables group) tombstones key = none := by
  rw [Option.eq_none_iff_forall_ne_some]
  intro value survives
  obtain ⟨newest, nonempty, _⟩ := survivor_eq_some.mp survives
  obtain ⟨table, member, held⟩ := exists_of_findSome?_eq_some newest
  have in_group := mem_reverse.mp member
  obtain ⟨index, _, at_index⟩ := mem_groupTables in_group
  have of_table := wellFormed table (mem_of_getElem? at_index)
  exact nonempty (of_table.data_of_notLive (notLive table in_group) held)

theorem MergeOutput.wellFormed {path : String} {contents : Bytes → Option Bytes}
    (output : MergeOutput config dir path contents table) :
    table.WellFormed config dir := by
  refine ⟨.inl output.filled, ?_⟩
  intro key record found deleted
  rw [version_of_path output.path] at found
  rw [(output.live key record found).1] at deleted
  cases deleted

theorem Installed.noLiveVersion
    (installed : Installed config cf plan before after replacements)
    (kept_notLive : ∀ index table, (before.versions.getTables cf)[index]? =
      some table →
      isRemoved replacements index = false → table.NotLive before.dir key)
    (gone : ∀ replacement ∈ replacements,
      survivor (groupTables (before.versions.getTables cf) replacement.1)
        plan.tombstones key = none) : NoLiveVersion cf key after := by
  intro table member record found
  rw [installed.tables] at member
  rcases mem_replaceGroups member with ⟨index, at_index, stays⟩ |
    ⟨replacement, in_plan, output⟩
  · rw [version_congr (installed.kept index table at_index stays)] at found
    exact kept_notLive index table at_index stays record found
  · obtain ⟨_, _, _, merged⟩ := installed.mem_output in_plan output
    rw [merged.version_eq_none (gone replacement in_plan)] at found
    cases found

theorem Installed.noLiveVersion_of_taken
    (installed : Installed config cf plan before after replacements)
    (wellFormed : ∀ table ∈ before.versions.getTables cf,
      table.WellFormed config before.dir)
    (admissible : plan.Admissible cf before) (picked : group ∈ plan.jobs.map (·.1))
    (inside : ∀ value,
      newestData (groupTables (before.versions.getTables cf) group) key = some value →
      value = [] ∨ isKeyInRangeTombstones key plan.tombstones = true)
        (outside : ∀ index table,
      (before.versions.getTables cf)[index]? = some table → index ∉ group →
      table.NotLive before.dir key) : NoLiveVersion cf key after := by
  have valid : DisjointGroups (before.versions.getTables cf).length (plan.jobs.map (·.1)) :=
    (pickTables_disjoint plan.strategy _).sublist admissible.picked
  apply installed.noLiveVersion
  · intro index table at_index stays
    apply outside index table at_index
    intro in_group
    rw [← installed.groups] at picked
    rw [(isRemoved_iff index).mpr ⟨group, picked, in_group⟩] at stays
    cases stays
  · intro replacement in_plan
    by_cases same : replacement.1 = group
    · rw [same, Option.eq_none_iff_forall_ne_some]
      intro value survives
      obtain ⟨newest, nonempty, uncovered⟩ := survivor_eq_some.mp survives
      rcases inside value newest with empty | covered
      · exact nonempty empty
      · rw [uncovered] at covered
        cases covered
    · -- Another group shares no table with this one.
      have other_picked : replacement.1 ∈ plan.jobs.map (·.1) := by
        rw [← installed.groups]
        exact mem_map_of_mem in_plan
      apply survivor_of_notLive wellFormed
      · intro table member
        obtain ⟨index, in_other, at_index⟩ := mem_groupTables member
        apply outside index table at_index
        intro in_group
        exact same (valid.eq_of_mem other_picked picked in_other in_group)

theorem mem_of_position_gt (listed : tables = older ++ table :: newer) {index : Nat}
    {other : Table}
    (at_index : tables[index]? = some other) (later : older.length < index) :
    other ∈ newer := by
  rw [listed, List.getElem?_append_right (by omega)] at at_index
  obtain ⟨offset, shifted⟩ : ∃ offset, index - older.length = offset + 1 :=
    ⟨index - older.length - 1, by omega⟩
  rw [shifted] at at_index
  exact mem_of_getElem? at_index

/-- A table outside all groups keeps its place, with the replaced older tables
before it and the replaced newer ones behind it. -/
theorem replaceGroups_split (listed : tables = older ++ table :: newer)
    (stays : isRemoved replacements older.length = false) :
    ∃ older', replaceGroups tables replacements = older' ++ table ::
      (newer.zipIdx (older.length + 1)).flatMap (fun item =>
        outputsAt tables.length replacements item.2 ++
          if isRemoved replacements item.2 then [] else [item.1]) := by
  refine ⟨older.zipIdx.flatMap (fun item =>
      outputsAt tables.length replacements item.2 ++
        if isRemoved replacements item.2 then [] else [item.1]) ++
    outputsAt tables.length replacements older.length, ?_⟩
  generalize count : tables.length = length
  rw [replaceGroups, count, listed, zipIdx_append]
  simp [stays]

theorem Installed.tombstoneNewest
    (installed : Installed config cf plan before after replacements)
    (wellFormed : ∀ table ∈ before.versions.getTables cf,
      table.WellFormed config before.dir)
    (listed : before.versions.getTables cf = older ++ table :: newer)
    (absent : ∀ other ∈ newer, other.version before.dir key = none)
    (stays : isRemoved replacements older.length = false) :
    ∃ older' newer', after.versions.getTables cf = older' ++ table :: newer' ∧
      ∀ other ∈ newer', other.version after.dir key = none := by
  obtain ⟨older', split⟩ := replaceGroups_split listed stays
  refine ⟨older', _, installed.tables.trans split, ?_⟩
  intro other member
  obtain ⟨⟨old, index⟩, item, placed⟩ := mem_flatMap.mp member
  have later : older.length < index := le_snd_of_mem_zipIdx item
  have at_index : (before.versions.getTables cf)[index]? = some old := by
    apply mk_mem_zipIdx_iff_getElem?.mp
    rw [listed, zipIdx_append, Nat.zero_add]
    exact mem_append_right _ (mem_cons_of_mem _ item)
  rcases mem_placed placed with ⟨rfl, old_stays⟩ | ⟨replacement, in_plan, output, starts⟩
  · rw [version_congr (installed.kept index _ at_index old_stays)]
    exact absent _ (mem_of_position_gt listed at_index later)
  · obtain ⟨_, _, _, merged⟩ := installed.mem_output in_plan output
    apply merged.version_eq_none
    apply survivor_of_notLive wellFormed
    intro source in_group record found
    obtain ⟨position, in_positions, at_position⟩ := mem_groupTables in_group
    -- The group starts at `index`, so all its tables are newer.
    have start_le : index ≤ position := by
      apply (List.min?_eq_some_iff.mp starts).2
      have bound := (List.getElem?_eq_some_iff.mp at_position).1
      exact mem_filter.mpr ⟨in_positions, by simpa using bound⟩
    rw [absent source (mem_of_position_gt listed at_position (by omega))] at found
    cases found

theorem Deleted.compactCfCore (deleted : Deleted config cf key before)
    (admissible : plan.Admissible cf before)
    (keeps : KeepsDeletion cf key before plan) :
    Deleted config cf key (compactCfCore config cf before plan) := by
  have sound := deleted.sound
  have wellFormed := deleted.wellFormed
  have sound_after := compactCfCore_sound sound admissible.fresh
  rcases compactCfCore_cases sound admissible.fresh with
    ⟨versions, kept⟩ | ⟨replacements, installed⟩
  · -- The compaction failed; tables and files are as before.
    refine ⟨sound_after, ?_, by rw [versions, deleted.blockCache],
      by rw [versions, deleted.uncached], ?_⟩
    · rw [versions]
      intro table member
      exact (wellFormed table member).of_same_file (kept table member)
    rcases deleted.gone with ⟨older, table, newer, record, listed, found,
      tombstone, readable, absent⟩ | notLive
    · left
      refine ⟨older, table, newer, record, by rw [versions, listed], ?_,
        tombstone, by rwa [versions], ?_⟩
      · rw [version_congr (kept table (by simp [listed])), found]
      · intro other member
        rw [version_congr (kept other (by simp [listed, member]))]
        exact absent other member
    · right
      intro table member record found
      rw [versions] at member
      rw [version_congr (kept table member)] at found
      exact notLive table member record found
  · refine ⟨sound_after, ?_, ?_, ?_, ?_⟩
    · intro table member
      rcases installed.mem_tables member with ⟨old, same⟩ | ⟨_, _, merged⟩
      · exact (wellFormed table old).of_same_file same
      · exact merged.wellFormed
    · rw [installed.versions, hasBlockCache_atomicReplaceGroups, deleted.blockCache]
    · rw [installed.versions]
      rcases atomicReplaceGroups_cases before.versions cf replacements with same |
        ⟨_, cleared⟩
      · rw [same, deleted.uncached]
      · simp [cleared, clearCache]
    · rcases deleted.gone with ⟨older, table, newer, record, listed, found,
        tombstone, readable, absent⟩ | notLive
      · by_cases taken : ∃ group ∈ plan.jobs.map (·.1), older.length ∈ group
        · obtain ⟨group, picked, inside⟩ := taken
          obtain ⟨carried, left_behind⟩ := keeps older table newer listed
            (by rw [found]; rfl) absent group picked inside
          exact .inr (installed.noLiveVersion_of_taken wellFormed admissible picked
            carried left_behind)
        · have stays : isRemoved replacements older.length = false := by
            rw [← Bool.not_eq_true, isRemoved_iff, installed.groups]
            exact taken
          obtain ⟨older', newer', listed', absent'⟩ :=
            installed.tombstoneNewest wellFormed listed absent stays
          have at_older : (before.versions.getTables cf)[older.length]? =
              some table := by simp [listed]
          refine .inl ⟨older', table, newer', record, listed', ?_, tombstone, ?_, absent'⟩
          · rw [version_congr (installed.kept _ table at_older stays), found]
          · rw [installed.versions, quarantined_atomicReplaceGroups]
            exact readable
      · right
        apply installed.noLiveVersion
        · intro index table at_index _
          exact notLive table (mem_of_getElem? at_index)
        · intro replacement _
          apply survivor_of_notLive wellFormed
          intro table member
          obtain ⟨index, _, at_index⟩ := mem_groupTables member
          exact notLive table (mem_of_getElem? at_index)

/-- A key whose newest version is a tombstone is read as missing after every
run of compactions that meet the condition. -/
theorem deleted_key_stays_deleted {start : TableState} (sound : start.Sound config cf)
    (wellFormed : ∀ table ∈ start.versions.getTables cf,
      table.WellFormed config start.dir)
    (blockCache : start.versions.hasBlockCache = true)
    (uncached : start.versions.kvCache[key]? = none)
    (tombstone : TombstoneNewest cf key start)
    {plans : List CompactionPlan}
    (run : Guarded (compactCfCore config cf) (fun state plan =>
      plan.Admissible cf state ∧ KeepsDeletion cf key state plan) start plans)
        (now : Nanos) :
    ((plans.foldl (compactCfCore config cf) start).versions.get
      (plans.foldl (compactCfCore config cf) start).dir now cf key).1 = none := by
  have initial : Deleted config cf key start :=
    ⟨sound, wellFormed, blockCache, uncached, .inl tombstone⟩
  have reached := run.invariant (fun state plan deleted conditions =>
      Deleted.compactCfCore deleted conditions.1 conditions.2) initial
  exact reached.get_eq_none now

end

/-! ## Two compactions -/

def singleTombstone (now : Nanos) (key : Bytes) : ByteMap LogRecord :=
  (∅ : ByteMap LogRecord).insert key (LogRecord.tombstone now key)

namespace Table

variable {config : StorageConfig} {dir : SstDir} {path : String} {now : Nanos}
  {key value : Bytes}

theorem wellFormed_withContents {records : ByteMap LogRecord}
    (file : dir[path]? = some (.table records)) (level : Nat)
    (tombstones : ∀ (key : Bytes) record, records[key]? = some record →
      record.isDeleted = true → record.value = []) :
    (withContents config path records level).WellFormed config dir := by
  refine ⟨.inl ⟨path, records, file, rfl⟩, ?_⟩
  intro key record found
  rw [version_of_path rfl, fileRecord_of_table rfl file] at found
  exact tombstones key record found

theorem wellFormed_single
    (file : dir[path]? = some (.table (singleRecord now key value)))
    (level : Nat) :
    (withContents config path (singleRecord now key value) level).WellFormed
      config dir := by
  apply wellFormed_withContents file
  intro other record found deleted
  rw [singleRecord, ByteMap.getElem?_insert] at found
  split at found
  · cases found
    cases deleted
  · simp at found

theorem tombstone_of_single {other : Bytes} {record : LogRecord}
    (found : (singleTombstone now key)[other]? = some record) :
    record.isDeleted = true ∧ record.value = [] := by
  rw [singleTombstone, ByteMap.getElem?_insert] at found
  split at found
  · cases found
    exact ⟨rfl, rfl⟩
  · simp at found

variable (file : dir[path]? = some (.table (singleTombstone now key))) (level : Nat)
include file level

theorem wellFormed_tombstone :
    (withContents config path (singleTombstone now key) level).WellFormed
      config dir := by
  apply wellFormed_withContents file
  intro other record found _
  exact (tombstone_of_single found).2

theorem notLive_tombstone (other : Bytes) :
    (withContents config path (singleTombstone now key) level).NotLive dir other := by
  intro record found
  rw [version_of_path rfl, fileRecord_of_table rfl file] at found
  exact (tombstone_of_single found).1

end Table

theorem search_of_data (dir : SstDir) (hasBlockCache : Bool) (now : Nanos)
    {key value : Bytes} {table : Table} (older : List Table)
    (quarantined : List String) (admitted : table.admits key = true)
    (held : table.data[key]? = some value) (nonempty : value ≠ []) :
    search dir hasBlockCache now key (table :: older) quarantined =
      (some value, quarantined) := by
  have probed : table.probe dir hasBlockCache quarantined now key =
      .found value := by simp [probe, admitted, held, nonempty]
  rw [search, probed]

/-- A value and its tombstone in one group: both are dropped. -/
theorem deleted_key_stays_deleted_in_group :
    let config : StorageConfig :=
      { blockSize := 4096, bloomCollides := fun _ _ => false }
    let value := singleRecord 1 [7] [1]
    let deletion := singleTombstone 2 [7]
    let tables := [withContents config "flush_1.sst" value 0,
      withContents config "flush_2.sst" deletion 0]
    let state : TableState :=
      { versions := (VersionSet.new true).setTables "default" tables
        dir := ((∅ : SstDir).insert "flush_1.sst" (.table value)).insert
          "flush_2.sst" (.table deletion) }
    let plan : CompactionPlan :=
      { strategy := .leveled { levelMultiplier := 2 }, tombstones := []
        jobs := [([0, 1], { timestamp := 3, stamp := fun _ => 3 })] }
    plan.Admissible "default" state ∧
    ∀ now, ((compactCfCore config "default" state plan).versions.get
      (compactCfCore config "default" state plan).dir now "default" [7]).1 =
        none := by
  intro config value deletion tables state plan
  have wellFormed : ∀ table ∈ tables, table.WellFormed config state.dir := by
    simp only [tables, forall_mem_cons]
    exact ⟨wellFormed_single rfl 0, wellFormed_tombstone rfl 0, by simp⟩
  have sound : state.Sound config "default" := by
    refine ⟨fun table member => (wellFormed table member).produced, ?_⟩
    change DistinctFiles tables
    simp [DistinctFiles, tables, withContents, ofRecords]
  have tombstone : TombstoneNewest "default" [7] state := by
    refine ⟨[tables[0]], tables[1], [], LogRecord.tombstone 2 [7], rfl, ?_,
      rfl, by simp [state, VersionSet.new, setTables], by simp⟩
    decide +kernel
  have admissible : plan.Admissible "default" state := by decide +kernel
  have keeps : KeepsDeletion "default" [7] state plan := by
    intro older table newer _ _ _ group picked _
    have same : group = [0, 1] := mem_singleton.mp picked
    subst same
    have newest : newestData (groupTables tables [0, 1]) [7] = some [] := by decide +kernel
    refine ⟨fun found at_found => ?_, ?_⟩
    · left
      exact Option.some.inj (at_found.symm.trans newest)
    · intro index outside at_index beyond
      have below : index < 2 := (List.getElem?_eq_some_iff.mp at_index).1
      simp only [mem_cons] at beyond
      omega
  have run : Guarded (compactCfCore config "default") (fun state plan =>
      plan.Admissible "default" state ∧ KeepsDeletion "default" [7] state plan) state [plan] :=
    ⟨⟨admissible, keeps⟩, trivial⟩
  exact ⟨admissible, deleted_key_stays_deleted sound wellFormed rfl rfl tombstone run⟩

/-- A value outside the group of its tombstone: the merge drops the tombstone,
and the deleted value is read again. -/
theorem compaction_revives_deleted_key :
    let config : StorageConfig :=
      { blockSize := 4096, bloomCollides := fun _ _ => false }
    let value := singleRecord 1 [7] [1]
    let deletion := singleTombstone 2 [7]
    let other := singleTombstone 3 [8]
    let tables := [withContents config "sst_1.sst" value 1,
      withContents config "flush_2.sst" deletion 0,
      withContents config "flush_3.sst" other 0]
    let state : TableState :=
      { versions := (VersionSet.new true).setTables "default" tables
        dir := (((∅ : SstDir).insert "sst_1.sst" (.table value)).insert
          "flush_2.sst" (.table deletion)).insert "flush_3.sst" (.table other) }
    let plan : CompactionPlan :=
      { strategy := .lazyLeveling .default .default, tombstones := []
        jobs := [([1, 2], { timestamp := 4, stamp := fun _ => 4 })] }
    state.Sound config "default" ∧
    (∀ table ∈ tables, table.WellFormed config state.dir) ∧
    TombstoneNewest "default" [7] state ∧ plan.Admissible "default" state ∧
    (state.versions.get state.dir 5 "default" [7]).1 = none ∧
    ((compactCfCore config "default" state plan).versions.get
      (compactCfCore config "default" state plan).dir 5 "default" [7]).1 = some [1] := by
  intro config value deletion other tables state plan
  have wellFormed : ∀ table ∈ tables, table.WellFormed config state.dir := by
    simp only [tables, forall_mem_cons]
    exact ⟨wellFormed_single rfl 1, wellFormed_tombstone rfl 0,
      wellFormed_tombstone rfl 0, by simp⟩
  have sound : state.Sound config "default" := by
    refine ⟨fun table member => (wellFormed table member).produced, ?_⟩
    change DistinctFiles tables
    simp [DistinctFiles, tables, withContents, ofRecords]
  have tombstone : TombstoneNewest "default" [7] state := by
    refine ⟨[tables[0]], tables[1], [tables[2]], LogRecord.tombstone 2 [7],
      rfl, by decide +kernel, rfl, by simp [state, VersionSet.new, setTables], ?_⟩
    intro table member
    rw [mem_singleton.mp member]
    decide +kernel
  have admissible : plan.Admissible "default" state := by decide +kernel
  have deleted : Deleted config "default" [7] state := ⟨sound, wellFormed, rfl, rfl, .inl tombstone⟩
  refine ⟨sound, wellFormed, tombstone, admissible, deleted.get_eq_none 5, ?_⟩
  have nothing : ∀ key, survivor (groupTables tables [1, 2]) [] key = none := by
    intro key
    apply survivor_of_notLive wellFormed
    have both : ∀ table ∈ [tables[1], tables[2]], table.NotLive state.dir key := by
      simp only [forall_mem_cons]
      exact ⟨notLive_tombstone rfl 0 key, notLive_tombstone rfl 0 key, by simp⟩
    exact both
  have compacted := compact_of_no_survivor plan.strategy config state.dir
    { timestamp := 4, stamp := fun _ => 4 } nothing
  have done := compactGroups_single (Prod.ext compacted rfl)
  have listed_after : ((state.versions.atomicReplaceGroups "default"
      [([1, 2], [])]).2).getTables "default" = [tables[0]] := getTables_atomicReplaceGroups ..
  have uncached : (state.versions.atomicReplaceGroups "default"
      [([1, 2], [])]).2.kvCache[([7] : Bytes)]? = none := by
    simp [kvCache_atomicReplaceGroups "default" _ (rfl : state.versions.kvCache = ∅)]
  have listed : state.versions.getTables "default" = tables := rfl
  rw [compactCfCore, listed, done]
  rw [get_of_uncached uncached, listed_after, reverse_singleton, search_of_data]
  · exact (ofRecords_admits config "sst_1.sst" (by decide +kernel)).1
  · decide +kernel
  · decide

end ApexStore
