import ApexStore.Engine.Discovery
import ApexStore.Engine.Flush

/-!
# Version order across a restart

The age of a table is not written down anywhere: after a restart the tables
stand in the order of their file names.  That order agrees with the order they
stood in before wherever it matters, and every newest version stays the newest
one, as long as each new file, flushed or compacted, gets a name that sorts
into its place among the tables it shares keys with
(`restart_preserves_versions`).
-/

namespace ApexStore

open VersionSet List Option Table TableState

variable {records : ByteMap LogRecord} {clock : FlushClock}

/-- A step in the life of the tables of a family. -/
inductive StoreOp where
  | flush (clock : FlushClock) (data : ByteMap LogRecord)
  | compact (plan : CompactionPlan)

def StoreOp.step (config : StorageConfig) (cf : String)
    (state : TableState) : StoreOp → TableState
  | flush clock data =>
    match flushTable config state.dir clock data with
    | (.ok table, dir) =>
      { versions := state.versions.addTable cf table, dir }
    | (.error _, dir) => { state with dir }
  | compact plan => compactCfCore config cf state plan

def Table.name (table : Table) : String := table.path.getD ""

/-- The output of every group gets a name that sorts after the tables before
it, and before the tables behind it, that share a key with the group. -/
structure CompactionPlan.InPlace (plan : CompactionPlan) (cf : String)
    (state : TableState) : Prop where
  tables : ∀ job ∈ plan.jobs, ∀ start, job.1.min? = some start →
    ∀ index table, (state.versions.getTables cf)[index]? = some table →
    (∀ group ∈ plan.jobs.map (·.1), index ∉ group) →
      ∀ key, (table.version state.dir key).isSome →
    ∀ member ∈ groupTables (state.versions.getTables cf) job.1,
      (member.version state.dir key).isSome → (index < start → table.name <
        outputName plan.strategy (state.versions.getTables cf) job.1 job.2) ∧
          (start < index →
        outputName plan.strategy (state.versions.getTables cf) job.1 job.2 < table.name)
  groups : ∀ job ∈ plan.jobs, ∀ start, job.1.min? = some start →
    ∀ job' ∈ plan.jobs, ∀ start', job'.1.min? = some start' → start < start' →
    ∀ key, ∀ member ∈ groupTables (state.versions.getTables cf) job.1,
      (member.version state.dir key).isSome →
    ∀ member' ∈ groupTables (state.versions.getTables cf) job'.1,
      (member'.version state.dir key).isSome →
      outputName plan.strategy (state.versions.getTables cf) job.1 job.2 <
        outputName plan.strategy (state.versions.getTables cf) job'.1 job'.2

/-- The condition on the steps of a history.  A flush gets a name that sorts
after the tables it shares a key with. -/
def StoreOp.KeepsOrder (config : StorageConfig) (cf : String)
    (state : TableState) : StoreOp → Prop
  | flush clock data =>
    state.dir[flushName clock.now]? = none ∧
    ∀ table ∈ state.versions.getTables cf, ∀ key record,
      (key, record) ∈ combinedEntries clock data →
        (table.version state.dir key).isSome →
      table.name < flushName clock.now
  | compact plan =>
    plan.Admissible cf state ∧
    plan.Fits config (state.versions.getTables cf) ∧ plan.InPlace cf state

/-- Older tables have smaller names than newer ones that share a key. -/
def Aligned (dir : SstDir) (tables : List Table) : Prop :=
  tables.Pairwise (fun older newer => ∀ key,
    (older.version dir key).isSome → (newer.version dir key).isSome →
      older.name < newer.name)

/-- What holds between two steps of such a history. -/
structure InOrder (config : StorageConfig) (cf : String) (state : TableState) :
    Prop where
  sound : state.Sound config cf
  onDisk : ∀ table ∈ state.versions.getTables cf, table.path ≠ none
  aligned : Aligned state.dir (state.versions.getTables cf)
  tracked : state.Tracked cf
  readable : state.versions.quarantined = []

variable {config : StorageConfig} {cf : String} {state : TableState}

variable {table : Table} {name : String}

variable {dir : SstDir} {path : String} {plan : CompactionPlan}

theorem Table.Produced.file (produced : table.Produced config dir)
    (located : table.path = some path) :
    ∃ records, dir[path]? = some (.table records) ∧
      ∀ key, table.version dir key = records[key]? := by
  rcases produced.cases with ⟨other, records, at_other, file, _⟩ | ⟨nowhere, _⟩
  · have same : path = other := Option.some.inj (located.symm.trans at_other)
    subst same
    refine ⟨records, file, fun key => ?_⟩
    rw [version_of_path located, fileRecord_of_table located file]
  · rw [nowhere] at located
    cases located

section

variable (sound : state.Sound config cf)
include sound

section

variable (unused : state.dir[name]? = none)
include unused

theorem TableState.Sound.name_ne :
    ∀ table ∈ state.versions.getTables cf, table.path ≠ some name := by
  intro table member located
  obtain ⟨records, file, _⟩ := (sound.produced table member).file located
  rw [unused] at file
  cases file

theorem TableState.Sound.same_files (file : SstFile) :
    ∀ table ∈ state.versions.getTables cf, ∀ path, table.path = some path →
      (state.dir.insert name file)[path]? = state.dir[path]? := by
  intro table member path located
  rw [NameMap.getElem?_insert, if_neg]
  rintro rfl
  exact sound.name_ne unused table member located

theorem TableState.Sound.insertFile (file : SstFile) :
    TableState.Sound config cf { state with dir := state.dir.insert name file } := by
  refine ⟨?_, sound.distinct⟩
  intro table member
  exact (sound.produced table member).of_same_file
    (sound.same_files unused file table member)

theorem TableState.Sound.addTable
    (filled : table.Filled config (state.dir.insert name (.table records)))
    (located : table.path = some name) : TableState.Sound config cf
      { versions := state.versions.addTable cf table
        dir := state.dir.insert name (.table records) } := by
  constructor
  · rw [getTables_addTable]
    intro other member
    rcases mem_append.mp member with old | new
    · exact (sound.insertFile unused _).produced other old
    · rw [mem_singleton.mp new]
      exact .inl filled
  · rw [getTables_addTable, DistinctFiles, pairwise_append]
    refine ⟨sound.distinct, pairwise_singleton _ _, ?_⟩
    intro older old newer new path older_located newer_located
    rw [mem_singleton.mp new, located] at newer_located
    cases newer_located
    exact sound.name_ne unused older old older_located

end

theorem TableState.Sound.flush (unused : state.dir[flushName clock.now]? = none)
    (data : ByteMap LogRecord) :
    ((StoreOp.flush clock data).step config cf state).Sound config cf := by
  rw [StoreOp.step]
  split
  · next table dir flushed =>
    obtain ⟨sorted, rfl, rfl⟩ := flushTable_ok flushed
    exact sound.addTable unused ⟨_, _, by rw [NameMap.getElem?_insert, if_pos rfl], rfl⟩ rfl
  · next error dir failed =>
    rw [flushTable_error failed]
    exact sound.insertFile unused .unfinished

end

theorem Table.name_of_path (located : table.path = some path) : table.name = path := by
  rw [name, located, getD_some]

theorem Aligned.of_same_files {dir' : SstDir} {tables : List Table}
    (aligned : Aligned dir tables)
    (same : ∀ table ∈ tables, ∀ path, table.path = some path →
      dir'[path]? = dir[path]?) : Aligned dir' tables := by
  apply List.Pairwise.imp_of_mem _ aligned
  intro older newer older_member newer_member ordered key
  rw [version_congr (same older older_member), version_congr (same newer newer_member)]
  exact ordered key

theorem InOrder.addTable (order : InOrder config cf state)
    (unused : state.dir[name]? = none)
    (filled : table.Filled config (state.dir.insert name (.table records)))
    (located : table.path = some name)
    (after : ∀ older ∈ state.versions.getTables cf, ∀ key,
      (older.version state.dir key).isSome → records[key]?.isSome →
        older.name < name) :
    InOrder config cf
      { versions := state.versions.addTable cf table
        dir := state.dir.insert name (.table records) } := by
  have same := order.sound.same_files unused (.table records)
  have file : (state.dir.insert name (.table records))[name]? = some (.table records) := by
    rw [NameMap.getElem?_insert, if_pos rfl]
  refine ⟨order.sound.addTable unused filled located, ?_, ?_, ?_, order.readable⟩
  · rw [getTables_addTable]
    intro other member
    rcases mem_append.mp member with old | new
    · exact order.onDisk other old
    · rw [mem_singleton.mp new, located]
      exact some_ne_none name
  · rw [getTables_addTable, Aligned, pairwise_append]
    refine ⟨order.aligned.of_same_files same, pairwise_singleton _ _, ?_⟩
    intro older old newer new key older_has newer_has
    rw [version_congr (same older old)] at older_has
    rw [mem_singleton.mp new, version_of_path located,
      fileRecord_of_table located file] at newer_has
    rw [mem_singleton.mp new, name_of_path located]
    exact after older old key older_has newer_has
  · intro other contents at_other
    rw [getTables_addTable]
    rw [NameMap.getElem?_insert] at at_other
    split at at_other
    · next here =>
      exact ⟨table, by simp, by rw [located, here]⟩
    · obtain ⟨owner, listed, owner_located⟩ := order.tracked other contents at_other
      exact ⟨owner, mem_append_left _ listed, owner_located⟩

theorem InOrder.addUnfinished (order : InOrder config cf state)
    (unused : state.dir[name]? = none) :
    InOrder config cf { state with dir := state.dir.insert name .unfinished } := by
  refine ⟨order.sound.insertFile unused .unfinished, order.onDisk,
    order.aligned.of_same_files (order.sound.same_files unused .unfinished), ?_,
      order.readable⟩
  · intro other contents at_other
    rw [NameMap.getElem?_insert] at at_other
    split at at_other
    · cases at_other
    · exact order.tracked other contents at_other

theorem InOrder.flush (order : InOrder config cf state) {data : ByteMap LogRecord}
    (keeps : (StoreOp.flush clock data).KeepsOrder config cf state) :
    InOrder config cf ((StoreOp.flush clock data).step config cf state) := by
  obtain ⟨unused, after⟩ := keeps
  rw [StoreOp.step]
  split
  · next table dir flushed =>
    obtain ⟨sorted, rfl, rfl⟩ := flushTable_ok flushed
    apply order.addTable unused
    · exact ⟨_, _, by rw [NameMap.getElem?_insert, if_pos rfl], rfl⟩
    · rfl
    · intro older member key older_has newer_has
      obtain ⟨record, found⟩ := isSome_iff_exists.mp newer_has
      exact after older member key record
        ((ByteMap.getElem?_insertAll_empty sorted key record).mp found) older_has
  · next error dir failed =>
    rw [flushTable_error failed]
    exact order.addUnfinished unused

theorem Installed.aligned {before after : TableState} {replacements : List Replacement}
    (installed : Installed config cf plan before after replacements)
    (order : InOrder config cf before) (admissible : plan.Admissible cf before)
    (inPlace : plan.InPlace cf before) :
    Aligned after.dir (after.versions.getTables cf) := by
  have sound := order.sound
  have valid : DisjointGroups (before.versions.getTables cf).length (replacements.map (·.1)) := by
    rw [installed.groups]
    exact (pickTables_disjoint plan.strategy _).sublist admissible.picked
  have outside : ∀ index, isRemoved replacements index = false →
      ∀ group ∈ plan.jobs.map (·.1), index ∉ group := by
    intro index stays group picked inside
    rw [← installed.groups] at picked
    rw [(isRemoved_iff index).mpr ⟨group, picked, inside⟩] at stays
    cases stays
  have starts_at : ∀ replacement ∈ replacements, ∀ start,
      firstIndex (before.versions.getTables cf).length replacement.1 =
        some start → replacement.1.min? = some start := by
    intro replacement in_plan start starts
    rwa [firstIndex_eq (valid.below _ (mem_map_of_mem in_plan))] at starts
  apply installed.pairwise
  · intro first second table other before_second at_first at_second
      first_stays second_stays key has other_has
    rw [version_congr (installed.kept first table at_first first_stays)] at has
    rw [version_congr (installed.kept second other at_second second_stays)] at other_has
    obtain ⟨first_bound, rfl⟩ := List.getElem?_eq_some_iff.mp at_first
    obtain ⟨second_bound, rfl⟩ := List.getElem?_eq_some_iff.mp at_second
    exact pairwise_iff_getElem.mp order.aligned first second first_bound
      second_bound before_second key has other_has
  · intro index start table before_start at_index stays replacement in_plan
      starts output produced key has output_has
    rw [version_congr (installed.kept index table at_index stays)] at has
    obtain ⟨job, in_jobs, of_job, merged⟩ := installed.mem_output in_plan produced
    obtain ⟨member, in_group, member_has⟩ :=
      installed.version_of_output sound in_plan produced output_has
    rw [name_of_path merged.path]
    rw [← of_job] at in_group
    exact (inPlace.tables job in_jobs start
      (of_job ▸ starts_at replacement in_plan start starts) index table
      at_index (outside index stays) key has member in_group member_has).1 before_start
  · intro index start table after_start at_index stays replacement in_plan
      starts output produced key output_has has
    rw [version_congr (installed.kept index table at_index stays)] at has
    obtain ⟨job, in_jobs, of_job, merged⟩ := installed.mem_output in_plan produced
    obtain ⟨member, in_group, member_has⟩ :=
      installed.version_of_output sound in_plan produced output_has
    rw [name_of_path merged.path]
    rw [← of_job] at in_group
    exact (inPlace.tables job in_jobs start
      (of_job ▸ starts_at replacement in_plan start starts) index table
      at_index (outside index stays) key has member in_group member_has).2 after_start
  · intro start start' before_start' replacement in_plan starts replacement'
      in_plan' starts' output produced output' produced' key has has'
    obtain ⟨job, in_jobs, of_job, merged⟩ := installed.mem_output in_plan produced
    obtain ⟨job', in_jobs', of_job', merged'⟩ := installed.mem_output in_plan' produced'
    obtain ⟨member, in_group, member_has⟩ :=
      installed.version_of_output sound in_plan produced has
    obtain ⟨member', in_group', member_has'⟩ :=
      installed.version_of_output sound in_plan' produced' has'
    rw [name_of_path merged.path, name_of_path merged'.path]
    rw [← of_job] at in_group
    rw [← of_job'] at in_group'
    exact inPlace.groups job in_jobs start
      (of_job ▸ starts_at replacement in_plan start starts) job' in_jobs'
      start' (of_job' ▸ starts_at replacement' in_plan' start' starts')
      before_start' key member in_group member_has member' in_group' member_has'

theorem InOrder.compact (order : InOrder config cf state)
    (keeps : (StoreOp.compact plan).KeepsOrder config cf state) :
    InOrder config cf ((StoreOp.compact plan).step config cf state) := by
  obtain ⟨admissible, fits, inPlace⟩ := keeps
  have sound := compactCfCore_sound order.sound admissible.fresh
  have tracked := compactCfCore_tracked order.tracked admissible fits
  rcases compactCfCore_cases order.sound admissible.fresh with
    ⟨versions, kept⟩ | ⟨replacements, installed⟩
  · refine ⟨sound, ?_, ?_, tracked, ?_⟩
    · rw [StoreOp.step, versions]
      exact order.onDisk
    · rw [StoreOp.step, versions]
      exact order.aligned.of_same_files kept
    · rw [StoreOp.step, versions]
      exact order.readable
  · refine ⟨sound, ?_, installed.aligned order admissible inPlace, tracked, ?_⟩
    · intro table member
      rcases installed.mem_tables member with ⟨old, _⟩ | ⟨_, _, merged⟩
      · exact order.onDisk table old
      · rw [merged.path]
        exact some_ne_none _
    · rw [StoreOp.step, installed.versions, quarantined_atomicReplaceGroups]
      exact order.readable

theorem InOrder.step (order : InOrder config cf state) {op : StoreOp}
    (keeps : op.KeepsOrder config cf state) :
    InOrder config cf (op.step config cf state) := by
  cases op with
  | flush clock data => exact order.flush keeps
  | compact plan => exact order.compact keeps

/-- All that a shutdown leaves is the directory. -/
def TableState.shutdown (state : TableState) : TableState :=
  { versions := .new true, dir := state.dir }

theorem InOrder.empty (config : StorageConfig) (cf : String) :
    InOrder config cf .empty := by
  have no_tables : TableState.empty.versions.getTables cf = [] := by
    simp [TableState.empty, VersionSet.new, getTables]
  refine ⟨⟨?_, ?_⟩, ?_, ?_, ?_, rfl⟩
  · simp [no_tables]
  · simp [no_tables, DistinctFiles]
  · simp [no_tables]
  · simp [no_tables, Aligned]
  · intro name records present
    simp [TableState.empty] at present

/-- Two tables that share a key stand in the same order in both states. -/
def SameOrder (cf : String) (before after : TableState) : Prop :=
  ∀ (first second : Nat) (older newer : Table), first < second →
    (before.versions.getTables cf)[first]? = some older →
    (before.versions.getTables cf)[second]? = some newer →
    (∃ key, (older.version before.dir key).isSome ∧ (newer.version before.dir key).isSome) →
    ∃ (first' second' : Nat) (older' newer' : Table), first' < second' ∧
      (after.versions.getTables cf)[first']? = some older' ∧
      (after.versions.getTables cf)[second']? = some newer' ∧
      older'.path = older.path ∧ newer'.path = newer.path

section Restart

variable {after : TableState}
  (discovered : Discovered config state.dir.toList state.shutdown after)

include discovered

theorem Discovered.tables_eq :
    after.versions.getTables "default" = state.dir.toList.filterMap
        (fun entry => entry.2.reopen config entry.1) := by
  rw [discovered.tables]
  simp [shutdown, VersionSet.new, getTables]

variable {table : Table} {name : String} {records : ByteMap LogRecord}

theorem Discovered.mem_tables : table ∈ after.versions.getTables "default" ↔
      ∃ name records, state.dir[name]? = some (.table records) ∧
        table = .ofRecords config name records := by
  rw [discovered.tables_eq, mem_filterMap]
  constructor
  · rintro ⟨⟨name, file⟩, listed, loaded⟩
    cases file with
    | table records =>
      exact ⟨name, records, (NameMap.mem_toList _ _ _).mp listed,
        (Option.some.inj loaded).symm⟩
    | unfinished => cases loaded
  · rintro ⟨name, records, file, rfl⟩
    exact ⟨(name, .table records), (NameMap.mem_toList _ _ _).mpr file, rfl⟩

theorem Discovered.sorted : (after.versions.getTables "default").Pairwise
      (fun first second => first.name < second.name) := by
  rw [discovered.tables_eq, pairwise_filterMap]
  apply state.dir.toList_sorted.imp
  rintro ⟨first, file⟩ ⟨second, other⟩ before table loaded table' loaded'
  cases file with
  | unfinished => cases loaded
  | table records =>
    cases other with
    | unfinished => cases loaded'
    | table records' =>
      cases loaded
      cases loaded'
      exact before

theorem Discovered.file (present : state.dir[name]? = some (.table records)) :
    after.dir[name]? = some (.table records) := by
  refine (discovered.files name ?_).trans present
  intro listed
  rw [NameMap.mem_toList, present] at listed
  cases listed

theorem Discovered.produced : ∀ table ∈ after.versions.getTables "default",
      table.Produced config after.dir := by
  intro table member
  obtain ⟨name, records, file, rfl⟩ := discovered.mem_tables.mp member
  exact .inr (.inl ⟨name, records, discovered.file file, rfl⟩)

theorem Discovered.getRecord_of_last {key : Bytes} {record : LogRecord}
    (file : state.dir[name]? = some (.table records))
    (held : records[key]? = some record)
    (last : ∀ other contents, state.dir[other]? = some (.table contents) →
      other ≤ name) :
    after.versions.getRecord after.dir "default" key = .ok (some record) := by
  have none_isolated : after.versions.quarantined = [] := discovered.quarantined
  rw [getRecord, none_isolated,
    getRecordIn_eq key (fun table member => discovered.produced table
      (mem_reverse.mp member)) (by simp)]
  congr 1
  apply (findSome?_reverse_of_ranked Table.name
    (discovered.sorted.imp (fun named _ _ => named)) record).mpr
  refine ⟨.ofRecords config name records,
    discovered.mem_tables.mpr ⟨name, records, file, rfl⟩, ?_, ?_⟩
  · rw [Table.version_of_path rfl,
      Table.fileRecord_of_table rfl (discovered.file file), held]
  · intro other member _
    obtain ⟨other_name, contents, other_file, rfl⟩ := discovered.mem_tables.mp member
    exact last other_name contents other_file

variable (order : InOrder config "default" state)
include order

theorem InOrder.reopened (member : table ∈ state.versions.getTables "default") :
    ∃ opened ∈ after.versions.getTables "default", opened.path = table.path ∧
      ∀ key, opened.version after.dir key = table.version state.dir key := by
  obtain ⟨name, located⟩ := ne_none_iff_exists'.mp (order.onDisk table member)
  obtain ⟨records, file, versions⟩ := (order.sound.produced table member).file located
  refine ⟨.ofRecords config name records,
    discovered.mem_tables.mpr ⟨name, records, file, rfl⟩, located.symm, ?_⟩
  intro key
  rw [versions, version_of_path rfl, fileRecord_of_table rfl (discovered.file file)]

theorem InOrder.known {opened : Table}
    (member : opened ∈ after.versions.getTables "default") :
    ∃ table ∈ state.versions.getTables "default", opened.path = table.path ∧
      ∀ key, opened.version after.dir key = table.version state.dir key := by
  obtain ⟨name, records, file, rfl⟩ := discovered.mem_tables.mp member
  obtain ⟨table, listed, located⟩ := order.tracked name records file
  obtain ⟨records', file', versions⟩ := (order.sound.produced table listed).file located
  rw [file] at file'
  cases file'
  refine ⟨table, listed, located.symm, ?_⟩
  intro key
  rw [versions, version_of_path rfl, fileRecord_of_table rfl (discovered.file file)]

theorem InOrder.same_order : SameOrder "default" state after := by
  rintro first second older newer before at_first at_second ⟨key, older_has, newer_has⟩
  obtain ⟨older', older_listed, older_path, _⟩ :=
    order.reopened discovered (mem_of_getElem? at_first)
  obtain ⟨newer', newer_listed, newer_path, _⟩ :=
    order.reopened discovered (mem_of_getElem? at_second)
  have named : older'.name < newer'.name := by
    obtain ⟨first_bound, rfl⟩ := List.getElem?_eq_some_iff.mp at_first
    obtain ⟨second_bound, rfl⟩ := List.getElem?_eq_some_iff.mp at_second
    rw [name, older_path, name, newer_path]
    exact pairwise_iff_getElem.mp order.aligned first second first_bound
      second_bound before key older_has newer_has
  obtain ⟨first', first_bound', rfl⟩ := getElem_of_mem older_listed
  obtain ⟨second', second_bound', rfl⟩ := getElem_of_mem newer_listed
  refine ⟨first', second', _, _, ?_, List.getElem?_eq_getElem first_bound',
    List.getElem?_eq_getElem second_bound', older_path, newer_path⟩
  -- the names increase along the list, so a later place means a larger name
  by_contra not_before
  rcases Nat.lt_or_eq_of_le (Nat.not_lt.mp not_before) with behind | same
  · exact lt_asymm named (pairwise_iff_getElem.mp discovered.sorted
      second' first' second_bound' first_bound' behind)
  · subst same
    exact lt_irrefl _ named

theorem InOrder.same_newest (key : Bytes) :
    (after.versions.getTables "default").reverse.findSome?
        (·.version after.dir key) =
          (state.versions.getTables "default").reverse.findSome?
        (·.version state.dir key) := by
  apply Option.ext
  intro found
  rw [findSome?_reverse_of_ranked name (discovered.sorted.imp (fun named _ _ => named)),
    findSome?_reverse_of_ranked name (order.aligned.imp (fun named => named key))]
  constructor
  · rintro ⟨opened, member, at_opened, highest⟩
    obtain ⟨table, listed, same_path, same⟩ := order.known discovered member
    refine ⟨table, listed, (same key).symm.trans at_opened, ?_⟩
    intro other other_listed present
    obtain ⟨opened', member', same_path', same'⟩ := order.reopened discovered other_listed
    have bound := highest opened' member' (by rw [same' key]; exact present)
    rwa [name, same_path', name, same_path] at bound
  · rintro ⟨table, listed, at_table, highest⟩
    obtain ⟨opened, member, same_path, same⟩ := order.reopened discovered listed
    refine ⟨opened, member, (same key).trans at_table, ?_⟩
    intro other other_member present
    obtain ⟨table', listed', same_path', same'⟩ := order.known discovered other_member
    have bound := highest table' listed' (by rw [← same' key]; exact present)
    rwa [name, ← same_path', name, ← same_path] at bound

theorem InOrder.same_record (key : Bytes) :
    after.versions.getRecord after.dir "default" key =
      state.versions.getRecord state.dir "default" key := by
  have none_isolated : after.versions.quarantined = [] := discovered.quarantined
  rw [getRecord, getRecord, none_isolated, order.readable,
    getRecordIn_eq key (fun table member => discovered.produced table
    (mem_reverse.mp member)) (by simp),
    getRecordIn_eq key (fun table member => order.sound.produced table
    (mem_reverse.mp member)) (by simp), order.same_newest discovered]

end Restart

/-- After a history in which every new file sorts into its place, a restart
keeps the order of any two tables that share a key, and the newest version of
every key. -/
theorem restart_preserves_versions {config : StorageConfig} {ops : List StoreOp}
    (run : Guarded (StoreOp.step config "default")
      (StoreOp.KeepsOrder config "default") .empty ops) :
    ∃ after, discoverSstablesFromDisk config
        (ops.foldl (StoreOp.step config "default") .empty).shutdown = .ok after ∧
      SameOrder "default" (ops.foldl (StoreOp.step config "default") .empty) after ∧
      ∀ key, after.versions.getRecord after.dir "default" key =
        (ops.foldl (StoreOp.step config "default") .empty).versions.getRecord
          (ops.foldl (StoreOp.step config "default") .empty).dir "default" key := by
  have order : InOrder config "default" (ops.foldl (StoreOp.step config "default") .empty) :=
    run.invariant (fun _ _ held keeps => InOrder.step held keeps) (InOrder.empty config "default")
  obtain ⟨after, found, discovered⟩ := discoverSstablesFromDisk_ok config
    (ops.foldl (StoreOp.step config "default") .empty).shutdown
  exact ⟨after, found, order.same_order discovered, order.same_record discovered⟩

theorem StoreOp.step_flush_single {now : Nanos} {key value : Bytes}
    (fits : SstableBuilder.entryFits config key (.new now key value) = true)
    (clock : FlushClock) (cf : String) (state : TableState) :
    (StoreOp.flush clock (singleRecord now key value)).step config cf state =
      { versions := state.versions.addTable cf
          (.withContents config (flushName clock.now) (singleRecord now key value) 0)
        dir := state.dir.insert (flushName clock.now)
          (.table (singleRecord now key value)) } := by
  rw [StoreOp.step, singleRecord, flushTable_single state.dir clock rfl fits]

/-- Two flushes of one key, in the order of their names. -/
theorem restart_preserves_flushed_versions :
    let config : StorageConfig :=
      { blockSize := 4096, bloomCollides := fun _ _ => false }
    let ops := [StoreOp.flush { now := 1, stamp := fun _ => 1 }
        (singleRecord 1 [7] [1]),
      StoreOp.flush { now := 2, stamp := fun _ => 2 } (singleRecord 2 [7] [2])]
    let before := ops.foldl (StoreOp.step config "default") .empty
    ∃ after, discoverSstablesFromDisk config before.shutdown = .ok after ∧
      SameOrder "default" before after ∧
      ∀ key, after.versions.getRecord after.dir "default" key =
        before.versions.getRecord before.dir "default" key := by
  intro config ops before
  apply restart_preserves_versions
  have fits : SstableBuilder.entryFits config [7] (.new 1 [7] [1]) = true := by
    decide +kernel
  have first := StoreOp.step_flush_single fits
    { now := 1, stamp := fun _ => 1 } "default" .empty
  refine ⟨⟨by simp [empty], ?_⟩, ?_, trivial⟩
  · intro table member
    simp [empty, VersionSet.new, getTables] at member
  · rw [first]
    refine ⟨?_, ?_⟩
    · dsimp only
      rw [NameMap.getElem?_insert, if_neg (by decide +kernel)]
      simp [empty]
    · intro table member key record _ _
      rw [getTables_addTable] at member
      have flushed : table = withContents config (flushName 1)
          (singleRecord 1 [7] [1]) 0 := by
        simpa [empty, VersionSet.new, getTables] using member
      rw [flushed]
      decide +kernel

/-- A compaction output is older than a table flushed after it, but its name
sorts behind all flushed tables: after a restart the older version is read. -/
theorem restart_revives_compacted_version :
    let config : StorageConfig :=
      { blockSize := 4096, bloomCollides := fun _ _ => false }
    let plan : CompactionPlan :=
      { strategy := .sizeTiered .default, tombstones := []
        jobs := [([0, 1], { timestamp := 3, stamp := fun _ => 3 })] }
    let flushes := [StoreOp.flush { now := 1, stamp := fun _ => 1 }
        (singleRecord 1 [7] [1]),
      StoreOp.flush { now := 2, stamp := fun _ => 2 } (singleRecord 2 [7] [2])]
    let merged := flushes.foldl (StoreOp.step config "default") .empty
    let before := [StoreOp.compact plan,
      StoreOp.flush { now := 4, stamp := fun _ => 4 }
        (singleRecord 4 [7] [3])].foldl (StoreOp.step config "default") merged
    plan.Admissible "default" merged ∧
    ∃ after newest revived,
      discoverSstablesFromDisk config before.shutdown = .ok after ∧
      before.versions.getRecord before.dir "default" [7] = .ok (some newest) ∧
      after.versions.getRecord after.dir "default" [7] = .ok (some revived) ∧
      newest.value = [3] ∧ revived.value = [2] := by
  intro config plan flushes merged before
  have empty : empty.Sound config "default" := (InOrder.empty config "default").sound
  have sound_merged : merged.Sound config "default" :=
    (empty.flush (by decide +kernel) _).flush (by decide +kernel) _
  have admissible : plan.Admissible "default" merged := by decide +kernel
  have sound : before.Sound config "default" :=
    (compactCfCore_sound sound_merged admissible.fresh).flush (by decide +kernel) _
  obtain ⟨after, found, discovered⟩ := discoverSstablesFromDisk_ok config before.shutdown
  have current : before.versions.getRecord before.dir "default" [7] =
      .ok (some (.new 4 [7] [3])) := by
    rw [getRecord, getRecordIn_eq [7] (fun table member =>
      sound.produced table (mem_reverse.mp member)) (by
        intro table _ path _
        rw [isEmpty_iff.mp (by decide +kernel : before.versions.quarantined.isEmpty = true)]
        exact not_mem_nil)]
    exact congrArg Except.ok (by decide +kernel)
  have merged_file : (before.dir["sst_3.sst"]?.bind fun file =>
      match file with
      | .table records => records[([7] : Bytes)]?.map (·.value)
      | _ => none) = some [2] := by decide +kernel
  obtain ⟨file, on_disk, held⟩ := bind_eq_some_iff.mp merged_file
  split at held
  · next records =>
    obtain ⟨revived, stored, value⟩ := map_eq_some_iff.mp held
    refine ⟨admissible, after, .new 4 [7] [3], revived, found, current,
      discovered.getRecord_of_last on_disk stored ?_, rfl, value⟩
    intro name contents present
    have names : before.dir.toList.all (fun entry =>
        decide (entry.1 ≤ "sst_3.sst")) = true := by decide +kernel
    exact of_decide_eq_true (all_eq_true.mp names _ ((NameMap.mem_toList _ _ _).mpr present))
  · cases held

end ApexStore
