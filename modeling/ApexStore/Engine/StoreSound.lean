import ApexStore.Engine.Lookup
import ApexStore.Engine.RestartOrder

/-!
# Sound stores

What holds of the tables of all families together, and of the files in the
directory: every table is as the engine makes tables, no two of them share a
file, nothing is quarantined, and tombstones carry no value.  Lookups,
flushes, compactions and a restart keep it.
-/

namespace ApexStore

open VersionSet TableState

structure StoreSound (config : StorageConfig) (store : TableState) : Prop where
  produced : ∀ cf, ∀ table ∈ store.versions.getTables cf, table.Produced config store.dir
  distinct : ∀ cf, DistinctFiles (store.versions.getTables cf)
  apart : ∀ cf other, cf ≠ other → ∀ table ∈ store.versions.getTables cf,
    ∀ table' ∈ store.versions.getTables other,
    ∀ path, table.path = some path → table'.path ≠ some path
  tombstones : ∀ (name : String) (records : ByteMap LogRecord),
    store.dir[name]? = some (.table records) →
    ∀ (key : Bytes) (record : LogRecord), records[key]? = some record →
      record.isDeleted = true → record.value = []
  readable : store.versions.quarantined = []
  blockCache : store.versions.hasBlockCache = true

variable {config : StorageConfig} {store : TableState} {cf : String}

variable {dir : SstDir} {tables : List Table} {replacements : List Replacement}

variable {table : Table} {plan : CompactionPlan}

theorem Table.Produced.probe_ne_unreadable (produced : table.Produced config dir)
    (hasBlockCache : Bool) (quarantined : List String) (now : Nanos) (key : Bytes)
    (path : String) :
    table.probe dir hasBlockCache quarantined now key ≠ .unreadable path := by
  have of_file :
      table.probeFile dir hasBlockCache quarantined now key ≠ .unreadable path := by
    rcases produced.cases with ⟨name, records, located, file, _⟩ | ⟨located, _⟩
    · rw [probeFile, located]
      dsimp only
      rw [SstDir.get_of_table file]
      cases records[key]? with
      | none => split <;> simp
      | some record =>
        dsimp only
        repeat' split
        all_goals simp
    · simp [probeFile, located]
  unfold probe
  repeat' split
  all_goals first | exact of_file | simp

theorem search_quarantined (produced : ∀ table ∈ tables, table.Produced config dir)
    (hasBlockCache : Bool) (now : Nanos) (key : Bytes) (quarantined : List String) :
    (search dir hasBlockCache now key tables quarantined).2 = quarantined := by
  induction tables with
  | nil => rfl
  | cons table tables ih =>
    have later := ih (List.forall_mem_cons.mp produced).2
    rw [search]
    cases probed : table.probe dir hasBlockCache quarantined now key with
    | miss => exact later
    | deleted => rfl
    | found value => rfl
    | unreadable path =>
      exact absurd probed ((produced table List.mem_cons_self).probe_ne_unreadable _ _ _ _ _)

namespace StoreSound

theorem empty (config : StorageConfig) : StoreSound config .empty := by
  have no_tables : ∀ cf, TableState.empty.versions.getTables cf = [] := by
    intro cf
    simp [TableState.empty, VersionSet.new, getTables]
  refine ⟨?_, ?_, ?_, ?_, rfl, rfl⟩
  · intro cf table member
    cases member
  · intro cf
    simp [no_tables, DistinctFiles]
  · intro cf other _ table member
    cases member
  · intro name records file
    simp [TableState.empty] at file

theorem family (sound : StoreSound config store) (cf : String) :
    store.Sound config cf :=
  ⟨sound.produced cf, sound.distinct cf⟩

variable {table : Table} {name : String}

variable (sound : StoreSound config store)
include sound

theorem wellFormed (member : table ∈ store.versions.getTables cf) :
    table.WellFormed config store.dir := by
  refine ⟨sound.produced cf table member, ?_⟩
  intro key record found deleted
  cases located : table.path with
  | some path =>
    obtain ⟨records, file, versions⟩ := (sound.produced cf table member).file located
    rw [versions] at found
    exact sound.tombstones path records file key record found deleted
  | none =>
    rw [Table.version, located] at found
    obtain ⟨value, _, rfl⟩ := Option.map_eq_some_iff.mp found
    exact List.isEmpty_iff.mp deleted

theorem get_eq (now : Nanos) (cf : String) (key : Bytes) :
    (store.versions.get store.dir now cf key).2 =
      { store.versions with
        kvCache :=
          match store.versions.kvCache[key]?,
              store.versions.lookup store.dir now cf key with
          | none, some value => store.versions.kvCache.insert key value
          | _, _ => store.versions.kvCache } := by
  have searched := search_quarantined
    (fun table member => sound.produced cf table (List.mem_reverse.mp member))
    store.versions.hasBlockCache now key store.versions.quarantined
  have found := (search_eq store.dir store.versions.hasBlockCache now key
    (store.versions.getTables cf).reverse store.versions.quarantined).1
  rw [VersionSet.get]
  cases cached : store.versions.kvCache[key]? with
  | some value => rfl
  | none =>
    rw [getUncached, lookup, ← found]
    dsimp only
    rw [searched]
    generalize (search store.dir store.versions.hasBlockCache now key
      (store.versions.getTables cf).reverse store.versions.quarantined).1 = result
    cases result <;> rfl

theorem withCache (kvCache : ByteMap Bytes) : StoreSound config
      { store with versions := { store.versions with kvCache } } :=
  ⟨sound.produced, sound.distinct, sound.apart, sound.tombstones, sound.readable,
    sound.blockCache⟩

theorem get (now : Nanos) (cf : String) (key : Bytes) : StoreSound config
      { store with
        versions := (store.versions.get store.dir now cf key).2 } := by
  rw [sound.get_eq]
  exact sound.withCache _

theorem path_ne (unused : store.dir[name]? = none)
    (member : table ∈ store.versions.getTables cf) :
    table.path ≠ some name := by
  intro located
  obtain ⟨records, file, _⟩ := (sound.produced cf table member).file located
  rw [unused] at file
  cases file

theorem withDir {dir : SstDir}
    (same : ∀ cf, ∀ table ∈ store.versions.getTables cf, ∀ path,
      table.path = some path → dir[path]? = store.dir[path]?)
    (tombstones : ∀ (name : String) (records : ByteMap LogRecord),
      dir[name]? = some (.table records) →
      ∀ (key : Bytes) (record : LogRecord), records[key]? = some record →
        record.isDeleted = true → record.value = []) :
    StoreSound config { store with dir } :=
  ⟨fun cf table member => (sound.produced cf table member).of_same_file
      (same cf table member), sound.distinct, sound.apart, tombstones, sound.readable,
    sound.blockCache⟩

theorem insertFile (unused : store.dir[name]? = none) (file : SstFile)
    (tombstones : ∀ records, file = .table records →
      ∀ (key : Bytes) (record : LogRecord), records[key]? = some record →
        record.isDeleted = true → record.value = []) :
    StoreSound config { store with dir := store.dir.insert name file } := by
  apply sound.withDir
  · intro cf table member path located
    rw [NameMap.getElem?_insert, if_neg]
    rintro rfl
    exact sound.path_ne unused member located
  · intro other records present
    rw [NameMap.getElem?_insert] at present
    split at present
    · exact tombstones records (Option.some.inj present)
    · exact sound.tombstones other records present

theorem addTable (produced : table.Produced config store.dir)
    (own : ∀ other, ∀ older ∈ store.versions.getTables other, ∀ path,
      table.path = some path → older.path ≠ some path) (cf : String) :
    StoreSound config
      { store with versions := store.versions.addTable cf table } := by
  have listed : ∀ {other : String} {member : Table},
      member ∈ (store.versions.addTable cf table).getTables other →
      member ∈ store.versions.getTables other ∨ (other = cf ∧ member = table) := by
    intro other member present
    by_cases here : cf = other
    · subst here
      rw [getTables_addTable, List.mem_append, List.mem_singleton] at present
      exact present.imp id (fun same => ⟨rfl, same⟩)
    · rw [getTables_addTable_ne here] at present
      exact .inl present
  refine ⟨?_, ?_, ?_, sound.tombstones, sound.readable, sound.blockCache⟩
  · intro other member present
    rcases listed present with old | ⟨_, rfl⟩
    · exact sound.produced other member old
    · exact produced
  · intro other
    by_cases here : cf = other
    · subst here
      rw [getTables_addTable]
      refine List.pairwise_append.mpr ⟨sound.distinct cf, List.pairwise_singleton _ _, ?_⟩
      intro older member newer last path located same
      rw [List.mem_singleton.mp last] at same
      exact own cf older member path same located
    · dsimp only
      rw [getTables_addTable_ne here]
      exact sound.distinct other
  · intro first second differ one at_first two at_second path located same
    rcases listed at_first with old | ⟨rfl, rfl⟩
    · rcases listed at_second with old' | ⟨rfl, rfl⟩
      · exact sound.apart first second differ one old two old' path located same
      · exact own first one old path same located
    · rcases listed at_second with old' | ⟨rfl, rfl⟩
      · exact own second two old' path located same
      · exact differ rfl

theorem addFile (unused : store.dir[name]? = none) {records : ByteMap LogRecord}
    (tombstones : ∀ (key : Bytes) (record : LogRecord), records[key]? = some record →
      record.isDeleted = true → record.value = []) (level : Nat) (cf : String) :
    StoreSound config
      { versions := store.versions.addTable cf
          (Table.withContents config name records level)
        dir := store.dir.insert name (.table records) } := by
  have written := sound.insertFile unused (.table records) (by
    rintro _ ⟨⟩
    exact tombstones)
  apply written.addTable
  · exact .inl ⟨name, records, by rw [NameMap.getElem?_insert, if_pos rfl], rfl⟩
  · rintro other older member path located same
    cases located
    exact sound.path_ne unused member same

theorem addMemory (data : ByteMap Bytes) (cf : String) : StoreSound config
      { store with
        versions := store.versions.addTable cf (Table.build config data) } := by
  apply sound.addTable
  · exact .inr (.inr rfl)
  · intro _ _ _ path located
    cases located

end StoreSound

/-! ## Compactions -/

theorem getTables_atomicReplaceGroups_ne {cf other : String}
    (differ : cf ≠ other) (versions : VersionSet) (replacements : List Replacement) :
    (versions.atomicReplaceGroups cf replacements).2.getTables other =
      versions.getTables other := by
  rcases atomicReplaceGroups_cases versions cf replacements with same | ⟨_, same⟩
  · rw [same]
  · simp [same, getTables, setTables, clearCache, bumpGeneration,
      NameMap.getElem?_insert, differ]

/-- The outputs of a compaction take the places of their groups, and the files
of the replaced tables are removed. -/
def TableState.install (store : TableState) (cf : String)
    (replacements : List Replacement) : TableState :=
  let (removed, versions) := store.versions.atomicReplaceGroups cf replacements
  { versions, dir := removeFiles store.dir removed }

theorem compactCfCore_eq_install
    (done : compactGroups plan.strategy config (store.versions.getTables cf)
      plan.tombstones store.dir plan.jobs = (.ok replacements, dir)) :
    compactCfCore config cf store plan =
      ({ store with dir } : TableState).install cf replacements := by
  rw [compactCfCore, done]
  rfl

namespace TableState

variable {replacements : List Replacement}

theorem getTables_install : (store.install cf replacements).versions.getTables cf =
      replaceGroups (store.versions.getTables cf) replacements :=
  getTables_atomicReplaceGroups store.versions cf replacements

theorem dir_install {path : String} (kept : ∀ index table,
      (store.versions.getTables cf)[index]? = some table →
      isRemoved replacements index = true → table.path ≠ some path) :
    (store.install cf replacements).dir[path]? = store.dir[path]? := by
  refine (getElem?_removeFiles _ _ _).trans (if_neg ?_)
  intro removed
  obtain ⟨index, table, at_index, located, gone⟩ := mem_removed removed
  exact kept index table at_index gone located

theorem mem_dir_install {name : String} {file : SstFile}
    (present : (store.install cf replacements).dir[name]? = some file) :
    store.dir[name]? = some file := by
  have removed := getElem?_removeFiles store.dir
    (store.versions.atomicReplaceGroups cf replacements).1 name
  rw [install, removed] at present
  split at present
  · cases present
  · exact present

end TableState

/-- The outputs of a compaction have files of their own. -/
structure OwnFiles (config : StorageConfig) (store : TableState)
    (replacements : List Replacement) : Prop where
  produced : ∀ replacement ∈ replacements, ∀ table ∈ replacement.2,
    table.Produced config store.dir
  new : ∀ replacement ∈ replacements, ∀ table ∈ replacement.2, ∀ path, table.path =
    some path →
    ∀ cf, ∀ old ∈ store.versions.getTables cf, old.path ≠ some path
  distinct : DistinctFiles (replacements.flatMap (·.2))

theorem OwnFiles.path_ne (own : OwnFiles config store replacements)
    {first second : Replacement}
    (in_first : first ∈ replacements) (in_second : second ∈ replacements)
    (apart : first ≠ second)
    {other : Table} (output : table ∈ first.2) (output' : other ∈ second.2)
    {path : String} (located : table.path = some path) : other.path ≠ some path := by
  have pairs := (List.pairwise_flatMap.mp own.distinct).2
  have symmetric : Std.Symm (fun first second : Replacement =>
      ∀ table ∈ first.2, ∀ other ∈ second.2, ∀ path,
        table.path = some path → other.path ≠ some path) :=
    ⟨fun _ _ differ table member other member' path located same =>
      differ other member' table member path same located⟩
  exact pairs.forall in_first in_second apart table output other output' path located

theorem OwnFiles.distinct_replaceGroups (own : OwnFiles config store replacements)
    (old : DistinctFiles (store.versions.getTables cf)) :
    DistinctFiles (replaceGroups (store.versions.getTables cf) replacements) := by
  rw [DistinctFiles, replaceGroups, List.pairwise_flatMap]
  constructor
  · rintro ⟨table, index⟩ listed
    have at_index := List.mk_mem_zipIdx_iff_getElem?.mp listed
    rw [List.pairwise_append]
    refine ⟨?_, ?_, ?_⟩
    · -- the outputs at one place are those of one group
      unfold outputsAt
      split
      · next replacement last =>
        have member := List.mem_of_mem_filter (List.mem_of_getLast? last)
        exact (List.pairwise_flatMap.mp own.distinct).1 replacement member
      · exact List.Pairwise.nil
    · split
      · exact List.Pairwise.nil
      · exact List.pairwise_singleton _ _
    · intro one output two stays path located same
      obtain ⟨replacement, member, produced, _⟩ := mem_outputsAt output
      split at stays
      · cases stays
      · rw [List.mem_singleton.mp stays] at same
        exact own.new replacement member one produced path located cf table
          (List.mem_of_getElem? at_index) same
  · rw [List.pairwise_iff_getElem]
    intro first second first_bound second_bound before_second
    rw [List.getElem_zipIdx, List.getElem_zipIdx]
    rw [List.length_zipIdx] at first_bound second_bound
    have at_first := List.getElem?_eq_getElem first_bound
    have at_second := List.getElem?_eq_getElem second_bound
    intro one one_placed two two_placed path located same
    rcases mem_placed one_placed with ⟨rfl, _⟩ | ⟨replacement, member, produced, starts⟩
    · rcases mem_placed two_placed with ⟨rfl, _⟩ | ⟨replacement, member, produced, _⟩
      · exact old.path_ne at_first at_second (by omega) located same
      · exact own.new replacement member two produced path same cf _
          (List.mem_of_getElem? at_first) located
    · rcases mem_placed two_placed with ⟨rfl, _⟩ |
        ⟨replacement', member', produced', starts'⟩
      · exact own.new replacement member one produced path located cf _
          (List.mem_of_getElem? at_second) same
      · refine own.path_ne member member' ?_ produced produced' located same
        rintro rfl
        rw [starts] at starts'
        have positions := Option.some.inj starts'
        omega

theorem compactGroups_paths {strategy : CompactionStrategy}
    {tombstones : List RangeTombstone} {dir' : SstDir} {jobs : List CompactionJob}
    (done : compactGroups strategy config tables tombstones dir jobs =
      (.ok replacements, dir')) : ((replacements.flatMap (·.2)).map (·.path)).Sublist
      ((jobs.map (fun job => outputName strategy tables job.1 job.2)).map some) := by
  induction jobs generalizing dir replacements with
  | nil =>
    cases done
    exact List.Sublist.refl _
  | cons job jobs ih =>
    rw [compactGroups] at done
    split at done
    · cases done
    next outputs middle compacted =>
      split at done
      · cases done
      next rest last others =>
        cases done
        rw [List.flatMap_cons, List.map_append]
        rcases compact_ok compacted with ⟨empty, _⟩ | ⟨only, one, merged⟩
        · rw [empty]
          exact (ih others).cons _
        · rw [one, List.map_singleton, merged.path]
          exact (ih others).cons_cons _

theorem distinctFiles_of_nodup {paths : List String}
    (listed : (tables.map (·.path)).Sublist (paths.map some))
    (distinct : paths.Nodup) : DistinctFiles tables := by
  have nodup := (distinct.map (Option.some_injective _)).sublist listed
  refine (List.pairwise_map.mp nodup).imp ?_
  intro first second differ path located same
  exact differ (located.trans same.symm)

theorem ownFiles_of_done (sound : StoreSound config store)
    (fresh : FreshNames plan.strategy
      (store.versions.getTables cf) store.dir plan.jobs)
    (done : compactGroups plan.strategy config (store.versions.getTables cf)
      plan.tombstones store.dir plan.jobs = (.ok replacements, dir)) :
    OwnFiles config { store with dir } replacements := by
  have plan_output := compactGroups_ok fresh.distinct done
  have merged : ∀ replacement ∈ replacements, ∀ table ∈ replacement.2,
      table.Filled config dir ∧ ∃ job ∈ plan.jobs, table.path = some
        (outputName plan.strategy (store.versions.getTables cf) job.1 job.2) := by
    intro replacement member table output
    obtain ⟨job, in_jobs, _, produced⟩ := plan_output.outputs replacement member
    rcases produced with ⟨empty, _⟩ | ⟨only, one, merged⟩
    · rw [empty] at output
      cases output
    · rw [one, List.mem_singleton] at output
      rw [output]
      exact ⟨merged.filled, job, in_jobs, merged.path⟩
  refine ⟨?_, ?_, ?_⟩
  · intro replacement member table output
    exact .inl (merged replacement member table output).1
  · intro replacement member table output path located other old listed same
    obtain ⟨job, in_jobs, named⟩ := (merged replacement member table output).2
    exact fresh.path_ne (sound.produced other old listed) same job in_jobs
      (Option.some.inj (located.symm.trans named))
  · exact distinctFiles_of_nodup (compactGroups_paths done) fresh.distinct

namespace StoreSound

variable (sound : StoreSound config store)
include sound

theorem merged (strategy : CompactionStrategy) (clock : CompactionClock)
    (indices : List Nat) (tables : List Table) (tombstones : List RangeTombstone)
    (unused : store.dir[outputName strategy tables indices clock]? = none) :
    StoreSound config { store with
      dir := (compact strategy config store.dir clock indices tables tombstones).2 } := by
  apply sound.withDir
  · intro cf table member path located
    apply compact_dir
    rintro rfl
    exact sound.path_ne unused member located
  · intro name records file key record found deleted
    rcases compact_live file with old | live
    · exact sound.tombstones name records old key record found deleted
    · rw [live key record found] at deleted
      cases deleted

theorem install {replacements : List Replacement}
    (own : OwnFiles config store replacements) (cf : String) :
    StoreSound config (store.install cf replacements) := by
  have mine := @TableState.getTables_install store cf replacements
  have others : ∀ other, cf ≠ other →
      (store.install cf replacements).versions.getTables other =
        store.versions.getTables other :=
    fun other differ => getTables_atomicReplaceGroups_ne differ _ _
  have foreign : ∀ other, cf ≠ other → ∀ table ∈
      replaceGroups (store.versions.getTables cf) replacements,
      ∀ table' ∈ store.versions.getTables other, ∀ path,
        table.path = some path → table'.path ≠ some path := by
    intro other differ table member table' member' path located
    rcases mem_replaceGroups member with ⟨index, at_index, _⟩ |
      ⟨replacement, in_plan, output⟩
    · exact sound.apart cf other differ table (List.mem_of_getElem? at_index)
        table' member' path located
    · exact own.new replacement in_plan table output path located other table' member'
  refine ⟨?_, ?_, ?_, ?_, ?_, ?_⟩
  · intro other table member
    by_cases here : cf = other
    · subst here
      rw [mine] at member
      rcases mem_replaceGroups member with ⟨index, at_index, stays⟩ |
        ⟨replacement, in_plan, output⟩
      · apply (sound.produced cf table (List.mem_of_getElem? at_index)).of_same_file
        intro path located
        apply dir_install
        intro position owner at_position gone
        apply (sound.distinct cf).path_ne at_index at_position ?_ located
        rintro rfl
        rw [stays] at gone
        cases gone
      · apply (own.produced replacement in_plan table output).of_same_file
        intro path located
        apply dir_install
        intro position owner at_position _
        exact own.new replacement in_plan table output path located cf owner
          (List.mem_of_getElem? at_position)
    · rw [others other here] at member
      apply (sound.produced other table member).of_same_file
      intro path located
      apply dir_install
      intro position owner at_position _
      exact sound.apart other cf (Ne.symm here) table member owner
        (List.mem_of_getElem? at_position) path located
  · intro other
    by_cases here : cf = other
    · subst here
      rw [mine]
      exact own.distinct_replaceGroups (sound.distinct cf)
    · rw [others other here]
      exact sound.distinct other
  · intro first second differ table member table' member' path located same
    by_cases here : cf = first
    · subst here
      rw [others second differ] at member'
      rw [mine] at member
      exact foreign second differ table member table' member' path located same
    · rw [others first here] at member
      by_cases there : cf = second
      · subst there
        rw [mine] at member'
        exact foreign first here table' member' table member path same located
      · rw [others second there] at member'
        exact sound.apart first second differ table member table' member' path located same
  · intro name records file
    exact sound.tombstones name records (mem_dir_install file)
  · exact (quarantined_atomicReplaceGroups _ _ _).trans sound.readable
  · exact (hasBlockCache_atomicReplaceGroups _ _ _).trans sound.blockCache

theorem compact {plan : CompactionPlan} (admissible : plan.Admissible cf store) :
    StoreSound config (compactCfCore config cf store plan) := by
  have unnamed : ∀ other, ∀ table ∈ store.versions.getTables other, ∀ path,
      table.path = some path → ∀ job ∈ plan.jobs,
        path ≠ outputName plan.strategy (store.versions.getTables cf) job.1 job.2 :=
    fun other table member path located =>
      admissible.fresh.path_ne (sound.produced other table member) located
  cases done : compactGroups plan.strategy config
      (store.versions.getTables cf) plan.tombstones store.dir plan.jobs with
  | mk outcome dir =>
    have written : StoreSound config { store with dir } := by
      apply sound.withDir
      · intro other table member path located
        have kept := compactGroups_dir plan.strategy config
          (store.versions.getTables cf) plan.tombstones store.dir
          (unnamed other table member path located)
        rwa [done] at kept
      · intro name records file key record found deleted
        have live := @compactGroups_live config store.dir
          (store.versions.getTables cf) plan.jobs name plan.strategy
          plan.tombstones records (by rw [done]; exact file)
        rcases live with old | live
        · exact sound.tombstones name records old key record found deleted
        · rw [live key record found] at deleted
          cases deleted
    cases outcome with
    | error error =>
      rw [compactCfCore, done]
      exact written
    | ok replacements =>
      rw [compactCfCore_eq_install done]
      exact written.install (ownFiles_of_done sound admissible.fresh done) cf

/-! ## Restarts -/

theorem discovered {after : TableState}
    (found : Discovered config store.dir.toList store.shutdown after) :
    StoreSound config after := by
  have others : ∀ cf, cf ≠ "default" → after.versions.getTables cf = [] := by
    intro cf other
    rw [found.others cf other]
    simp [shutdown, VersionSet.new, getTables]
  refine ⟨?_, ?_, ?_, ?_, found.quarantined, found.hasBlockCache⟩
  · intro cf table member
    by_cases here : cf = "default"
    · subst here
      exact found.produced table member
    · rw [others cf here] at member
      cases member
  · intro cf
    by_cases here : cf = "default"
    · subst here
      apply found.sorted.imp
      intro first second before path located same
      rw [Table.name_of_path located, Table.name_of_path same] at before
      exact lt_irrefl _ before
    · rw [others cf here]
      exact List.Pairwise.nil
  · intro first second differ table member table' member'
    by_cases here : first = "default"
    · rw [others second (here ▸ differ.symm)] at member'
      cases member'
    · rw [others first here] at member
      cases member
  · intro name records file
    by_cases unfinished : (name, SstFile.unfinished) ∈ store.dir.toList
    · rw [found.removed name unfinished] at file
      cases file
    · rw [found.files name unfinished] at file
      exact sound.tombstones name records file

end StoreSound

end ApexStore
