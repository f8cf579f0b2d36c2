import ApexStore.Library.Runs
import ApexStore.Engine.CompactionPlan
import ApexStore.Engine.TableVersions

/-!
# Compactions as steps

One compaction of a family merges the groups of a plan, installs the outputs
and removes the files of the replaced tables.  `compactCfCore_cases` says what
such a step can do to the tables of the family and to their files; it keeps
the files of the tables readable and apart.
-/

namespace ApexStore

open VersionSet List

/-- The tables of the engine and the directory of their files. -/
structure TableState where
  versions : VersionSet
  dir : SstDir

def TableState.empty : TableState := { versions := .new true, dir := ∅ }

/-- A choice of groups, with the range tombstones in force and the clock
readings of the merges. -/
structure CompactionPlan where
  strategy : CompactionStrategy
  tombstones : List RangeTombstone
  jobs : List CompactionJob

namespace CompactionPlan

/-- What a plan of the engine satisfies: its groups are groups the strategy
picked, its outputs get new names. -/
structure Admissible (cf : String) (state : TableState) (plan : CompactionPlan) :
    Prop where
  picked : (plan.jobs.map (·.1)).Sublist
    (plan.strategy.pickTables (state.versions.getTables cf))
  fresh : FreshNames plan.strategy (state.versions.getTables cf) state.dir plan.jobs

instance (cf : String) (state : TableState) (plan : CompactionPlan) :
    Decidable (plan.Admissible cf state) :=
  decidable_of_iff (_ ∧ _) ⟨fun ⟨picked, fresh⟩ => ⟨picked, fresh⟩,
    fun ⟨picked, fresh⟩ => ⟨picked, fresh⟩⟩

end CompactionPlan

def removeFiles (dir : SstDir) (paths : List String) : SstDir :=
  paths.foldl (fun dir path => dir.erase path) dir

theorem getElem?_removeFiles (dir : SstDir) (paths : List String) (name : String) :
    (removeFiles dir paths)[name]? = if name ∈ paths then none else dir[name]? := by
  induction paths generalizing dir with
  | nil => rfl
  | cons path paths ih =>
    refine (ih (dir.erase path)).trans ?_
    by_cases here : path = name
    · simp [here]
    · simp [Std.ExtTreeMap.getElem?_erase, here, Ne.symm here]

/-- A failed merge ends the compaction before anything is installed. -/
def compactCfCore (config : StorageConfig) (cf : String) (state : TableState)
    (plan : CompactionPlan) : TableState :=
  match compactGroups plan.strategy config (state.versions.getTables cf)
      plan.tombstones state.dir plan.jobs with
  | (.ok replacements, dir) =>
    let (removed, versions) :=
      state.versions.atomicReplaceGroups cf replacements
    { versions, dir := removeFiles dir removed }
  | (.error _, dir) => { state with dir }

def DistinctFiles (tables : List Table) : Prop :=
  tables.Pairwise (fun first second =>
    ∀ path, first.path = some path → second.path ≠ some path)

variable {path : String}

variable {table : Table} {versions : VersionSet} {cf : String}
  {replacements : List Replacement}

theorem DistinctFiles.path_ne {tables : List Table} (distinct : DistinctFiles tables)
    {first second : Nat} {other : Table} (at_first : tables[first]? = some table)
    (at_second : tables[second]? = some other) (apart : first ≠ second)
    (located : table.path = some path) : other.path ≠ some path := by
  obtain ⟨first_bound, rfl⟩ := List.getElem?_eq_some_iff.mp at_first
  obtain ⟨second_bound, rfl⟩ := List.getElem?_eq_some_iff.mp at_second
  have ordered := pairwise_iff_getElem.mp distinct
  rcases Nat.lt_or_gt_of_ne apart with before | after
  · exact ordered first second first_bound second_bound before path located
  · intro same
    exact ordered second first second_bound first_bound after path same located

theorem mem_removed
    (removed : path ∈ (versions.atomicReplaceGroups cf replacements).1) :
    ∃ index table, (versions.getTables cf)[index]? = some table ∧
      table.path = some path ∧ isRemoved replacements index = true := by
  rw [(atomicReplaceGroups_eq ..).1] at removed
  obtain ⟨⟨table, index⟩, listed, located⟩ := mem_filterMap.mp removed
  obtain ⟨item, in_group⟩ := mem_filter.mp listed
  exact ⟨index, table, mk_mem_zipIdx_iff_getElem?.mp item, located, in_group⟩

theorem mem_removed_of_isRemoved {index : Nat}
    (at_index : (versions.getTables cf)[index]? = some table)
    (located : table.path = some path)
    (removed : isRemoved replacements index = true) :
    path ∈ (versions.atomicReplaceGroups cf replacements).1 := by
  rw [(atomicReplaceGroups_eq ..).1, mem_filterMap]
  refine ⟨(table, index), ?_, located⟩
  exact mem_filter.mpr ⟨mk_mem_zipIdx_iff_getElem?.mpr at_index, removed⟩

/-- What a compaction that installs its outputs has done. -/
structure Installed (config : StorageConfig) (cf : String)
    (plan : CompactionPlan) (before after : TableState)
    (replacements : List Replacement) : Prop where
  groups : replacements.map (·.1) = plan.jobs.map (·.1)
  versions : after.versions = (before.versions.atomicReplaceGroups cf replacements).2
  outputs : ∀ replacement ∈ replacements, ∃ job ∈ plan.jobs, job.1 = replacement.1 ∧
    GroupOutput config after.dir
      (outputName plan.strategy (before.versions.getTables cf) job.1 job.2)
      (survivor (groupTables (before.versions.getTables cf) replacement.1)
        plan.tombstones) replacement.2
  kept : ∀ index table, (before.versions.getTables cf)[index]? = some table →
    isRemoved replacements index = false →
    ∀ path, table.path = some path → after.dir[path]? = before.dir[path]?

/-- What holds of the tables of a family between two steps. -/
structure TableState.Sound (config : StorageConfig) (cf : String)
    (state : TableState) : Prop where
  produced : ∀ table ∈ state.versions.getTables cf, table.Produced config state.dir
  distinct : DistinctFiles (state.versions.getTables cf)

section Step

variable {config : StorageConfig} {cf : String} {before after : TableState}
  {plan : CompactionPlan} {replacements : List Replacement}

theorem Installed.tables
    (installed : Installed config cf plan before after replacements) :
    after.versions.getTables cf =
      replaceGroups (before.versions.getTables cf) replacements := by
  rw [installed.versions]
  exact getTables_atomicReplaceGroups before.versions cf replacements

variable {table : Table}

variable {tables : List Table} {dir : SstDir} {path : String}

theorem FreshNames.path_ne {strategy : CompactionStrategy} {jobs : List CompactionJob}
    (fresh : FreshNames strategy tables dir jobs)
    (produced : table.Produced config dir) (located : table.path = some path) :
    ∀ job ∈ jobs, path ≠ outputName strategy tables job.1 job.2 := by
  intro job member same
  have unused := fresh.unused job member
  rcases produced.cases with ⟨other, records, at_other, file, _⟩ | ⟨nowhere, _⟩
  · rw [← same, Option.some.inj (located.symm.trans at_other), file] at unused
    cases unused
  · rw [nowhere] at located
    cases located

section

variable (sound : before.Sound config cf)
  (fresh : FreshNames plan.strategy
    (before.versions.getTables cf) before.dir plan.jobs)
include sound fresh

theorem installed_of_done {middle : SstDir}
    (done : compactGroups plan.strategy config (before.versions.getTables cf)
      plan.tombstones before.dir plan.jobs = (.ok replacements, middle)) :
    Installed config cf plan before
      (compactCfCore config cf before plan) replacements := by
  have old_name : ∀ table ∈ before.versions.getTables cf, ∀ path,
      table.path = some path → ∀ job ∈ plan.jobs, path ≠ outputName
        plan.strategy (before.versions.getTables cf) job.1 job.2 :=
    fun table member path located =>
      fresh.path_ne (sound.produced table member) located
  have plan_output := compactGroups_ok fresh.distinct done
  simp only [compactCfCore, done]
  refine ⟨plan_output.groups, rfl, ?_, ?_⟩
  · intro replacement member
    obtain ⟨job, in_jobs, same, output⟩ := plan_output.outputs replacement member
    refine ⟨job, in_jobs, same, output.of_same_file ?_⟩
    -- A removed file belonged to a table, so it is not an output.
    rw [getElem?_removeFiles, if_neg]
    intro removed
    obtain ⟨index, table, at_index, located, _⟩ := mem_removed removed
    exact old_name table (mem_of_getElem? at_index) _ located job in_jobs rfl
  · intro index table at_index stays path located
    rw [getElem?_removeFiles, if_neg]
    · exact plan_output.untouched path
        (old_name table (mem_of_getElem? at_index) path located)
    · -- The table keeps its place, and no other table has its file.
      intro removed
      obtain ⟨other, owner, at_other, other_located, gone⟩ := mem_removed removed
      have apart : index ≠ other := by
        rintro rfl
        rw [stays] at gone
        cases gone
      exact sound.distinct.path_ne at_index at_other apart located other_located

/-- A compaction fails and leaves the tables alone, or it installs the outputs
of its groups. -/
theorem compactCfCore_cases :
    ((compactCfCore config cf before plan).versions = before.versions ∧
        ∀ table ∈ before.versions.getTables cf, ∀ path, table.path = some path →
          (compactCfCore config cf before plan).dir[path]? = before.dir[path]?) ∨
      ∃ replacements, Installed config cf plan before
        (compactCfCore config cf before plan) replacements := by
  cases merged : compactGroups plan.strategy config
      (before.versions.getTables cf) plan.tombstones before.dir plan.jobs with
  | mk outcome middle =>
    cases outcome with
    | ok replacements =>
      exact .inr ⟨replacements, installed_of_done sound fresh merged⟩
    | error error =>
      left
      simp only [compactCfCore, merged]
      refine ⟨trivial, ?_⟩
      intro table member path located
      have kept := compactGroups_dir plan.strategy config
        (before.versions.getTables cf) plan.tombstones before.dir
        (fresh.path_ne (sound.produced table member) located)
      rwa [merged] at kept

end

section

variable (installed : Installed config cf plan before after replacements)
include installed

theorem Installed.mem_output {replacement : Replacement}
    (member : replacement ∈ replacements) (output : table ∈ replacement.2) :
    ∃ job ∈ plan.jobs, job.1 = replacement.1 ∧ MergeOutput config after.dir
        (outputName plan.strategy (before.versions.getTables cf) job.1 job.2)
        (survivor (groupTables (before.versions.getTables cf) replacement.1)
          plan.tombstones) table := by
  obtain ⟨job, in_jobs, same, produced⟩ := installed.outputs replacement member
  rcases produced with ⟨empty, _⟩ | ⟨only, one, merged⟩
  · rw [empty] at output
    cases output
  · rw [one, mem_singleton] at output
    rw [output]
    exact ⟨job, in_jobs, same, merged⟩

/-- A table afterwards is an old one, with its file as it was, or the output
of a merge. -/
theorem Installed.mem_tables (member : table ∈ after.versions.getTables cf) :
    (table ∈ before.versions.getTables cf ∧ ∀ path, table.path = some path →
        after.dir[path]? = before.dir[path]?) ∨
      ∃ path contents, MergeOutput config after.dir path contents table := by
  rw [installed.tables] at member
  rcases mem_replaceGroups member with ⟨index, at_index, stays⟩ |
    ⟨replacement, in_plan, output⟩
  · exact .inl ⟨mem_of_getElem? at_index, installed.kept index table at_index stays⟩
  · obtain ⟨_, _, _, merged⟩ := installed.mem_output in_plan output
    exact .inr ⟨_, _, merged⟩

theorem Installed.produced (sound : before.Sound config cf) :
    ∀ table ∈ after.versions.getTables cf,
      table.Produced config after.dir := by
  intro table member
  rcases installed.mem_tables member with ⟨old, same⟩ | ⟨_, _, merged⟩
  · exact (sound.produced table old).of_same_file same
  · exact .inl merged.filled

end

theorem MergeOutput.version_eq_none {contents : Bytes → Option Bytes} {key : Bytes}
    (output : MergeOutput config dir path contents table)
    (nothing : contents key = none) :
    table.version dir key = none := by
  have values := output.filled.data_eq key
  rw [output.data, nothing] at values
  rw [Table.version_of_path output.path]
  simpa using values.symm

theorem mem_groupTables {group : List Nat}
    (member : table ∈ groupTables tables group) :
    ∃ index ∈ group, tables[index]? = some table :=
  mem_filterMap.mp member

section

variable (installed : Installed config cf plan before after replacements)
include installed

theorem Installed.version_of_output (sound : before.Sound config cf)
    {replacement : Replacement}
    (in_plan : replacement ∈ replacements) (output : table ∈ replacement.2)
    {key : Bytes} (present : (table.version after.dir key).isSome) :
    ∃ member ∈ groupTables (before.versions.getTables cf) replacement.1,
      (member.version before.dir key).isSome := by
  obtain ⟨_, _, _, merged⟩ := installed.mem_output in_plan output
  cases survives : survivor (groupTables (before.versions.getTables cf)
      replacement.1) plan.tombstones key with
  | none =>
    rw [merged.version_eq_none survives] at present
    cases present
  | some value =>
    obtain ⟨member, listed, held⟩ :=
      exists_of_findSome?_eq_some (survivor_eq_some.mp survives).1
    have in_group := mem_reverse.mp listed
    obtain ⟨index, _, at_index⟩ := mem_groupTables in_group
    obtain ⟨record, found, _⟩ := (sound.produced member
      (mem_of_getElem? at_index)).version_of_data held
    exact ⟨member, in_group, by rw [found]; rfl⟩

/-- At most one table stands at a position: a group that starts there removes
the table that stood there. -/
theorem Installed.placed_length (table : Table) (index : Nat) :
    (outputsAt (before.versions.getTables cf).length replacements index ++
      if isRemoved replacements index then [] else [table]).length ≤ 1 := by
  unfold outputsAt
  split
  · next replacement last =>
    obtain ⟨in_plan, starts⟩ := mem_filter.mp (mem_of_getLast? last)
    have removed : isRemoved replacements index = true := by
      rw [isRemoved_iff]
      have first := List.min?_mem (decide_eq_true_eq.mp starts)
      exact ⟨replacement.1, mem_map_of_mem in_plan, mem_of_mem_filter first⟩
    rw [if_pos removed]
    obtain ⟨_, _, _, produced⟩ := installed.outputs replacement in_plan
    rcases produced with ⟨empty, _⟩ | ⟨only, one, _⟩
    · simp [empty]
    · simp [one]
  · split <;> simp

/-- A relation between older and newer tables holds after a replacement when
it holds between the tables that stay, between outputs, and between both: a
group stands where it starts. -/
theorem Installed.pairwise {related : Table → Table → Prop}
    (kept_kept : ∀ first second table other, first < second →
      (before.versions.getTables cf)[first]? = some table →
      (before.versions.getTables cf)[second]? = some other →
        isRemoved replacements first = false →
      isRemoved replacements second = false → related table other)
    (kept_output : ∀ index start table, index < start →
      (before.versions.getTables cf)[index]? = some table →
        isRemoved replacements index = false →
      ∀ replacement ∈ replacements,
        firstIndex (before.versions.getTables cf).length replacement.1 =
          some start → ∀ output ∈ replacement.2, related table output)
    (output_kept : ∀ index start table, start < index →
      (before.versions.getTables cf)[index]? = some table →
        isRemoved replacements index = false →
      ∀ replacement ∈ replacements,
        firstIndex (before.versions.getTables cf).length replacement.1 =
          some start → ∀ output ∈ replacement.2, related output table)
    (output_output : ∀ start start', start < start' → ∀ replacement ∈ replacements,
        firstIndex (before.versions.getTables cf).length replacement.1 = some start →
      ∀ replacement' ∈ replacements,
        firstIndex (before.versions.getTables cf).length replacement'.1 = some start' →
        ∀ output ∈ replacement.2, ∀ output' ∈ replacement'.2, related output output') :
    (after.versions.getTables cf).Pairwise related := by
  rw [installed.tables, replaceGroups, pairwise_flatMap]
  constructor
  · rintro ⟨table, index⟩ _
    have short := installed.placed_length table index
    generalize outputsAt (before.versions.getTables cf).length replacements index ++
        (if isRemoved replacements index then [] else [table]) = placed at short ⊢
    rcases placed with _ | ⟨only, _ | _⟩
    · exact List.Pairwise.nil
    · exact pairwise_singleton _ _
    · simp at short
  · rw [pairwise_iff_getElem]
    intro first second first_bound second_bound before_second
    rw [getElem_zipIdx, getElem_zipIdx]
    rw [length_zipIdx] at first_bound second_bound
    have at_first := List.getElem?_eq_getElem first_bound
    have at_second := List.getElem?_eq_getElem second_bound
    simp only [Nat.zero_add]
    intro one one_placed two two_placed
    rcases mem_placed one_placed with ⟨rfl, one_stays⟩ |
      ⟨replacement, in_plan, produced, starts⟩
    · rcases mem_placed two_placed with ⟨rfl, two_stays⟩ |
        ⟨replacement, in_plan, produced, starts⟩
      · exact kept_kept first second _ _ before_second at_first at_second one_stays two_stays
      · exact kept_output first second _ before_second at_first one_stays
          replacement in_plan starts two produced
    · rcases mem_placed two_placed with
        ⟨rfl, two_stays⟩ | ⟨replacement', in_plan', produced', starts'⟩
      · exact output_kept second first _ before_second at_second two_stays
          replacement in_plan starts one produced
      · exact output_output first second before_second replacement in_plan
          starts replacement' in_plan' starts' one produced two produced'

theorem Installed.distinct (sound : before.Sound config cf)
    (fresh : FreshNames plan.strategy
      (before.versions.getTables cf) before.dir plan.jobs) :
    DistinctFiles (after.versions.getTables cf) := by
  have new_name : ∀ (index : Nat) (table : Table),
      (before.versions.getTables cf)[index]? = some table → ∀ replacement ∈
        replacements, ∀ output ∈ replacement.2, ∀ path,
        table.path = some path → output.path ≠ some path := by
    intro index table at_index replacement in_plan output produced path located
    obtain ⟨job, in_jobs, _, merged⟩ := installed.mem_output in_plan produced
    intro same
    have produced_table := sound.produced table (mem_of_getElem? at_index)
    exact fresh.path_ne produced_table located job in_jobs
      (Option.some.inj (same.symm.trans merged.path))
  apply installed.pairwise
  · intro first second table other before_second at_first at_second _ _ path located
    exact sound.distinct.path_ne at_first at_second (by omega) located
  · intro index _ table _ at_index _ replacement in_plan _ output produced path located
    exact new_name index table at_index replacement in_plan output produced path located
  · intro index _ table _ at_index _ replacement in_plan _ output produced path located same
    exact new_name index table at_index replacement in_plan output produced path same located
  · -- Outputs of two groups come from two jobs with two names.
    intro start start' before_start' replacement in_plan starts replacement'
      in_plan' starts' output produced output' produced' path located same
    obtain ⟨job, in_jobs, of_job, merged⟩ := installed.mem_output in_plan produced
    obtain ⟨job', in_jobs', of_job', merged'⟩ := installed.mem_output in_plan' produced'
    have names := Option.some.inj (merged.path.symm.trans
      (located.trans (same.symm.trans merged'.path)))
    have jobs_eq : job = job' := inj_on_of_nodup_map fresh.distinct in_jobs in_jobs' names
    rw [← of_job, jobs_eq, of_job', starts'] at starts
    have positions := Option.some.inj starts
    omega

end

theorem compactCfCore_sound (sound : before.Sound config cf)
    (fresh : FreshNames plan.strategy
      (before.versions.getTables cf) before.dir plan.jobs) :
    (compactCfCore config cf before plan).Sound config cf := by
  rcases compactCfCore_cases sound fresh with ⟨versions, kept⟩ | ⟨replacements, installed⟩
  · constructor
    · rw [versions]
      intro table member
      exact (sound.produced table member).of_same_file (kept table member)
    · rw [versions]
      exact sound.distinct
  · exact ⟨installed.produced sound, installed.distinct sound fresh⟩

/-- Every file that can be read is the file of a table. -/
def TableState.Tracked (cf : String) (state : TableState) : Prop :=
  ∀ name records, state.dir[name]? = some (.table records) →
    ∃ table ∈ state.versions.getTables cf, table.path = some name

/-- The records a plan would write fit their blocks. -/
def CompactionPlan.Fits (config : StorageConfig) (plan : CompactionPlan)
    (tables : List Table) : Prop :=
  ∀ job ∈ plan.jobs, ∀ key value,
    survivor (groupTables tables job.1) plan.tombstones key = some value →
    SstableBuilder.entryFits config key (LogRecord.new (job.2.stamp key) key value) = true

theorem compactCfCore_tracked (tracked : before.Tracked cf)
    (admissible : plan.Admissible cf before)
    (fits : plan.Fits config (before.versions.getTables cf)) :
    (compactCfCore config cf before plan).Tracked cf := by
  obtain ⟨replacements, middle, done⟩ := compactGroups_succeeds plan.strategy before.dir fits
  have plan_output := compactGroups_ok admissible.fresh.distinct done
  have valid : DisjointGroups (before.versions.getTables cf).length (replacements.map (·.1)) := by
    rw [plan_output.groups]
    exact (pickTables_disjoint plan.strategy _).sublist admissible.picked
  rw [compactCfCore, done]
  intro name records file
  rw [getElem?_removeFiles] at file
  split at file
  · cases file
  next stays_on_disk =>
    rw [getTables_atomicReplaceGroups]
    rcases compactGroups_listed done file with old |
      ⟨replacement, in_plan, table, output, located⟩
    · obtain ⟨table, listed, located⟩ := tracked name records old
      obtain ⟨index, bound, rfl⟩ := getElem_of_mem listed
      have at_index := List.getElem?_eq_getElem bound
      refine ⟨_, mem_replaceGroups_of_kept at_index ?_, located⟩
      rw [← Bool.not_eq_true]
      intro removed
      exact stays_on_disk (mem_removed_of_isRemoved at_index located removed)
    · refine ⟨table, mem_replaceGroups_of_output valid in_plan ?_ output, located⟩
      -- An empty group has no output.
      intro empty
      obtain ⟨_, _, _, produced⟩ := plan_output.outputs replacement in_plan
      rcases produced with ⟨none_written, _⟩ | ⟨only, one, merged⟩
      · rw [none_written] at output
        cases output
      · obtain ⟨key, survives⟩ := merged.nonempty
        apply survives
        simp [empty, groupTables, survivor, newestData]

end Step

end ApexStore
