import ApexStore.Engine.CompactionGroups
import ApexStore.Engine.CompactionMerge

/-!
# Compaction plans

A compaction of a family merges the picked groups one after another and then
replaces them in the table list.  `compactGroups_ok` says what the merges
leave behind, the lemmas on `replaceGroups` where everything stands
afterwards: a group stands where its oldest member stood, all other tables
stay in their places.
-/

namespace ApexStore

open VersionSet List

/-! ## Compacting all groups of a plan -/

/-- A group to compact and the clock readings of its compaction. -/
abbrev CompactionJob := List Nat × CompactionClock

/-- The loop of `compact_cf_core` over the picked groups; the first error ends
it. -/
def compactGroups (strategy : CompactionStrategy) (config : StorageConfig)
    (tables : List Table) (tombstones : List RangeTombstone) :
    SstDir → List CompactionJob →
      Except LsmError (List Replacement) × SstDir
  | dir, [] => (.ok [], dir)
  | dir, (indices, clock) :: jobs =>
    match compact strategy config dir clock indices tables tombstones with
    | (.error error, dir) => (.error error, dir)
    | (.ok outputs, dir) =>
      match compactGroups strategy config tables tombstones dir jobs with
      | (.error error, dir) => (.error error, dir)
      | (.ok rest, dir) => (.ok ((indices, outputs) :: rest), dir)

/-- The outputs get names of their own that no file has yet: file names carry
the nanosecond they were made in, and the clock moves on. -/
structure FreshNames (strategy : CompactionStrategy) (tables : List Table)
    (dir : SstDir) (jobs : List CompactionJob) : Prop where
  distinct : (jobs.map (fun job =>
    outputName strategy tables job.1 job.2)).Nodup
  unused : ∀ job ∈ jobs, dir[outputName strategy tables job.1 job.2]? = none

instance (strategy : CompactionStrategy) (tables : List Table) (dir : SstDir)
    (jobs : List CompactionJob) : Decidable (FreshNames strategy tables dir jobs) :=
  decidable_of_iff (_ ∧ _) ⟨fun ⟨distinct, unused⟩ => ⟨distinct, unused⟩,
    fun ⟨distinct, unused⟩ => ⟨distinct, unused⟩⟩

/-- What the loop returns when every group succeeds. -/
structure PlanOutput (strategy : CompactionStrategy) (config : StorageConfig)
    (tables : List Table) (tombstones : List RangeTombstone)
    (jobs : List CompactionJob) (dir dir' : SstDir) (replacements : List Replacement) :
    Prop where
  groups : replacements.map (·.1) = jobs.map (·.1)
  outputs : ∀ replacement ∈ replacements, ∃ job ∈ jobs, job.1 = replacement.1 ∧
    GroupOutput config dir' (outputName strategy tables job.1 job.2)
      (survivor (groupTables tables replacement.1) tombstones) replacement.2
  untouched : ∀ name, (∀ job ∈ jobs, name ≠ outputName strategy tables job.1 job.2) →
      dir'[name]? = dir[name]?

variable {config : StorageConfig} {dir dir' : SstDir}
  {outputs tables : List Table} {jobs : List CompactionJob} {name : String}
  {strategy : CompactionStrategy} {tombstones : List RangeTombstone}
  {replacements : List Replacement}

variable {path : String} {contents : Bytes → Option Bytes}
  {records : ByteMap LogRecord}

theorem GroupOutput.of_same_file
    (output : GroupOutput config dir path contents outputs)
    (same : dir'[path]? = dir[path]?) :
    GroupOutput config dir' path contents outputs := by
  rcases output with nothing | ⟨table, one, merged⟩
  · exact .inl nothing
  · exact .inr ⟨table, one, merged.of_same_file same⟩

theorem compactGroups_dir (strategy : CompactionStrategy)
    (config : StorageConfig) (tables : List Table) (tombstones : List RangeTombstone)
    (dir : SstDir)
    (other : ∀ job ∈ jobs, name ≠ outputName strategy tables job.1 job.2) :
    (compactGroups strategy config tables tombstones dir jobs).2[name]? =
      dir[name]? := by
  induction jobs generalizing dir with
  | nil => rfl
  | cons job jobs ih =>
    obtain ⟨indices, clock⟩ := job
    have first := compact_dir strategy config dir clock indices tables
      tombstones (other (indices, clock) mem_cons_self)
    have later := fun middle => ih middle (forall_mem_cons.mp other).2
    rw [compactGroups]
    split
    · next failed => rwa [failed] at first
    · next outputs middle compacted =>
      rw [compacted] at first
      rw [← first, ← later middle]
      split
      · next failed => rw [failed]
      · next others => rw [others]

theorem compactGroups_ok (distinct : (jobs.map (fun job =>
      outputName strategy tables job.1 job.2)).Nodup)
    (done : compactGroups strategy config tables tombstones dir jobs =
      (.ok replacements, dir')) :
    PlanOutput strategy config tables tombstones jobs dir dir' replacements := by
  induction jobs generalizing dir replacements with
  | nil =>
    cases done
    exact ⟨rfl, by simp, fun _ _ => rfl⟩
  | cons job jobs ih =>
    obtain ⟨indices, clock⟩ := job
    rw [map_cons, nodup_cons] at distinct
    rw [compactGroups] at done
    split at done
    · cases done
    next outputs middle compacted =>
      split at done
      · cases done
      next rest last others =>
        cases done
        have later := ih distinct.2 others
        have own := compact_ok compacted
        have kept : dir'[outputName strategy tables indices clock]? =
            middle[outputName strategy tables indices clock]? := by
          apply later.untouched
          intro other member same
          apply distinct.1
          rw [same]
          exact mem_map_of_mem member
        refine ⟨by rw [map_cons, map_cons, later.groups], ?_, ?_⟩
        · intro replacement member
          rcases mem_cons.mp member with rfl | in_rest
          · exact ⟨_, mem_cons_self, rfl, own.of_same_file kept⟩
          · obtain ⟨job, in_jobs, produced⟩ := later.outputs replacement in_rest
            exact ⟨job, mem_cons_of_mem _ in_jobs, produced⟩
        · intro name other
          have kept := compactGroups_dir strategy config tables tombstones dir other
          simpa only [compactGroups, compacted, others] using kept

/-- A file that is a table after the loop was one before or is that of an
output. -/
theorem compactGroups_listed
    (done : compactGroups strategy config tables tombstones dir jobs =
      (.ok replacements, dir')) (file : dir'[name]? = some (.table records)) :
    dir[name]? = some (.table records) ∨ ∃ replacement ∈ replacements,
      ∃ table ∈ replacement.2, table.path = some name := by
  induction jobs generalizing dir replacements with
  | nil =>
    cases done
    exact .inl file
  | cons job jobs ih =>
    rw [compactGroups] at done
    split at done
    · cases done
    next outputs middle compacted =>
      split at done
      · cases done
      next rest last others =>
        cases done
        rcases ih others with older | ⟨replacement, member, listed⟩
        · rcases compact_listed compacted older with oldest | listed
          · exact .inl oldest
          · exact .inr ⟨_, mem_cons_self, listed⟩
        · exact .inr ⟨replacement, mem_cons_of_mem _ member, listed⟩

theorem compactGroups_live (file : (compactGroups strategy config tables tombstones dir
      jobs).2[name]? = some (.table records)) : dir[name]? = some (.table records) ∨
      ∀ (key : Bytes) (record : LogRecord), records[key]? = some record →
        record.isDeleted = false := by
  induction jobs generalizing dir with
  | nil => exact .inl file
  | cons job jobs ih =>
    obtain ⟨indices, clock⟩ := job
    have first : ∀ {middle : SstDir} {outcome},
        compact strategy config dir clock indices tables tombstones = (outcome, middle) →
        middle[name]? = some (.table records) → dir[name]? = some (.table records) ∨
          ∀ (key : Bytes) (record : LogRecord),
            records[key]? = some record → record.isDeleted = false := by
      intro middle outcome compacted present
      apply compact_live
      rw [compacted]
      exact present
    rw [compactGroups] at file
    split at file
    · next failed => exact first failed file
    · next outputs middle compacted =>
      have later : (compactGroups strategy config tables tombstones middle
          jobs).2[name]? = some (.table records) := by
        split at file
        · next others => rw [others]; exact file
        · next others => rw [others]; exact file
      rcases ih later with older | live
      · exact first compacted older
      · exact .inr live

theorem compactGroups_succeeds (strategy : CompactionStrategy) (dir : SstDir)
    (fits : ∀ job ∈ jobs, ∀ key value,
      survivor (groupTables tables job.1) tombstones key = some value →
      SstableBuilder.entryFits config key
        (LogRecord.new (job.2.stamp key) key value) = true) :
    ∃ replacements dir', compactGroups strategy config tables tombstones dir jobs =
        (.ok replacements, dir') := by
  induction jobs generalizing dir with
  | nil => exact ⟨[], dir, rfl⟩
  | cons job jobs ih =>
    obtain ⟨indices, clock⟩ := job
    obtain ⟨outputs, middle, compacted⟩ := compact_succeeds strategy dir
      clock (fits (indices, clock) mem_cons_self)
    obtain ⟨rest, last, others⟩ := ih middle (forall_mem_cons.mp fits).2
    exact ⟨(indices, outputs) :: rest, last, by simp only [compactGroups, compacted, others]⟩

theorem GroupOutput.newestData_eq
    (output : GroupOutput config dir path contents outputs)
    (key : Bytes) : newestData outputs key = contents key := by
  rcases output with ⟨rfl, nothing⟩ | ⟨table, rfl, merged⟩
  · rw [nothing key]
    rfl
  · rw [← merged.data key]
    simp [newestData]

/-! ## Where a group stands after the replacement -/

/-- The position at which the table at `index` stands after its group has been
replaced: that of the oldest table of its group. -/
def groupStart (groups : List (List Nat)) (index : Nat) : Nat :=
  match groups.find? (·.contains index) with
  | some group => group.min?.getD index
  | none => index

/-- The in-memory value of a key in the table at a position. -/
def heldAt (tables : List Table) (key : Bytes) (index : Nat) : Option Bytes :=
  tables[index]?.bind (·.data[key]?)

theorem newestData_eq_newestAt (tables : List Table) (key : Bytes) :
    newestData tables key = newestAt tables.length (heldAt tables key) :=
  findSome?_reverse_eq tables _

section Groups

variable {count : Nat} {groups : List (List Nat)}

variable {index start : Nat} {group : List Nat}

theorem groupStart_of_not_mem (outside : ∀ group ∈ groups, index ∉ group) :
    groupStart groups index = index := by
  have nothing : groups.find? (·.contains index) = none := by
    apply find?_eq_none.mpr
    intro group member
    simpa using outside group member
  rw [groupStart, nothing]

variable (valid : DisjointGroups count groups)
include valid

theorem groupStart_of_mem (picked : group ∈ groups) (member : index ∈ group) :
    group.min? = some (groupStart groups index) := by
  obtain ⟨found, at_found⟩ : ∃ found, groups.find? (·.contains index) = some found := by
    apply Option.isSome_iff_exists.mp
    apply find?_isSome.mpr
    exact ⟨group, picked, by simpa using member⟩
  have in_found : index ∈ found := by
    simpa using find?_some at_found
  have same : found = group :=
    valid.eq_of_mem (mem_of_find?_eq_some at_found) picked in_found member
  obtain ⟨least, is_least⟩ : ∃ least, group.min? = some least := by
    cases smallest : group.min? with
    | some least => exact ⟨least, rfl⟩
    | none =>
      rw [min?_eq_none_iff.mp smallest] at member
      cases member
  rw [groupStart, at_found, same]
  simp [is_least]

theorem groupStart_lt : ∀ index < count, groupStart groups index < count := by
  intro index bound
  by_cases outside : ∀ group ∈ groups, index ∉ group
  · rw [groupStart_of_not_mem outside]
    exact bound
  · simp only [not_forall, not_not] at outside
    obtain ⟨group, picked, member⟩ := outside
    have least := groupStart_of_mem valid picked member
    exact valid.below group picked _ (min?_mem least)

theorem groupStart_eq_iff (picked : group ∈ groups) (inside : start ∈ group)
    (index : Nat) :
    groupStart groups index = start ↔ group.min? = some start ∧ index ∈ group := by
  constructor
  · intro starts
    by_cases outside : ∀ other ∈ groups, index ∉ other
    · rw [groupStart_of_not_mem outside] at starts
      rw [starts] at outside
      exact absurd inside (outside group picked)
    · simp only [not_forall, not_not] at outside
      obtain ⟨other, other_picked, member⟩ := outside
      have least := groupStart_of_mem valid other_picked member
      rw [starts] at least
      have same : other = group :=
        valid.eq_of_mem other_picked picked (min?_mem least) inside
      rw [← same]
      exact ⟨least, member⟩
  · rintro ⟨least, member⟩
    have starts := groupStart_of_mem valid picked member
    exact (Option.some.inj (least.symm.trans starts)).symm

theorem groupStart_eq_iff_of_not_mem (outside : ∀ group ∈ groups, start ∉ group)
    (index : Nat) :
    groupStart groups index = start ↔ index = start := by
  constructor
  · intro starts
    by_cases free : ∀ group ∈ groups, index ∉ group
    · rwa [groupStart_of_not_mem free] at starts
    · simp only [not_forall, not_not] at free
      obtain ⟨group, picked, member⟩ := free
      have least := groupStart_of_mem valid picked member
      rw [starts] at least
      exact absurd (min?_mem least) (outside group picked)
  · rintro rfl
    exact groupStart_of_not_mem outside

end Groups

theorem newestData_groupTables {group : List Nat} (increasing : group.Pairwise (· < ·))
    (below : ∀ index ∈ group, index < tables.length) (key : Bytes) :
    newestData (groupTables tables group) key = newestAt tables.length
        (fun index => if index ∈ group then heldAt tables key index else none) := by
  rw [newestData, groupTables, ← filterMap_reverse, findSome?_filterMap]
  exact findSome?_reverse_increasing increasing below (heldAt tables key)

section Replacement

variable {tables : List Table} {replacements : List Replacement}

theorem isRemoved_iff (index : Nat) : isRemoved replacements index = true ↔
      ∃ group ∈ replacements.map (·.1), index ∈ group := by
  simp [isRemoved]

variable {replacement : Replacement} {key : Bytes}

theorem firstIndex_eq {count : Nat} {group : List Nat}
    (below : ∀ index ∈ group, index < count) :
    firstIndex count group = group.min? := by
  rw [firstIndex, filter_eq_self.mpr]
  simpa using below

theorem outputsAt_cases (valid : DisjointGroups tables.length (replacements.map (·.1)))
    (index : Nat) : (outputsAt tables.length replacements index = [] ∧
        ∀ replacement ∈ replacements, replacement.1.min? ≠ some index) ∨
      ∃ replacement ∈ replacements, replacement.1.min? = some index ∧
        outputsAt tables.length replacements index = replacement.2 := by
  unfold outputsAt
  cases last : (replacements.filter (fun group =>
      decide (firstIndex tables.length group.1 = some index))).getLast? with
  | none =>
    left
    refine ⟨rfl, ?_⟩
    intro replacement member starts
    rw [getLast?_eq_none_iff, filter_eq_nil_iff] at last
    apply last replacement member
    rw [firstIndex_eq (valid.below _ (mem_map_of_mem member)), starts]
    simp
  | some replacement =>
    right
    have member := mem_of_getLast? last
    rw [mem_filter, decide_eq_true_eq] at member
    rw [firstIndex_eq (valid.below _ (mem_map_of_mem member.1))] at member
    exact ⟨replacement, member.1, member.2, rfl⟩

variable {table : Table} {index : Nat}

/-- What stands at a position after the replacement is the newest value of the
unit that starts there. -/
theorem replaced_at (valid : DisjointGroups tables.length (replacements.map (·.1)))
    (merged : ∀ replacement ∈ replacements, newestData replacement.2 key =
        newestData (groupTables tables replacement.1) key)
    (at_index : tables[index]? = some table) :
    newestData (outputsAt tables.length replacements index ++
        if isRemoved replacements index then [] else [table]) key =
      unitContents tables.length (groupStart (replacements.map (·.1)))
        (heldAt tables key) index := by
  by_cases outside : ∀ group ∈ replacements.map (·.1), index ∉ group
  · -- A table outside all groups stays where it is.
    have stays : isRemoved replacements index = false := by
      rw [← Bool.not_eq_true, isRemoved_iff]
      rintro ⟨group, picked, member⟩
      exact outside group picked member
    have no_outputs : outputsAt tables.length replacements index = [] := by
      rcases outputsAt_cases valid index with ⟨empty, _⟩ | ⟨replacement, member, starts, _⟩
      · exact empty
      · exact absurd (List.min?_mem starts) (outside _ (mem_map_of_mem member))
    have own : unitContents tables.length
        (groupStart (replacements.map (·.1))) (heldAt tables key) index =
          heldAt tables key index := by
      rw [← newestAt_single (List.getElem?_eq_some_iff.mp at_index).1 (heldAt tables key)]
      apply newestAt_congr
      intro other _
      simp only [groupStart_eq_iff_of_not_mem valid outside]
    rw [own, no_outputs, stays]
    simp [newestData, heldAt, at_index]
  · simp only [not_forall, not_not] at outside
    obtain ⟨group, picked, inside⟩ := outside
    have removed : isRemoved replacements index = true :=
      (isRemoved_iff index).mpr ⟨group, picked, inside⟩
    rw [removed, if_pos rfl, append_nil]
    rcases outputsAt_cases valid index with
      ⟨empty, elsewhere⟩ | ⟨replacement, member, starts, outputs⟩
    · -- The group starts elsewhere, so no unit starts here.
      rw [empty]
      symm
      apply newestAt_eq_none_iff.mpr
      intro other _
      apply if_neg
      rw [groupStart_eq_iff valid picked inside]
      rintro ⟨starts, _⟩
      obtain ⟨replacement, member, rfl⟩ := mem_map.mp picked
      exact elsewhere replacement member starts
    · have in_group := mem_map_of_mem (f := (·.1)) member
      rw [outputs, merged replacement member,
        newestData_groupTables (valid.increasing _ in_group)
          (valid.below _ in_group)]
      apply newestAt_congr
      intro other _
      simp only [groupStart_eq_iff valid in_group (min?_mem starts), starts, true_and]

theorem newestData_replaceGroups
    (valid : DisjointGroups tables.length (replacements.map (·.1)))
    (merged : ∀ replacement ∈ replacements, newestData replacement.2 key =
        newestData (groupTables tables replacement.1) key) :
    newestData (replaceGroups tables replacements) key = newestAt tables.length
        (unitContents tables.length (groupStart (replacements.map (·.1)))
          (heldAt tables key)) := by
  rw [newestData, replaceGroups, findSome?_reverse_flatMap, findSome?_reverse_eq,
    length_zipIdx]
  apply newestAt_congr
  intro index bound
  have at_index : tables[index]? = some tables[index] := getElem?_eq_getElem bound
  rw [← replaced_at valid merged at_index, getElem?_zipIdx, at_index]
  simp [newestData]

theorem mem_outputsAt (output : table ∈ outputsAt tables.length replacements index) :
    ∃ replacement ∈ replacements, table ∈ replacement.2 ∧
      firstIndex tables.length replacement.1 = some index := by
  unfold outputsAt at output
  split at output
  · next replacement last =>
    have in_filter := mem_of_getLast? last
    rw [mem_filter, decide_eq_true_eq] at in_filter
    exact ⟨replacement, in_filter.1, output, in_filter.2⟩
  · cases output

/-- What the replacement puts at a position: the table that stood there,
unless a group removed it, and the output of a group that starts there. -/
theorem mem_placed {old : Table}
    (placed : table ∈ outputsAt tables.length replacements index ++
      if isRemoved replacements index then [] else [old]) :
    (table = old ∧ isRemoved replacements index = false) ∨
      ∃ replacement ∈ replacements, table ∈ replacement.2 ∧
        firstIndex tables.length replacement.1 = some index := by
  rcases mem_append.mp placed with output | kept
  · exact .inr (mem_outputsAt output)
  · left
    split at kept
    · cases kept
    · next stays =>
      exact ⟨mem_singleton.mp kept, Bool.eq_false_iff.mpr stays⟩

theorem mem_replaceGroups (member : table ∈ replaceGroups tables replacements) :
    (∃ index, tables[index]? = some table ∧ isRemoved replacements index = false) ∨
      ∃ replacement ∈ replacements, table ∈ replacement.2 := by
  obtain ⟨⟨old, index⟩, listed, placed⟩ := mem_flatMap.mp member
  have at_index : tables[index]? = some old := mk_mem_zipIdx_iff_getElem?.mp listed
  rcases mem_placed placed with ⟨rfl, stays⟩ | ⟨replacement, in_plan, output, _⟩
  · exact .inl ⟨index, at_index, stays⟩
  · exact .inr ⟨replacement, in_plan, output⟩

theorem mem_replaceGroups_of_kept (at_index : tables[index]? = some table)
    (stays : isRemoved replacements index = false) :
    table ∈ replaceGroups tables replacements := by
  apply mem_flatMap.mpr
  refine ⟨(table, index), mk_mem_zipIdx_iff_getElem?.mpr at_index, ?_⟩
  simp [stays]

theorem mem_replaceGroups_of_output
    (valid : DisjointGroups tables.length (replacements.map (·.1)))
    (member : replacement ∈ replacements) (nonempty : replacement.1 ≠ [])
    (output : table ∈ replacement.2) : table ∈ replaceGroups tables replacements := by
  obtain ⟨start, starts⟩ : ∃ start, replacement.1.min? = some start :=
    Option.ne_none_iff_exists'.mp (mt min?_eq_none_iff.mp nonempty)
  have inside := min?_mem starts
  have bound := valid.below _ (mem_map_of_mem member) start inside
  have placed : outputsAt tables.length replacements start = replacement.2 := by
    rcases outputsAt_cases valid start with ⟨_, elsewhere⟩ |
      ⟨other, in_plan, other_starts, outputs⟩
    · exact absurd starts (elsewhere replacement member)
    · -- Two groups with the same start are the same entry of the plan.
      by_cases same : other = replacement
      · rw [outputs, same]
      · have disjoint := pairwise_map.mp valid.disjoint
        have symmetric : Std.Symm (fun first second : Replacement =>
            List.Disjoint first.1 second.1) := ⟨fun _ _ => List.Disjoint.symm⟩
        have apart : List.Disjoint other.1 replacement.1 :=
          disjoint.forall in_plan member same
        exact absurd inside (apart (min?_mem other_starts))
  apply mem_flatMap.mpr
  refine ⟨(tables[start], start), ?_, ?_⟩
  · exact mk_mem_zipIdx_iff_getElem?.mpr (getElem?_eq_getElem bound)
  · rw [placed]
    exact mem_append_left _ output

end Replacement

section Idle

variable (idle : ∀ replacement ∈ replacements,
  firstIndex tables.length replacement.1 = none)
include idle

theorem isRemoved_of_idle {table : Table} {index : Nat}
    (member : (table, index) ∈ tables.zipIdx) :
    isRemoved replacements index = false := by
  rw [← Bool.not_eq_true, isRemoved_iff]
  rintro ⟨group, picked, inside⟩
  obtain ⟨replacement, in_list, rfl⟩ := mem_map.mp picked
  have empty := min?_eq_none_iff.mp (idle replacement in_list)
  have bound := snd_lt_of_mem_zipIdx member
  have kept : index ∈ replacement.1.filter (· < tables.length) := by
    apply mem_filter.mpr
    exact ⟨inside, by simpa using bound⟩
  rw [empty] at kept
  cases kept

theorem replaceGroups_of_idle : replaceGroups tables replacements = tables := by
  have alone : ∀ item ∈ tables.zipIdx, (outputsAt tables.length replacements item.2 ++
        if isRemoved replacements item.2 then [] else [item.1]) = [item.1] := by
    rintro ⟨table, index⟩ member
    have no_outputs : outputsAt tables.length replacements index = [] := by
      have none_start : replacements.filter (fun group =>
          decide (firstIndex tables.length group.1 = some index)) = [] := by
        apply filter_eq_nil_iff.mpr
        intro replacement in_list
        simp [idle replacement in_list]
      rw [outputsAt, none_start]
      rfl
    rw [no_outputs, isRemoved_of_idle idle member]
    rfl
  rw [replaceGroups, flatMap_congr alone, ← map_eq_flatMap, zipIdx_map_fst]

end Idle

section

variable (versions : VersionSet) (cf : String) (replacements : List Replacement)

/-- The removed paths and the tables, also where nothing is replaced. -/
theorem atomicReplaceGroups_eq : (versions.atomicReplaceGroups cf replacements).1 =
      ((versions.getTables cf).zipIdx.filter (fun item =>
        isRemoved replacements item.2)).filterMap (·.1.path) ∧
    (versions.atomicReplaceGroups cf replacements).2.getTables cf =
      replaceGroups (versions.getTables cf) replacements := by
  unfold atomicReplaceGroups
  cases present : versions.tables[cf]? with
  | none => simp [getTables, present, replaceGroups]
  | some tables =>
    have listed : versions.getTables cf = tables := by
      simp [getTables, present]
    rw [listed]
    dsimp only
    split
    · next idle =>
      have nowhere : ∀ replacement ∈ replacements,
          firstIndex tables.length replacement.1 = none := by
        intro replacement member
        simpa using all_eq_true.mp idle replacement member
      rw [listed, replaceGroups_of_idle nowhere, filter_eq_nil_iff.mpr]
      · exact ⟨rfl, rfl⟩
      · intro item member
        simp [isRemoved_of_idle nowhere member]
    · simp [getTables, setTables, bumpGeneration, clearCache]

theorem getTables_atomicReplaceGroups :
    (versions.atomicReplaceGroups cf replacements).2.getTables cf =
      replaceGroups (versions.getTables cf) replacements :=
  (atomicReplaceGroups_eq versions cf replacements).2

theorem compactGroups_single {indices : List Nat} {clock : CompactionClock}
    (done : compact strategy config dir clock indices tables tombstones =
      (.ok outputs, dir')) :
    compactGroups strategy config tables tombstones dir [(indices, clock)] =
      (.ok [(indices, outputs)], dir') := by
  simp [compactGroups, done]

theorem atomicReplaceGroups_cases :
    (versions.atomicReplaceGroups cf replacements).2 = versions ∨
      ∃ tables, (versions.atomicReplaceGroups cf replacements).2 =
        (versions.setTables cf tables).bumpGeneration.clearCache := by
  unfold atomicReplaceGroups
  split
  · exact .inl rfl
  · split
    · exact .inl rfl
    · exact .inr ⟨_, rfl⟩

theorem kvCache_atomicReplaceGroups {versions : VersionSet}
    (uncached : versions.kvCache = ∅) :
    (versions.atomicReplaceGroups cf replacements).2.kvCache = ∅ := by
  rcases atomicReplaceGroups_cases versions cf replacements with same | ⟨_, same⟩ <;>
    rw [same]
  · exact uncached
  · rfl

@[simp] theorem hasBlockCache_atomicReplaceGroups :
    (versions.atomicReplaceGroups cf replacements).2.hasBlockCache =
      versions.hasBlockCache := by
  rcases atomicReplaceGroups_cases versions cf replacements with same | ⟨_, same⟩ <;>
    rw [same]
  rfl

@[simp] theorem quarantined_atomicReplaceGroups :
    (versions.atomicReplaceGroups cf replacements).2.quarantined =
      versions.quarantined := by
  rcases atomicReplaceGroups_cases versions cf replacements with same | ⟨_, same⟩ <;>
    rw [same]
  rfl

end

/-- Every group's outputs stand, in order, where its smallest index stood, and
the tables outside the groups stay in their order. -/
theorem replaced_in_place (versions : VersionSet) (cf : String)
    (groups : List Replacement)
    (below : ∀ group ∈ groups, ∀ index ∈ group.1, index <
      (versions.getTables cf).length)
    (disjoint : groups.Pairwise fun first second => first.1.Disjoint second.1) :
    (versions.atomicReplaceGroups cf groups).2.getTables cf =
      (versions.getTables cf).zipIdx.flatMap (fun item =>
        (groups.filter (fun group => decide (group.1.min? = some item.2))).flatMap
          (·.2) ++
          if ∃ group ∈ groups, item.2 ∈ group.1 then [] else [item.1]) ∧
    (versions.atomicReplaceGroups cf groups).1 =
      ((versions.getTables cf).zipIdx.filter (fun item =>
        decide (∃ group ∈ groups, item.2 ∈ group.1))).filterMap (·.1.path) := by
  obtain ⟨paths, listed⟩ := atomicReplaceGroups_eq versions cf groups
  have removed : ∀ index, isRemoved groups index =
      decide (∃ group ∈ groups, index ∈ group.1) := by
    intro index
    simp [isRemoved, any_eq]
  refine ⟨?_, by simp only [paths, removed]⟩
  rw [listed, replaceGroups]
  congr 1
  funext item
  have starts : groups.filter (fun group => decide
      (firstIndex (versions.getTables cf).length group.1 = some item.2)) =
        groups.filter (fun group => decide (group.1.min? = some item.2)) := by
    apply filter_congr
    intro group member
    rw [firstIndex_eq (below group member)]
  have apart := disjoint.sublist (filter_sublist (p := fun group : Replacement =>
    decide (group.1.min? = some item.2)))
  have first : ∀ group ∈ groups.filter (fun group => decide (group.1.min? = some item.2)),
      item.2 ∈ group.1 := by
    intro group member
    exact min?_mem (of_decide_eq_true (mem_filter.mp member).2)
  simp only [outputsAt, starts, removed, decide_eq_true_eq]
  -- at most one of the disjoint groups starts here
  generalize groups.filter (fun group => decide (group.1.min? = some item.2)) =
    here at apart first
  match here with
  | [] => simp
  | [group] => simp
  | group :: other :: _ =>
    rw [pairwise_cons] at apart
    exact absurd (first other (by simp)) (apart.1 other (by simp) (first group (by simp)))

/-- A table with one key, with or without a file. -/
def singleTable (key : UInt8) (path : Option String) : Table :=
  { Table.build { blockSize := 4096, bloomCollides := fun _ _ => false }
      ((∅ : ByteMap Bytes).insert [key] [key]) with path }

/-- Two groups whose indices interleave, one of them with a table that has no
file, between two tables that stay. -/
theorem two_groups_replaced :
    let tables := [singleTable 0 (some "a.sst"), singleTable 1 (some "b.sst"),
      singleTable 2 none, singleTable 3 (some "d.sst"), singleTable 4 (some "e.sst")]
    let versions := tables.foldl (·.addTable "default" ·) (VersionSet.new false)
    let groups : List Replacement :=
      [([3, 1], [singleTable 5 (some "f.sst"), singleTable 6 (some "g.sst")]),
        ([2], [singleTable 7 (some "h.sst")])]
    (versions.atomicReplaceGroups "default" groups).2.getTables "default" =
        [singleTable 0 (some "a.sst"), singleTable 5 (some "f.sst"),
          singleTable 6 (some "g.sst"), singleTable 7 (some "h.sst"),
          singleTable 4 (some "e.sst")] ∧
      (versions.atomicReplaceGroups "default" groups).1 = ["b.sst", "d.sst"] := by
  intro tables versions groups
  have listed : versions.getTables "default" = tables := by
    simp [versions, tables, getTables_addTable]
    rfl
  obtain ⟨after, paths⟩ := replaced_in_place versions "default" groups
    (by rw [listed]; decide) (by simp [groups])
  rw [after, paths, listed]
  exact ⟨rfl, rfl⟩

end ApexStore
