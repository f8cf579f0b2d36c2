import ApexStore.Engine.Compaction

/-!
# The groups a strategy picks

Whatever the strategy, the groups it picks are increasing lists of positions
of the table list, and no position is in two of them (`pickTables_disjoint`).
A group is all of a size class or all of level 0, so it need not be an
interval (`plans_are_well_formed`).
-/

namespace ApexStore

open List

/-- Increasing groups of positions below `count` that share no position. -/
structure DisjointGroups (count : Nat) (groups : List (List Nat)) : Prop where
  increasing : ∀ group ∈ groups, group.Pairwise (· < ·)
  below : ∀ group ∈ groups, ∀ index ∈ group, index < count
  disjoint : groups.Pairwise List.Disjoint

namespace DisjointGroups

variable {count : Nat} {groups : List (List Nat)}

theorem sublist {fewer : List (List Nat)} (valid : DisjointGroups count groups)
    (part : fewer.Sublist groups) : DisjointGroups count fewer where
  increasing group member := valid.increasing group (part.subset member)
  below group member := valid.below group (part.subset member)
  disjoint := valid.disjoint.sublist part

theorem eq_of_mem (valid : DisjointGroups count groups)
    {left right : List Nat} (left_member : left ∈ groups)
    (right_member : right ∈ groups) {index : Nat} (in_left : index ∈ left)
    (in_right : index ∈ right) : left = right := by
  by_contra different
  have symmetric : Std.Symm (List.Disjoint (α := Nat)) := ⟨fun _ _ => List.Disjoint.symm⟩
  have apart : left.Disjoint right :=
    valid.disjoint.forall left_member right_member different
  exact apart in_left in_right

end DisjointGroups

/-- The positions of the tables that pass a test. -/
def positions (pick : Table → Bool) (tables : List Table) : List Nat :=
  (tables.zipIdx.filter (fun item => pick item.1)).map (·.2)

theorem positions_sublist (pick : Table → Bool) (tables : List Table) :
    (positions pick tables).Sublist (List.range tables.length) := by
  have all : tables.zipIdx.map (·.2) = List.range tables.length := by
    rw [zipIdx_map_snd, range_eq_range']
  rw [← all]
  apply List.Sublist.map
  exact filter_sublist

theorem mem_positions {pick : Table → Bool} {tables : List Table} {index : Nat} :
    index ∈ positions pick tables ↔ ∃ table, tables[index]? = some table ∧
      pick table = true := by
  simp [positions, mk_mem_zipIdx_iff_getElem?]

theorem positions_concat (pick : Table → Bool) (tables : List Table) (table : Table) :
    positions pick (tables ++ [table]) =
      positions pick tables ++ if pick table then [tables.length] else [] := by
  cases picked : pick table <;> simp [positions, zipIdx_append, picked]

/-- Groups of tables that pass tests no two of which accept the same table. -/
theorem disjoint_positions {sizes : List Nat} (distinct : sizes.Nodup)
    (tables : List Table)
    {pick : Nat → Table → Bool}
    (exclusive : ∀ size other table, pick size table = true →
      pick other table = true → size = other) :
    DisjointGroups tables.length
      (sizes.map fun size => positions (pick size) tables) where
  increasing := by
    intro group member
    obtain ⟨size, _, rfl⟩ := mem_map.mp member
    exact pairwise_lt_range.sublist (positions_sublist _ tables)
  below := by
    intro group member index inside
    obtain ⟨size, _, rfl⟩ := mem_map.mp member
    exact mem_range.mp ((positions_sublist _ tables).subset inside)
  disjoint := by
    rw [pairwise_map]
    apply distinct.imp
    intro size other apart index inside inside'
    obtain ⟨table, at_index, picked⟩ := mem_positions.mp inside
    obtain ⟨_, at_index', picked'⟩ := mem_positions.mp inside'
    cases at_index.symm.trans at_index'
    exact apart (exclusive size other table picked picked')

/-! ## Size classes -/

def ofSize (size : Nat) (table : Table) : Bool := decide (bucketSize table.size = size)

variable {tables : List Table}

theorem addToBucket_map {sizes : List Nat} (distinct : sizes.Nodup)
    (group : Nat → List Nat)
    (size index : Nat) :
    addToBucket (sizes.map fun other => (other, group other)) size index =
      if size ∈ sizes then
        sizes.map fun other =>
          (other, group other ++ if size = other then [index] else [])
      else sizes.map (fun other => (other, group other)) ++ [(size, [index])] := by
  induction sizes with
  | nil => rfl
  | cons first sizes ih =>
    obtain ⟨fresh, rest⟩ := nodup_cons.mp distinct
    rw [map_cons, addToBucket]
    by_cases here : first = size
    · subst here
      have others : ∀ other ∈ sizes, first ≠ other :=
        fun _ member same => fresh (same ▸ member)
      rw [if_pos rfl, if_pos mem_cons_self, map_cons, if_pos rfl]
      congr 1
      apply map_congr_left
      intro other member
      rw [if_neg (others other member), append_nil]
    · rw [if_neg here, ih rest]
      by_cases known : size ∈ sizes <;> simp [known, Ne.symm here]

/-- The loop over the tables has one bucket for every size class, with all its
positions. -/
theorem buckets_eq (tables : List Table) : ∃ sizes : List Nat, sizes.Nodup ∧
    tables.zipIdx.foldl (fun buckets item =>
      addToBucket buckets (bucketSize item.1.size) item.2) [] =
        sizes.map (fun size => (size, positions (ofSize size) tables)) ∧
    ∀ size, size ∈ sizes ↔ positions (ofSize size) tables ≠ [] := by
  induction tables using List.reverseRecOn with
  | nil => exact ⟨[], nodup_nil, rfl, by simp [positions]⟩
  | append_singleton tables table ih =>
    obtain ⟨sizes, distinct, folded, covers⟩ := ih
    simp only [zipIdx_append, foldl_append, folded, zipIdx_singleton, foldl_cons, foldl_nil,
      Nat.zero_add, addToBucket_map distinct, positions_concat, ofSize, decide_eq_true_eq]
    by_cases known : bucketSize table.size ∈ sizes
    · refine ⟨sizes, distinct, if_pos known, fun size => ?_⟩
      rw [covers]
      by_cases here : bucketSize table.size = size
      · simp [here, ← covers, here ▸ known]
      · simp [here]
    · refine ⟨sizes ++ [bucketSize table.size], ?_, ?_, fun size => ?_⟩
      · rw [← concat_eq_append]
        exact distinct.concat known
      · rw [if_neg known, map_append, map_singleton, if_pos rfl,
          not_not.mp (mt (covers _).mpr known)]
        congr 1
        apply map_congr_left
        intro size member
        rw [if_neg (by rintro rfl; exact known member), append_nil]
      · rw [mem_append, covers]
        rcases eq_or_ne (bucketSize table.size) size with rfl | apart
        · simp
        · simp [apart, apart.symm]

/-- One group for every size class, among the tables that pass a test, that
reaches the minimum: all its positions. -/
def SizeClasses (minimum : Nat) (keep : Table → Bool) (tables : List Table)
    (groups : List (List Nat)) : Prop :=
  ∃ sizes : List Nat, sizes.Nodup ∧ groups = sizes.map (fun size =>
      positions (fun table => keep table && ofSize size table) tables) ∧
    ∀ size, size ∈ sizes ↔
      positions (fun table => keep table && ofSize size table) tables ≠ [] ∧
      minimum ≤ (positions (fun table => keep table && ofSize size table) tables).length

theorem SizeClasses.disjoint {minimum : Nat} {keep : Table → Bool}
    {groups : List (List Nat)}
    (classes : SizeClasses minimum keep tables groups) :
    DisjointGroups tables.length groups := by
  obtain ⟨sizes, distinct, rfl, _⟩ := classes
  apply disjoint_positions distinct
  intro size other table picked picked'
  simp only [ofSize, Bool.and_eq_true, decide_eq_true_eq] at picked picked'
  exact picked.2.symm.trans picked'.2

theorem sizeClasses_groupIntoBuckets (tables : List Table) (threshold : Nat) :
    SizeClasses threshold (fun _ => true) tables
      (groupIntoBuckets tables threshold) := by
  obtain ⟨sizes, distinct, folded, covers⟩ := buckets_eq tables
  refine ⟨sizes.filter fun size =>
    decide (threshold ≤ (positions (ofSize size) tables).length),
    distinct.filter _, ?_, fun size => ?_⟩
  · rw [groupIntoBuckets, folded, filter_map, map_map]
    rfl
  · rw [mem_filter, covers, decide_eq_true_eq]
    rfl

/-! ## Level 0 -/

theorem filterMap_positions (pick : Table → Bool) (items : List (Table × Nat)) :
    (positions pick (items.map (·.1))).filterMap ((items.map (·.2))[·]?) =
      (items.filter (pick ·.1)).map (·.2) := by
  induction items using List.reverseRecOn with
  | nil => rfl
  | append_singleton items item ih =>
    have before : (positions pick (items.map (·.1))).filterMap
        ((items.map (·.2) ++ [item.2])[·]?) = (items.filter (pick ·.1)).map (·.2) := by
      rw [← ih]
      apply filterMap_congr
      intro index inside
      have bound := mem_range.mp ((positions_sublist pick _).subset inside)
      rw [length_map] at bound
      exact getElem?_append_left (by rwa [length_map])
    rw [map_append, map_append, map_singleton, map_singleton, positions_concat,
      filterMap_append,
      before, filter_append, map_append]
    cases picked : pick item.1 <;> simp [picked]

theorem sizeClasses_levelZero (some_zero : levelZero tables ≠ [])
    (tiered : SizeTieredCompaction) (levels : LeveledCompaction) :
    SizeClasses tiered.minTablesToMerge (fun table => decide (table.level = 0)) tables
      (pickLazyLeveling tiered levels tables) := by
  have found : (levelZero tables).filterMap (tables[·]?) =
      (tables.zipIdx.filter (fun item => decide (item.1.level = 0))).map (·.1) := by
    rw [levelZero, filterMap_map, ← filterMap_eq_map]
    apply filterMap_congr
    intro item member
    exact mk_mem_zipIdx_iff_getElem?.mp (mem_filter.mp member).1
  -- positions among the tables of level 0, as positions of all tables
  have back : ∀ pick, (positions pick ((levelZero tables).filterMap (tables[·]?))).filterMap
      ((levelZero tables)[·]?) =
        positions (fun table => decide (table.level = 0) && pick table) tables := by
    intro pick
    rw [found, levelZero, filterMap_positions, filter_filter, positions]
    simp only [Bool.and_comm]
  have counted : ∀ pick, (positions (fun table => decide (table.level = 0) && pick table)
      tables).length =
        (positions pick ((levelZero tables).filterMap (tables[·]?))).length := by
    intro pick
    rw [← back, filterMap_length_eq_length]
    intro index inside
    have bound := mem_range.mp ((positions_sublist pick _).subset inside)
    rw [found, length_map] at bound
    simpa [levelZero] using bound
  obtain ⟨sizes, distinct, groups, classes⟩ := sizeClasses_groupIntoBuckets
    ((levelZero tables).filterMap (tables[·]?)) tiered.minTablesToMerge
  refine ⟨sizes, distinct, ?_, ?_⟩
  · rw [pickLazyLeveling, if_pos some_zero]
    dsimp only
    rw [groups, map_map]
    exact map_congr_left fun size _ => back _
  · intro size
    rw [classes, counted, ← length_pos_iff, ← length_pos_iff, counted]
    simp only [Bool.true_and]

theorem LeveledCompaction.pickTables_eq (strategy : LeveledCompaction)
    (tables : List Table) :
    strategy.pickTables tables = [levelZero tables].filter fun group =>
      decide (strategy.levelMultiplier ≤ group.length) := by
  unfold LeveledCompaction.pickTables
  split <;> simp [*]

theorem LeveledCompaction.pickTables_disjoint (strategy : LeveledCompaction)
    (tables : List Table) :
    DisjointGroups tables.length (strategy.pickTables tables) := by
  have level : DisjointGroups tables.length [levelZero tables] :=
    @disjoint_positions [0] (nodup_singleton 0) tables
      (fun size table => decide (table.level = size))
      (by simp_all)
  rw [strategy.pickTables_eq]
  exact level.sublist filter_sublist

theorem pickTables_disjoint (strategy : CompactionStrategy) (tables : List Table) :
    DisjointGroups tables.length (strategy.pickTables tables) := by
  cases strategy with
  | sizeTiered strategy => exact (sizeClasses_groupIntoBuckets tables _).disjoint
  | leveled strategy => exact strategy.pickTables_disjoint tables
  | lazyLeveling tiered levels =>
    by_cases some_zero : levelZero tables ≠ []
    · exact (sizeClasses_levelZero some_zero tiered levels).disjoint
    · rw [CompactionStrategy.pickTables, pickLazyLeveling, if_neg some_zero]
      exact levels.pickTables_disjoint tables

/-- The groups are disjoint, increasing and in range.  They are the size
classes that reach the minimum, of level 0 for lazy leveling, or level 0. -/
theorem plans_are_well_formed (strategy : CompactionStrategy) (tables : List Table) :
    DisjointGroups tables.length (strategy.pickTables tables) ∧
    match strategy with
    | .sizeTiered tiered =>
      SizeClasses tiered.minTablesToMerge (fun _ => true) tables
        (strategy.pickTables tables)
    | .leveled levels => strategy.pickTables tables =
      [levelZero tables].filter fun group =>
      decide (levels.levelMultiplier ≤ group.length)
    | .lazyLeveling tiered levels =>
      if levelZero tables = [] then strategy.pickTables tables =
        [[]].filter fun group => decide (levels.levelMultiplier ≤ group.length)
      else SizeClasses tiered.minTablesToMerge
        (fun table => decide (table.level = 0)) tables
        (strategy.pickTables tables) := by
  refine ⟨pickTables_disjoint strategy tables, ?_⟩
  cases strategy with
  | sizeTiered tiered => exact sizeClasses_groupIntoBuckets tables _
  | leveled levels => exact levels.pickTables_eq tables
  | lazyLeveling tiered levels =>
    dsimp only
    split
    · next none_zero =>
      rw [CompactionStrategy.pickTables, pickLazyLeveling, if_neg (not_not.mpr none_zero),
        levels.pickTables_eq, none_zero]
    · next some_zero => exact sizeClasses_levelZero some_zero tiered levels

end ApexStore
