import ApexStore.Engine.VersionSet

/-!
# Compaction

A strategy picks groups of table positions; each group is merged into one new
table, which `atomic_replace_groups` puts where the group's oldest member
stood.  The merge reads the in-memory copies `Table.data`, takes an empty value
for a tombstone and drops it, and drops every key inside an active range
tombstone.

The clock readings of the source are arguments: `timestamp` names the output
file and `stamp` gives the reading taken when the record of a key is built.
-/

namespace ApexStore

/-! ## Picking groups -/

def bucketSize (size : Nat) : Nat :=
  if size < 64 * 1024 then 64 * 1024
  else if size < 256 * 1024 then 256 * 1024
  else if size < 1024 * 1024 then 1024 * 1024
  else 2 ^ 64 - 1

/-- Put a position into the bucket of its size class, opening one at the end
when there is none. -/
def addToBucket : List (Nat × List Nat) → Nat → Nat → List (Nat × List Nat)
  | [], size, index => [(size, [index])]
  | bucket :: buckets, size, index =>
    if bucket.1 = size then (bucket.1, bucket.2 ++ [index]) :: buckets
    else bucket :: addToBucket buckets size index

def groupIntoBuckets (tables : List Table) (bucketThreshold : Nat) : List (List Nat) :=
  let buckets := tables.zipIdx.foldl
    (fun buckets item => addToBucket buckets (bucketSize item.1.size) item.2)
    []
  (buckets.filter (fun bucket => decide (bucketThreshold ≤ bucket.2.length))).map (·.2)

structure SizeTieredCompaction where
  minTablesToMerge : Nat

structure LeveledCompaction where
  levelMultiplier : Nat

/-- The strategies of the source with their tunable thresholds. -/
inductive CompactionStrategy where
  | sizeTiered (strategy : SizeTieredCompaction)
  | leveled (strategy : LeveledCompaction)
  | lazyLeveling (sizeTiered : SizeTieredCompaction) (leveled : LeveledCompaction)

def SizeTieredCompaction.default : SizeTieredCompaction :=
  { minTablesToMerge := 2 }

def LeveledCompaction.default : LeveledCompaction :=
  { levelMultiplier := 10 }

def levelZero (tables : List Table) : List Nat :=
  (tables.zipIdx.filter (fun item => decide (item.1.level = 0))).map (·.2)

def SizeTieredCompaction.pickTables (strategy : SizeTieredCompaction)
    (tables : List Table) : List (List Nat) :=
  groupIntoBuckets tables strategy.minTablesToMerge

def LeveledCompaction.pickTables (strategy : LeveledCompaction)
    (tables : List Table) : List (List Nat) :=
  if strategy.levelMultiplier ≤ (levelZero tables).length then
    [levelZero tables]
  else []

/-- Buckets of the level-0 tables, translated back to positions in the whole
list; without level-0 tables the leveled rule applies. -/
def pickLazyLeveling (sizeTiered : SizeTieredCompaction)
    (leveled : LeveledCompaction) (tables : List Table) : List (List Nat) :=
  let l0Indices := levelZero tables
  if l0Indices ≠ [] then
    let l0Tables := l0Indices.filterMap (fun index => tables[index]?)
    (groupIntoBuckets l0Tables sizeTiered.minTablesToMerge).map
      (fun bucket => bucket.filterMap (fun index => l0Indices[index]?))
  else leveled.pickTables tables

def CompactionStrategy.pickTables (strategy : CompactionStrategy)
    (tables : List Table) : List (List Nat) :=
  match strategy with
  | .sizeTiered strategy => strategy.pickTables tables
  | .leveled strategy => strategy.pickTables tables
  | .lazyLeveling tiered levels => pickLazyLeveling tiered levels tables

/-! ## Merging a group -/

/-- Timestamps play no part here, unlike in reads. -/
def isKeyInRangeTombstones (key : Bytes) (tombstones : List RangeTombstone) : Bool :=
  tombstones.any (·.covers key)

/-- The clock readings of one compaction. -/
structure CompactionClock where
  timestamp : Nanos
  stamp : Bytes → Nanos

/-- Where an output goes: the prefix of its name and the level it is given. -/
structure OutputTarget where
  namePrefix : String
  level : Option Nat

def OutputTarget.fileName (target : OutputTarget) (timestamp : Nanos) : String :=
  target.namePrefix ++ "_" ++ toString timestamp.val ++ ".sst"

def mergedEntries (tables : List Table) (tombstones : List RangeTombstone) :
    List (Bytes × Bytes) :=
  (MergeIterator.new (tables.reverse.map (·.data.toList))).drain.filter (fun entry =>
      !entry.2.isEmpty && !isKeyInRangeTombstones entry.1 tombstones)

/-- Returns the new tables and the directory afterwards.  The output file is
created before anything is merged and stays behind when nothing is written or
an entry is refused. -/
def executeCompaction (config : StorageConfig) (dir : SstDir)
    (clock : CompactionClock) (target : OutputTarget) (tables : List Table)
    (tombstones : List RangeTombstone) : Except LsmError (List Table) × SstDir :=
  if tables.isEmpty then (.ok [], dir)
  else
    let path := target.fileName clock.timestamp
    let entries := mergedEntries tables tombstones
    let records := entries.map (fun entry =>
      (entry.1, LogRecord.new (clock.stamp entry.1) entry.1 entry.2))
    let created := dir.insert path .unfinished
    match (SstableBuilder.new config).addAll records with
    | .error error => (.error error, created)
    | .ok builder =>
      if entries.isEmpty then (.ok [], created)
      else
        match builder.finish with
        | .error error => (.error error, created)
        | .ok file =>
          let written := dir.insert path file
          match Table.fromSstablePath config written path with
          | .error error => (.error error, written)
          | .ok table =>
            (.ok [{ table with
                    data := ByteMap.insertAll ∅ entries
                    level := target.level.getD table.level }], written)

def sizeTieredTarget : OutputTarget :=
  { namePrefix := "sst", level := none }

def leveledTarget : OutputTarget :=
  { namePrefix := "sst_L1", level := some 1 }

def CompactionStrategy.target (strategy : CompactionStrategy)
    (tables : List Table) : OutputTarget :=
  match strategy with
  | .sizeTiered _ => sizeTieredTarget
  | .leveled _ => leveledTarget
  | .lazyLeveling _ _ =>
    if tables.any (fun table => decide (table.level = 0)) then
      sizeTieredTarget
    else leveledTarget

/-- `Compaction::compact`: merge the tables at the given positions. -/
def compact (strategy : CompactionStrategy) (config : StorageConfig)
    (dir : SstDir) (clock : CompactionClock) (indices : List Nat)
    (allTables : List Table) (tombstones : List RangeTombstone) :
    Except LsmError (List Table) × SstDir :=
  let tables := indices.filterMap (fun index => allTables[index]?)
  if tables.isEmpty then (.ok [], dir)
  else
    executeCompaction config dir clock (strategy.target tables) tables tombstones

end ApexStore
