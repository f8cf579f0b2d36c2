import ApexStore.Core.Table

/-!
# The version set

Per column family the version set keeps the tables oldest first, and for all
families together a value cache keyed by the user key alone.  `get` answers
from the cache or searches the tables newest first; a table whose file cannot
be read is quarantined and passed over.

The cache may drop entries at any time; operations that make it do so are
modelled where runs are considered.
-/

namespace ApexStore

structure VersionSet where
  kvCache : ByteMap Bytes
  tables : NameMap (List Table)
  hasBlockCache : Bool
  compactionGeneration : Nat
  quarantined : List String

/-- What one table contributes to a lookup. -/
inductive Probe where
  /-- Go on to the next older table. -/
  | miss
  /-- The key is deleted here; the search ends. -/
  | deleted
  /-- The value is cached and returned. -/
  | found (value : Bytes)
  /-- The file could not be read; quarantine it and go on. -/
  | unreadable (path : String)
  deriving DecidableEq, Repr

/-- The part of a lookup that reads the file behind the table. -/
def Table.probeFile (dir : SstDir) (hasBlockCache : Bool) (quarantined : List String)
    (now : Nanos) (table : Table) (key : Bytes) : Probe :=
  match table.path with
  | none => .miss
  | some path =>
    if quarantined.contains path then .miss
    else if !hasBlockCache then .miss
    else
      match dir.get path key with
      | .ok (some record) =>
        if record.isDeleted then .deleted
        else if record.isExpiredAt now then .miss
        else .found record.value
      | .ok none => .miss
      | .error _ => .unreadable path

/-- One turn of the table loop in `VersionSet::get`. -/
def Table.probe (dir : SstDir) (hasBlockCache : Bool) (quarantined : List String)
    (now : Nanos) (table : Table) (key : Bytes) : Probe :=
  if !table.admits key then .miss
  else
    match table.data[key]? with
    | some value =>
      if value.isEmpty then
        -- Without a file an empty value is a tombstone; with one, only the
        -- file can tell a tombstone from an empty value.
        if table.path.isNone then .deleted
        else table.probeFile dir hasBlockCache quarantined now key
      else .found value
    | none => table.probeFile dir hasBlockCache quarantined now key

namespace VersionSet

def new (hasBlockCache : Bool) : VersionSet :=
  { kvCache := ∅, tables := ∅, hasBlockCache, compactionGeneration := 0
    quarantined := [] }

def getTables (versions : VersionSet) (cf : String) : List Table :=
  versions.tables[cf]?.getD []

def clearCache (versions : VersionSet) : VersionSet :=
  { versions with kvCache := ∅ }

def putCached (versions : VersionSet) (key value : Bytes) : VersionSet :=
  { versions with kvCache := versions.kvCache.insert key value }

/-- The table loop of `get`, over the tables from newest to oldest. -/
def search (dir : SstDir) (hasBlockCache : Bool) (now : Nanos) (key : Bytes) :
    List Table → List String → Option Bytes × List String
  | [], quarantined => (none, quarantined)
  | table :: older, quarantined =>
    match table.probe dir hasBlockCache quarantined now key with
    | .miss => search dir hasBlockCache now key older quarantined
    | .deleted => (none, quarantined)
    | .found value => (some value, quarantined)
    | .unreadable path =>
      search dir hasBlockCache now key older (path :: quarantined)

/-- `get` of a key that is not cached. -/
def getUncached (versions : VersionSet) (dir : SstDir) (now : Nanos)
    (cf : String) (key : Bytes) : Option Bytes × VersionSet :=
  let (result, quarantined) := search dir versions.hasBlockCache now key
    (versions.getTables cf).reverse versions.quarantined
  let versions := { versions with quarantined }
  match result with
  | some value => (some value, versions.putCached key value)
  | none => (none, versions)

def get (versions : VersionSet) (dir : SstDir) (now : Nanos) (cf : String)
    (key : Bytes) : Option Bytes × VersionSet :=
  match versions.kvCache[key]? with
  | some cached =>
    -- The source takes an empty cached value for a tombstone.
    (if cached.isEmpty then none else some cached, versions)
  | none => versions.getUncached dir now cf key

/-- The newest version of a key together with its metadata; used when a range
tombstone may cover the key. -/
def getRecordIn (dir : SstDir) (quarantined : List String) (key : Bytes) :
    List Table → Except LsmError (Option LogRecord)
  | [] => .ok none
  | table :: older =>
    if !table.admitsRecord key then getRecordIn dir quarantined key older
    else
      match table.path with
      | some path =>
        if quarantined.contains path then
          .error (.invalidSstableFormat s!"cannot read quarantined SSTable {path}")
        else
          match dir.get path key with
          | .ok (some record) => .ok (some record)
          | .ok none => getRecordIn dir quarantined key older
          | .error error => .error error
      | none =>
        match table.data[key]? with
        | some value =>
          .ok (some { LogRecord.new 0 key value with
                      isDeleted := value.isEmpty })
        | none => getRecordIn dir quarantined key older

def getRecord (versions : VersionSet) (dir : SstDir) (cf : String)
    (key : Bytes) : Except LsmError (Option LogRecord) :=
  getRecordIn dir versions.quarantined key (versions.getTables cf).reverse

def setTables (versions : VersionSet) (cf : String) (tables : List Table) :
    VersionSet :=
  { versions with tables := versions.tables.insert cf tables }

def bumpGeneration (versions : VersionSet) : VersionSet :=
  { versions with compactionGeneration := versions.compactionGeneration + 1 }

def addTable (versions : VersionSet) (cf : String) (table : Table) : VersionSet :=
  ((versions.setTables cf (versions.getTables cf ++ [table])).clearCache ).bumpGeneration

theorem getTables_addTable (versions : VersionSet) (cf : String) (table : Table) :
    (versions.addTable cf table).getTables cf = versions.getTables cf ++ [table] := by
  simp [addTable, getTables, setTables, clearCache, bumpGeneration]

theorem getTables_addTable_ne {cf other : String} (apart : cf ≠ other)
    (versions : VersionSet)
    (table : Table) :
    (versions.addTable cf table).getTables other = versions.getTables other := by
  simp [addTable, getTables, setTables, clearCache, bumpGeneration,
    NameMap.getElem?_insert, apart]

def tableCount (versions : VersionSet) (cf : String) : Nat :=
  (versions.getTables cf).length

def drainTables (versions : VersionSet) (cf : String) : List Table × VersionSet :=
  (versions.getTables cf,
    { versions with tables := versions.tables.erase cf }.clearCache)

/-- Replaces all tables of a family.  Unlike the other mutators the source
does not clear the cache here. -/
def removeAndAddTable (versions : VersionSet) (cf : String) (table : Table) :
    VersionSet :=
  (versions.setTables cf [table]).bumpGeneration

/-- A group of table positions and the tables that replace them. -/
abbrev Replacement := List Nat × List Table

/-- The position a group's output takes: that of its oldest member. -/
def firstIndex (count : Nat) (indices : List Nat) : Option Nat :=
  (indices.filter (· < count)).min?

/-- Whether some group removes the table at a position. -/
def isRemoved (groups : List Replacement) (index : Nat) : Bool :=
  groups.any (fun group => group.1.contains index)

/-- The tables put in front of a position.  Groups with the same first
position overwrite each other, so the last one counts. -/
def outputsAt (count : Nat) (groups : List Replacement) (index : Nat) : List Table :=
  match (groups.filter (fun group =>
      decide (firstIndex count group.1 = some index))).getLast? with
  | some group => group.2
  | none => []

def replaceGroups (tables : List Table) (groups : List Replacement) : List Table :=
  tables.zipIdx.flatMap (fun item =>
    outputsAt tables.length groups item.2 ++
      if isRemoved groups item.2 then [] else [item.1])

/-- Also returns the paths of the removed tables. -/
def atomicReplaceGroups (versions : VersionSet) (cf : String)
    (groups : List Replacement) : List String × VersionSet :=
  match versions.tables[cf]? with
  | none => ([], versions)
  | some tables =>
    if groups.all (fun group => (firstIndex tables.length group.1).isNone)
    then ([], versions)
    else
      ((tables.zipIdx.filter (fun item => isRemoved groups item.2)).filterMap (·.1.path),
        ((versions.setTables cf (replaceGroups tables groups)).bumpGeneration ).clearCache)

def atomicReplace (versions : VersionSet) (cf : String) (indices : List Nat)
    (newTables : List Table) : List String × VersionSet :=
  versions.atomicReplaceGroups cf [(indices, newTables)]

end VersionSet

end ApexStore
