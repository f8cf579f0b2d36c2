import ApexStore.Core.Memtable
import ApexStore.Storage.WalRecovery
import ApexStore.Engine.CompactionRuns
import ApexStore.Engine.Flush

/-!
# The engine

`EngineCore` is the state behind the lock of the engine together with the
files it writes.  The write operations are built from the steps the source
takes: get the log's handle, append to the log without the lock, insert into
the memtable under the lock, where a full memtable is flushed at once.
Clock readings and nonces are arguments; input and output succeed.

A put also updates secondary indexes when its value is a JSON document: these
are further puts to the same family, and stand for themselves in a run.  A put
or delete whose flush leaves too many tables starts the compaction that
`BackgroundCompaction` has in steps; under `Calm` it starts none.
-/

namespace ApexStore

open VersionSet

structure EngineOptions where
  storage : StorageConfig
  writeBufferSize : Nat
  maxWriteBufferNumber : Nat
  compactionThreshold : Nat
  defaultTtl : Option Nanos
  encryptor : Encryptor

def EngineOptions.writeBufferLimit (options : EngineOptions) : Nat :=
  options.writeBufferSize * options.maxWriteBufferNumber

/-- `EngineOptions::default`, without encryption and with Bloom filters that
report no key they were not given. -/
def EngineOptions.default : EngineOptions :=
  { storage := { blockSize := 4096, bloomCollides := fun _ _ => false }
    writeBufferSize := 64 * 1024
    maxWriteBufferNumber := 4
    compactionThreshold := 4
    defaultTtl := none
    encryptor := .disabled .blank }

def maxKeySize : Nat := 4096

def maxValueSize : Nat := 16 * 1024 * 1024

structure EngineCore where
  memtables : NameMap (List MemTable)
  memtableBytes : NameMap Nat
  /-- The version set and the SSTable directory. -/
  store : TableState
  /-- The logs, as the entries whose frames the files hold: the name
  `default` stands for `wal.log`, any other name for `wal-{name}.log`. -/
  logs : NameMap (List WalEntry)
  rangeTombstones : NameMap (List RangeTombstone)

/-- The clock readings of a write, and the nonce its log entry is encrypted
with. -/
structure WriteContext where
  /-- The timestamp of the logged record. -/
  created : Nanos
  /-- The reading the default TTL is added to. -/
  ttlBase : Nanos
  /-- The timestamp of the record a delete puts in the memtable. -/
  inserted : Nanos
  flush : FlushClock
  /-- The reading of the lookups at the end of a delete. -/
  read : Nanos
  nonce : Nonce

/-- A write during which the clock stands still. -/
def WriteContext.instant (now : Nanos) : WriteContext :=
  { created := now, ttlBase := now, inserted := now
    flush := { now, stamp := fun _ => now }, read := now
    nonce := Vector.replicate 12 0 }

/-- A write whose clock readings follow each other. -/
def WriteContext.ticking (start : Nanos) : WriteContext :=
  { created := start, ttlBase := start + 1, inserted := start + 2
    flush := { now := start + 3, stamp := fun _ => start + 3 }
    read := start + 4, nonce := Vector.replicate 12 0 }

namespace EngineCore

def empty : EngineCore :=
  { memtables := ∅, memtableBytes := ∅, store := .empty, logs := ∅
    rangeTombstones := ∅ }

/-- The log a family writes to.  The unnamed family shares `wal.log` with the
default one. -/
def logName (cf : String) : String := if cf = "" then "default" else cf

def log (core : EngineCore) (cf : String) : List WalEntry :=
  core.logs[logName cf]?.getD []

def memtablesOf (core : EngineCore) (cf : String) : List MemTable :=
  core.memtables[cf]?.getD []

def bytesOf (core : EngineCore) (cf : String) : Nat :=
  core.memtableBytes[cf]?.getD 0

def rangesOf (core : EngineCore) (cf : String) : List RangeTombstone :=
  core.rangeTombstones[cf]?.getD []

def walHandle (core : EngineCore) (cf : String) : EngineCore :=
  { core with logs := core.logs.insert (logName cf) (core.log cf) }

/-- `WriteAheadLog::write_record` through the handle of a family. -/
def writeRecord (core : EngineCore) (cf : String) (entry : WalEntry) :
    EngineCore :=
  { core with logs := core.logs.insert (logName cf) (core.log cf ++ [entry]) }

/-- `WriteAheadLog::clear`. -/
def clearLog (core : EngineCore) (cf : String) : EngineCore :=
  { core with logs := core.logs.insert (logName cf) [] }

def updateMemtable (core : EngineCore) (cf : String)
    (update : MemTable → MemTable) : EngineCore :=
  { core with
    memtables := core.memtables.insert cf
      (MemTable.updateLast update (core.memtablesOf cf)) }

def addBytes (core : EngineCore) (cf : String) (size : Nat) : EngineCore :=
  { core with
    memtableBytes := core.memtableBytes.insert cf (core.bytesOf cf + size) }

def addRange (core : EngineCore) (cf : String) (range : RangeTombstone) :
    EngineCore :=
  { core with
    rangeTombstones :=
      core.rangeTombstones.insert cf (core.rangesOf cf ++ [range]) }

/-- Returns whether the family has enough tables for a compaction.  The
memtable is gone even when the flush fails. -/
def flushMemtableImpl (options : EngineOptions) (clock : FlushClock)
    (cf : String) (core : EngineCore) : Except LsmError Bool × EngineCore :=
  match (core.memtablesOf cf).getLast? with
  | none => (.ok false, core)
  | some mem =>
    -- A memtable without point records keeps its range tombstones, and the
    -- log is only synced.
    if mem.data.isEmpty then (.ok false, core.walHandle cf)
    else
      let core :=
        { core with
          memtables :=
            core.memtables.insert cf (core.memtablesOf cf).dropLast }
      match flushTable options.storage core.store.dir clock mem.data with
      | (.error error, dir) =>
        (.error error, { core with store := { core.store with dir } })
      | (.ok table, dir) =>
        let core :=
          { core with
            store :=
              { versions := core.store.versions.addTable cf table, dir } }
        match core.memtableBytes[cf]? with
        | none =>
          (.error (.invalidArgument
            s!"Column family {cf} not found in memtable_bytes"), core)
        | some _ =>
          let core :=
            { core with
              memtableBytes := core.memtableBytes.insert cf 0 }
          (.ok (decide (options.compactionThreshold <
              core.store.versions.tableCount cf)),
            core.clearLog cf)

def insertMemtable (core : EngineCore) (cf : String) (record : LogRecord)
    (size : Nat) : EngineCore :=
  (core.updateMemtable cf (·.insert record)).addBytes cf size

/-- The locked part of a write: insert the record and flush the memtable if
it is full.  Returns whether a compaction is due. -/
def insertRecord (options : EngineOptions) (clock : FlushClock) (cf : String)
    (record : LogRecord) (size : Nat) (core : EngineCore) :
    Except LsmError Bool × EngineCore :=
  let core := core.insertMemtable cf record size
  if options.writeBufferLimit ≤ core.bytesOf cf then
    core.flushMemtableImpl options clock cf
  else (.ok false, core)

/-- A write of this size starts no compaction: it does not fill the memtable,
or the family has fewer tables than the threshold. -/
def Calm (core : EngineCore) (options : EngineOptions) (cf : String) (size : Nat) :
    Prop :=
  options.writeBufferLimit ≤ core.bytesOf cf + size →
    core.store.versions.tableCount cf < options.compactionThreshold

instance decidableCalm (core : EngineCore) (options : EngineOptions) (cf : String)
    (size : Nat) :
    Decidable (core.Calm options cf size) := inferInstanceAs (Decidable (_ → _))

theorem Calm.of_room {core : EngineCore} {options : EngineOptions} {cf : String}
    {size : Nat}
    (room : core.bytesOf cf + size < options.writeBufferLimit) :
    core.Calm options cf size :=
  fun full => absurd full (not_le.mpr room)

def checkSizes (key value : Bytes) : Except LsmError Unit :=
  if maxKeySize < key.length then
    .error (.invalidArgument
      s!"key size {key.length} exceeds maximum of {maxKeySize}")
  else if maxValueSize < value.length then
    .error (.invalidArgument
      s!"value size {value.length} exceeds maximum of {maxValueSize}")
  else .ok ()

def putRecord (options : EngineOptions) (context : WriteContext) (cf : String)
    (key value : Bytes) (ttl : Option Nanos) : LogRecord :=
  let record :=
    match ttl with
    | some ttl => LogRecord.newWithTtl context.created key value ttl
    | none => LogRecord.new context.created key value
  let record := { record with columnFamily := some cf }
  match record.expiresAt, options.defaultTtl with
  | none, some defaultTtl =>
    { record with
      expiresAt := some (context.ttlBase.saturatingAdd defaultTtl) }
  | _, _ => record

/-- `put_cf_with_ttl_inner`. -/
def putCf (options : EngineOptions) (context : WriteContext) (cf : String)
    (key value : Bytes) (ttl : Option Nanos) (core : EngineCore) :
    Except LsmError Bool × EngineCore :=
  match checkSizes key value with
  | .error error => (.error error, core)
  | .ok () =>
    let record := putRecord options context cf key value ttl
    let core := (core.walHandle cf).writeRecord cf
      { nonce := context.nonce, record }
    core.insertRecord options context.flush cf record
      (key.length + value.length)

def coveringRangeTombstoneTs (core : EngineCore) (cf : String) (key : Bytes) :
    Option Nanos :=
  match maxCovering (core.rangesOf cf) key,
      ((core.memtablesOf cf).filterMap
        (·.maxCoveringRangeTombstone key)).max? with
  | some engineLevel, some memtableLevel => some (max engineLevel memtableLevel)
  | engineLevel, memtableLevel => engineLevel.or memtableLevel

/-- The record of the newest memtable that has the key. -/
def memtableRecord (core : EngineCore) (cf : String) (key : Bytes) :
    Option LogRecord :=
  (core.memtablesOf cf).reverse.findSome? (·.data[key]?)

/-- What `get_cf` answers when a memtable has the key. -/
def memtableAnswer (covering : Option Nanos) (now : Nanos)
    (record : LogRecord) : Option Bytes :=
  if covering.any (fun timestamp => decide (record.timestamp < timestamp)) then
    none
  else if record.isDeleted then none
  else if record.isExpiredAt now then none
  else some record.value

/-- The lookup in the tables; under a range tombstone it goes by the
timestamp of the newest version. -/
def lookupTables (covering : Option Nanos) (now : Nanos) (cf : String)
    (key : Bytes) (store : TableState) :
    Except LsmError (Option Bytes) × TableState :=
  match covering with
  | some timestamp =>
    match store.versions.getRecord store.dir cf key with
    | .error error => (.error error, store)
    | .ok found =>
      (.ok ((found.filter (fun record => !record.isDeleted &&
          !record.isExpiredAt now &&
          decide (timestamp ≤ record.timestamp))).map (·.value)), store)
  | none =>
    let (result, versions) := store.versions.get store.dir now cf key
    (.ok result, { store with versions })

/-- Values read from tables may have expired: their expiry stands under the
TTL key. -/
def checkTtl (now : Nanos) (cf : String) (key value : Bytes)
    (store : TableState) : Option Bytes × TableState :=
  let (ttlValue, versions) := store.versions.get store.dir now cf (ttlKey key)
  let expired := ttlValue.any (fun bytes =>
    decide (bytes.length = 16) && decide (leNat bytes ≤ now.val))
  (if expired then none else some value, { store with versions })

/-- All clock readings of one call are taken to be the same. -/
def getCf (now : Nanos) (cf : String) (key : Bytes) (core : EngineCore) :
    Except LsmError (Option Bytes) × EngineCore :=
  let covering := core.coveringRangeTombstoneTs cf key
  match core.memtableRecord cf key with
  | some record => (.ok (memtableAnswer covering now record), core)
  | none =>
    match lookupTables covering now cf key core.store with
    | (.error error, store) => (.error error, { core with store })
    | (.ok none, store) => (.ok none, { core with store })
    | (.ok (some value), store) =>
      let (result, store) := checkTtl now cf key value store
      (.ok result, { core with store })

/-- A delete logs a tombstone, puts another one with its own timestamp in the
memtable, and looks for the old value afterwards. -/
def deleteCf (options : EngineOptions) (context : WriteContext) (cf : String)
    (key : Bytes) (core : EngineCore) : Except LsmError Bool × EngineCore :=
  let record :=
    { LogRecord.tombstone context.created key with columnFamily := some cf }
  let core := (core.walHandle cf).writeRecord cf
    { nonce := context.nonce, record }
  match core.insertRecord options context.flush cf
      (LogRecord.tombstone context.inserted key) key.length with
  | (.error error, core) => (.error error, core)
  | (.ok needsCompact, core) =>
    match core.getCf context.read cf key with
    | (.ok (some _), core) => (.ok needsCompact, core)
    | (_, core) =>
      (.ok needsCompact, (core.getCf context.read cf (ttlKey key)).2)

/-- The range tombstone gets the first clock reading, its log record the
second. -/
def deleteRangeCf (timestamp logged : Nanos) (nonce : Nonce) (cf : String)
    (start stop : Bytes) (core : EngineCore) : EngineCore :=
  let range : RangeTombstone := { startKey := start, endKey := stop, timestamp }
  let record :=
    { LogRecord.rangeTombstone logged start stop with columnFamily := some cf }
  let core := (core.walHandle cf).writeRecord cf { nonce, record }
  (core.addRange cf range).updateMemtable cf (·.addRangeTombstone range)

end EngineCore

end ApexStore
