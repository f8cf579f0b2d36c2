import ApexStore.Engine.EngineCore

/-!
# What the operations of the engine touch

`FlushOutcome` lists what a flush can do.  An operation on a family leaves the
memtables, the range tombstones, the tables and the log of every other family
alone (`Frame`), and writes no SSTable but the one its flush is named after.
-/

namespace ApexStore

open VersionSet

namespace EngineCore

variable {options : EngineOptions} {core : EngineCore}

section

variable (core : EngineCore) (cf other : String)

theorem memtablesOf_updateMemtable (update : MemTable → MemTable) :
    (core.updateMemtable cf update).memtablesOf other =
      if cf = other then MemTable.updateLast update (core.memtablesOf cf)
      else core.memtablesOf other := by
  simp only [memtablesOf, updateMemtable, NameMap.getElem?_insert]
  split <;> rfl

theorem bytes_addBytes (size : Nat) : (core.addBytes cf size).memtableBytes[other]? =
      if cf = other then some
        (core.bytesOf cf + size) else core.memtableBytes[other]? := by
  simp only [addBytes, NameMap.getElem?_insert]

theorem rangesOf_addRange (range : RangeTombstone) :
    (core.addRange cf range).rangesOf other =
      if cf = other then core.rangesOf cf ++ [range] else core.rangesOf other := by
  simp only [rangesOf, addRange, NameMap.getElem?_insert]
  split <;> rfl

theorem log_writeRecord (entry : WalEntry) : (core.writeRecord cf entry).log other =
      if logName cf = logName other then core.log cf ++
        [entry] else core.log other := by
  simp only [log, writeRecord, NameMap.getElem?_insert]
  split <;> rfl

@[simp] theorem log_walHandle : (core.walHandle cf).log other = core.log other := by
  simp only [log, walHandle, NameMap.getElem?_insert]
  split
  · next same => rw [same]; rfl
  · rfl

theorem log_clearLog : (core.clearLog cf).log other =
      if logName cf = logName other then [] else core.log other := by
  simp only [log, clearLog, NameMap.getElem?_insert]
  split <;> rfl

def popMemtable (core : EngineCore) (cf : String) : EngineCore :=
  { core with
    memtables := core.memtables.insert cf (core.memtablesOf cf).dropLast }

theorem memtablesOf_popMemtable : (core.popMemtable cf).memtablesOf other =
      if cf = other then (core.memtablesOf cf).dropLast
      else core.memtablesOf other := by
  simp only [memtablesOf, popMemtable, NameMap.getElem?_insert]
  split <;> rfl

end

/-- With a new table, while the log still holds the flushed records. -/
def installTable (core : EngineCore) (cf : String) (table : Table) (dir : SstDir) :
    EngineCore :=
  { core with
    store := { versions := core.store.versions.addTable cf table, dir } }

/-- What a flush can do. -/
inductive FlushOutcome (options : EngineOptions) (clock : FlushClock)
    (cf : String) (core : EngineCore) : Except LsmError Bool × EngineCore → Prop where
  | idle (nothing : (core.memtablesOf cf).getLast? = none) :
      FlushOutcome options clock cf core (.ok false, core)
  | synced (mem : MemTable) (last : (core.memtablesOf cf).getLast? = some mem)
      (empty : mem.data.isEmpty = true) :
      FlushOutcome options clock cf core (.ok false, core.walHandle cf)
  | failed (mem : MemTable) (last : (core.memtablesOf cf).getLast? = some mem)
      (nonempty : mem.data.isEmpty = false) (error : LsmError) (dir : SstDir)
      (fails : flushTable options.storage core.store.dir clock mem.data =
        (.error error, dir)) :
      FlushOutcome options clock cf core (.error error,
          { core.popMemtable cf with store := { core.store with dir } })
  /-- The family has no byte count: the table is installed, but the log is
  not cleared. -/
  | uncounted (mem : MemTable) (last : (core.memtablesOf cf).getLast? = some mem)
      (nonempty : mem.data.isEmpty = false) (table : Table) (dir : SstDir)
      (done : flushTable options.storage core.store.dir clock mem.data = (.ok table, dir))
      (missing : core.memtableBytes[cf]? = none) (error : LsmError) :
      FlushOutcome options clock cf core
        (.error error, (core.popMemtable cf).installTable cf table dir)
  | written (mem : MemTable) (last : (core.memtablesOf cf).getLast? = some mem)
      (nonempty : mem.data.isEmpty = false) (table : Table) (dir : SstDir)
      (done : flushTable options.storage core.store.dir clock mem.data =
        (.ok table, dir)) (due : Bool) : FlushOutcome options clock cf core (.ok due,
          { (core.popMemtable cf).installTable cf table dir with
            memtableBytes := core.memtableBytes.insert cf 0 }.clearLog cf)

theorem flushMemtableImpl_outcome (options : EngineOptions)
    (clock : FlushClock) (cf : String) (core : EngineCore) :
    FlushOutcome options clock cf core
      (core.flushMemtableImpl options clock cf) := by
  unfold flushMemtableImpl
  split
  · next nothing => exact .idle nothing
  · next mem last =>
    cases empty : mem.data.isEmpty with
    | true =>
      exact .synced mem last empty
    | false =>
      rw [if_neg (by simp)]
      dsimp only
      split
      · next error dir fails => exact .failed mem last empty error dir fails
      · next table dir done =>
        split
        · next missing =>
          exact .uncounted mem last empty table dir done missing _
        · exact .written mem last empty table dir done _

section

variable {clock : FlushClock} {cf : String} {record : LogRecord} {size : Nat}

theorem tableCount_of_due
    (due : (core.flushMemtableImpl options clock cf).1 = .ok true) :
    options.compactionThreshold ≤ core.store.versions.tableCount cf := by
  unfold flushMemtableImpl at due
  split at due
  · cases due
  split at due
  · cases due
  dsimp only at due
  split at due
  · cases due
  split at due
  · cases due
  have many := of_decide_eq_true (Except.ok.inj due)
  rw [tableCount, getTables_addTable, List.length_append] at many
  exact Nat.lt_succ_iff.mp many

theorem bytesOf_insertMemtable (core : EngineCore) (cf : String) (record : LogRecord)
    (size : Nat) :
    (core.insertMemtable cf record size).bytesOf cf = core.bytesOf cf + size := by
  rw [bytesOf, insertMemtable, bytes_addBytes, if_pos rfl]
  rfl

/-- The locked part of a write starts no compaction, and a memtable that it
fills can be flushed. -/
structure InsertCalm (core : EngineCore) (options : EngineOptions) (cf : String)
    (record : LogRecord) (size : Nat) (Flush : EngineCore → Prop) : Prop where
  calm : core.Calm options cf size
  flush : options.writeBufferLimit ≤ (core.insertMemtable cf record size).bytesOf cf →
    Flush (core.insertMemtable cf record size)

theorem InsertCalm.of_room {Flush : EngineCore → Prop}
    (room : core.bytesOf cf + size < options.writeBufferLimit) :
    core.InsertCalm options cf record size Flush := by
  refine ⟨.of_room room, fun full => ?_⟩
  rw [bytesOf_insertMemtable] at full
  exact absurd full (not_le.mpr room)

theorem Calm.insertRecord (calm : core.Calm options cf size) :
    (core.insertRecord options clock cf record size).1 ≠ .ok true := by
  unfold EngineCore.insertRecord
  dsimp only
  split
  · next full =>
    intro due
    rw [bytesOf_insertMemtable] at full
    exact absurd (tableCount_of_due due) (not_le.mpr (calm full))
  · nofun

theorem Calm.putCf {context : WriteContext} {key value : Bytes} {ttl : Option Nanos}
    (calm : core.Calm options cf (key.length + value.length)) :
    (core.putCf options context cf key value ttl).1 ≠ .ok true := by
  unfold EngineCore.putCf
  split
  · nofun
  · refine Calm.insertRecord fun full => calm ?_
    simpa [bytesOf, walHandle, writeRecord] using full

theorem Calm.deleteCf {context : WriteContext} {key : Bytes}
    (calm : core.Calm options cf key.length) :
    (core.deleteCf options context cf key).1 ≠ .ok true := by
  unfold EngineCore.deleteCf
  dsimp only
  split
  · nofun
  · next needsCompact after locked =>
    have quiet : needsCompact ≠ true := by
      rintro rfl
      refine absurd (congrArg Prod.fst locked) (Calm.insertRecord fun full => calm ?_)
      simpa [bytesOf, walHandle, writeRecord] using full
    split <;> exact fun due => quiet (Except.ok.inj due)

end

/-- After the memtable of a family went into a file with the given entries. -/
def afterFlush (core : EngineCore) (config : StorageConfig) (cf : String)
    (name : String) (entries : List (Bytes × LogRecord)) : EngineCore :=
  { (core.popMemtable cf).installTable cf
      (.withContents config name (ByteMap.insertAll ∅ entries) 0)
      (core.store.dir.insert name
        (.table (ByteMap.insertAll ∅ entries))) with
    memtableBytes := core.memtableBytes.insert cf 0 }.clearLog cf

variable {cf : String}

theorem flushMemtableImpl_of_flushable {clock : FlushClock} {mem : MemTable}
    (last : (core.memtablesOf cf).getLast? = some mem)
    (flushable : Flushable options.storage clock mem.data)
    (counted : core.memtableBytes[cf]? ≠ none) :
    ∃ due, core.flushMemtableImpl options clock cf =
      (.ok due, core.afterFlush options.storage cf (flushName clock.now)
        (combinedEntries clock mem.data)) := by
  obtain ⟨bytes, present⟩ := Option.ne_none_iff_exists'.mp counted
  have filled : mem.data.isEmpty = false := by
    rw [Bool.eq_false_iff]
    intro empty
    have nothing : mem.data.toList = [] := by
      rw [Std.ExtTreeMap.isEmpty_iff.mp empty]
      rfl
    apply flushable.nonempty
    simp [combinedEntries, nothing]
  unfold flushMemtableImpl
  rw [last]
  dsimp only
  rw [filled, if_neg (by simp), flushable.flushTable]
  rw [present]
  exact ⟨_, rfl⟩

/-- The operations on a family leave every other family alone. -/
structure Frame (cf : String) (before after : EngineCore) : Prop where
  memtables : ∀ other, other ≠ cf → after.memtablesOf other = before.memtablesOf other
  bytes : ∀ other, other ≠ cf → after.memtableBytes[other]? = before.memtableBytes[other]?
  ranges : ∀ other, other ≠ cf → after.rangesOf other = before.rangesOf other
  tables : ∀ other, other ≠ cf → after.store.versions.getTables other =
      before.store.versions.getTables other
  logs : ∀ other, logName other ≠ logName cf → after.log other = before.log other

namespace Frame

variable {cf : String} {first second third : EngineCore}

theorem refl (cf : String) (core : EngineCore) : Frame cf core core :=
  ⟨fun _ _ => rfl, fun _ _ => rfl, fun _ _ => rfl, fun _ _ => rfl, fun _ _ => rfl⟩

theorem trans (left : Frame cf first second) (right : Frame cf second third) :
    Frame cf first third := ⟨fun other apart => (right.memtables other apart).trans
      (left.memtables other apart),
    fun other apart => (right.bytes other apart).trans (left.bytes other apart),
    fun other apart => (right.ranges other apart).trans (left.ranges other apart),
    fun other apart => (right.tables other apart).trans (left.tables other apart),
    fun other apart => (right.logs other apart).trans (left.logs other apart)⟩

end Frame

section

variable (core : EngineCore) (cf : String)

theorem frame_walHandle : Frame cf core (core.walHandle cf) :=
  ⟨fun _ _ => rfl, fun _ _ => rfl, fun _ _ => rfl, fun _ _ => rfl,
    fun other _ => log_walHandle core cf other⟩

theorem frame_writeRecord (entry : WalEntry) :
    Frame cf core (core.writeRecord cf entry) := by
  refine ⟨fun _ _ => rfl, fun _ _ => rfl, fun _ _ => rfl, fun _ _ => rfl, ?_⟩
  intro other apart
  rw [log_writeRecord, if_neg (Ne.symm apart)]

theorem frame_clearLog : Frame cf core (core.clearLog cf) := by
  refine ⟨fun _ _ => rfl, fun _ _ => rfl, fun _ _ => rfl, fun _ _ => rfl, ?_⟩
  intro other apart
  rw [log_clearLog, if_neg (Ne.symm apart)]

theorem frame_updateMemtable (update : MemTable → MemTable) :
    Frame cf core (core.updateMemtable cf update) := by
  refine ⟨?_, fun _ _ => rfl, fun _ _ => rfl, fun _ _ => rfl, fun _ _ => rfl⟩
  intro other apart
  rw [memtablesOf_updateMemtable, if_neg (Ne.symm apart)]

theorem frame_popMemtable : Frame cf core (core.popMemtable cf) := by
  refine ⟨?_, fun _ _ => rfl, fun _ _ => rfl, fun _ _ => rfl, fun _ _ => rfl⟩
  intro other apart
  rw [memtablesOf_popMemtable, if_neg (Ne.symm apart)]

theorem frame_bytes (size : Nat) :
    Frame cf core { core with memtableBytes := core.memtableBytes.insert cf size } := by
  refine ⟨fun _ _ => rfl, ?_, fun _ _ => rfl, fun _ _ => rfl, fun _ _ => rfl⟩
  intro other apart
  rw [NameMap.getElem?_insert, if_neg (Ne.symm apart)]

theorem frame_addRange (range : RangeTombstone) :
    Frame cf core (core.addRange cf range) := by
  refine ⟨fun _ _ => rfl, fun _ _ => rfl, ?_, fun _ _ => rfl, fun _ _ => rfl⟩
  intro other apart
  rw [rangesOf_addRange, if_neg (Ne.symm apart)]

theorem frame_dir (dir : SstDir) :
    Frame cf core { core with store := { core.store with dir } } :=
  ⟨fun _ _ => rfl, fun _ _ => rfl, fun _ _ => rfl, fun _ _ => rfl, fun _ _ => rfl⟩

theorem frame_installTable (table : Table)
    (dir : SstDir) : Frame cf core (core.installTable cf table dir) := by
  refine ⟨fun _ _ => rfl, fun _ _ => rfl, fun _ _ => rfl, ?_, fun _ _ => rfl⟩
  intro other apart
  exact getTables_addTable_ne (Ne.symm apart) core.store.versions table

theorem frame_flushMemtableImpl (options : EngineOptions) (clock : FlushClock)
    (cf : String)
    (core : EngineCore) :
    Frame cf core (core.flushMemtableImpl options clock cf).2 := by
  have outcome := flushMemtableImpl_outcome options clock cf core
  generalize core.flushMemtableImpl options clock cf = result at outcome ⊢
  cases outcome with
  | idle _ => exact Frame.refl cf core
  | synced _ _ _ => exact frame_walHandle core cf
  | failed _ _ _ _ dir _ =>
    exact (frame_popMemtable core cf).trans (frame_dir _ cf dir)
  | uncounted _ _ _ table dir _ _ _ =>
    exact (frame_popMemtable core cf).trans (frame_installTable _ cf table dir)
  | written _ _ _ table dir _ _ =>
    exact (((frame_popMemtable core cf).trans
      (frame_installTable _ cf table dir)).trans (frame_bytes _ cf 0)).trans
        (frame_clearLog _ cf)

theorem frame_insertMemtable (record : LogRecord) (size : Nat) :
    Frame cf core (core.insertMemtable cf record size) :=
  (frame_updateMemtable core cf (·.insert record)).trans
    (frame_bytes _ cf (core.bytesOf cf + size))

end

theorem frame_insertRecord (options : EngineOptions) (clock : FlushClock)
    (cf : String) (record : LogRecord) (size : Nat) (core : EngineCore) :
    Frame cf core (core.insertRecord options clock cf record size).2 := by
  have inserted := frame_insertMemtable core cf record size
  unfold insertRecord
  dsimp only
  split
  · exact inserted.trans (frame_flushMemtableImpl options clock cf _)
  · exact inserted

theorem frame_putCf (options : EngineOptions) (context : WriteContext)
    (cf : String) (key value : Bytes) (ttl : Option Nanos) (core : EngineCore) :
    Frame cf core (core.putCf options context cf key value ttl).2 := by
  unfold putCf
  split
  · exact Frame.refl cf core
  · exact ((frame_walHandle core cf).trans (frame_writeRecord _ cf _)).trans
      (frame_insertRecord options context.flush cf _ _ _)

/-- Lookups of keys in the tables of a family, one after another. -/
def readAll (now : Nanos) (cf : String) (keys : List Bytes) (core : EngineCore) :
    EngineCore :=
  { core with
    store :=
      { core.store with
        versions := keys.foldl (fun versions key =>
          (versions.get core.store.dir now cf key).2) core.store.versions } }

theorem readAll_append (now : Nanos) (cf : String) (keys more : List Bytes)
    (core : EngineCore) :
    (core.readAll now cf keys).readAll now cf more =
      core.readAll now cf (keys ++ more) := by
  simp only [readAll, List.foldl_append]

theorem getCf_of_memtable {now : Nanos} {key : Bytes} {record : LogRecord}
    (found : core.memtableRecord cf key = some record) :
    core.getCf now cf key =
      (.ok (memtableAnswer (core.coveringRangeTombstoneTs cf key) now record),
        core) := by
  rw [getCf, found]

/-- What `get_cf` changes are the lookups it makes: of the key and of its TTL
key. -/
theorem getCf_reads (now : Nanos) (cf : String) (key : Bytes) (core : EngineCore) :
    ∃ keys : List Bytes, (∀ read ∈ keys, read = key ∨ read = ttlKey key) ∧
      (core.memtableRecord cf key ≠ none → keys = []) ∧
      (core.getCf now cf key).2 = core.readAll now cf keys := by
  cases found : core.memtableRecord cf key with
  | some record =>
    refine ⟨[], by simp, fun _ => rfl, ?_⟩
    rw [getCf_of_memtable found]
    rfl
  | none =>
    unfold getCf
    rw [found]
    dsimp only
    cases covering : core.coveringRangeTombstoneTs cf key with
    | some timestamp =>
      rw [lookupTables]
      cases core.store.versions.getRecord core.store.dir cf key with
      | error error => exact ⟨[], by simp, fun _ => rfl, rfl⟩
      | ok version =>
        split
        · next failed => cases failed
        · next store missing =>
          obtain ⟨_, rfl⟩ := Prod.mk.inj missing
          exact ⟨[], by simp, fun _ => rfl, rfl⟩
        · next value store present =>
          obtain ⟨_, rfl⟩ := Prod.mk.inj present
          exact ⟨[ttlKey key], by simp, by simp, rfl⟩
    | none =>
      split
      · next failed => cases failed
      · next store missing =>
        obtain ⟨_, rfl⟩ := Prod.mk.inj missing
        exact ⟨[key], by simp, by simp, rfl⟩
      · next value store present =>
        obtain ⟨_, rfl⟩ := Prod.mk.inj present
        exact ⟨[key, ttlKey key], by simp, by simp, rfl⟩

def deleteLocked (options : EngineOptions) (context : WriteContext)
    (cf : String) (key : Bytes) (core : EngineCore) :
    Except LsmError Bool × EngineCore :=
  ((core.walHandle cf).writeRecord cf
    { nonce := context.nonce
      record :=
        { LogRecord.tombstone context.created key with
          columnFamily := some cf } }).insertRecord options context.flush cf
    (LogRecord.tombstone context.inserted key) key.length

/-- A delete that fails looks nothing up; otherwise it looks for the key, and
for its TTL key if there is no value. -/
theorem deleteCf_state (options : EngineOptions) (context : WriteContext)
    (cf : String) (key : Bytes) (core : EngineCore) :
    let locked := (core.deleteLocked options context cf key).2
    let read := (locked.getCf context.read cf key).2
    (core.deleteCf options context cf key).2 = locked ∨
      (core.deleteCf options context cf key).2 = read ∨
        (core.deleteCf options context cf key).2 =
        (read.getCf context.read cf (ttlKey key)).2 := by
  unfold deleteCf
  dsimp only
  rw [← deleteLocked]
  generalize core.deleteLocked options context cf key = result
  obtain ⟨outcome, locked⟩ := result
  cases outcome with
  | error error => exact .inl rfl
  | ok due =>
    right
    dsimp only
    split
    · next value last found =>
      left
      rw [found]
    · next outcome last _ found =>
      right
      rw [found]

end EngineCore

end ApexStore
