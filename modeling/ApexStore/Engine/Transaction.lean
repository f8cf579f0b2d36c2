import ApexStore.Engine.EngineFrames

/-!
# Batches and transactions

A batch goes to the log as a whole and then to the memtable, all under the
lock; the log records and the memtable records are stamped separately.  A
commit does the same for one family after another, with a flush of its own
that puts the memtable into a table without a file.  Input and output may
fail during a commit.
-/

namespace ApexStore

open VersionSet

/-- The clock readings of one write of a batch, and the nonce of its log
entry. -/
structure BatchStamp where
  logged : Nanos
  stored : Nanos
  nonce : Nonce

structure BatchWrite where
  key : Bytes
  value : Bytes
  isDeleted : Bool
  stamp : BatchStamp

namespace BatchWrite

def record (write : BatchWrite) (now : Nanos) : LogRecord :=
  if write.isDeleted then LogRecord.tombstone now write.key
  else LogRecord.new now write.key write.value

def logged (write : BatchWrite) (cf : String) : LogRecord :=
  { write.record write.stamp.logged with columnFamily := some cf }

def entry (write : BatchWrite) (cf : String) : WalEntry :=
  { nonce := write.stamp.nonce, record := write.logged cf }

def stored (write : BatchWrite) : LogRecord := write.record write.stamp.stored

def size (write : BatchWrite) : Nat := write.key.length + write.value.length

end BatchWrite

def putWrites (items : List (BatchStamp × Bytes × Bytes)) : List BatchWrite :=
  items.map (fun (stamp, key, value) =>
    { key, value, isDeleted := false, stamp })

def deleteWrites (keys : List (BatchStamp × Bytes)) : List BatchWrite :=
  keys.map (fun (stamp, key) => { key, value := [], isDeleted := true, stamp })

/-- A buffered write: a value, or a deletion with an empty value. -/
structure TxnWrite where
  value : Bytes
  isDeleted : Bool
  deriving DecidableEq

/-- The buffer of a transaction, already grouped by family: a map over pairs
of family and key is iterated in the same order. -/
structure Transaction where
  writes : NameMap (ByteMap TxnWrite)

namespace Transaction

def begin : Transaction := { writes := ∅ }

def buffer (txn : Transaction) (cf : String) (key : Bytes) (write : TxnWrite) :
    Transaction :=
  { writes := txn.writes.insert cf
      ((txn.writes[cf]?.getD ∅).insert key write) }

def putCf (txn : Transaction) (cf : String) (key value : Bytes) : Transaction :=
  txn.buffer cf key { value, isDeleted := false }

def deleteCf (txn : Transaction) (cf : String) (key : Bytes) : Transaction :=
  txn.buffer cf key { value := [], isDeleted := true }

end Transaction

/-- Where input or output can fail while a family is committed. -/
inductive CommitFault where
  /-- The log cannot be opened. -/
  | openLog
  /-- Only the first entries of the batch reach the log. -/
  | writeBatch (written : Nat)
  /-- The flush cannot rotate the log, before or after the empty file took
  its place. -/
  | clearLog (renamed : Bool)

/-- The environment of a commit. -/
structure CommitContext where
  stamps : String → Bytes → BatchStamp
  faults : String → Option CommitFault

namespace EngineCore

/-- `WriteAheadLog::write_batch` through the handle of a family. -/
def writeBatch (core : EngineCore) (cf : String) (entries : List WalEntry) :
    EngineCore :=
  { core with logs := core.logs.insert (logName cf) (core.log cf ++ entries) }

def insertBatch (core : EngineCore) (cf : String) (writes : List BatchWrite) :
    EngineCore :=
  writes.foldl (fun core write => core.insertMemtable cf write.stored write.size) core

def applyBatch (core : EngineCore) (cf : String) (writes : List BatchWrite) :
    EngineCore :=
  ((core.walHandle cf).writeBatch cf (writes.map (·.entry cf))).insertBatch cf writes

def flushIfFull (options : EngineOptions) (clock : FlushClock) (cf : String)
    (core : EngineCore) : Except LsmError Bool × EngineCore :=
  if options.writeBufferLimit ≤ core.bytesOf cf then
    core.flushMemtableImpl options clock cf
  else (.ok false, core)

def setBatchCf (options : EngineOptions) (clock : FlushClock) (cf : String)
    (items : List (BatchStamp × Bytes × Bytes)) (core : EngineCore) :
    Except LsmError Bool × EngineCore :=
  (core.applyBatch cf (putWrites items)).flushIfFull options clock cf

def deleteBatchCf (options : EngineOptions) (clock : FlushClock) (cf : String)
    (keys : List (BatchStamp × Bytes)) (core : EngineCore) :
    Except LsmError Bool × EngineCore :=
  (core.applyBatch cf (deleteWrites keys)).flushIfFull options clock cf

/-- The flush of a commit: the values alone go into a table without a file.
`broken` tells whether the rotation of the log fails, and if so, when. -/
def flushMemtableForCf (options : EngineOptions) (broken : Option Bool)
    (cf : String) (core : EngineCore) : Except LsmError Bool × EngineCore :=
  match (core.memtablesOf cf).getLast? with
  | none => (.ok false, core)
  | some mem =>
    let table := Table.build options.storage
      (mem.data.map (fun _ record => record.value))
    let core := (core.popMemtable cf).installTable cf table core.store.dir
    match core.memtableBytes[cf]? with
    | none =>
      (.error (.invalidArgument s!"Column family {cf} not found in memtable_bytes"), core)
    | some _ =>
      let core :=
        { core with memtableBytes := core.memtableBytes.insert cf 0 }
      match broken with
      | some true => (.error .io, core.clearLog cf)
      | some false => (.error .io, core)
      | none =>
        (.ok (decide (options.compactionThreshold < core.store.versions.tableCount cf)),
          core.clearLog cf)

end EngineCore

/-- The writes of a family in the order they are committed. -/
def batchWrites (context : CommitContext) (cf : String)
    (entries : ByteMap TxnWrite) : List BatchWrite :=
  entries.toList.map (fun (key, write) =>
    { key, value := write.value, isDeleted := write.isDeleted
      stamp := context.stamps cf key })

def EngineCore.commitFamily (options : EngineOptions) (context : CommitContext)
    (cf : String) (entries : ByteMap TxnWrite) (core : EngineCore) :
    Except LsmError Bool × EngineCore :=
  let writes := batchWrites context cf entries
  match context.faults cf with
  | some .openLog => (.error .io, core)
  | some (.writeBatch written) =>
    (.error .io, (core.walHandle cf).writeBatch cf ((writes.take written).map (·.entry cf)))
  | fault =>
    let core := core.applyBatch cf writes
    if options.writeBufferLimit ≤ core.bytesOf cf then
      let broken :=
        match fault with
        | some (.clearLog renamed) => some renamed
        | _ => none
      core.flushMemtableForCf options broken cf
    else (.ok false, core)

/-- The families are committed one after another; a failure ends the loop. -/
def EngineCore.commitFamilies (options : EngineOptions) (context : CommitContext) :
    List (String × ByteMap TxnWrite) → EngineCore → Except LsmError Unit × EngineCore
  | [], core => (.ok (), core)
  | (cf, entries) :: rest, core =>
    match core.commitFamily options context cf entries with
    | (.error error, core) => (.error error, core)
    | (.ok _, core) => commitFamilies options context rest core

/-- The buffer is taken before anything is written. -/
def Transaction.commit (options : EngineOptions) (context : CommitContext)
    (txn : Transaction) (core : EngineCore) :
    Except LsmError Unit × Transaction × EngineCore :=
  if txn.writes.isEmpty then (.ok (), txn, core)
  else
    let (result, core) :=
      core.commitFamilies options context txn.writes.toList
    (result, { writes := ∅ }, core)

/-! ## What they touch -/

namespace EngineCore

variable {options : EngineOptions} {core : EngineCore} {cf : String}

theorem frame_writeBatch (core : EngineCore) (cf : String)
    (entries : List WalEntry) : Frame cf core (core.writeBatch cf entries) := by
  refine ⟨fun _ _ => rfl, fun _ _ => rfl, fun _ _ => rfl, fun _ _ => rfl, ?_⟩
  intro other apart
  simp only [log, writeBatch, NameMap.getElem?_insert, if_neg (Ne.symm apart)]

section

variable (core : EngineCore) (cf : String) (writes : List BatchWrite)

theorem frame_insertBatch : Frame cf core (core.insertBatch cf writes) := by
  induction writes using List.reverseRecOn with
  | nil => exact Frame.refl cf core
  | append_singleton writes write ih =>
    rw [insertBatch] at ih ⊢
    rw [List.foldl_concat]
    exact ih.trans (frame_insertMemtable _ cf write.stored write.size)

theorem frame_applyBatch : Frame cf core (core.applyBatch cf writes) :=
  ((frame_walHandle core cf).trans (frame_writeBatch _ cf _)).trans
    (frame_insertBatch _ cf writes)

theorem frame_flushIfFull (options : EngineOptions) (clock : FlushClock)
    (cf : String) (core : EngineCore) :
    Frame cf core (core.flushIfFull options clock cf).2 := by
  unfold flushIfFull
  split
  · exact frame_flushMemtableImpl options clock cf core
  · exact Frame.refl cf core

theorem frame_flushMemtableForCf (options : EngineOptions) (broken : Option Bool)
    (cf : String)
    (core : EngineCore) :
    Frame cf core (core.flushMemtableForCf options broken cf).2 := by
  unfold flushMemtableForCf
  split
  · exact Frame.refl cf core
  · next mem _ =>
    have installed := (frame_popMemtable core cf).trans
      (frame_installTable _ cf (Table.build options.storage
        (mem.data.map (fun _ record => record.value))) core.store.dir)
    dsimp only
    split
    · exact installed
    · have counted := installed.trans (frame_bytes _ cf 0)
      split
      · exact counted.trans (frame_clearLog _ cf)
      · exact counted
      · exact counted.trans (frame_clearLog _ cf)

theorem frame_commitFamily (options : EngineOptions)
    (context : CommitContext) (cf : String) (entries : ByteMap TxnWrite)
    (core : EngineCore) :
    Frame cf core (core.commitFamily options context cf entries).2 := by
  unfold commitFamily
  split
  · exact Frame.refl cf core
  · exact (frame_walHandle core cf).trans (frame_writeBatch _ cf _)
  · have applied := frame_applyBatch core cf (batchWrites context cf entries)
    dsimp only
    split
    · exact applied.trans (frame_flushMemtableForCf options _ cf _)
    · exact applied

theorem bytesOf_insertBatch :
    (core.insertBatch cf writes).bytesOf cf =
      core.bytesOf cf + (writes.map (·.size)).sum := by
  induction writes using List.reverseRecOn with
  | nil => rfl
  | append_singleton writes write ih =>
    rw [insertBatch] at ih ⊢
    rw [List.foldl_concat]
    have added : ((writes.foldl (fun core write =>
          core.insertMemtable cf write.stored write.size)
            core).insertMemtable cf write.stored write.size).bytesOf cf =
        (writes.foldl (fun core write =>
          core.insertMemtable cf write.stored write.size) core).bytesOf cf + write.size := by
      rw [insertMemtable, bytesOf, bytes_addBytes, if_pos rfl]
      rfl
    rw [added, ih]
    simp [Nat.add_assoc]

def Below (options : EngineOptions) (core : EngineCore) (cf : String) (added : Nat) :
    Prop :=
  core.bytesOf cf + added < options.writeBufferLimit

theorem bytesOf_applyBatch :
    (core.applyBatch cf writes).bytesOf cf =
      core.bytesOf cf + (writes.map (·.size)).sum :=
  bytesOf_insertBatch _ cf writes

end

theorem flushIfFull_of_below {writes : List BatchWrite} (clock : FlushClock)
    (below : core.Below options cf ((writes.map (·.size)).sum)) :
    (core.applyBatch cf writes).flushIfFull options clock cf =
      (.ok false, core.applyBatch cf writes) := by
  rw [flushIfFull, bytesOf_applyBatch, if_neg (Nat.not_le.mpr below)]

theorem commitFamily_of_below {context : CommitContext}
    {entries : ByteMap TxnWrite} (sound : context.faults cf = none)
    (below : core.Below options cf
      (((batchWrites context cf entries).map (·.size)).sum)) :
    core.commitFamily options context cf entries =
      (.ok false, core.applyBatch cf (batchWrites context cf entries)) := by
  unfold commitFamily
  rw [sound]
  dsimp only
  rw [bytesOf_applyBatch, if_neg (Nat.not_le.mpr below)]

theorem insertRecord_of_below {size : Nat} (clock : FlushClock) (record : LogRecord)
    (below : core.Below options cf size) :
    core.insertRecord options clock cf record size =
      (.ok false, core.insertMemtable cf record size) := by
  have bytes : (core.insertMemtable cf record size).bytesOf cf = core.bytesOf cf + size := by
    rw [insertMemtable, bytesOf, bytes_addBytes, if_pos rfl]
    rfl
  unfold insertRecord
  dsimp only
  rw [bytes, if_neg (Nat.not_le.mpr below)]

end EngineCore

end ApexStore
