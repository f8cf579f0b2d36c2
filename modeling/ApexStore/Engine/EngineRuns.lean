import ApexStore.Engine.Scan
import ApexStore.Engine.StoreSound
import ApexStore.Engine.Writers

/-!
# Runs of the engine

The calls of the engine as steps, with the cache dropping entries and restarts
in between.  Whatever the calls, the state stays sound as long as new files
get new names and the logs can be read frame by frame (`Reachable.sound`).
-/

namespace ApexStore

open VersionSet WriteAheadLog List EngineCore LogRecord

variable {cf : String} {record : LogRecord}

def LogRecord.Bare (record : LogRecord) : Prop :=
  record.isDeleted = true → record.value = []

theorem LogRecord.bare_of_live (live : record.isDeleted = false) : record.Bare := by
  intro deleted
  rw [live] at deleted
  cases deleted

theorem BatchWrite.bare_stored (write : BatchWrite) : write.stored.Bare := by
  unfold BatchWrite.stored BatchWrite.record
  split
  · exact fun _ => rfl
  · exact bare_of_live rfl

theorem BatchWrite.bare_logged (write : BatchWrite) (cf : String) :
    (write.logged cf).Bare := by
  unfold BatchWrite.logged BatchWrite.record
  split
  · exact fun _ => rfl
  · exact bare_of_live rfl

/-- What holds of the memtables, the range tombstones and the logs. -/
structure MemorySound (core : EngineCore) : Prop where
  single : ∀ cf, (core.memtablesOf cf).length ≤ 1
  /-- The engine knows the range tombstones of the memtables. -/
  ranges : ∀ cf, ∀ range ∈ core.memtableRanges cf, range ∈ core.rangesOf cf
  tombstones : ∀ cf, ∀ mem ∈ core.memtablesOf cf, ∀ (key : Bytes)
    (record : LogRecord), mem.data[key]? = some record → record.Bare
  counted : ∀ cf, ∀ mem ∈ core.memtablesOf cf, mem.data.isEmpty = false →
    core.memtableBytes[cf]? ≠ none
  logged : ∀ cf, ∀ entry ∈ core.log cf, entry.record.Bare

/-- What holds of the engine between two calls. -/
structure EngineSound (options : EngineOptions) (core : EngineCore) : Prop where
  store : StoreSound options.storage core.store
  memory : MemorySound core

namespace MemorySound

variable {core : EngineCore}

theorem empty : MemorySound .empty := by
  refine ⟨?_, ?_, ?_, ?_, ?_⟩
  · intro cf
    exact Nat.zero_le 1
  · intro cf range member
    cases member
  · intro cf mem member
    cases member
  · intro cf mem member
    cases member
  · intro cf entry member
    cases member

variable (sound : MemorySound core)
include sound

theorem withStore (store : TableState) : MemorySound { core with store } :=
  ⟨sound.single, sound.ranges, sound.tombstones, sound.counted, sound.logged⟩

theorem withLogs (logs : NameMap (List WalEntry))
    (logged : ∀ cf, ∀ entry ∈ ({ core with logs } : EngineCore).log cf,
      entry.record.Bare) : MemorySound { core with logs } :=
  ⟨sound.single, sound.ranges, sound.tombstones, sound.counted, logged⟩

theorem walHandle (cf : String) : MemorySound (core.walHandle cf) := by
  refine sound.withLogs _ ?_
  intro other entry member
  have old := log_walHandle core cf other
  exact sound.logged other entry (old ▸ member)

theorem writeBatch (cf : String) {entries : List WalEntry}
    (bare : ∀ entry ∈ entries, entry.record.Bare) :
    MemorySound (core.writeBatch cf entries) := by
  refine sound.withLogs _ ?_
  intro other entry member
  simp only [log, NameMap.getElem?_insert] at member
  split at member
  · rcases mem_append.mp member with old | new
    · exact sound.logged cf entry old
    · exact bare entry new
  · exact sound.logged other entry member

theorem writeRecord (cf : String) {entry : WalEntry} (bare : entry.record.Bare) :
    MemorySound (core.writeRecord cf entry) := sound.writeBatch cf
      (by simpa using bare)

theorem clearLog (cf : String) : MemorySound (core.clearLog cf) := by
  refine sound.withLogs _ ?_
  intro other entry member
  change entry ∈ (core.clearLog cf).log other at member
  rw [log_clearLog] at member
  split at member
  · cases member
  · exact sound.logged other entry member

theorem updateMemtable (update : MemTable → MemTable) {after : EngineCore}
    (memtables : after.memtables = (core.updateMemtable cf update).memtables)
    (logs : after.logs = core.logs)
    (bare : ∀ (mem : MemTable) (key : Bytes) (record : LogRecord),
      (update mem).data[key]? = some record → mem.data[key]? = some record ∨
        record.Bare)
    (counted : ∀ other mem, mem.data.isEmpty = false →
      mem ∈ after.memtablesOf other → after.memtableBytes[other]? ≠ none)
    (ranges : ∀ other, ∀ range ∈ after.memtableRanges other, range ∈
      after.rangesOf other) :
    MemorySound after := by
  have listed : ∀ other, after.memtablesOf other =
      (core.updateMemtable cf update).memtablesOf other := by
    intro other
    rw [memtablesOf, memtables]
    rfl
  refine ⟨?_, ranges, ?_, fun other mem member filled =>
    counted other mem filled member, ?_⟩
  · intro other
    rw [listed, memtablesOf_updateMemtable]
    split
    · exact (MemTable.length_updateLast (sound.single cf)).le
    · exact sound.single other
  · intro other mem member key record found
    rw [listed, memtablesOf_updateMemtable] at member
    split at member
    · rcases eq_nil_or_concat (core.memtablesOf cf) with none_there |
        ⟨older, last, memtables_eq⟩
      · rw [none_there, MemTable.updateLast, mem_singleton] at member
        rw [member] at found
        rcases bare _ key record found with old | fine
        · simp [MemTable.newUnlimited] at old
        · exact fine
      · rw [memtables_eq, concat_eq_append, MemTable.updateLast_concat,
          mem_append, mem_singleton] at member
        rcases member with old | new
        · exact sound.tombstones cf mem (by
            rw [memtables_eq, concat_eq_append]
            exact mem_append_left _ old) key record found
        · rw [new] at found
          rcases bare _ key record found with old | fine
          · exact sound.tombstones cf last (by
              rw [memtables_eq]
              simp) key record old
          · exact fine
    · exact sound.tombstones other mem member key record found
  · intro other entry member
    rw [log, logs] at member
    exact sound.logged other entry member

variable {record : LogRecord}

theorem insertMemtable (cf : String) (bare : record.Bare) (size : Nat) :
    MemorySound (core.insertMemtable cf record size) := by
  refine sound.updateMemtable (·.insert record) rfl rfl ?_ ?_ ?_
  · intro mem key other found
    rw [MemTable.insert, ByteMap.getElem?_insert] at found
    split at found
    · cases found
      exact .inr bare
    · exact .inl found
  · intro other mem filled member
    rw [EngineCore.insertMemtable, EngineCore.bytes_addBytes]
    split
    · simp
    · next differ =>
      have old : mem ∈ (core.updateMemtable cf (·.insert record)).memtablesOf other := member
      rw [memtablesOf_updateMemtable, if_neg differ] at old
      exact sound.counted other mem old filled
  · intro other range member
    rw [memtableRanges_insertMemtable] at member
    exact sound.ranges other range member

theorem insertRange (cf : String) (range : RangeTombstone) :
    MemorySound (core.insertRange cf range) := by
  refine sound.updateMemtable (·.addRangeTombstone range) rfl rfl
    (fun _ _ _ found => .inl found) ?_ ?_
  · intro other mem filled member
    have old : mem ∈ (core.updateMemtable cf
        (·.addRangeTombstone range)).memtablesOf other := member
    rw [memtablesOf_updateMemtable] at old
    split at old
    · next here =>
      subst here
      rcases eq_nil_or_concat (core.memtablesOf cf) with none_there |
        ⟨older, last, memtables_eq⟩
      · rw [none_there, MemTable.updateLast, mem_singleton] at old
        rw [old] at filled
        simp [MemTable.addRangeTombstone, MemTable.newUnlimited] at filled
      · rw [memtables_eq, concat_eq_append, MemTable.updateLast_concat,
          mem_append, mem_singleton] at old
        have inside : ∀ {mem}, mem ∈ older ∨ mem = last → mem ∈ core.memtablesOf cf := by
          intro mem place
          rw [memtables_eq]
          simpa using place
        rcases old with earlier | new
        · exact sound.counted cf mem (inside (.inl earlier)) filled
        · rw [new] at filled
          exact sound.counted cf last (inside (.inr rfl)) filled
    · exact sound.counted other mem old filled
  · intro other covering member
    rw [memtableRanges_insertRange] at member
    rw [rangesOf_insertRange]
    rcases mem_append.mp member with old | new
    · exact mem_append_left _ (sound.ranges other covering old)
    · exact mem_append_right _ new

theorem popMemtable (cf : String) : MemorySound (core.popMemtable cf) := by
  have listed : ∀ {other : String} {mem : MemTable}, mem ∈ (core.popMemtable cf).memtablesOf other →
      mem ∈ core.memtablesOf other := by
    intro other mem member
    rw [memtablesOf_popMemtable] at member
    split at member
    · next here => exact here ▸ mem_of_mem_dropLast member
    · exact member
  refine ⟨?_, ?_, ?_, ?_, sound.logged⟩
  · intro other
    rw [memtablesOf_popMemtable]
    split
    · rw [length_dropLast]
      exact (Nat.sub_le _ 1).trans (sound.single cf)
    · exact sound.single other
  · intro other range member
    obtain ⟨mem, member, inside⟩ := mem_flatMap.mp member
    exact sound.ranges other range (mem_flatMap.mpr ⟨mem, listed member, inside⟩)
  · intro other mem member
    exact sound.tombstones other mem (listed member)
  · intro other mem member
    exact sound.counted other mem (listed member)

theorem withBytes (cf : String) (size : Nat) : MemorySound
      { core with memtableBytes := core.memtableBytes.insert cf size } := by
  refine ⟨sound.single, sound.ranges, sound.tombstones, ?_, sound.logged⟩
  intro other mem member filled
  rw [NameMap.getElem?_insert]
  split
  · simp
  · exact sound.counted other mem member filled

theorem insertBatch (cf : String) (writes : List BatchWrite) :
    MemorySound (core.insertBatch cf writes) := by
  induction writes using List.reverseRecOn with
  | nil => exact sound
  | append_singleton writes write ih =>
    rw [EngineCore.insertBatch] at ih ⊢
    rw [foldl_concat]
    exact ih.insertMemtable cf write.bare_stored write.size

theorem applyBatch (cf : String) (writes : List BatchWrite) :
    MemorySound (core.applyBatch cf writes) := by
  apply MemorySound.insertBatch
  apply (sound.walHandle cf).writeBatch
  intro entry member
  obtain ⟨write, _, rfl⟩ := mem_map.mp member
  exact write.bare_logged cf

theorem replayRecord (bare : record.Bare) :
    MemorySound (core.replayRecord record) := by
  unfold EngineCore.replayRecord
  split
  · exact sound.insertRange record.family record.range
  · exact sound.insertMemtable record.family bare _

theorem replay {records : List LogRecord} (bare : ∀ record ∈ records, record.Bare) :
    MemorySound (core.replayWalRecordsCore records) := by
  induction records using List.reverseRecOn with
  | nil => exact sound
  | append_singleton records record ih =>
    rw [replayWalRecordsCore] at ih ⊢
    rw [foldl_concat]
    exact (ih (forall_mem_append.mp bare).1).replayRecord (bare record (by simp))

end MemorySound

/-! ## The calls -/

inductive EngineOp where
  | put (context : WriteContext) (cf : String) (key value : Bytes) (ttl : Option Nanos)
  | delete (context : WriteContext) (cf : String) (key : Bytes)
  | setBatch (clock : FlushClock) (cf : String) (items : List (BatchStamp × Bytes × Bytes))
  | deleteBatch (clock : FlushClock) (cf : String) (keys : List (BatchStamp × Bytes))
  | commit (context : CommitContext) (txn : Transaction)
  | deleteRange (timestamp logged : Nanos) (nonce : Nonce) (cf : String) (start stop : Bytes)
  | flush (clock : FlushClock) (cf : String)
  | get (now : Nanos) (cf : String) (key : Bytes)
  | scan (now : Nanos) (cf : String) (lower upper : Option Bytes) (limit : Option Nat)
  | compact (cf : String) (plan : CompactionPlan)
  /-- The cache drops the entries of some keys. -/
  | evict (dropped : Bytes → Bool)
  /-- The engine stops or crashes and is started again. -/
  | reopen (found : List String)

def EngineCore.evict (dropped : Bytes → Bool) (core : EngineCore) : EngineCore :=
  { core with
    store :=
      { core.store with
        versions := { core.store.versions with
          kvCache := core.store.versions.kvCache.filter
            (fun key _ => !dropped key) } } }

/-- A compaction uses the range tombstones the engine knows. -/
def EngineCore.compactCf (options : EngineOptions) (cf : String)
    (plan : CompactionPlan) (core : EngineCore) : EngineCore :=
  { core with
    store := compactCfCore options.storage cf core.store
      { plan with tombstones := core.rangesOf cf } }

def EngineOp.step (options : EngineOptions) (core : EngineCore) : EngineOp → EngineCore
  | put context cf key value ttl =>
    (core.putCf options context cf key value ttl).2
  | delete context cf key => (core.deleteCf options context cf key).2
  | setBatch clock cf items => (core.setBatchCf options clock cf items).2
  | deleteBatch clock cf keys => (core.deleteBatchCf options clock cf keys).2
  | commit context txn => (txn.commit options context core).2.2
  | deleteRange timestamp logged nonce cf start stop =>
    core.deleteRangeCf timestamp logged nonce cf start stop
  | flush clock cf => (core.flushMemtableImpl options clock cf).2
  | get now cf key => (core.getCf now cf key).2
  | scan now cf lower upper limit =>
    (core.scanCf now cf lower upper limit).2
  | compact cf plan => core.compactCf options cf plan
  | evict dropped => core.evict dropped
  | reopen found =>
    -- Without a new engine there is no new state.
    match core.newGeneric options found with
    | .ok core => core
    | .error _ => core

/-- A flush at this time would create a new file. -/
def FlushClock.Fresh (clock : FlushClock) (core : EngineCore) : Prop :=
  core.store.dir[flushName clock.now]? = none

instance (clock : FlushClock) (core : EngineCore) : Decidable (clock.Fresh core) :=
  inferInstanceAs (Decidable (_ = none))

/-- New files get new names, and every frame of a log is within the limit that
recovery puts on it. -/
def EngineOp.Orderly (options : EngineOptions) (core : EngineCore) : EngineOp → Prop
  | put context _ _ _ _ => context.flush.Fresh core
  | delete context _ _ => context.flush.Fresh core
  | setBatch clock _ _ => clock.Fresh core
  | deleteBatch clock _ _ => clock.Fresh core
  | flush clock _ => clock.Fresh core
  | compact cf plan => plan.Admissible cf core.store
  | reopen _ => ∀ cf, ∀ entry ∈ core.log cf, frameLength options.encryptor entry ≤ maxWalRecordBytes
  | _ => True

namespace EngineSound

variable {options : EngineOptions} {core : EngineCore}

theorem empty (options : EngineOptions) : EngineSound options .empty :=
  ⟨.empty options.storage, .empty⟩

variable {clock : FlushClock} {context : WriteContext} {after : EngineCore}

theorem flushed_bare {data : ByteMap LogRecord}
    (bare : ∀ (key : Bytes) (record : LogRecord), data[key]? = some record →
      record.Bare)
    (sorted : ((combinedEntries clock data).map (·.1)).Pairwise (· < ·)) {key : Bytes}
    (found : (ByteMap.insertAll ∅ (combinedEntries clock data))[key]? = some record) :
    record.Bare := by
  rw [ByteMap.getElem?_insertAll_empty sorted, mem_combinedEntries] at found
  rcases found with ⟨held, _⟩ | ⟨_, _, _, _, _, _, _, rfl⟩
  · exact bare key record held
  · exact bare_of_live rfl

section

variable (sound : EngineSound options core)
include sound

theorem flush (fresh : clock.Fresh core) (cf : String) :
    EngineSound options (core.flushMemtableImpl options clock cf).2 := by
  have installed : ∀ {mem : MemTable} {table : Table} {dir : SstDir},
      (core.memtablesOf cf).getLast? = some mem →
      flushTable options.storage core.store.dir clock mem.data = (.ok table, dir) →
      EngineSound options ((core.popMemtable cf).installTable cf table dir) := by
    intro mem table dir last done
    obtain ⟨sorted, rfl, rfl⟩ := flushTable_ok done
    refine ⟨?_, (sound.memory.popMemtable cf).withStore _⟩
    apply sound.store.addFile fresh
    intro key record found
    exact flushed_bare (sound.memory.tombstones cf mem (mem_of_getLast? last)) sorted found
  have outcome := flushMemtableImpl_outcome options clock cf core
  generalize core.flushMemtableImpl options clock cf = result at outcome ⊢
  cases outcome with
  | idle _ => exact sound
  | synced _ _ _ => exact ⟨sound.store, sound.memory.walHandle cf⟩
  | failed mem last _ error dir fails =>
    rw [flushTable_error fails]
    exact ⟨sound.store.insertFile fresh .unfinished (by simp),
      (sound.memory.popMemtable cf).withStore _⟩
  | uncounted mem last _ table dir done _ _ => exact installed last done
  | written mem last _ table dir done _ =>
    have whole := installed last done
    exact ⟨whole.store, (whole.memory.withBytes cf 0).clearLog cf⟩

/-- A flush works if the builder accepts the memtable. -/
theorem flush_isOk (flushable : ∀ mem, (core.memtablesOf cf).getLast? = some mem →
      mem.data.isEmpty = false → Flushable options.storage clock mem.data) :
    (core.flushMemtableImpl options clock cf).1.isOk = true := by
  have outcome := flushMemtableImpl_outcome options clock cf core
  generalize core.flushMemtableImpl options clock cf = result at outcome ⊢
  cases outcome with
  | idle _ | synced _ _ _ | written _ _ _ _ _ _ _ => rfl
  | failed mem last filled error dir fails =>
    rw [(flushable mem last filled).flushTable] at fails
    cases fails
  | uncounted mem last filled _ _ _ missing _ =>
    exact absurd missing (sound.memory.counted cf mem (mem_of_getLast? last) filled)

theorem insertRecord (fresh : clock.Fresh core) (cf : String)
    (record : LogRecord) (bare : record.Bare) (size : Nat) : EngineSound options
      (core.insertRecord options clock cf record size).2 := by
  have inserted : EngineSound options (core.insertMemtable cf record size) :=
    ⟨sound.store, sound.memory.insertMemtable cf bare size⟩
  unfold EngineCore.insertRecord
  dsimp only
  split
  · exact inserted.flush fresh cf
  · exact inserted

theorem readAll (now : Nanos) (cf : String) (keys : List Bytes) :
    EngineSound options (core.readAll now cf keys) := by
  induction keys using List.reverseRecOn with
  | nil => exact sound
  | append_singleton keys key ih =>
    rw [← readAll_append]
    exact ⟨ih.store.get now cf key, ih.memory.withStore _⟩

theorem getCf (now : Nanos) (cf : String) (key : Bytes) :
    EngineSound options (core.getCf now cf key).2 := by
  obtain ⟨keys, _, _, reads⟩ := getCf_reads now cf key core
  rw [reads]
  exact sound.readAll now cf keys

theorem putCf (fresh : context.flush.Fresh core) (cf : String) (key value : Bytes)
    (ttl : Option Nanos) :
    EngineSound options (core.putCf options context cf key value ttl).2 := by
  have bare : (putRecord options context cf key value ttl).Bare :=
    bare_of_live (putRecord_fields options context cf key value ttl).2.2.2.1
  have logged : EngineSound options ((core.walHandle cf).writeRecord cf
      { nonce := context.nonce
        record := putRecord options context cf key value ttl }) :=
    ⟨sound.store, (sound.memory.walHandle cf).writeRecord cf bare⟩
  unfold EngineCore.putCf
  split
  · exact sound
  · exact logged.insertRecord fresh cf _ bare _

theorem deleteLocked (fresh : context.flush.Fresh core) (cf : String) (key : Bytes) :
    EngineSound options (core.deleteLocked options context cf key).2 := by
  have logged : EngineSound options ((core.walHandle cf).writeRecord cf
      { nonce := context.nonce
        record :=
          { tombstone context.created key with
            columnFamily := some cf } }) :=
    ⟨sound.store, (sound.memory.walHandle cf).writeRecord cf (fun _ => rfl)⟩
  exact logged.insertRecord fresh cf (tombstone context.inserted key)
    (fun _ => rfl) key.length

theorem deleteCf (fresh : context.flush.Fresh core) (cf : String) (key : Bytes) :
    EngineSound options (core.deleteCf options context cf key).2 := by
  have locked := sound.deleteLocked fresh cf key
  have read := locked.getCf context.read cf key
  rcases deleteCf_state options context cf key core with same | same | same
  · rw [same]
    exact locked
  · rw [same]
    exact read
  · rw [same]
    exact read.getCf context.read cf (ttlKey key)

theorem applyBatch (cf : String) (writes : List BatchWrite) :
    EngineSound options (core.applyBatch cf writes) := by
  refine ⟨?_, sound.memory.applyBatch cf writes⟩
  rw [EngineCore.applyBatch, (EngineCore.insertBatch_frame _ cf writes).1]
  exact sound.store

theorem batch (fresh : clock.Fresh core) (cf : String) (writes : List BatchWrite) :
    EngineSound options
      ((core.applyBatch cf writes).flushIfFull options clock cf).2 := by
  have applied := sound.applyBatch cf writes
  unfold flushIfFull
  split
  · apply applied.flush
    rw [FlushClock.Fresh, EngineCore.applyBatch,
      (EngineCore.insertBatch_frame _ cf writes).1]
    exact fresh
  · exact applied

theorem flushMemtableForCf (broken : Option Bool) (cf : String) : EngineSound options
      (core.flushMemtableForCf options broken cf).2 := by
  have installed : ∀ data : ByteMap Bytes, EngineSound options
      ((core.popMemtable cf).installTable cf
        (Table.build options.storage data) core.store.dir) :=
    fun data => ⟨sound.store.addMemory data cf, (sound.memory.popMemtable cf).withStore _⟩
  unfold EngineCore.flushMemtableForCf
  split
  · exact sound
  · next mem _ =>
    have whole := installed (mem.data.map (fun _ record => record.value))
    have counted := whole.memory.withBytes cf 0
    dsimp only
    split
    · exact whole
    · split
      · exact ⟨whole.store, counted.clearLog cf⟩
      · exact ⟨whole.store, counted⟩
      · exact ⟨whole.store, counted.clearLog cf⟩

theorem commitFamily (context : CommitContext) (cf : String)
    (entries : ByteMap TxnWrite) :
    EngineSound options (core.commitFamily options context cf entries).2 := by
  unfold EngineCore.commitFamily
  split
  · exact sound
  · refine ⟨sound.store, (sound.memory.walHandle cf).writeBatch cf ?_⟩
    intro entry member
    obtain ⟨write, _, rfl⟩ := mem_map.mp member
    exact write.bare_logged cf
  · have applied := sound.applyBatch cf (batchWrites context cf entries)
    dsimp only
    split
    · exact applied.flushMemtableForCf _ cf
    · exact applied

theorem commit (context : CommitContext) (txn : Transaction) :
    EngineSound options (txn.commit options context core).2.2 := by
  have families : ∀ (entries : List (String × ByteMap TxnWrite))
      {core : EngineCore}, EngineSound options core → EngineSound options
        (core.commitFamilies options context entries).2 := by
    intro entries
    induction entries with
    | nil => exact fun sound => sound
    | cons entry entries ih =>
      intro core sound
      obtain ⟨cf, writes⟩ := entry
      have first := sound.commitFamily context cf writes
      rw [commitFamilies]
      split
      · next error after failed =>
        rw [failed] at first
        exact first
      · next due after done =>
        rw [done] at first
        exact ih first
  unfold Transaction.commit
  split
  · exact sound
  · exact families txn.writes.toList sound

theorem scanCf (now : Nanos) (cf : String) (lower upper : Option Bytes)
    (limit : Option Nat) :
    EngineSound options (core.scanCf now cf lower upper limit).2 := by
  obtain ⟨keys, looked⟩ := core.scanCf_reads now cf lower upper limit
  rw [looked]
  exact sound.readAll now cf (keys.map ttlKey)

theorem recoverLog (bounded : ∀ cf, ∀ entry ∈ core.log cf,
      frameLength options.encryptor entry ≤ maxWalRecordBytes)
    (opened : core.recoverLog options cf = .ok after) :
    MemorySound after ∧ after.store = core.store ∧
      ∀ other, after.log other = core.log other := by
  have logs : ∀ (records : List LogRecord) (core : EngineCore),
      (core.replayWalRecordsCore records).logs = core.logs ∧
        (core.replayWalRecordsCore records).store = core.store := by
    intro records core
    induction records using List.reverseRecOn with
    | nil => exact ⟨rfl, rfl⟩
    | append_singleton records record ih =>
      rw [replayWalRecordsCore] at ih ⊢
      rw [foldl_concat, replayRecord]
      split
      · exact ih
      · exact ih
  have intact : ((core.walHandle cf).walFile options cf).file =
      (core.log cf).flatMap (WriteAheadLog.frame options.encryptor) := by
    rw [walFile, log_walHandle]
  have recovered := recover_of_frames (by exact bounded cf) intact
  rw [EngineCore.recoverLog, recovered] at opened
  cases opened
  refine ⟨?_, (logs _ _).2, ?_⟩
  · apply (sound.memory.walHandle cf).replay
    intro record member
    obtain ⟨entry, listed, rfl⟩ := mem_map.mp (mem_of_mem_deduplicateRecords member)
    exact sound.memory.logged cf entry (mem_of_mem_take listed)
  · intro other
    rw [log, (logs _ _).1]
    exact log_walHandle core cf other

end

theorem recoverLogs {families : List String} (sound : EngineSound options core)
    (bounded : ∀ cf, ∀ entry ∈ core.log cf, frameLength options.encryptor entry ≤
      maxWalRecordBytes)
    (opened : core.recoverLogs options families = .ok after) :
    MemorySound after ∧ after.store = core.store := by
  induction families generalizing core with
  | nil =>
    cases opened
    exact ⟨sound.memory, rfl⟩
  | cons cf families ih =>
    rw [recoverLogs] at opened
    split at opened
    · cases opened
    · next middle first =>
      obtain ⟨memory, store, logs⟩ := sound.recoverLog bounded first
      have later := ih ⟨store ▸ sound.store, memory⟩ (by
        intro other entry member
        exact bounded other entry (logs other ▸ member)) opened
      exact ⟨later.1, later.2.trans store⟩

theorem reopen (sound : EngineSound options core) {found : List String}
    (bounded : ∀ cf, ∀ entry ∈ core.log cf, frameLength options.encryptor entry ≤
      maxWalRecordBytes)
    (opened : core.newGeneric options found = .ok after) :
    EngineSound options after := by
  have stopped : EngineSound options core.onDisk := by
    refine ⟨⟨?_, ?_, ?_, sound.store.tombstones, rfl, rfl⟩, ?_⟩
    · intro cf table member
      cases member
    · intro cf
      exact List.Pairwise.nil
    · intro cf other _ table member
      cases member
    · exact (MemorySound.empty.withLogs core.logs sound.memory.logged).withStore _
  unfold newGeneric at opened
  split at opened
  · cases opened
  · next middle recovered =>
    obtain ⟨memory, store⟩ := stopped.recoverLogs bounded recovered
    split at opened
    · cases opened
    · next final discovered =>
      cases opened
      rw [store] at discovered
      obtain ⟨result, same, tables⟩ :=
        discoverSstablesFromDisk_ok options.storage core.onDisk.store
      rw [same] at discovered
      cases discovered
      exact ⟨sound.store.discovered tables, memory.withStore _⟩

theorem step (sound : EngineSound options core) {op : EngineOp}
    (orderly : op.Orderly options core) :
    EngineSound options (op.step options core) := by
  cases op with
  | put context cf key value ttl => exact sound.putCf orderly cf key value ttl
  | delete context cf key => exact sound.deleteCf orderly cf key
  | setBatch clock cf items => exact sound.batch orderly cf (putWrites items)
  | deleteBatch clock cf keys =>
    exact sound.batch orderly cf (deleteWrites keys)
  | commit context txn => exact sound.commit context txn
  | deleteRange timestamp logged nonce cf start stop =>
    refine ⟨sound.store, ?_⟩
    exact ((sound.memory.walHandle cf).writeRecord cf (fun _ => rfl)).insertRange cf _
  | flush clock cf => exact sound.flush orderly cf
  | get now cf key => exact sound.getCf now cf key
  | scan now cf lower upper limit =>
    exact sound.scanCf now cf lower upper limit
  | compact cf plan =>
    refine ⟨sound.store.compact ?_, sound.memory.withStore _⟩
    exact ⟨orderly.picked, orderly.fresh⟩
  | evict dropped =>
    exact ⟨sound.store.withCache _, sound.memory.withStore _⟩
  | reopen found =>
    rw [EngineOp.step]
    split
    · next after opened => exact sound.reopen orderly opened
    · exact sound

end EngineSound

/-- The engine after a run of calls on an empty directory. -/
def engineRun (options : EngineOptions) (ops : List EngineOp) : EngineCore :=
  ops.foldl (EngineOp.step options) .empty

def Reachable (options : EngineOptions) (core : EngineCore) : Prop :=
  ∃ ops, Guarded (EngineOp.step options) (EngineOp.Orderly options) .empty
    ops ∧ core = engineRun options ops

theorem Reachable.empty (options : EngineOptions) :
    Reachable options .empty := ⟨[], trivial, rfl⟩

variable {core : EngineCore}

variable {options : EngineOptions} {ops : List EngineOp}

theorem Reachable.step (reachable : Reachable options core) (op : EngineOp)
    (orderly : op.Orderly options core) :
    Reachable options (op.step options core) := by
  obtain ⟨ops, run, rfl⟩ := reachable
  refine ⟨ops ++ [op], run.concat orderly, ?_⟩
  rw [engineRun, engineRun, foldl_concat]

theorem Reachable.sound (reachable : Reachable options core) :
    EngineSound options core := by
  obtain ⟨ops, run, rfl⟩ := reachable
  exact run.invariant (fun _ _ sound orderly => sound.step orderly) (.empty options)

/-! ## Fixed runs -/

def EngineOp.orderly (core : EngineCore) : EngineOp → Bool
  | put context _ _ _ _ | delete context _ _ => decide (context.flush.Fresh core)
  | setBatch clock _ _ | deleteBatch clock _ _ | flush clock _ =>
    decide (clock.Fresh core)
  | compact cf plan => decide (plan.Admissible cf core.store)
  | reopen _ => false
  | _ => true

theorem EngineOp.orderly_sound {op : EngineOp} (checked : op.orderly core = true) :
    op.Orderly options core := by
  cases op with
  | reopen names => cases checked
  | put | delete | setBatch | deleteBatch | flush | compact =>
    simpa [orderly, Orderly] using checked
  | _ => trivial

theorem EngineOp.guarded_of_check
    (checked : Guarded (EngineOp.step options)
      (fun core op => op.orderly core = true) core ops) :
    Guarded (EngineOp.step options) (EngineOp.Orderly options) core ops :=
  checked.imp (fun _ _ => EngineOp.orderly_sound)

theorem Reachable.of_check
    (checked : Guarded (EngineOp.step options)
      (fun core op => op.orderly core = true) .empty ops) :
    Reachable options (engineRun options ops) :=
  ⟨ops, EngineOp.guarded_of_check checked, rfl⟩

/-- The entries of a flush in the order of the memtable. -/
def EngineCore.flushEntries (core : EngineCore) (clock : FlushClock)
    (cf : String) : List (Bytes × LogRecord) :=
  (core.memtablesOf cf).getLast?.toList.flatMap (fun mem =>
    mem.data.toList.flatMap (flushedPair clock))

theorem EngineCore.flushable_of_entries {config : StorageConfig} {clock : FlushClock}
    (sorted : ((core.flushEntries clock cf).map (·.1)).Pairwise (· < ·))
    (fits : ∀ entry ∈ core.flushEntries clock cf,
      SstableBuilder.entryFits config entry.1 entry.2 = true)
    (nonempty : core.flushEntries clock cf ≠ []) {mem : MemTable}
    (last : (core.memtablesOf cf).getLast? = some mem) :
    Flushable config clock mem.data ∧
      combinedEntries clock mem.data = core.flushEntries clock cf := by
  have entries :
      core.flushEntries clock cf = mem.data.toList.flatMap (flushedPair clock) := by
    simp [flushEntries, last]
  rw [entries] at sorted fits nonempty ⊢
  exact ⟨Flushable.of_sorted sorted fits nonempty, combinedEntries_of_sorted sorted⟩

theorem EngineOp.step_flush (options : EngineOptions) (core : EngineCore)
    (clock : FlushClock)
    (cf : String) (sorted : ((core.flushEntries clock cf).map (·.1)).Pairwise (· < ·))
    (fits : ∀ entry ∈ core.flushEntries clock cf,
      SstableBuilder.entryFits options.storage entry.1 entry.2 = true)
    (nonempty : core.flushEntries clock cf ≠ [])
    (counted : core.memtableBytes[cf]? ≠ none) :
    EngineOp.step options core (.flush clock cf) =
      core.afterFlush options.storage cf (flushName clock.now)
        (core.flushEntries clock cf) := by
  cases last : (core.memtablesOf cf).getLast? with
  | none => simp [flushEntries, last] at nonempty
  | some mem =>
    obtain ⟨flushable, entries⟩ := flushable_of_entries sorted fits nonempty last
    obtain ⟨due, flushed⟩ := flushMemtableImpl_of_flushable last flushable counted
    rw [EngineOp.step, flushed, entries]

/-- After a value that expires at 21 was written and flushed: the file also has
the entry under the TTL key. -/
def flushedExpiring : EngineCore :=
  let written := engineRun .default
    [.put (.ticking 1) "default" [7] [1] (some 20)]
  written.afterFlush EngineOptions.default.storage "default" (flushName 10)
    (written.flushEntries { now := 10, stamp := fun _ => 10 } "default")

theorem engineRun_flushedExpiring : engineRun .default
      [.put (.ticking 1) "default" [7] [1] (some 20),
        .flush { now := 10, stamp := fun _ => 10 } "default"] = flushedExpiring :=
  EngineOp.step_flush .default (engineRun .default [.put (.ticking 1) "default" [7] [1] (some 20)])
    { now := 10, stamp := fun _ => 10 } "default" (by decide +kernel)
    (by decide +kernel) (by decide +kernel) (by decide +kernel)

theorem reachable_flushedExpiring : Reachable .default flushedExpiring := by
  rw [← engineRun_flushedExpiring]
  exact .of_check (by decide +kernel)

end ApexStore
