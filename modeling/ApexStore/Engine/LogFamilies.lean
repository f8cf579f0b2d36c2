import ApexStore.Engine.Reopen

/-!
# The families of the logs

Every entry of a log is of a family that writes to it, in every state the
engine gets into: all writers stamp their records with the family whose log
they append to.
-/

namespace ApexStore

open VersionSet EngineCore

theorem EngineCore.logRecords_logged (core : EngineCore) (cf : String)
    (entry : WalEntry) :
    ((core.walHandle cf).writeRecord cf entry).logRecords cf =
      core.logRecords cf ++ [entry.record] := by
  rw [logRecords_writeRecord, if_pos rfl, logRecords, log_walHandle]
  rfl

namespace EngineCore.LogsApart

variable {options : EngineOptions} {core after : EngineCore}

theorem empty : EngineCore.empty.LogsApart := by
  intro cf entry member
  simp [EngineCore.empty, log] at member

variable (apart : core.LogsApart)
include apart

theorem of_logs_eq (same : after.logs = core.logs) : after.LogsApart := by
  intro cf entry member
  rw [log, same] at member
  exact apart cf entry member

theorem walHandle (cf : String) : (core.walHandle cf).LogsApart := by
  intro other entry member
  rw [log_walHandle] at member
  exact apart other entry member

variable {cf : String}

theorem writeBatch {entries : List WalEntry}
    (own : ∀ entry ∈ entries, entry.record.family = cf) :
    (core.writeBatch cf entries).LogsApart := by
  intro other entry member
  simp only [log, EngineCore.writeBatch, NameMap.getElem?_insert] at member
  split at member
  · next same =>
    rcases List.mem_append.mp member with old | new
    · rw [← same]
      exact apart cf entry old
    · rw [own entry new, same]
  · exact apart other entry member

theorem writeRecord {entry : WalEntry} (own : entry.record.family = cf) :
    (core.writeRecord cf entry).LogsApart := apart.writeBatch (fun other member => by
    rw [List.mem_singleton.mp member]
    exact own)

theorem clearLog (cf : String) : (core.clearLog cf).LogsApart := by
  intro other entry member
  rw [log_clearLog] at member
  split at member
  · cases member
  · exact apart other entry member

theorem flush (clock : FlushClock) (cf : String) :
    (core.flushMemtableImpl options clock cf).2.LogsApart := by
  have outcome := flushMemtableImpl_outcome options clock cf core
  generalize core.flushMemtableImpl options clock cf = result at outcome ⊢
  cases outcome with
  | idle _ => exact apart
  | synced _ _ _ => exact apart.walHandle cf
  | failed _ _ _ _ _ _ | uncounted _ _ _ _ _ _ _ _ => exact apart
  | written _ _ _ _ _ _ _ => exact LogsApart.clearLog (of_logs_eq apart rfl) cf

theorem insertRecord (clock : FlushClock) (cf : String) (record : LogRecord)
    (size : Nat) :
    (core.insertRecord options clock cf record size).2.LogsApart := by
  have inserted : (core.insertMemtable cf record size).LogsApart := of_logs_eq apart rfl
  unfold EngineCore.insertRecord
  dsimp only
  split
  · exact inserted.flush clock cf
  · exact inserted

theorem getCf (now : Nanos) (cf : String) (key : Bytes) :
    (core.getCf now cf key).2.LogsApart := by
  unfold EngineCore.getCf
  dsimp only
  split
  · exact apart
  · split <;> exact of_logs_eq apart rfl

theorem applyBatch (cf : String) (writes : List BatchWrite) :
    (core.applyBatch cf writes).LogsApart := by
  have written :
      ((core.walHandle cf).writeBatch cf (writes.map (·.entry cf))).LogsApart := by
    apply (apart.walHandle cf).writeBatch
    intro entry member
    obtain ⟨write, _, rfl⟩ := List.mem_map.mp member
    exact (write.logged_fields cf).2.2
  exact of_logs_eq written (insertBatch_frame _ cf writes).2.1

theorem batch (clock : FlushClock) (cf : String) (writes : List BatchWrite) :
    ((core.applyBatch cf writes).flushIfFull options clock cf).2.LogsApart := by
  unfold flushIfFull
  split
  · exact (apart.applyBatch cf writes).flush clock cf
  · exact apart.applyBatch cf writes

theorem flushMemtableForCf (broken : Option Bool) (cf : String) :
    (core.flushMemtableForCf options broken cf).2.LogsApart := by
  unfold EngineCore.flushMemtableForCf
  split
  · exact apart
  · dsimp only
    split
    · exact of_logs_eq apart rfl
    · split
      · exact LogsApart.clearLog (of_logs_eq apart rfl) cf
      · exact of_logs_eq apart rfl
      · exact LogsApart.clearLog (of_logs_eq apart rfl) cf

theorem commitFamily (context : CommitContext) (cf : String)
    (entries : ByteMap TxnWrite) :
    (core.commitFamily options context cf entries).2.LogsApart := by
  unfold EngineCore.commitFamily
  split
  · exact apart
  · apply (apart.walHandle cf).writeBatch
    intro entry member
    obtain ⟨write, _, rfl⟩ := List.mem_map.mp member
    exact (write.logged_fields cf).2.2
  · dsimp only
    split
    · exact (apart.applyBatch cf _).flushMemtableForCf _ cf
    · exact apart.applyBatch cf _

theorem commitFamilies (context : CommitContext)
    (families : List (String × ByteMap TxnWrite)) :
    (core.commitFamilies options context families).2.LogsApart := by
  induction families generalizing core with
  | nil => exact apart
  | cons family families ih =>
    obtain ⟨cf, entries⟩ := family
    have first : (core.commitFamily options context cf entries).2.LogsApart :=
      apart.commitFamily context cf entries
    rw [commitFamilies]
    split
    · next failed =>
      rw [failed] at first
      exact first
    · next done =>
      rw [done] at first
      exact ih first

theorem reopen {found : List String}
    (opened : core.newGeneric options found = .ok after) :
    after.LogsApart := by
  have one : ∀ {core after : EngineCore} {cf : String}, core.LogsApart →
      core.recoverLog options cf = .ok after → after.LogsApart := by
    intro core after cf apart recovered
    unfold recoverLog at recovered
    dsimp only at recovered
    split at recovered
    · cases recovered
    · next records _ =>
      cases recovered
      exact of_logs_eq (apart.walHandle cf) (replay_frame _ records).1
  have all : ∀ (families : List String) {core after : EngineCore},
      core.LogsApart → core.recoverLogs options families = .ok after → after.LogsApart := by
    intro families
    induction families with
    | nil =>
      intro core after apart recovered
      cases recovered
      exact apart
    | cons cf families ih =>
      intro core after apart recovered
      rw [recoverLogs] at recovered
      split at recovered
      · cases recovered
      · next middle first => exact ih (one apart first) recovered
  unfold newGeneric at opened
  split at opened
  · cases opened
  · next middle recovered =>
    have stopped : core.onDisk.LogsApart := of_logs_eq apart rfl
    have kept := all _ stopped recovered
    split at opened
    · cases opened
    · cases opened
      exact of_logs_eq kept rfl

theorem step (op : EngineOp) : (op.step options core).LogsApart := by
  cases op with
  | put context cf key value ttl =>
    have own := (putRecord_fields options context cf key value ttl).2.2.2.2.1
    rw [EngineOp.step]
    unfold putCf
    split
    · exact apart
    · apply LogsApart.insertRecord
      apply (apart.walHandle cf).writeRecord
      rw [LogRecord.family, own]
      rfl
  | delete context cf key =>
    let record : LogRecord :=
      { LogRecord.tombstone context.created key with
        columnFamily := some cf }
    have written : ((core.walHandle cf).writeRecord cf
        { nonce := context.nonce, record }).LogsApart := (apart.walHandle cf).writeRecord rfl
    have inserted : (((core.walHandle cf).writeRecord cf
        { nonce := context.nonce, record }).insertRecord options
          context.flush cf (LogRecord.tombstone context.inserted key)
            key.length).2.LogsApart := written.insertRecord _ _ _ _
    rw [EngineOp.step]
    unfold deleteCf
    dsimp only [record] at inserted ⊢
    generalize ((core.walHandle cf).writeRecord cf _).insertRecord options
      context.flush cf _ key.length = result at inserted ⊢
    split
    · exact inserted
    · have read := LogsApart.getCf inserted context.read cf key
      split
      · next found => rwa [found] at read
      · next other found =>
        rw [found] at read
        exact read.getCf context.read cf (ttlKey key)
  | setBatch clock cf items => exact apart.batch clock cf (putWrites items)
  | deleteBatch clock cf keys => exact apart.batch clock cf (deleteWrites keys)
  | commit context txn =>
    rw [EngineOp.step]
    unfold Transaction.commit
    split
    · exact apart
    · exact apart.commitFamilies context txn.writes.toList
  | deleteRange timestamp logged nonce cf start stop =>
    let record : LogRecord :=
      { LogRecord.rangeTombstone logged start stop with
        columnFamily := some cf }
    have written : ((core.walHandle cf).writeRecord cf
        { nonce, record }).LogsApart := (apart.walHandle cf).writeRecord rfl
    exact of_logs_eq written rfl
  | flush clock cf => exact apart.flush clock cf
  | get now cf key => exact apart.getCf now cf key
  | scan now cf lower upper limit =>
    obtain ⟨keys, looked⟩ := core.scanCf_reads now cf lower upper limit
    rw [EngineOp.step, looked]
    exact of_logs_eq apart rfl
  | compact cf plan | evict dropped => exact of_logs_eq apart rfl
  | reopen found =>
    rw [EngineOp.step]
    split
    · next opened => exact apart.reopen opened
    · exact apart

end EngineCore.LogsApart

theorem Reachable.logsApart {options : EngineOptions} {core : EngineCore}
    (reachable : Reachable options core) : core.LogsApart := by
  obtain ⟨ops, run, rfl⟩ := reachable
  exact run.invariant (fun _ op apart _ => apart.step op) .empty

end ApexStore
