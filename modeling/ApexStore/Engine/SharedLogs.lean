import ApexStore.Engine.LogFamilies
import ApexStore.Engine.FamilyRestart

/-!
# Families that share a log

A log is named after its family, but the families with the empty name and
`default` both write to `wal.log`.  While a family has a log to itself, all
that its memtable holds is in that log (`InLog`), and a flush of another family
does not touch it.  Of two families that share the log, a flush of one clears
what the other has logged (`flush_keeps_other_log_iff`).
-/

namespace ApexStore

open VersionSet EngineCore LogRecord List Option EngineOp

namespace EngineCore

/-- A new engine has in memory what a family had not flushed: the records, and
the ranges that were deleted. -/
structure Recovers (cf : String) (stopped reopened : EngineCore) : Prop where
  records : ∀ key record, stopped.memtableRecord cf key = some record →
    ∃ found, reopened.memtableRecord cf key = some found ∧ found.outcome = record.outcome
  ranges : ∀ range ∈ stopped.memtableRanges cf, ∃ found ∈ reopened.memtableRanges cf,
      found.startKey = range.startKey ∧ found.endKey = range.endKey

/-- What the memtable of a family holds is the last word of its log. -/
structure InLog (cf : String) (core : EngineCore) : Prop where
  records : ∀ key record, core.memtableRecord cf key = some record →
    (core.loggedRecord cf key).map LogRecord.outcome = some record.outcome
  ranges : ∀ range ∈ core.memtableRanges cf, ∃ found ∈ loggedRanges (core.logRecords cf) cf,
      found.startKey = range.startKey ∧ found.endKey = range.endKey

def Flushed (cf : String) (core : EngineCore) : Prop :=
  (∀ key, core.memtableRecord cf key = none) ∧ core.memtableRanges cf = []

namespace InLog

variable {options : EngineOptions} {cf other : String}
  {core after : EngineCore} {record : LogRecord} {size : Nat}

theorem congr (held : InLog cf core)
    (memtables : after.memtablesOf cf = core.memtablesOf cf)
    (log : after.log cf = core.log cf) : InLog cf after := by
  have logRecords_eq : after.logRecords cf = core.logRecords cf := by
    rw [logRecords, logRecords, log]
  constructor
  · intro key record found
    rw [memtableRecord, memtables] at found
    rw [loggedRecord, logRecords_eq]
    exact held.records key record found
  · intro range member
    rw [memtableRanges, memtables] at member
    rw [logRecords_eq]
    exact held.ranges range member

theorem of_empty (empty : core.memtablesOf cf = []) : InLog cf core := by
  constructor
  · intro key record found
    rw [memtableRecord, empty] at found
    cases found
  · intro range member
    rw [memtableRanges, empty] at member
    cases member

section

variable (held : InLog cf core)
include held

theorem of_frame (frame : Frame other core after)
    (apart : logName cf ≠ logName other) :
    InLog cf after := by
  refine held.congr (frame.memtables cf ?_) (frame.logs cf apart)
  intro same
  exact apart (congrArg logName same)

/-- Something is logged, and what is new in the memtable is the last word of
it. -/
theorem extend {more : List LogRecord}
    (logs : after.logRecords cf = core.logRecords cf ++ more)
    (records : ∀ key record, after.memtableRecord cf key = some record →
      (lastPoint more cf key).map LogRecord.outcome = some record.outcome ∨
        lastPoint more cf key = none ∧ core.memtableRecord cf key = some record)
    (ranges : ∀ range ∈ after.memtableRanges cf,
      (∃ found ∈ loggedRanges more cf, found.startKey = range.startKey ∧
        found.endKey = range.endKey) ∨ range ∈ core.memtableRanges cf) :
    InLog cf after := by
  constructor
  · intro key record found
    rw [loggedRecord, logs, lastPoint_append]
    rcases records key record found with new | ⟨old, before⟩
    · obtain ⟨logged, last, same⟩ := map_eq_some_iff.mp new
      rw [last, some_or, map_some, same]
    · rw [old]
      exact held.records key record before
  · intro range member
    rw [logs, loggedRanges_append]
    rcases ranges range member with ⟨found, new, bounds⟩ | before
    · exact ⟨found, mem_append_right _ new, bounds⟩
    · obtain ⟨found, old, bounds⟩ := held.ranges range before
      exact ⟨found, mem_append_left _ old, bounds⟩

theorem write {entry : WalEntry} {record : LogRecord}
    (point : entry.record.isRangeTombstone = false)
    (pointKey : entry.record.pointKey = (cf, record.key))
    (outcome : entry.record.outcome = record.outcome) (size : Nat) :
    InLog cf (((core.walHandle cf).writeRecord cf entry).insertMemtable cf record size) := by
  refine held.extend (logRecords_logged core cf entry) ?_ ?_
  · intro key found inserted
    rw [memtableRecord_insertMemtable] at inserted
    rw [← nil_append [entry.record], lastPoint_concat, point, pointKey]
    by_cases here : record.key = key
    · rw [if_pos ⟨rfl, here⟩] at inserted
      cases inserted
      rw [if_pos ⟨rfl, congrArg _ here⟩, map_some, outcome]
      exact .inl rfl
    · rw [if_neg (fun both => here both.2)] at inserted
      rw [if_neg (fun both => here (Prod.mk.inj both.2).2)]
      exact .inr ⟨rfl, inserted⟩
  · intro range member
    rw [memtableRanges_insertMemtable] at member
    exact .inr member

theorem deleteRange (timestamp logged : Nanos) (nonce : Nonce) (start stop : Bytes) :
    InLog cf (core.deleteRangeCf timestamp logged nonce cf start stop) := by
  refine held.extend (logRecords_logged core cf _) ?_ ?_
  · intro key record found
    have same := memtableRecord_insertRange ((core.walHandle cf).writeRecord cf
      { nonce
        record := { rangeTombstone logged start stop with
          columnFamily := some cf } }) cf cf
      { startKey := start, endKey := stop, timestamp } key
    exact .inr ⟨rfl, same.symm.trans found⟩
  · intro range member
    have added := memtableRanges_insertRange ((core.walHandle cf).writeRecord cf
      { nonce
        record := { rangeTombstone logged start stop with
          columnFamily := some cf } }) cf cf
      { startKey := start, endKey := stop, timestamp }
    rw [if_pos rfl] at added
    rcases mem_append.mp (added ▸ member) with old | new
    · exact .inr old
    · left
      refine ⟨{ startKey := start, endKey := stop, timestamp := logged }, ?_, ?_⟩
      · simp [loggedRanges, rangeTombstone, LogRecord.family, LogRecord.range,
          isRangeTombstone]
      · rw [mem_singleton.mp new]
        exact ⟨rfl, rfl⟩

theorem applyBatch (writes : List BatchWrite) :
    InLog cf (core.applyBatch cf writes) := by
  refine held.extend (logRecords_applyBatch core cf writes) ?_ ?_
  · intro key record found
    rw [EngineCore.applyBatch, memtableRecord_insertBatch, if_pos rfl] at found
    rw [lastPoint_logged]
    cases last : writes.reverse.find? (fun write => decide (write.key = key)) with
    | none =>
      rw [last] at found
      exact .inr ⟨rfl, found⟩
    | some write =>
      rw [last] at found
      cases found
      left
      rw [map_some, map_some, write.outcome_logged]
  · intro range member
    rw [EngineCore.applyBatch, memtableRanges_insertBatch] at member
    exact .inr member

end

theorem popped (single : (core.memtablesOf cf).length ≤ 1)
    (memtables : after.memtablesOf cf = (core.popMemtable cf).memtablesOf cf) :
    InLog cf after := by
  apply of_empty
  rw [memtables, memtablesOf_popMemtable, if_pos rfl]
  apply eq_nil_of_length_eq_zero
  rw [length_dropLast]
  omega

theorem flush (held : InLog cf core) (single : (core.memtablesOf cf).length ≤ 1)
    (clock : FlushClock) : InLog cf (core.flushMemtableImpl options clock cf).2 := by
  have outcome := flushMemtableImpl_outcome options clock cf core
  generalize core.flushMemtableImpl options clock cf = result at outcome ⊢
  cases outcome with
  | idle _ => exact held
  | synced _ _ _ => exact held.congr rfl (log_walHandle core cf cf)
  | failed _ _ _ _ _ _ | uncounted _ _ _ _ _ _ _ _ | written _ _ _ _ _ _ _ =>
    exact popped single rfl

theorem insertRecord (held : InLog cf (core.insertMemtable cf record size))
    (single : (core.memtablesOf cf).length ≤ 1) (clock : FlushClock) :
    InLog cf (core.insertRecord options clock cf record size).2 := by
  have single' : ((core.insertMemtable cf record size).memtablesOf cf).length ≤ 1 := by
    change ((core.updateMemtable cf (·.insert record)).memtablesOf cf).length ≤ 1
    rw [memtablesOf_updateMemtable, if_pos rfl]
    exact (MemTable.length_updateLast single).le
  unfold EngineCore.insertRecord
  dsimp only
  split
  · exact held.flush single' clock
  · exact held

theorem flushIfFull (held : InLog cf core) (memory : MemorySound core)
    (clock : FlushClock) : InLog cf (core.flushIfFull options clock cf).2 := by
  unfold EngineCore.flushIfFull
  split
  · exact held.flush (memory.single cf) clock
  · exact held

theorem flushMemtableForCf (held : InLog cf core) (memory : MemorySound core)
    (broken : Option Bool) :
    InLog cf (core.flushMemtableForCf options broken cf).2 := by
  unfold EngineCore.flushMemtableForCf
  split
  · exact held
  · dsimp only
    split
    · exact popped (memory.single cf) rfl
    · split <;> exact popped (memory.single cf) rfl

theorem getCf (held : InLog cf core) (now : Nanos) (family : String)
    (key : Bytes) : InLog cf (core.getCf now family key).2 := by
  obtain ⟨keys, _, _, read⟩ := getCf_reads now family key core
  rw [read]
  exact held.congr rfl rfl

end InLog

end EngineCore

/-- A call that concerns two families only: a write, or a flush, of one of
them, or a call that writes no record.  A commit meets no failure. -/
def EngineOp.Concerns (first second : String) : EngineOp → Prop
  | put _ cf _ _ _ => cf = first ∨ cf = second
  | delete _ cf _ => cf = first ∨ cf = second
  | setBatch _ cf _ => cf = first ∨ cf = second
  | deleteBatch _ cf _ => cf = first ∨ cf = second
  | commit context txn =>
    (∀ cf entries, txn.writes[cf]? = some entries →
      cf = first ∨ cf = second) ∧ ∀ cf, context.faults cf = none
  | deleteRange _ _ _ cf _ _ => cf = first ∨ cf = second
  | flush _ cf => cf = first ∨ cf = second
  | get .. => True
  | scan .. => True
  | compact .. => True
  | evict _ => True
  | reopen _ => False

namespace EngineCore.InLog

variable {options : EngineOptions} {cf other : String} {core : EngineCore}

section

variable (held : InLog cf core) (memory : MemorySound core) (context : WriteContext)
include held memory context

theorem putCf (key value : Bytes) (ttl : Option Nanos) :
    InLog cf (core.putCf options context cf key value ttl).2 := by
  obtain ⟨_, _, _, _, family, point⟩ := putRecord_fields options context cf key value ttl
  unfold EngineCore.putCf
  split
  · exact held
  · have pointKey : (putRecord options context cf key value ttl).pointKey =
        (cf, (putRecord options context cf key value ttl).key) := by
      rw [pointKey, LogRecord.family, family]
      rfl
    have inserted : InLog cf (((core.walHandle cf).writeRecord cf
        { nonce := context.nonce
          record := putRecord options context cf key value ttl }).insertMemtable
            cf (putRecord options context cf key value ttl) (key.length + value.length)) :=
      held.write point pointKey rfl _
    exact inserted.insertRecord (memory.single cf) context.flush

theorem deleteLocked (key : Bytes) :
    InLog cf (core.deleteLocked options context cf key).2 := by
  let record : LogRecord :=
    { tombstone context.created key with columnFamily := some cf }
  have point : record.isRangeTombstone = false := rfl
  have pointKey : record.pointKey = (cf, (tombstone context.inserted key).key) := rfl
  have outcome : record.outcome = (tombstone context.inserted key).outcome := rfl
  have inserted : InLog cf (((core.walHandle cf).writeRecord cf
      { nonce := context.nonce, record }).insertMemtable cf
        (tombstone context.inserted key) key.length) :=
    held.write point pointKey outcome _
  exact inserted.insertRecord (memory.single cf) context.flush

end

/-- What a delete looks up afterwards changes neither the memtables nor the
logs. -/
theorem deleteCf {context : WriteContext} {key : Bytes}
    (locked : InLog cf (core.deleteLocked options context other key).2) :
    InLog cf (core.deleteCf options context other key).2 := by
  rcases deleteCf_state options context other key core with same | same | same
  · rw [same]
    exact locked
  · rw [same]
    exact locked.getCf context.read other key
  · rw [same]
    exact (locked.getCf context.read other key).getCf context.read other _

variable {context : CommitContext}

theorem commitFamily (held : InLog cf core) (memory : MemorySound core)
    (sound : context.faults cf = none) (entries : ByteMap TxnWrite) :
    InLog cf (core.commitFamily options context cf entries).2 := by
  have applied := held.applyBatch (batchWrites context cf entries)
  unfold EngineCore.commitFamily
  rw [sound]
  dsimp only
  split
  · exact applied.flushMemtableForCf (memory.applyBatch cf _) none
  · exact applied

theorem commitFamilies (held : InLog cf core) (engine : EngineSound options core)
    (sound : ∀ cf, context.faults cf = none) (apart : logName cf ≠ logName other)
    {families : List (String × ByteMap TxnWrite)}
    (concerned : ∀ family ∈ families, family.1 = other ∨ family.1 = cf) :
    InLog cf (core.commitFamilies options context families).2 := by
  induction families generalizing core with
  | nil => exact held
  | cons family families ih =>
    obtain ⟨name, entries⟩ := family
    have first : InLog cf (core.commitFamily options context name entries).2 := by
      rcases concerned (name, entries) mem_cons_self with rfl | rfl
      · exact held.of_frame (frame_commitFamily options context name entries core) apart
      · exact held.commitFamily engine.memory (sound name) entries
    have sound' := engine.commitFamily context name entries
    rw [commitFamilies]
    split
    · next failed =>
      rw [failed] at first
      exact first
    · next done =>
      rw [done] at first sound'
      exact ih first sound' (forall_mem_cons.mp concerned).2

/-- The log keeps up with the memtable if no call concerns a family that shares
it. -/
theorem step (held : InLog cf core) (sound : EngineSound options core)
    (apart : logName cf ≠ logName other) {op : EngineOp}
    (concerns : op.Concerns other cf) :
    InLog cf (op.step options core) := by
  cases op with
  | put context name key value ttl =>
    rcases concerns with rfl | rfl
    · exact held.of_frame (frame_putCf options context name key value ttl core) apart
    · exact held.putCf sound.memory context key value ttl
  | delete context name key =>
    apply deleteCf
    rcases concerns with rfl | rfl
    · exact held.of_frame
        (((frame_walHandle core name).trans (frame_writeRecord _ name _)).trans
          (frame_insertRecord options context.flush name _ _ _)) apart
    · exact held.deleteLocked sound.memory context key
  | setBatch clock name items =>
    rcases concerns with rfl | rfl
    · exact held.of_frame ((frame_applyBatch core name
        (putWrites items)).trans (frame_flushIfFull options clock name _)) apart
    · exact (held.applyBatch (putWrites items)).flushIfFull
        (sound.memory.applyBatch name _) clock
  | deleteBatch clock name keys =>
    rcases concerns with rfl | rfl
    · exact held.of_frame ((frame_applyBatch core name
        (deleteWrites keys)).trans (frame_flushIfFull options clock name _)) apart
    · exact (held.applyBatch (deleteWrites keys)).flushIfFull
        (sound.memory.applyBatch name _) clock
  | commit context txn =>
    rw [EngineOp.step]
    unfold Transaction.commit
    split
    · exact held
    · apply held.commitFamilies sound concerns.2 apart
      rintro ⟨name, entries⟩ member
      exact concerns.1 name entries ((NameMap.mem_toList _ _ _).mp member)
  | deleteRange timestamp logged nonce name start stop =>
    rcases concerns with rfl | rfl
    · exact held.of_frame (((frame_walHandle core name).trans
        (frame_writeRecord _ name _)).trans ((frame_addRange _ name _).trans
          (frame_updateMemtable _ name _))) apart
    · exact held.deleteRange timestamp logged nonce start stop
  | flush clock name =>
    rcases concerns with rfl | rfl
    · exact held.of_frame (frame_flushMemtableImpl options clock name core) apart
    · exact held.flush (sound.memory.single name) clock
  | get now name key => exact held.getCf now name key
  | scan now name lower upper limit =>
    obtain ⟨keys, looked⟩ := core.scanCf_reads now name lower upper limit
    rw [EngineOp.step, looked]
    exact held.congr rfl rfl
  | compact name plan | evict dropped => exact held.congr rfl rfl
  | reopen found => exact absurd concerns id

end EngineCore.InLog

def SharedLog (first second : String) : Prop :=
  (first = "" ∧ second = "default") ∨ (first = "default" ∧ second = "")

theorem logName_eq_iff {first second : String} (apart : first ≠ second) :
    logName first = logName second ↔ SharedLog first second := by
  constructor
  · intro shared
    by_cases unnamed : first = ""
    · subst unnamed
      rw [logName_of_named (Ne.symm apart)] at shared
      exact .inl ⟨rfl, shared.symm⟩
    · have unnamed' := eq_empty_of_logName unnamed shared.symm apart.symm
      subst unnamed'
      rw [logName_of_named unnamed] at shared
      exact .inr ⟨shared, rfl⟩
  · rintro (⟨rfl, rfl⟩ | ⟨rfl, rfl⟩) <;> rfl

namespace EngineCore

variable {options : EngineOptions} {cf : String} {stopped reopened : EngineCore}

theorem InLog.recovers (held : InLog cf stopped)
    (same : Reopened options stopped reopened) :
    Recovers cf stopped reopened := by
  constructor
  · intro key record found
    have logged := held.records key record found
    rw [← same.records] at logged
    exact map_eq_some_iff.mp logged
  · intro range member
    obtain ⟨found, logged, bounds⟩ := held.ranges range member
    exact ⟨found, (same.memtableRanges cf found).mpr logged, bounds⟩

theorem recovers_iff_of_cleared (cleared : stopped.log cf = [])
    (same : Reopened options stopped reopened) :
    Recovers cf stopped reopened ↔ Flushed cf stopped := by
  have records : ∀ key, reopened.memtableRecord cf key = none := by
    intro key
    rw [same.records, loggedRecord, logRecords, cleared]
    rfl
  have ranges : ∀ range, range ∉ reopened.memtableRanges cf := by
    intro range member
    rw [same.memtableRanges, logRecords, cleared] at member
    cases member
  constructor
  · intro recovers
    constructor
    · intro key
      apply eq_none_iff_forall_ne_some.mpr
      intro record held
      obtain ⟨found, there, _⟩ := recovers.records key record held
      rw [records key] at there
      cases there
    · apply eq_nil_iff_forall_not_mem.mpr
      intro range member
      obtain ⟨found, there, _⟩ := recovers.ranges range member
      exact ranges found there
  · rintro ⟨no_records, no_ranges⟩
    constructor
    · intro key record found
      rw [no_records key] at found
      cases found
    · intro range member
      rw [no_ranges] at member
      cases member

end EngineCore

section Clearing

variable {options : EngineOptions} {first second : String}
  {ops : List EngineOp} {clock : FlushClock}

variable {core : EngineCore} {mem : MemTable}

theorem EngineCore.log_flushed (last : (core.memtablesOf first).getLast? = some mem)
    (filled : mem.data.isEmpty = false)
    (flushed : (core.flushMemtableImpl options clock first).1.isOk = true) :
    (core.flushMemtableImpl options clock first).2.log first = [] := by
  have outcome := flushMemtableImpl_outcome options clock first core
  generalize core.flushMemtableImpl options clock first = result at outcome flushed ⊢
  cases outcome with
  | idle nothing =>
    rw [nothing] at last
    cases last
  | synced other last' empty =>
    rw [last] at last'
    cases last'
    rw [filled] at empty
    cases empty
  | failed _ _ _ _ _ _ | uncounted _ _ _ _ _ _ _ _ => cases flushed
  | written _ _ _ _ _ _ _ => rw [log_clearLog, if_pos rfl]

/-- What the new engine finds of the second family after a flush of the first,
told from the state before it. -/
theorem EngineCore.recovers_flushed_iff (sound : EngineSound options core)
    (logs : core.LogsApart)
    (apart : first ≠ second)
    (inLog : logName second ≠ logName first → InLog second core)
    (fresh : clock.Fresh core) (last : (core.memtablesOf first).getLast? = some mem)
    (filled : mem.data.isEmpty = false)
    (flushed : (core.flushMemtableImpl options clock first).1.isOk = true)
    (readable : (core.flushMemtableImpl options clock first).2.LogsReadable options)
    {found : List String}
    (lists : (core.flushMemtableImpl options clock first).2.Lists found) :
    (∃ reopened,
      (core.flushMemtableImpl options clock first).2.newGeneric options found =
        .ok reopened ∧ Recovers second
          (core.flushMemtableImpl options clock first).2 reopened) ↔
    ¬ SharedLog first second ∨ core.Flushed second := by
  have cleared := log_flushed last filled flushed
  have frame := frame_flushMemtableImpl options clock first core
  have sound' := sound.flush fresh first
  have apart' : (core.flushMemtableImpl options clock first).2.LogsApart :=
    logs.flush clock first
  generalize (core.flushMemtableImpl options clock first).2 = after
    at cleared frame sound' apart' readable lists ⊢
  obtain ⟨reopened, opened, same⟩ := newGeneric_ok sound' readable apart' lists
  have only : (∃ reopened, after.newGeneric options found = .ok reopened ∧
      Recovers second after reopened) ↔ Recovers second after reopened := by
    rw [opened]
    simp
  have memtables := frame.memtables second apart.symm
  have unflushed : Flushed second after ↔ Flushed second core := by
    simp only [Flushed, memtableRecord, memtableRanges, memtables]
  rw [only, ← logName_eq_iff apart]
  by_cases shared : logName first = logName second
  · have emptied : after.log second = [] := by
      rw [log, ← shared]
      exact cleared
    rw [recovers_iff_of_cleared emptied same, unflushed]
    simp [shared]
  · have kept := (inLog (Ne.symm shared)).of_frame frame (Ne.symm shared)
    simp [shared, kept.recovers same]

/-- Any calls that concern two families, and a flush of the first one that
writes: a new engine has what the second one had not flushed just if the two
do not share a log, or there is nothing of the second one to recover. -/
theorem flush_keeps_other_log_iff (apart : first ≠ second)
    (run : Guarded (EngineOp.step options)
      (fun core op => op.Orderly options core ∧ op.Concerns first second) .empty ops)
    (fresh : clock.Fresh (engineRun options ops)) {mem : MemTable}
    (last : ((engineRun options ops).memtablesOf first).getLast? = some mem)
    (filled : mem.data.isEmpty = false)
    (flushed : ((engineRun options ops).flushMemtableImpl options clock first).1.isOk = true)
    (readable : ((engineRun options ops).flushMemtableImpl options clock
      first).2.LogsReadable options) {found : List String}
    (lists : ((engineRun options ops).flushMemtableImpl options clock first).2.Lists found) :
    (∃ reopened, ((engineRun options ops).flushMemtableImpl options clock
        first).2.newGeneric options found = .ok reopened ∧
      Recovers second
        ((engineRun options ops).flushMemtableImpl options clock first).2 reopened) ↔
    ¬ SharedLog first second ∨ (engineRun options ops).Flushed second := by
  have held : EngineSound options (engineRun options ops) ∧
      (engineRun options ops).LogsApart ∧
      (logName second ≠ logName first → InLog second (engineRun options ops)) := by
    refine @Guarded.invariant _ _ _ _ _ _
      (fun core => EngineSound options core ∧ core.LogsApart ∧
        (logName second ≠ logName first → InLog second core)) ?_ run
      ⟨.empty options, .empty, fun _ => .of_empty rfl⟩
    rintro core op ⟨sound, logs, inLog⟩ ⟨orderly, concerns⟩
    exact ⟨sound.step orderly, logs.step op, fun separate =>
      (inLog separate).step sound separate concerns⟩
  exact recovers_flushed_iff held.1 held.2.1 apart held.2.2 fresh last filled flushed readable lists

end Clearing

/-- A flush of another family. -/
theorem flush_keeps_log_of_default :
    let ops : List EngineOp :=
      [.put (.ticking 1) "users" [7] [1] none, .put (.ticking 6) "default" [8] [2] none]
    let clock : FlushClock := { now := 20, stamp := fun _ => 20 }
    let flushed := ((engineRun .default ops).flushMemtableImpl .default clock
      "users").2
    ∃ reopened, flushed.newGeneric .default ["users"] = .ok reopened ∧
      Recovers "default" flushed reopened := by
  intro ops clock flushed
  have run : Guarded (step .default) (fun core op => op.Orderly .default core ∧
        op.Concerns "users" "default") .empty ops := by
    exact ⟨⟨orderly_sound (by decide +kernel), .inl rfl⟩,
      ⟨orderly_sound (by decide +kernel), .inr rfl⟩, trivial⟩
  have busy : ((engineRun .default ops).memtablesOf "users").getLast?.any
      (fun mem => !mem.data.isEmpty) = true := by decide +kernel
  obtain ⟨mem, last, filled⟩ := (any_eq_true _ _).mp busy
  rw [Bool.not_eq_true'] at filled
  refine (flush_keeps_other_log_iff (by decide) run ?_ last filled
    (by decide +kernel) (.of_logs (by decide +kernel))
      (.of_logs (by decide +kernel))).mpr (.inl ?_)
  · decide +kernel
  · rw [SharedLog]
    decide

/-- A flush of the family with the empty name: the value of the default family
is gone after a restart. -/
theorem flush_clears_log_of_default :
    let ops : List EngineOp :=
      [.put (.ticking 1) "" [7] [1] none, .put (.ticking 6) "default" [8] [2] none]
    let clock : FlushClock := { now := 20, stamp := fun _ => 20 }
    let core := engineRun .default ops
    let flushed := (core.flushMemtableImpl .default clock "").2
    (core.flushMemtableImpl .default clock "").1.isOk = true ∧
      (flushed.getCf 30 "default" [8]).1 = .ok (some [2]) ∧
      ∃ reopened, flushed.newGeneric .default [] = .ok reopened ∧
        ¬ Recovers "default" flushed reopened ∧
        (reopened.getCf 30 "default" [8]).1 = .ok none := by
  intro ops clock core flushed
  have run : Guarded (step .default) (EngineOp.Orderly .default)
      .empty (ops ++ [.flush clock ""]) := by
    exact guarded_of_check (by decide +kernel)
  have reachable : Reachable .default flushed := ⟨_, run, rfl⟩
  have sound := reachable.sound
  obtain ⟨reopened, opened, same⟩ := newGeneric_ok sound
    (.of_logs (by decide +kernel)) reachable.logsApart
    (show flushed.Lists [] from .of_logs (by decide +kernel))
  refine ⟨by decide +kernel, ?_, reopened, opened, ?_, ?_⟩
  · rw [getCf_eq_versions sound.store]
    decide +kernel
  · have cleared : flushed.log "default" = [] := by
      decide +kernel
    rw [recovers_iff_of_cleared cleared same]
    intro nothing
    have present : (flushed.memtableRecord "default" [8]).isSome = true := by decide +kernel
    rw [nothing.1 [8]] at present
    cases present
  · refine (same.getCf_filed 30 (by decide +kernel) ?_ (by decide +kernel)
      (by decide +kernel)).trans (by decide +kernel)
    decide +kernel

end ApexStore
