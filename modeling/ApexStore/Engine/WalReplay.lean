import ApexStore.Engine.Writers

/-!
# Replaying the log of a running engine

Since the last flush of a family its log and its memtable receive the same
writes, but in steps of their own and with clock readings of their own.
Replaying the log gives the records and range tombstones of the memtable if
the two readings of every write agree, and if no write is appended to the log
while another one to the same key has been appended but not yet inserted
(`replay_reproduces_memtable`).
-/

namespace ApexStore

open List WriteCall

variable {core : EngineCore} {pending : WriteCall → Prop} {record : LogRecord}
  {range : RangeTombstone} {key : Bytes} {writes : List BatchWrite} {index : Nat}
  {options : EngineOptions}

def LogRecord.content (record : LogRecord) : Bytes × Bool × Option Nanos × Nanos :=
  (record.value, record.isDeleted, record.expiresAt, record.timestamp)

namespace EngineCore

def logRecords (core : EngineCore) (cf : String) : List LogRecord :=
  (core.log cf).map (·.record)

/-- The memory of an engine that replays the log of a family. -/
def replayed (core : EngineCore) (cf : String) : EngineCore :=
  empty.replayWalRecordsCore (deduplicateRecords (core.logRecords cf))

/-- What the memtables of a family alone answer. -/
def memoryAnswer (core : EngineCore) (now : Nanos) (cf : String)
    (key : Bytes) : Option (Option Bytes) :=
  (core.memtableRecord cf key).map
    (memtableAnswer (maxCovering (core.memtableRanges cf) key) now)

end EngineCore

/-- The memtables of a family hold the same records and range tombstones. -/
structure SameMemory (cf : String) (first second : EngineCore) : Prop where
  records : ∀ key, (first.memtableRecord cf key).map LogRecord.content =
    (second.memtableRecord cf key).map LogRecord.content
  ranges : ∀ range, range ∈ first.memtableRanges cf ↔ range ∈ second.memtableRanges cf

/-- The logged and the stored copy of a write have the same timestamp: always
so for a put, which makes one record for both. -/
def WriteCall.SameReadings : WriteCall → Prop
  | put .. => True
  | delete context _ _ => context.created = context.inserted
  | deleteRange timestamp logged _ _ _ _ => timestamp = logged

/-- A call is between its append and its insert. -/
def WriterSystem.Pending (system : WriterSystem) (cf : String) (call : WriteCall) :
    Prop :=
  ({ call, phase := .appended } : Writer) ∈ system.writers ∧ call.family = cf

/-- A batch on the family whose readings agree, and on keys no pending write
is about. -/
structure BatchInStep (system : WriterSystem) (cf : String)
    (writes : List BatchWrite) : Prop where
  readings : ∀ write ∈ writes, write.stamp.logged = write.stamp.stored
  apart : ∀ write ∈ writes, ∀ call, system.Pending cf call → call.target ≠ some write.key

/-- The condition on a batch of any family, for the replay of one. -/
structure BatchKeepsReplay (options : EngineOptions) (cf : String)
    (system : WriterSystem) (other : String) (writes : List BatchWrite) : Prop where
  inStep : other = cf → BatchInStep system cf writes
  below : EngineCore.logName other = EngineCore.logName cf →
    system.core.Below options other ((writes.map (·.size)).sum)

/-- The condition on the steps of a run, for the replay of a family's log. -/
def WriterStep.KeepsReplay (options : EngineOptions) (cf : String)
    (system : WriterSystem) : WriterStep → Prop
  | .start _ => True
  | .append index =>
    ∀ writer, system.writers[index]? = some writer → writer.call.family = cf →
      writer.call.SameReadings ∧ ∀ call, system.Pending cf call → ∀ key,
        writer.call.target = some key → call.target ≠ some key
  | .insert index =>
    ∀ writer, system.writers[index]? = some writer →
      EngineCore.logName writer.call.family = EngineCore.logName cf →
      system.core.Below options writer.call.family writer.call.size
  | .flush _ other => EngineCore.logName other ≠ EngineCore.logName cf
  | .setBatch _ other items =>
    BatchKeepsReplay options cf system other (putWrites items)
  | .deleteBatch _ other keys =>
    BatchKeepsReplay options cf system other (deleteWrites keys)
  | .commit context txn =>
    (∀ other, context.faults other = none) ∧
    ∀ other entries, txn.writes[other]? = some entries →
      BatchKeepsReplay options cf system other
        (batchWrites context other entries)

/-! ## The views of the log -/

namespace EngineCore

/-- The newest point record of a key in the log. -/
def loggedRecord (core : EngineCore) (cf : String) (key : Bytes) : Option LogRecord :=
  lastPoint (core.logRecords cf) cf key

theorem logRecords_writeRecord (core : EngineCore) (cf other : String)
    (entry : WalEntry) :
    (core.writeRecord other entry).logRecords cf =
      if logName other = logName cf then core.logRecords cf ++ [entry.record]
      else core.logRecords cf := by
  rw [logRecords, log_writeRecord]
  split
  · next same => simp [logRecords, log, same]
  · rfl

theorem logRecords_writeBatch (core : EngineCore) (cf other : String)
    (entries : List WalEntry) :
    (core.writeBatch other entries).logRecords cf = if logName other = logName cf then
        core.logRecords cf ++ entries.map (·.record) else core.logRecords cf := by
  simp only [logRecords, log, writeBatch, NameMap.getElem?_insert]
  split
  · next same => simp [same]
  · rfl

theorem loggedRecord_writeRecord (core : EngineCore) (cf : String)
    (entry : WalEntry) (key : Bytes) :
    (core.writeRecord cf entry).loggedRecord cf key =
      if entry.record.isRangeTombstone = false ∧
          entry.record.pointKey = (cf, key) then some entry.record
      else core.loggedRecord cf key := by
  rw [loggedRecord, logRecords_writeRecord, if_pos rfl, lastPoint_concat]
  rfl

/-- Nothing a replay of the family's log or a read of its memtables sees has
changed. -/
structure Unseen (cf : String) (before after : EngineCore) : Prop where
  memtables : after.memtablesOf cf = before.memtablesOf cf
  points : ∀ key, after.loggedRecord cf key = before.loggedRecord cf key
  ranges : loggedRanges (after.logRecords cf) cf = loggedRanges (before.logRecords cf) cf

namespace Unseen

variable {cf other : String} {first second third : EngineCore}

theorem trans (left : Unseen cf first second)
    (right : Unseen cf second third) : Unseen cf first third :=
  ⟨right.memtables.trans left.memtables,
    fun key => (right.points key).trans (left.points key),
    right.ranges.trans left.ranges⟩

theorem of_log {before after : EngineCore}
    (memtables : after.memtablesOf cf = before.memtablesOf cf)
    (log : after.log cf = before.log cf) : Unseen cf before after := by
  have records : after.logRecords cf = before.logRecords cf := by
    rw [logRecords, log, logRecords]
  refine ⟨memtables, fun key => ?_, by rw [records]⟩
  rw [loggedRecord, records, loggedRecord]

theorem of_frame (frame : Frame other first second)
    (apart : logName other ≠ logName cf) : Unseen cf first second := by
  have families : cf ≠ other := by
    rintro rfl
    exact apart rfl
  exact of_log (frame.memtables cf families) (frame.logs cf apart.symm)

theorem walHandle (core : EngineCore) : Unseen cf core (core.walHandle other) :=
  of_log rfl (log_walHandle core other cf)

theorem writeBatch {entries : List WalEntry} (core : EngineCore)
    (foreign : ∀ entry ∈ entries, entry.record.family ≠ cf) :
    Unseen cf core (core.writeBatch other entries) := by
  refine ⟨rfl, fun key => ?_, ?_⟩
  · rw [loggedRecord, logRecords_writeBatch]
    split
    · rw [lastPoint_append]
      have nothing : lastPoint (entries.map (·.record)) cf key = none := by
        rw [lastPoint, List.find?_eq_none]
        intro record member found
        obtain ⟨entry, listed, rfl⟩ := mem_map.mp (mem_reverse.mp member)
        simp only [Bool.and_eq_true, decide_eq_true_eq] at found
        exact foreign entry listed (congrArg Prod.fst found.2)
      rw [nothing]
      rfl
    · rfl
  · rw [logRecords_writeBatch]
    split
    · rw [loggedRanges_append]
      have nothing : loggedRanges (entries.map (·.record)) cf = [] := by
        rw [loggedRanges, map_eq_nil_iff, filter_eq_nil_iff]
        intro record member found
        obtain ⟨entry, listed, rfl⟩ := mem_map.mp member
        simp only [Bool.and_eq_true, decide_eq_true_eq] at found
        exact foreign entry listed found.2
      rw [nothing, append_nil]
    · rfl

theorem writeRecord {entry : WalEntry} (core : EngineCore)
    (foreign : entry.record.family ≠ cf) :
    Unseen cf core (core.writeRecord other entry) := by
  apply writeBatch
  intro listed member
  rwa [mem_singleton.mp member]

theorem insertMemtable (core : EngineCore) (apart : cf ≠ other) (record : LogRecord)
    (size : Nat) :
    Unseen cf core (core.insertMemtable other record size) :=
  of_log ((frame_insertMemtable core other record size).memtables cf apart) rfl

theorem insertBatch (core : EngineCore) (apart : cf ≠ other)
    (writes : List BatchWrite) :
    Unseen cf core (core.insertBatch other writes) := by
  refine of_log ((frame_insertBatch core other writes).memtables cf apart) ?_
  rw [log, (insertBatch_frame core other writes).2.1]
  rfl

end Unseen

end EngineCore

open EngineCore

/-! ## Readings that agree -/

namespace WriteCall

variable {options : EngineOptions} {call : WriteCall}

theorem content_stored (same : call.SameReadings)
    (stores : call.stored options = some record) :
    (call.entry options).record.content = record.content := by
  cases call with
  | put => cases stores; rfl
  | delete context cf key =>
    cases stores
    simp only [SameReadings] at same
    simp [entry, LogRecord.content, same]
  | deleteRange => cases stores

theorem entry_range (options : EngineOptions) (same : call.SameReadings)
    (deletes : call.range = some range) :
    (call.entry options).record.isRangeTombstone = true ∧
      (call.entry options).record.range = range := by
  cases call with
  | put | delete => cases deletes
  | deleteRange timestamp logged nonce cf start stop =>
    cases deletes
    subst same
    exact ⟨rfl, rfl⟩

theorem range_of_target (point : call.target = some key) : call.range = none := by
  cases call with
  | put => rfl
  | delete => rfl
  | deleteRange => cases point

end WriteCall

theorem BatchWrite.logged_fields (write : BatchWrite) (cf : String) :
    (write.logged cf).isRangeTombstone = false ∧
      (write.logged cf).pointKey = (cf, write.key) ∧
      (write.logged cf).family = cf := by
  unfold logged record
  split <;> exact ⟨rfl, rfl, rfl⟩

theorem BatchWrite.content_logged {write : BatchWrite} {cf : String}
    (same : write.stamp.logged = write.stamp.stored) :
    (write.logged cf).content = write.stored.content := by
  rw [logged, same]
  rfl

theorem lastPoint_logged (writes : List BatchWrite) (cf : String) (key : Bytes) :
    lastPoint (writes.map (·.logged cf)) cf key =
      (writes.reverse.find? (fun write => decide (write.key = key))).map
        (·.logged cf) := by
  rw [lastPoint, ← map_reverse, List.find?_map]
  congr 2
  funext write
  obtain ⟨point, pointKey, _⟩ := write.logged_fields cf
  simp [point, pointKey]

theorem loggedRanges_logged (writes : List BatchWrite) (cf other : String) :
    loggedRanges (writes.map (·.logged cf)) other = [] := by
  rw [loggedRanges, map_eq_nil_iff, filter_eq_nil_iff]
  intro record member
  obtain ⟨write, _, rfl⟩ := mem_map.mp member
  simp [(write.logged_fields cf).1]

theorem EngineCore.logRecords_applyBatch (core : EngineCore) (cf : String)
    (writes : List BatchWrite) : (core.applyBatch cf writes).logRecords cf =
      core.logRecords cf ++ writes.map (·.logged cf) := by
  have logs := (insertBatch_frame ((core.walHandle cf).writeBatch cf
    (writes.map (·.entry cf))) cf writes).2.1
  have same : (core.applyBatch cf writes).logRecords cf = ((core.walHandle cf).writeBatch cf
        (writes.map (·.entry cf))).logRecords cf := by
    rw [logRecords, log, applyBatch, logs]
    rfl
  rw [same, logRecords_writeBatch, if_pos rfl, logRecords, log_walHandle, map_map]
  rfl

variable {cf : String}

theorem EngineCore.Unseen.applyBatch {other : String} (core : EngineCore)
    (apart : cf ≠ other)
    (writes : List BatchWrite) : Unseen cf core (core.applyBatch other writes) := by
  apply (((Unseen.walHandle core).trans (Unseen.writeBatch (core.walHandle other) _)).trans
      (Unseen.insertBatch _ apart writes))
  intro entry member
  obtain ⟨write, _, rfl⟩ := mem_map.mp member
  exact (write.logged_fields other).2.2.trans_ne (Ne.symm apart)

/-- The log and the memtable of a family agree up to the writes that are on
their way from one to the other. -/
structure InStep (options : EngineOptions) (cf : String)
    (pending : WriteCall → Prop) (core : EngineCore) : Prop where
  points : ∀ key, (∀ call, pending call → call.target ≠ some key) →
    (core.loggedRecord cf key).map LogRecord.content =
      (core.memtableRecord cf key).map LogRecord.content
  waiting : ∀ call, pending call → ∀ key, call.target = some key →
    core.loggedRecord cf key = some (call.entry options).record
  ranges : ∀ range, range ∈ loggedRanges (core.logRecords cf) cf ↔
    range ∈ core.memtableRanges cf ∨
      ∃ call, pending call ∧ call.range = some range
  readings : ∀ call, pending call → call.SameReadings

namespace InStep

variable {options : EngineOptions} {cf : String}
  {pending pending' : WriteCall → Prop} {core after : EngineCore}
  {call : WriteCall}

variable (inStep : InStep options cf pending core)
include inStep

theorem unseen (same : Unseen cf core after) : InStep options cf pending after := by
  have records : ∀ key, after.memtableRecord cf key = core.memtableRecord cf key := by
    intro key
    rw [memtableRecord, same.memtables, memtableRecord]
  refine ⟨?_, ?_, ?_, inStep.readings⟩
  · intro key quiet
    rw [same.points, records]
    exact inStep.points key quiet
  · intro call waits key point
    rw [same.points]
    exact inStep.waiting call waits key point
  · intro range
    rw [same.ranges, memtableRanges, same.memtables]
    exact inStep.ranges range

theorem append (family : call.family = cf) (readings : call.SameReadings)
    (apart : ∀ other, pending other → ∀ key, call.target = some key →
      other.target ≠ some key)
    (grown : ∀ other, pending' other ↔ pending other ∨ other = call) :
    InStep options cf pending' (core.writeRecord cf (call.entry options)) := by
  have logged : ∀ key, (core.writeRecord cf (call.entry options)).loggedRecord cf key =
        if call.target = some key then some (call.entry options).record
        else core.loggedRecord cf key := by
    intro key
    rw [loggedRecord_writeRecord]
    cases target : call.target with
    | some own =>
      obtain ⟨point, pointKey⟩ := entry_point options target
      rw [point, pointKey, family]
      by_cases here : own = key
      · simp
      · simp
    | none =>
      obtain ⟨range, deletes, _⟩ := exists_range target
      have kind := (entry_range options readings deletes).1
      simp [kind]
  refine ⟨?_, ?_, ?_, ?_⟩
  · intro key quiet
    rw [logged, if_neg (quiet call ((grown call).mpr (.inr rfl)))]
    exact inStep.points key (fun other waits => quiet other ((grown other).mpr (.inl waits)))
  · intro other waits key point
    rw [logged]
    rcases (grown other).mp waits with old | rfl
    · rw [if_neg]
      · exact inStep.waiting other old key point
      · exact fun target => apart other old key target point
    · rw [if_pos point]
  · intro range
    rw [logRecords_writeRecord, if_pos rfl, loggedRanges_concat, mem_append, inStep.ranges]
    have family' := (entry_family options call).trans family
    constructor
    · rintro ((old | ⟨other, waits, deletes⟩) | new)
      · exact .inl old
      · exact .inr ⟨other, (grown other).mpr (.inl waits), deletes⟩
      · refine .inr ⟨call, (grown call).mpr (.inr rfl), ?_⟩
        cases target : call.target with
        | some key =>
          have point := (entry_point options target).1
          simp [point] at new
        | none =>
          obtain ⟨own, deletes, _⟩ := exists_range target
          have entry := entry_range options readings deletes
          rw [if_pos ⟨entry.1, family'⟩, mem_singleton, entry.2] at new
          rw [deletes, new]
    · rintro (old | ⟨other, waits, deletes⟩)
      · exact .inl (.inl old)
      · rcases (grown other).mp waits with earlier | rfl
        · exact .inl (.inr ⟨other, earlier, deletes⟩)
        · have entry := entry_range options readings deletes
          rw [if_pos ⟨entry.1, family'⟩, entry.2]
          exact .inr (mem_singleton_self range)
  · intro other waits
    rcases (grown other).mp waits with old | rfl
    · exact inStep.readings other old
    · exact readings

theorem insertPoint (waits : pending call) (point : call.target = some key)
    (stores : call.stored options = some record) (own : record.key = key) (size : Nat)
    (fewer : ∀ other, pending' other → pending other)
    (others : ∀ other, pending other → pending' other ∨ other = call) :
    InStep options cf pending' (core.insertMemtable cf record size) := by
  refine ⟨?_, ?_, ?_, fun other waits' => inStep.readings other (fewer other waits')⟩
  · intro other quiet
    rw [memtableRecord_insertMemtable, own]
    have log : (core.insertMemtable cf record size).loggedRecord cf other =
        core.loggedRecord cf other := rfl
    rw [log]
    by_cases here : key = other
    · subst here
      rw [if_pos ⟨rfl, rfl⟩, inStep.waiting call waits key point, Option.map_some,
        Option.map_some,
        content_stored (inStep.readings call waits) stores]
    · rw [if_neg (fun same => here same.2)]
      apply inStep.points
      intro earlier waiting
      rcases others earlier waiting with still | rfl
      · exact quiet earlier still
      · rw [point]
        exact fun same => here (Option.some.inj same)
  · intro other waits' target at_target
    exact inStep.waiting other (fewer other waits') target at_target
  · intro range
    have log : (core.insertMemtable cf record size).logRecords cf = core.logRecords cf := rfl
    rw [log, memtableRanges_insertMemtable, inStep.ranges]
    apply or_congr_right
    constructor
    · rintro ⟨other, waiting, deletes⟩
      rcases others other waiting with still | rfl
      · exact ⟨other, still, deletes⟩
      · rw [range_of_target point] at deletes
        cases deletes
    · rintro ⟨other, waiting, deletes⟩
      exact ⟨other, fewer other waiting, deletes⟩

theorem insertRange (waits : pending call) (deletes : call.range = some range)
    (no_point : call.target = none) (fewer : ∀ other, pending' other → pending other)
    (others : ∀ other, pending other → pending' other ∨ other = call) :
    InStep options cf pending' (core.insertRange cf range) := by
  refine ⟨?_, ?_, ?_, fun other waits' => inStep.readings other (fewer other waits')⟩
  · intro key quiet
    rw [memtableRecord_insertRange]
    apply inStep.points
    intro earlier waiting
    rcases others earlier waiting with still | rfl
    · exact quiet earlier still
    · rw [no_point]
      exact (Option.some_ne_none key).symm
  · intro other waits' target at_target
    exact inStep.waiting other (fewer other waits') target at_target
  · intro found
    have log : (core.insertRange cf range).logRecords cf = core.logRecords cf := rfl
    rw [log, memtableRanges_insertRange, if_pos rfl, mem_append, mem_singleton,
      inStep.ranges]
    constructor
    · rintro (old | ⟨other, waiting, at_range⟩)
      · exact .inl (.inl old)
      · rcases others other waiting with still | rfl
        · exact .inr ⟨other, still, at_range⟩
        · rw [deletes] at at_range
          exact .inl (.inr (Option.some.inj at_range).symm)
    · rintro ((old | rfl) | ⟨other, waiting, at_range⟩)
      · exact .inl old
      · exact .inr ⟨call, waits, deletes⟩
      · exact .inr ⟨other, fewer other waiting, at_range⟩

theorem insertCall (waits : call.family = cf → pending call)
    (families : ∀ other, pending other → other.family = cf)
    (below : logName call.family = logName cf →
      core.Below options call.family call.size)
    (fewer : ∀ other, pending' other → pending other)
    (others : ∀ other, pending other → pending' other ∨ other = call) :
    InStep options cf pending' (call.insert options core).2 := by
  by_cases family : call.family = cf
  · cases point : call.target with
    | some key =>
      obtain ⟨record, stores, own⟩ := stored_point options point
      obtain ⟨clock, _, inserts⟩ := insert_point stores
      rw [inserts,
        insertRecord_of_below clock record (below (congrArg logName family)), family]
      exact inStep.insertPoint (waits family) point stores own call.size fewer others
    | none =>
      obtain ⟨range, deletes, inserts⟩ := exists_range point
      rw [inserts, family]
      exact inStep.insertRange (waits family) deletes point fewer others
  · have same : pending' = pending := by
      funext other
      apply propext
      refine ⟨fewer other, fun waiting => ?_⟩
      rcases others other waiting with still | rfl
      · exact still
      · exact absurd (families other waiting) family
    rw [same]
    by_cases shared : logName call.family = logName cf
    · cases point : call.target with
      | some key =>
        obtain ⟨record, stores, own⟩ := stored_point options point
        obtain ⟨clock, _, inserts⟩ := insert_point stores
        rw [inserts, insertRecord_of_below clock record (below shared)]
        exact inStep.unseen (Unseen.insertMemtable core (Ne.symm family) record call.size)
      | none =>
        obtain ⟨range, deletes, inserts⟩ := exists_range point
        have frame := frame_insert options call core
        rw [inserts] at frame ⊢
        exact inStep.unseen (Unseen.of_log (frame.memtables cf (Ne.symm family)) rfl)
    · exact inStep.unseen (Unseen.of_frame (frame_insert options call core) shared)

theorem applyBatch
    (readings : ∀ write ∈ writes, write.stamp.logged = write.stamp.stored)
    (apart : ∀ write ∈ writes, ∀ call, pending call → call.target ≠ some write.key) :
    InStep options cf pending (core.applyBatch cf writes) := by
  have log : (core.applyBatch cf writes).logRecords cf =
      core.logRecords cf ++ writes.map (·.logged cf) := logRecords_applyBatch core cf writes
  have logged : ∀ key, (core.applyBatch cf writes).loggedRecord cf key =
      ((writes.reverse.find? (fun write => decide (write.key = key))).map
        (·.logged cf)).or (core.loggedRecord cf key) := by
    intro key
    rw [loggedRecord, log, lastPoint_append, lastPoint_logged]
    rfl
  have stored : ∀ key, (core.applyBatch cf writes).memtableRecord cf key =
      ((writes.reverse.find? (fun write => decide (write.key = key))).map
        (·.stored)).or (core.memtableRecord cf key) := by
    intro key
    refine (memtableRecord_insertBatch _ cf cf writes key).trans ?_
    rw [if_pos rfl]
    rfl
  refine ⟨?_, ?_, ?_, inStep.readings⟩
  · intro key quiet
    rw [logged, stored]
    cases last : writes.reverse.find? (fun write => decide (write.key = key)) with
    | none => exact inStep.points key quiet
    | some write =>
      have member : write ∈ writes := mem_reverse.mp (mem_of_find?_eq_some last)
      simp [BatchWrite.content_logged (readings write member)]
  · intro call waits key point
    rw [logged]
    cases last : writes.reverse.find? (fun write => decide (write.key = key)) with
    | none => exact inStep.waiting call waits key point
    | some write =>
      have member : write ∈ writes := mem_reverse.mp (mem_of_find?_eq_some last)
      have own : write.key = key := by simpa using List.find?_some last
      rw [own.symm] at point
      exact absurd point (apart write member call waits)
  · intro range
    have ranges : (core.applyBatch cf writes).memtableRanges cf =
        core.memtableRanges cf := memtableRanges_insertBatch _ cf cf writes
    rw [log, loggedRanges_append, loggedRanges_logged, append_nil, ranges]
    exact inStep.ranges range

end InStep

/-! ## Steps of the writers -/

namespace WriterSystem

variable {options : EngineOptions} {cf : String} {system : WriterSystem}
  {index : Nat} {call : WriteCall}

theorem pending_append (cf : String)
    (at_index : system.writers[index]? = some { call, phase := .opened })
    (core : EngineCore)
    (other : WriteCall) :
      (system.update index { call, phase := .appended } core).Pending cf other ↔
      system.Pending cf other ∨ (other = call ∧ call.family = cf) := by
  constructor
  · rintro ⟨member, family⟩
    rcases mem_or_eq_of_mem_set member with old | new
    · exact .inl ⟨old, family⟩
    · cases new
      exact .inr ⟨rfl, family⟩
  · rintro (⟨member, family⟩ | ⟨rfl, family⟩)
    · refine ⟨mem_set_of_ne member ?_, family⟩
      rw [at_index]
      intro same
      cases same
    · exact ⟨mem_set (List.getElem?_eq_some_iff.mp at_index).1 _, family⟩

theorem pending_of_insert {place : Nat} {ok : Bool} {other : WriteCall}
    (waits : (system.update index
      { call, phase := .returned place ok } core).Pending cf other) :
    system.Pending cf other := by
  obtain ⟨member, family⟩ := waits
  rcases mem_or_eq_of_mem_set member with old | new
  · exact ⟨old, family⟩
  · cases new

theorem pending_insert
    (at_index : system.writers[index]? = some { call, phase := .appended })
    (place : Nat) (ok : Bool) (core : EngineCore) {other : WriteCall}
    (waits : system.Pending cf other) : (system.update index
        { call, phase := .returned place ok } core).Pending cf other ∨ other = call := by
  obtain ⟨member, family⟩ := waits
  by_cases same : other = call
  · exact .inr same
  · refine .inl ⟨mem_set_of_ne member ?_, family⟩
    rw [at_index]
    intro equal
    cases equal
    exact same rfl

section

variable (inStep : InStep options cf (system.Pending cf) system.core)
include inStep

theorem inStep_start (call : WriteCall) :
    InStep options cf ((system.step options (.start call)).Pending cf)
      (system.step options (.start call)).core := by
  rw [step]
  split
  · have same : ({ core := system.core.walHandle call.family
                   writers := system.writers ++ [{ call, phase := .opened }] } :
          WriterSystem).Pending cf = system.Pending cf := by
      funext other
      simp [Pending]
    rw [same]
    exact inStep.unseen (Unseen.walHandle system.core)
  · exact inStep

theorem inStep_append
    (keeps : (WriterStep.append index).KeepsReplay options cf system) :
    InStep options cf ((system.step options (.append index)).Pending cf)
      (system.step options (.append index)).core := by
  rw [step]
  split
  · next call at_index =>
    have pending := pending_append cf at_index
      (system.core.writeRecord call.family (call.entry options))
    by_cases family : call.family = cf
    · obtain ⟨readings, apart⟩ := keeps _ at_index family
      subst family
      apply inStep.append rfl readings apart
      intro other
      rw [pending]
      simp
    · have same : (system.update index { call, phase := .appended }
          (system.core.writeRecord call.family
            (call.entry options))).Pending cf = system.Pending cf := by
        funext other
        rw [pending]
        simp [family]
      rw [same]
      apply inStep.unseen (Unseen.writeRecord system.core _)
      rwa [entry_family]
  · exact inStep

theorem inStep_insert
    (keeps : (WriterStep.insert index).KeepsReplay options cf system) :
    InStep options cf ((system.step options (.insert index)).Pending cf)
      (system.step options (.insert index)).core := by
  rw [step]
  split
  · next call at_index =>
    apply inStep.insertCall (fun family =>
      ⟨mem_of_getElem? at_index, family⟩) (fun _ waits => waits.2)
      (keeps _ at_index)
    · exact fun other waits => pending_of_insert waits
    · exact fun other waits => pending_insert at_index _ _ _ waits
  · exact inStep

theorem inStep_batch {other : String}
    (keeps : BatchKeepsReplay options cf system other writes) (clock : FlushClock) :
    InStep options cf (system.Pending cf)
      ((system.core.applyBatch other writes).flushIfFull options clock other).2 := by
  by_cases shared : logName other = logName cf
  · rw [flushIfFull_of_below clock (keeps.below shared)]
    by_cases same : other = cf
    · subst same
      obtain ⟨readings, apart⟩ := keeps.inStep rfl
      exact inStep.applyBatch readings apart
    · exact inStep.unseen (Unseen.applyBatch system.core (Ne.symm same) writes)
  · exact inStep.unseen (Unseen.of_frame ((frame_applyBatch system.core other writes).trans
        (frame_flushIfFull options clock other _)) shared)

end

/-- The families of a commit follow one another; each starts with the byte
count the commit found. -/
theorem inStep_commitFamilies {context : CommitContext}
    {families : List (String × ByteMap TxnWrite)}
    (inStep : InStep options cf pending core)
    (distinct : families.Pairwise (fun first second => first.1 ≠ second.1))
    (sound : ∀ other, context.faults other = none)
    (below : ∀ family ∈ families, logName family.1 = logName cf →
      core.Below options family.1
        (((batchWrites context family.1 family.2).map (·.size)).sum))
    (together : ∀ family ∈ families, family.1 = cf →
      (∀ write ∈ batchWrites context family.1 family.2, write.stamp.logged =
        write.stamp.stored) ∧
      ∀ write ∈ batchWrites context family.1 family.2, ∀ call, pending call →
        call.target ≠ some write.key) : InStep options cf pending
      (core.commitFamilies options context families).2 := by
  induction families generalizing core with
  | nil => exact inStep
  | cons family families ih =>
    obtain ⟨other, entries⟩ := family
    have frame := frame_commitFamily options context other entries core
    have next : InStep options cf pending (core.commitFamily options context other entries).2 := by
      by_cases shared : logName other = logName cf
      · rw [commitFamily_of_below (sound other) (below _ mem_cons_self shared)]
        by_cases same : other = cf
        · obtain ⟨readings, apart⟩ := together _ mem_cons_self same
          subst same
          exact inStep.applyBatch readings apart
        · exact inStep.unseen (Unseen.applyBatch core (Ne.symm same) _)
      · exact inStep.unseen (Unseen.of_frame frame shared)
    rw [commitFamilies]
    obtain ⟨first, rest⟩ := pairwise_cons.mp distinct
    split
    · next failed =>
      rw [failed] at next
      exact next
    · next committed =>
      rw [committed] at next frame
      apply ih next rest
      · intro later member shared
        have bytes := frame.bytes later.1 (first later member).symm
        rw [Below, bytesOf, bytes]
        exact below later (mem_cons_of_mem _ member) shared
      · exact fun later member =>
          together later (mem_cons_of_mem _ member)

theorem inStep_step (inStep : InStep options cf (system.Pending cf) system.core)
    {step : WriterStep} (keeps : step.KeepsReplay options cf system) :
    InStep options cf ((system.step options step).Pending cf)
      (system.step options step).core := by
  cases step with
  | start call => exact inStep_start inStep call
  | append index => exact inStep_append inStep keeps
  | insert index => exact inStep_insert inStep keeps
  | flush clock other =>
    exact inStep.unseen (Unseen.of_frame
      (frame_flushMemtableImpl options clock other system.core) keeps)
  | setBatch clock other items | deleteBatch clock other keys =>
    exact inStep_batch inStep keeps clock
  | commit context txn =>
    obtain ⟨sound, families⟩ := keeps
    rw [WriterSystem.step]
    rw [Transaction.commit]
    split
    · exact inStep
    · have listed : ∀ family ∈ txn.writes.toList, BatchKeepsReplay options cf system family.1
            (batchWrites context family.1 family.2) := by
        intro family member
        exact families family.1 family.2 ((NameMap.mem_toList _ _ _).mp member)
      apply inStep_commitFamilies inStep _ sound
      · exact fun family member => (listed family member).below
      · intro family member same
        obtain ⟨readings, apart⟩ := (listed family member).inStep same
        exact ⟨readings, apart⟩
      · exact txn.writes.toList_sorted.imp (fun before => before.ne)

end WriterSystem

/-! ## The replayed memtable -/

theorem EngineCore.memtableAnswer_congr {first second : LogRecord}
    (same : first.content = second.content) (covering : Option Nanos) (now : Nanos) :
    memtableAnswer covering now first = memtableAnswer covering now second := by
  simp only [LogRecord.content, Prod.mk.injEq] at same
  obtain ⟨value, deleted, expiry, timestamp⟩ := same
  have expired : first.isExpiredAt now = second.isExpiredAt now := by
    rw [LogRecord.isExpiredAt, expiry]
    rfl
  simp only [memtableAnswer, value, deleted, expired, timestamp]

theorem SameMemory.memoryAnswer {first second : EngineCore}
    (same : SameMemory cf first second) (now : Nanos) (key : Bytes) :
    first.memoryAnswer now cf key = second.memoryAnswer now cf key := by
  have records := same.records key
  have covering := maxCovering_congr same.ranges key
  rw [EngineCore.memoryAnswer, EngineCore.memoryAnswer, covering]
  cases at_first : first.memtableRecord cf key with
  | none =>
    cases at_second : second.memtableRecord cf key with
    | none => rfl
    | some record => simp [at_first, at_second] at records
  | some record =>
    cases at_second : second.memtableRecord cf key with
    | none => simp [at_first, at_second] at records
    | some other =>
      rw [at_first, at_second, Option.map_some, Option.map_some,
        Option.some.injEq] at records
      rw [Option.map_some, Option.map_some, memtableAnswer_congr records]

/-- Without writes on their way, the log replays to what the memtable
holds. -/
theorem InStep.sameMemory (inStep : InStep options cf pending core)
    (idle : ∀ call, ¬ pending call) :
    SameMemory cf (core.replayed cf) core := by
  constructor
  · intro key
    rw [replayed, memtableRecord_replay, lastPoint_deduplicateRecords]
    have nothing : empty.memtableRecord cf key = none := by
      simp [memtableRecord, memtablesOf, empty]
    rw [nothing, Option.or_none]
    exact inStep.points key (fun call waits => absurd waits (idle call))
  · intro range
    rw [replayed, memtableRanges_replay, loggedRanges_deduplicateRecords]
    have nothing : empty.memtableRanges cf = [] := by
      simp [memtableRanges, memtablesOf, empty]
    rw [nothing, nil_append, inStep.ranges]
    constructor
    · rintro (stored | ⟨call, waits, _⟩)
      · exact stored
      · exact absurd waits (idle call)
    · exact .inl

theorem InStep.of_flushed (flushed : core.memtablesOf cf = [])
    (cleared : core.log cf = [])
    (idle : ∀ call, ¬ pending call) : InStep options cf pending core := by
  have log : core.logRecords cf = [] := by rw [logRecords, cleared]; rfl
  refine ⟨?_, ?_, ?_, ?_⟩
  · intro key _
    rw [loggedRecord, log, memtableRecord, flushed]
    rfl
  · exact fun call waits => absurd waits (idle call)
  · intro range
    rw [log, memtableRanges, flushed]
    simp [loggedRanges, idle]
  · exact fun call waits => absurd waits (idle call)

/-- Since a flush of the family, its log replays to its memtable whenever no
writer is between its append and its insert: if the two clock readings of
every write agree, and no write is appended while another one to the same key
is on its way. -/
theorem replay_reproduces_memtable {options : EngineOptions} {cf : String}
    {start : WriterSystem} {steps : List WriterStep}
    (flushed : start.core.memtablesOf cf = [])
    (cleared : start.core.log cf = [])
    (idle : ∀ call, ¬ start.Pending cf call)
    (run : Guarded (WriterSystem.step options)
      (WriterStep.KeepsReplay options cf) start steps)
    (settled : ∀ call,
      ¬ (steps.foldl (WriterSystem.step options) start).Pending cf call) :
    let reached := (steps.foldl (WriterSystem.step options) start).core
    SameMemory cf (reached.replayed cf) reached ∧
      ∀ now key, (reached.replayed cf).memoryAnswer now cf key =
        reached.memoryAnswer now cf key := by
  intro reached
  have inStep : InStep options cf
      ((steps.foldl (WriterSystem.step options) start).Pending cf) reached := run.invariant
      (fun system _ held keeps => WriterSystem.inStep_step held keeps)
      (InStep.of_flushed flushed cleared idle)
  have same := inStep.sameMemory settled
  exact ⟨same, same.memoryAnswer⟩

/-- A put and a batch to the same key, one after the other. -/
theorem replay_reproduces_written_key :
    let options := EngineOptions.default
    let start : WriterSystem := { core := .empty, writers := [] }
    let steps := [WriterStep.start (.put (.instant 1) "default" [7] [1] none),
      .append 0, .insert 0,
      .setBatch { now := 2, stamp := fun _ => 2 } "default"
        [(⟨2, 2, Vector.replicate 12 0⟩, [7], [2])]]
    let reached := (steps.foldl (WriterSystem.step options) start).core
    (reached.memtableRecord "default" [7]).map (·.value) = some [2] ∧
      SameMemory "default" (reached.replayed "default") reached := by
  intro options start steps reached
  refine ⟨by decide +kernel, ?_⟩
  let call := put (.instant 1) "default" [7] [1] none
  have inserted : (((start.step options (.start call)).step options
      (.append 0)).step options (.insert 0)).writers =
        [{ call, phase := .returned 0 true }] := by rfl
  have run : Guarded (WriterSystem.step options)
      (WriterStep.KeepsReplay options "default") start steps := by
    refine ⟨trivial, ?_, ?_, ⟨?_, ?_⟩, trivial⟩
    · intro writer at_zero _
      cases at_zero
      refine ⟨trivial, fun other waits => ?_⟩
      have listed := waits.1
      cases mem_singleton.mp listed
    · intro writer at_zero _
      cases at_zero
      unfold EngineCore.Below
      decide +kernel
    · intro _
      refine ⟨by simp [putWrites], fun _ _ other waits => ?_⟩
      have listed := waits.1
      cases mem_singleton.mp listed
    · intro _
      unfold EngineCore.Below
      decide +kernel
  apply (replay_reproduces_memtable (by rfl) (by rfl) _ run _).1
  · rintro other ⟨listed, _⟩
    cases listed
  · rintro other ⟨listed, _⟩
    have settled : (steps.foldl (WriterSystem.step options) start).writers =
        [{ call, phase := .returned 0 true }] := inserted
    rw [settled] at listed
    cases mem_singleton.mp listed

/-- Two puts of one key are appended to the log in one order and inserted in
the other: the replayed memtable has the value of the second one, the live
memtable that of the first. -/
theorem replay_reverses_concurrent_puts :
    let options := EngineOptions.default
    let start : WriterSystem := { core := .empty, writers := [] }
    let steps := [WriterStep.start (.put (.instant 1) "default" [7] [1] none),
      .start (.put (.instant 2) "default" [7] [2] none),
      .append 0, .append 1, .insert 1, .insert 0]
    let reached := (steps.foldl (WriterSystem.step options) start).core
    (reached.memtableRecord "default" [7]).map (·.value) = some [1] ∧
      ((reached.replayed "default").memtableRecord "default" [7]).map
        (·.value) = some [2] := by
  constructor <;> decide +kernel

end ApexStore
