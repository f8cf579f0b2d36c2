import ApexStore.Engine.RestartOrder
import ApexStore.Engine.MemoryView

/-!
# Starting the engine

A new engine replays the logs it finds into memtables and then looks for its
tables.  Replaying deduplicated records puts the last point record of every
key into the memtable, and every range tombstone.
-/

namespace ApexStore

open List

/-- The range a logged range tombstone stands for. -/
def LogRecord.range (record : LogRecord) : RangeTombstone :=
  { startKey := record.rangeStart.getD [], endKey := record.rangeEnd.getD []
    timestamp := record.timestamp }

namespace EngineCore

/-- One turn of the loop of `replay_wal_records_core`. -/
def replayRecord (core : EngineCore) (record : LogRecord) : EngineCore :=
  if record.isRangeTombstone then
    (core.addRange record.family record.range).updateMemtable record.family
      (·.addRangeTombstone record.range)
  else
    core.insertMemtable record.family record (record.key.length + record.value.length)

def replayWalRecordsCore (core : EngineCore) (records : List LogRecord) : EngineCore :=
  records.foldl replayRecord core

def walFile (options : EngineOptions) (core : EngineCore) (cf : String) :
    WriteAheadLog :=
  { file := (core.log cf).flatMap (WriteAheadLog.frame options.encryptor)
    encryptor := options.encryptor }

def recoverLog (options : EngineOptions) (core : EngineCore) (cf : String) :
    Except LsmError EngineCore :=
  let core := core.walHandle cf
  match (core.walFile options cf).recover with
  | .error error => .error error
  | .ok records => .ok (core.replayWalRecordsCore records)

def recoverLogs (options : EngineOptions) : List String → EngineCore →
    Except LsmError EngineCore
  | [], core => .ok core
  | cf :: rest, core =>
    match core.recoverLog options cf with
    | .error error => .error error
    | .ok core => recoverLogs options rest core

/-- What is left on disk when the engine stops or crashes. -/
def onDisk (core : EngineCore) : EngineCore :=
  { empty with logs := core.logs, store := core.store.shutdown }

/-- `new_generic` on the directory of an engine that has stopped.  `found` are
the families whose logs the directory lists, in its order; the default log
comes first in any case. -/
def newGeneric (options : EngineOptions) (found : List String)
    (stopped : EngineCore) : Except LsmError EngineCore :=
  match recoverLogs options
      ("default" :: found.filter (fun cf => decide (cf ≠ "default"))) stopped.onDisk with
  | .error error => .error error
  | .ok core =>
    match discoverSstablesFromDisk options.storage core.store with
    | .error error => .error error
    | .ok store => .ok { core with store }

end EngineCore

/-! ## Replaying records -/

/-- The last point record of a key among log records. -/
def lastPoint (records : List LogRecord) (cf : String) (key : Bytes) :
    Option LogRecord :=
  records.reverse.find? (fun record =>
    !record.isRangeTombstone && decide (record.pointKey = (cf, key)))

theorem lastPoint_concat (records : List LogRecord) (record : LogRecord) (cf : String)
    (key : Bytes) : lastPoint (records ++ [record]) cf key =
      if record.isRangeTombstone = false ∧ record.pointKey = (cf, key) then some record
      else lastPoint records cf key := by
  by_cases point : record.isRangeTombstone = false <;>
    by_cases here : record.pointKey = (cf, key) <;> simp [point, here, lastPoint]

theorem lastPoint_append (records more : List LogRecord) (cf : String) (key : Bytes) :
    lastPoint (records ++ more) cf key =
      (lastPoint more cf key).or (lastPoint records cf key) := by
  rw [lastPoint, reverse_append, List.find?_append]
  rfl

theorem lastPoint_deduplicateRecords (records : List LogRecord) (cf : String)
    (key : Bytes) :
    lastPoint (deduplicateRecords records) cf key = lastPoint records cf key := by
  induction records using List.reverseRecOn with
  | nil => rw [deduplicateRecords_nil]
  | append_singleton records record ih =>
    rw [deduplicateRecords_concat, supersede, lastPoint_concat, lastPoint_concat, ← ih]
    split
    · rfl
    · next other =>
      -- the new record supersedes no record of the key
      rw [lastPoint, ← filter_reverse, List.find?_filter]
      congr 1
      funext earlier
      rw [Bool.eq_iff_iff, decide_eq_true_eq, and_iff_right_iff_imp,
        Bool.and_eq_true, decide_eq_true_eq]
      rintro ⟨_, here⟩
      rw [LogRecord.survives, here]
      cases later : record.isRangeTombstone with
      | true => rfl
      | false =>
        have apart : (cf, key) ≠ record.pointKey := fun same => other ⟨later, same.symm⟩
        simp [apart]

def loggedRanges (records : List LogRecord) (cf : String) : List RangeTombstone :=
  (records.filter (fun record =>
    record.isRangeTombstone && decide (record.family = cf))).map (·.range)

theorem loggedRanges_append (records more : List LogRecord) (cf : String) :
    loggedRanges (records ++ more) cf = loggedRanges records cf ++
      loggedRanges more cf := by
  simp [loggedRanges]

theorem loggedRanges_concat (records : List LogRecord) (record : LogRecord)
    (cf : String) :
    loggedRanges (records ++ [record]) cf = loggedRanges records cf ++
        if record.isRangeTombstone = true ∧
          record.family = cf then [record.range] else [] := by
  by_cases kind : record.isRangeTombstone = true <;> by_cases family : record.family = cf <;>
    simp [loggedRanges, kind, family]

theorem loggedRanges_deduplicateRecords (records : List LogRecord) (cf : String) :
    loggedRanges (deduplicateRecords records) cf = loggedRanges records cf := by
  have ranges :=
    congrArg (List.filter (fun record : LogRecord => decide (record.family = cf)))
    (deduplicateRecords_ranges records)
  simp only [filter_filter] at ranges
  simp only [loggedRanges, Bool.and_comm, ranges]

namespace EngineCore

variable (core : EngineCore) (records : List LogRecord) (cf : String)

theorem memtableRecord_replay (key : Bytes) :
    (core.replayWalRecordsCore records).memtableRecord cf key =
      (lastPoint records cf key).or (core.memtableRecord cf key) := by
  induction records using List.reverseRecOn with
  | nil => simp [replayWalRecordsCore, lastPoint]
  | append_singleton records record ih =>
    rw [replayWalRecordsCore] at ih ⊢
    rw [foldl_concat, lastPoint_concat, replayRecord]
    cases point : record.isRangeTombstone with
    | true =>
      rw [if_pos rfl, if_neg (by simp), ← ih]
      exact memtableRecord_insertRange _ record.family cf record.range key
    | false =>
      rw [if_neg (by simp), memtableRecord_insertMemtable, ih]
      by_cases here : record.pointKey = (cf, key)
      · have same : record.family = cf ∧ record.key = key := Prod.mk.inj here
        rw [if_pos same, if_pos ⟨rfl, here⟩]
        rfl
      · have apart : ¬ (record.family = cf ∧ record.key = key) :=
          fun same => here (Prod.ext same.1 same.2)
        rw [if_neg apart, if_neg (fun same => here same.2)]

theorem memtableRanges_replay : (core.replayWalRecordsCore records).memtableRanges cf =
      core.memtableRanges cf ++ loggedRanges records cf := by
  induction records using List.reverseRecOn with
  | nil => simp [replayWalRecordsCore, loggedRanges]
  | append_singleton records record ih =>
    rw [replayWalRecordsCore] at ih ⊢
    rw [foldl_concat, replayRecord, loggedRanges_concat]
    cases kind : record.isRangeTombstone with
    | true =>
      refine (memtableRanges_insertRange _ record.family cf record.range).trans ?_
      rw [ih]
      simp
    | false =>
      rw [if_neg (by simp), memtableRanges_insertMemtable, ih]
      simp

theorem rangesOf_replay : (core.replayWalRecordsCore records).rangesOf cf =
      core.rangesOf cf ++ loggedRanges records cf := by
  induction records using List.reverseRecOn with
  | nil => simp [replayWalRecordsCore, loggedRanges]
  | append_singleton records record ih =>
    rw [replayWalRecordsCore] at ih ⊢
    rw [foldl_concat, replayRecord, loggedRanges_concat]
    cases kind : record.isRangeTombstone with
    | true =>
      refine (rangesOf_insertRange _ record.family cf record.range).trans ?_
      rw [ih]
      simp
    | false =>
      refine Eq.trans ?_ (ih.trans (by simp))
      rfl

/-- Replaying deduplicated records gives the same memtables and ranges. -/
theorem replay_of_deduplicated :
    (∀ key, (core.replayWalRecordsCore
      (deduplicateRecords records)).memtableRecord cf key =
      (core.replayWalRecordsCore records).memtableRecord cf key) ∧
    (core.replayWalRecordsCore (deduplicateRecords records)).memtableRanges cf =
      (core.replayWalRecordsCore records).memtableRanges cf ∧
    (core.replayWalRecordsCore (deduplicateRecords records)).rangesOf cf =
      (core.replayWalRecordsCore records).rangesOf cf := by
  refine ⟨fun key => ?_, ?_, ?_⟩
  · rw [memtableRecord_replay, memtableRecord_replay, lastPoint_deduplicateRecords]
  · rw [memtableRanges_replay, memtableRanges_replay, loggedRanges_deduplicateRecords]
  · rw [rangesOf_replay, rangesOf_replay, loggedRanges_deduplicateRecords]

end EngineCore

end ApexStore
