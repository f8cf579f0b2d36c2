import ApexStore.Engine.ReadView
import ApexStore.Engine.WalReplay

/-!
# What a restart finds

A new engine on the directory of one that has stopped knows the logs and the
files, and nothing else.  If recovery reads every log to its end, its memtables
hold the last logged record of every key and all logged range tombstones, and
the files of all families have become tables of the default one
(`newGeneric_ok`).
-/

namespace ApexStore

open VersionSet List

namespace SstDir

def versionIn (key : Bytes) (entry : String × SstFile) : Option LogRecord :=
  match entry.2 with
  | .table records => records[key]?
  | .unfinished => none

/-- The version of a key in the file with the last name that has one. -/
def filed (dir : SstDir) (key : Bytes) : Option LogRecord :=
  dir.toList.reverse.findSome? (versionIn key)

end SstDir

namespace EngineCore

/-- Recovery reads every entry of every log back. -/
structure LogsReadable (options : EngineOptions) (core : EngineCore) : Prop where
  bounded : ∀ cf, ∀ entry ∈ core.log cf,
    WriteAheadLog.frameLength options.encryptor entry ≤ maxWalRecordBytes
  reached : ∀ cf, reachedEntries options.encryptor (core.log cf) = (core.log cf).length

/-- The entries of a log are of a family that writes to it. -/
def LogsApart (core : EngineCore) : Prop :=
  ∀ cf, ∀ entry ∈ core.log cf, logName entry.record.family = logName cf

/-- The directory lists every log that holds something. -/
def Lists (core : EngineCore) (found : List String) : Prop :=
  ∀ cf, core.log cf ≠ [] → logName cf = "default" ∨ logName cf ∈ found

theorem LogsReadable.of_logs {options : EngineOptions} {core : EngineCore}
    (checked : core.logs.toList.all (fun log =>
      log.2.all (fun entry => decide
        (WriteAheadLog.frameLength options.encryptor entry ≤
            maxWalRecordBytes)) && decide
              (reachedEntries options.encryptor log.2 = log.2.length)) =
      true) : core.LogsReadable options := by
  have each :
      ∀ cf, (∀ entry ∈ core.log cf, WriteAheadLog.frameLength options.encryptor entry ≤
          maxWalRecordBytes) ∧ reachedEntries options.encryptor (core.log cf) =
        (core.log cf).length := by
    intro cf
    rw [log]
    cases present : core.logs[logName cf]? with
    | none => exact ⟨by simp, rfl⟩
    | some entries =>
      have fine := all_eq_true.mp checked _ ((NameMap.mem_toList _ _ _).mpr present)
      simpa using fine
  exact ⟨fun cf => (each cf).1, fun cf => (each cf).2⟩

theorem LogsApart.of_logs {core : EngineCore}
    (checked : core.logs.toList.all (fun log => log.2.all (fun entry =>
      decide (logName entry.record.family = log.1))) = true) : core.LogsApart := by
  intro cf entry member
  rw [log] at member
  cases present : core.logs[logName cf]? with
  | none => simp [present] at member
  | some entries =>
    have fine := all_eq_true.mp checked _ ((NameMap.mem_toList _ _ _).mpr present)
    rw [present] at member
    simpa using all_eq_true.mp fine entry member

variable {found : List String} {cf : String}

theorem Lists.of_logs {core : EngineCore}
    (checked : core.logs.toList.all (fun log => log.2.isEmpty ||
      decide (log.1 = "default") || decide (log.1 ∈ found)) = true) :
    core.Lists found := by
  intro cf holds
  rw [log] at holds
  cases present : core.logs[logName cf]? with
  | none => simp [present] at holds
  | some entries =>
    have fine := all_eq_true.mp checked _ ((NameMap.mem_toList _ _ _).mpr present)
    rw [present, Option.getD_some] at holds
    simpa [holds] using fine

/-! ## Replaying the logs -/

/-- What recovery of the logs of some families does. -/
structure Recovered (families : List String) (before after : EngineCore) : Prop where
  store : after.store = before.store
  log : ∀ cf, after.log cf = before.log cf
  records : ∀ cf key, after.memtableRecord cf key =
    (if logName cf ∈ families.map logName then before.loggedRecord cf key
      else none).or (before.memtableRecord cf key)
  memtableRanges : ∀ cf range, range ∈ after.memtableRanges cf ↔
    range ∈ before.memtableRanges cf ∨ logName cf ∈ families.map logName ∧
      range ∈ loggedRanges (before.logRecords cf) cf
  rangesOf : ∀ cf range, range ∈ after.rangesOf cf ↔
    range ∈ before.rangesOf cf ∨ logName cf ∈ families.map logName ∧
      range ∈ loggedRanges (before.logRecords cf) cf

variable {options : EngineOptions} {core : EngineCore}

theorem replay_frame (core : EngineCore) (records : List LogRecord) :
    (core.replayWalRecordsCore records).logs = core.logs ∧
      (core.replayWalRecordsCore records).store = core.store := by
  induction records using List.reverseRecOn with
  | nil => exact ⟨rfl, rfl⟩
  | append_singleton records record ih =>
    rw [replayWalRecordsCore] at ih ⊢
    rw [foldl_concat, replayRecord]
    split
    · exact ih
    · exact ih

theorem recoverLog_ok (readable : core.LogsReadable options) (cf : String) :
    core.recoverLog options cf = .ok ((core.walHandle cf).replayWalRecordsCore
      (deduplicateRecords (core.logRecords cf))) := by
  have intact : ((core.walHandle cf).walFile options cf).file =
      (core.log cf).flatMap (WriteAheadLog.frame options.encryptor) := by
    rw [walFile, log_walHandle]
  have recovered := WriteAheadLog.recover_of_frames (by exact readable.bounded cf) intact
  have whole : (core.log cf).take (reachedEntries options.encryptor
      (core.log cf)) = core.log cf := by
    rw [readable.reached, take_length]
  rw [intact] at recovered
  change ((core.walHandle cf).walFile options cf).recover =
    .ok (deduplicateRecords (((core.log cf).take (reachedEntries
      options.encryptor (core.log cf))).map (·.record))) at recovered
  rw [recoverLog, recovered, whole]
  rfl

variable {other : String} {store : TableState}

theorem LogsApart.elsewhere (apart : core.LogsApart)
    (differ : logName cf ≠ logName other) :
    (∀ key, lastPoint (core.logRecords other) cf key = none) ∧
      loggedRanges (core.logRecords other) cf = [] := by
  have family : ∀ record ∈ core.logRecords other, record.family ≠ cf := by
    intro record member same
    obtain ⟨entry, listed, rfl⟩ := mem_map.mp member
    exact differ (same ▸ apart other entry listed)
  constructor
  · intro key
    rw [lastPoint, List.find?_eq_none]
    intro record member
    have foreign := family record (mem_reverse.mp member)
    simp only [Bool.and_eq_true, decide_eq_true_eq, not_and]
    exact fun _ same => foreign (Prod.mk.inj same).1
  · rw [loggedRanges, map_eq_nil_iff, filter_eq_nil_iff]
    intro record member
    simp only [Bool.and_eq_true, decide_eq_true_eq, not_and]
    exact fun _ => family record member

theorem logRecords_congr (same : logName cf = logName other) :
    core.logRecords cf = core.logRecords other := by
  rw [logRecords, log, same, logRecords, log]

theorem recovered_recoverLog (apart : core.LogsApart) (cf : String) :
    Recovered [cf] core ((core.walHandle cf).replayWalRecordsCore
      (deduplicateRecords (core.logRecords cf))) := by
  have frame := replay_frame (core.walHandle cf) (deduplicateRecords (core.logRecords cf))
  have ranges : ∀ other range, range ∈ loggedRanges (core.logRecords cf) other ↔
        logName other ∈ [cf].map logName ∧
          range ∈ loggedRanges (core.logRecords other) other := by
    intro other range
    by_cases same : logName other = logName cf
    · simp [logRecords_congr same, same]
    · simp [(apart.elsewhere same).2, same]
  refine ⟨frame.2, ?_, ?_, ?_, ?_⟩
  · intro other
    rw [log, frame.1]
    exact log_walHandle core cf other
  · intro other key
    rw [memtableRecord_replay, lastPoint_deduplicateRecords]
    by_cases same : logName other = logName cf
    · rw [if_pos (by simp [same]), loggedRecord, logRecords_congr same]
      rfl
    · rw [if_neg (by simp [same]), (apart.elsewhere same).1]
      rfl
  · intro other range
    rw [memtableRanges_replay, loggedRanges_deduplicateRecords, mem_append, ranges]
    rfl
  · intro other range
    rw [rangesOf_replay, loggedRanges_deduplicateRecords, mem_append, ranges]
    rfl

theorem Recovered.trans {first second third : EngineCore}
    {families : List String} (left : Recovered [cf] first second)
    (right : Recovered families second third) :
    Recovered (cf :: families) first third := by
  have same : ∀ other, second.logRecords other = first.logRecords other := by
    intro other
    rw [logRecords, left.log, logRecords]
  refine ⟨right.store.trans left.store,
    fun other => (right.log other).trans (left.log other), ?_, ?_, ?_⟩
  · intro other key
    rw [right.records, left.records, loggedRecord, same, loggedRecord]
    simp only [map_cons, map_nil, mem_cons, not_mem_nil, or_false]
    -- a log that is replayed twice has the same last records
    generalize logName other = name
    generalize lastPoint (first.logRecords other) other key = record
    by_cases here : name = logName cf
    · have either : name = logName cf ∨ name ∈ families.map logName := .inl here
      split <;> cases record <;> rfl
    · rw [if_neg here, Option.none_or]
      simp only [here, false_or]
  · intro other range
    rw [right.memtableRanges, left.memtableRanges, same]
    simp only [map_cons, mem_cons]
    tauto
  · intro other range
    rw [right.rangesOf, left.rangesOf, same]
    simp only [map_cons, map_nil, mem_cons]
    tauto

/-- Replaying the logs of some families, one after another. -/
def replayLogs (core : EngineCore) (families : List String) : EngineCore :=
  families.foldl (fun core cf =>
    (core.walHandle cf).replayWalRecordsCore (deduplicateRecords (core.logRecords cf))) core

theorem log_replay (core : EngineCore) (cf other : String) (records : List LogRecord) :
    ((core.walHandle cf).replayWalRecordsCore records).log other = core.log other := by
  rw [log, (replay_frame _ records).1]
  exact log_walHandle core cf other

theorem recovered_replayLogs (apart : core.LogsApart) (families : List String) :
    Recovered families core (core.replayLogs families) := by
  induction families generalizing core with
  | nil => exact ⟨rfl, fun _ => rfl, by simp [replayLogs],
      by simp [replayLogs], by simp [replayLogs]⟩
  | cons cf families ih =>
    have first := recovered_recoverLog apart cf
    refine first.trans (ih ?_)
    intro other
    rw [first.log]
    exact apart other

theorem recoverLogs_eq (readable : core.LogsReadable options)
    (families : List String) :
    core.recoverLogs options families = .ok (core.replayLogs families) := by
  induction families generalizing core with
  | nil => rfl
  | cons cf families ih =>
    rw [recoverLogs, recoverLog_ok readable cf]
    apply ih
    constructor
    · intro other
      rw [log_replay]
      exact readable.bounded other
    · intro other
      rw [log_replay]
      exact readable.reached other

theorem memorySound_replayLogs (sound : MemorySound core) (families : List String) :
    MemorySound (core.replayLogs families) := by
  induction families generalizing core with
  | nil => exact sound
  | cons cf families ih =>
    apply ih
    apply (sound.walHandle cf).replay
    intro record member
    obtain ⟨entry, listed, rfl⟩ := mem_map.mp (mem_of_mem_deduplicateRecords member)
    exact sound.logged cf entry listed

/-! ## The new engine -/

/-- What the new engine has in common with the one that stopped. -/
structure Reopened (options : EngineOptions) (stopped core : EngineCore) : Prop where
  sound : EngineSound options core
  log : ∀ cf, core.log cf = stopped.log cf
  records : ∀ cf key, core.memtableRecord cf key = stopped.loggedRecord cf key
  ranges : ∀ cf range, range ∈ core.allRanges cf ↔
    range ∈ loggedRanges (stopped.logRecords cf) cf
  memtableRanges : ∀ cf range, range ∈ core.memtableRanges cf ↔
    range ∈ loggedRanges (stopped.logRecords cf) cf
  discovered : Discovered options.storage stopped.store.dir.toList stopped.store.shutdown core.store

theorem reopened_replayLogs (sound : EngineSound options core) (apart : core.LogsApart)
    (lists : core.Lists found)
    (discovered : Discovered options.storage core.store.dir.toList core.store.shutdown store) :
    Reopened options core
      { core.onDisk.replayLogs
          ("default" :: found.filter (fun cf => decide (cf ≠ "default"))) with
        store } := by
  have named : ∀ cf, core.log cf ≠ [] → logName cf ∈
      ("default" :: found.filter (fun cf => decide (cf ≠ "default"))).map
        logName := by
    intro cf holds
    rw [mem_map]
    rcases lists cf holds with default | listed
    · exact ⟨"default", mem_cons_self, by rw [default]; decide⟩
    · by_cases default : logName cf = "default"
      · exact ⟨"default", mem_cons_self, by rw [default]; decide⟩
      · refine ⟨logName cf, mem_cons_of_mem _ ?_, ?_⟩
        · simp [listed, default]
        · by_cases unnamed : cf = ""
          · rw [unnamed]
            decide
          · simp [logName, unnamed]
  generalize "default" :: found.filter (fun cf => decide (cf ≠ "default")) = families at named ⊢
  have stopped : MemorySound core.onDisk :=
    (MemorySound.empty.withLogs core.logs sound.memory.logged).withStore _
  have memory := recovered_replayLogs (show core.onDisk.LogsApart from apart) families
  have whole := memorySound_replayLogs stopped families
  generalize core.onDisk.replayLogs families = replayed at memory whole ⊢
  -- an empty log has nothing to replay
  have points : ∀ cf key, replayed.memtableRecord cf key = core.loggedRecord cf key := by
    intro cf key
    rw [memory.records]
    have nothing : core.onDisk.memtableRecord cf key = none := rfl
    rw [nothing, Option.or_none]
    split
    · rfl
    · next unnamed =>
      have empty : core.log cf = [] := by
        by_contra holds
        exact unnamed (named cf holds)
      rw [loggedRecord, logRecords, empty]
      rfl
  have logged : ∀ cf range, (logName cf ∈ families.map logName ∧
      range ∈ loggedRanges (core.onDisk.logRecords cf) cf) ↔
        range ∈ loggedRanges (core.logRecords cf) cf := by
    intro cf range
    constructor
    · exact fun both => both.2
    · intro member
      refine ⟨named cf ?_, member⟩
      intro empty
      rw [logRecords, empty] at member
      cases member
  have memtableRanges : ∀ cf range, range ∈ replayed.memtableRanges cf ↔
      range ∈ loggedRanges (core.logRecords cf) cf := by
    intro cf range
    rw [memory.memtableRanges, logged, or_iff_right]
    exact not_mem_nil
  have rangesOf : ∀ cf range, range ∈ replayed.rangesOf cf ↔
      range ∈ loggedRanges (core.logRecords cf) cf := by
    intro cf range
    rw [memory.rangesOf, logged, or_iff_right]
    exact not_mem_nil
  refine ⟨⟨sound.store.discovered discovered, whole.withStore _⟩, memory.log,
    points, ?_, memtableRanges, discovered⟩
  intro cf range
  rw [allRanges, mem_append]
  exact (or_congr (rangesOf cf range) (memtableRanges cf range)).trans (or_self_iff)

theorem newGeneric_eq (readable : core.LogsReadable options) (apart : core.LogsApart)
    (found : List String)
    (discovers : discoverSstablesFromDisk options.storage core.store.shutdown =
      .ok store) :
    core.newGeneric options found =
      .ok { core.onDisk.replayLogs
          ("default" :: found.filter (fun cf => decide (cf ≠ "default"))) with
        store } := by
  have readable' : core.onDisk.LogsReadable options := ⟨readable.bounded, readable.reached⟩
  have recovered := recovered_replayLogs (show core.onDisk.LogsApart from apart)
  have same : core.onDisk.store = core.store.shutdown := rfl
  rw [newGeneric, recoverLogs_eq readable']
  dsimp only
  rw [(recovered _).store, same, discovers]

theorem newGeneric_ok (sound : EngineSound options core)
    (readable : core.LogsReadable options) (apart : core.LogsApart)
    (lists : core.Lists found) :
    ∃ after, core.newGeneric options found = .ok after ∧
      Reopened options core after := by
  obtain ⟨store, discovers, discovered⟩ := discoverSstablesFromDisk_ok
    options.storage core.store.shutdown
  exact ⟨_, newGeneric_eq readable apart found discovers,
    reopened_replayLogs sound apart lists discovered⟩

namespace Reopened

variable {stopped : EngineCore}

theorem newest_filed (reopened : Reopened options stopped core) (key : Bytes) :
    (core.newestEntry "default" key).map (·.2) = stopped.store.dir.filed key := by
  have discovered := reopened.discovered
  have files : ∀ entry ∈ stopped.store.dir.toList.reverse,
      (entry.2.reopen options.storage entry.1).bind (·.version core.store.dir key) =
        SstDir.versionIn key entry := by
    rintro ⟨name, file⟩ member
    cases file with
    | unfinished => rfl
    | table records =>
      have present := (NameMap.mem_toList _ _ _).mp (mem_reverse.mp member)
      rw [SstFile.reopen, Option.bind_some, Table.version_of_path rfl,
        Table.fileRecord_of_table rfl (discovered.file present)]
      rfl
  rw [newestEntry_record, discovered.tables_eq, ← filterMap_reverse,
    ← List.head?_filterMap, filterMap_filterMap, List.head?_filterMap]
  exact findSome?_congr files

theorem newest (reopened : Reopened options stopped core)
    (order : InOrder options.storage "default" stopped.store) (key : Bytes) :
    (core.newestEntry "default" key).map (·.2) =
      (stopped.newestEntry "default" key).map (·.2) := by
  rw [newestEntry_record, newestEntry_record]
  exact order.same_newest reopened.discovered key

variable {cf : String}

variable (reopened : Reopened options stopped core)
include reopened

theorem others (other : cf ≠ "default") : core.store.versions.getTables cf = [] := by
  rw [reopened.discovered.others cf other]
  rfl

theorem cache : core.store.versions.kvCache = ∅ := reopened.discovered.cache rfl

theorem inOrder : InOrder options.storage "default" core.store := by
  have discovered := reopened.discovered
  refine ⟨reopened.sound.store.family "default", ?_, ?_, ?_, reopened.sound.store.readable⟩
  · intro table member
    obtain ⟨name, records, _, rfl⟩ := discovered.mem_tables.mp member
    exact Option.some_ne_none name
  · exact discovered.sorted.imp (fun named _ _ _ => named)
  · intro name records file
    have before : stopped.store.dir[name]? = some (.table records) := by
      by_cases unfinished : (name, SstFile.unfinished) ∈ stopped.store.dir.toList
      · rw [discovered.removed name unfinished] at file
        cases file
      · exact (discovered.files name unfinished).symm.trans file
    exact ⟨_, discovered.mem_tables.mpr ⟨name, records, before, rfl⟩, rfl⟩

theorem uncovered (points : loggedRanges (stopped.logRecords cf) cf = [])
    (key : Bytes) :
    core.coveringRangeTombstoneTs cf key = none := by
  have no_ranges : core.allRanges cf = [] := by
    rw [eq_nil_iff_forall_not_mem]
    intro range member
    rw [reopened.ranges, points] at member
    cases member
  rw [coveringRangeTombstoneTs_eq, no_ranges]
  rfl

variable {key : Bytes}

theorem getCf_filed (now : Nanos)
    (unlogged : stopped.loggedRecord "default" key = none)
    (uncovered : loggedRanges (stopped.logRecords "default") "default" = [])
    (unexpired : (stopped.store.dir.filed key).all
      (fun record => !record.isExpiredAt now) = true)
    (permanent : stopped.store.dir.filed (ttlKey key) = none) :
    (core.getCf now "default" key).1 =
      .ok ((stopped.store.dir.filed key).bind (fun record =>
        if record.isDeleted then none else some record.value)) := by
  have sound := reopened.sound.store
  have bare := reopened.uncovered uncovered key
  have newest := reopened.newest_filed key
  have side := reopened.newest_filed (ttlKey key)
  rw [permanent, Option.map_eq_none_iff] at side
  rw [getCf_eq sound, answer, reopened.records, unlogged]
  dsimp only
  rw [tableValue, bare, sideExpired, TableState.peek, TableState.peek, reopened.cache]
  simp only [lookup_of_absent sound now side]
  rw [lookup_of_unexpired sound, newest]
  · generalize (stopped.store.dir.filed key).bind _ = value
    cases value <;> rfl
  · intro table record found
    rw [← newest, found] at unexpired
    simpa using unexpired

theorem getCf_of_absent (now : Nanos) (unlogged : stopped.loggedRecord cf key = none)
    (absent : core.newestEntry cf key = none) :
    (core.getCf now cf key).1 = .ok none := by
  have sound := reopened.sound.store
  have nothing : core.tableValue now cf key = none := by
    rw [tableValue, absent, TableState.peek, reopened.cache]
    cases core.coveringRangeTombstoneTs cf key with
    | none => simp [lookup_of_absent sound now absent]
    | some timestamp => rfl
  rw [getCf_eq sound, answer, reopened.records, unlogged]
  rw [nothing]
  rfl

theorem newestEntry_other (other : cf ≠ "default") (key : Bytes) :
    core.newestEntry cf key = none := by
  rw [newestEntry, reopened.others other]
  rfl

end Reopened

end EngineCore

end ApexStore
