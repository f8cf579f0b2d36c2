import ApexStore.Storage.WalTorn
import ApexStore.Engine.LogFamilies

/-!
# Batches and commits that are cut short

A batch and a commit append one frame for each item, and a commit does so in
one log after another.  A crash leaves the first bytes of what the call
appends: some complete frames and the beginning of one more.  The next start
replays every complete frame.

`batch_is_crash_atomic_iff` says when a restart then shows all items or none:
when what survives changes no read, or what is lost would change none.
-/

namespace ApexStore

open VersionSet EngineCore WriteAheadLog List

/-! ## What a call appends -/

inductive BatchCall where
  | setBatch (cf : String) (items : List (BatchStamp × Bytes × Bytes))
  | deleteBatch (cf : String) (keys : List (BatchStamp × Bytes))
  | commit (stamps : String → Bytes → BatchStamp) (txn : Transaction)

/-- The environment of a commit in which nothing fails. -/
def CommitContext.faultless (stamps : String → Bytes → BatchStamp) : CommitContext :=
  { stamps, faults := fun _ => none }

/-- The writes to a family, marked with the family. -/
def familyWrites (cf : String) (writes : List BatchWrite) :
    List (String × BatchWrite) :=
  writes.map (fun write => (cf, write))

/-- The writes of a commit in the order they are logged. -/
def commitWrites (stamps : String → Bytes → BatchStamp)
    (families : List (String × ByteMap TxnWrite)) : List (String × BatchWrite) :=
  families.flatMap (fun family => familyWrites family.1
    (batchWrites (.faultless stamps) family.1 family.2))

def logEntry (item : String × BatchWrite) : WalEntry := item.2.entry item.1

/-- The items of the call, in the order they are logged. -/
def BatchCall.writes : BatchCall → List (String × BatchWrite)
  | setBatch cf items => familyWrites cf (putWrites items)
  | deleteBatch cf keys => familyWrites cf (deleteWrites keys)
  | commit stamps txn => commitWrites stamps txn.writes.toList

def BatchCall.entries (call : BatchCall) : List WalEntry := call.writes.map logEntry

def lastItem (writes : List (String × BatchWrite)) (cf : String)
    (key : Bytes) : Option BatchWrite :=
  (writes.reverse.find? (fun item =>
    decide (item.1 = cf) && decide (item.2.key = key))).map (·.2)

theorem lastItem_append (writes more : List (String × BatchWrite)) (cf : String)
    (key : Bytes) :
    lastItem (writes ++ more) cf key =
      (lastItem more cf key).or (lastItem writes cf key) := by
  rw [lastItem, reverse_append, List.find?_append, Option.map_or]
  rfl

/-- The newest record of a key among those that writes leave in the log of its
family. -/
theorem lastPoint_writes (writes : List (String × BatchWrite)) (cf : String)
    (key : Bytes) :
    lastPoint ((writes.filter (fun item =>
        decide (logName item.1 = logName cf))).map
          (fun item => item.2.logged item.1)) cf key =
      (lastItem writes cf key).map (·.logged cf) := by
  have wanted : (fun item : String × BatchWrite =>
      decide (logName item.1 = logName cf) && (!(item.2.logged item.1).isRangeTombstone &&
          decide ((item.2.logged item.1).pointKey = (cf, key)))) =
      fun item => decide (item.1 = cf) && decide (item.2.key = key) := by
    funext item
    obtain ⟨point, pointKey, _⟩ := item.2.logged_fields item.1
    rw [point, pointKey]
    by_cases family : item.1 = cf
    · simp [family]
    · simp [family]
  rw [lastPoint, ← map_reverse, ← filter_reverse, List.find?_map, List.find?_filter]
  simp only [Function.comp_def, Bool.decide_and, Bool.decide_eq_true]
  rw [wanted, lastItem]
  cases found : writes.reverse.find? (fun item =>
      decide (item.1 = cf) && decide (item.2.key = key)) with
  | none => rfl
  | some item =>
    have family := List.find?_some found
    rw [Bool.and_eq_true, decide_eq_true_eq] at family
    simp [family.1]

/-! ## The crash -/

/-- The files of an engine that has stopped: the complete frames of its logs,
and the bytes behind them in each log. -/
structure CutEngine where
  core : EngineCore
  torn : String → Bytes

namespace EngineCore

def cutAppend (options : EngineOptions) (cut : Nat) (cf : String)
    (writes : List BatchWrite) (core : EngineCore) : CutEngine :=
  let entries := writes.map (·.entry cf)
  { core := (core.walHandle cf).writeBatch cf
      (entries.take (wholeFrames options.encryptor cut entries))
    torn := Function.update (fun _ => []) (logName cf)
      (tornBytes options.encryptor cut entries) }

/-- The bytes that a commit appends for a family. -/
def appendedBytes (options : EngineOptions) (stamps : String → Bytes → BatchStamp)
    (cf : String) (entries : ByteMap TxnWrite) : Bytes :=
  ((batchWrites (.faultless stamps) cf entries).map (·.entry cf)).flatMap
    (WriteAheadLog.frame options.encryptor)

/-- A commit that stops within the bytes it appends: the families before are
committed, with their flushes, those behind are not reached. -/
def cutCommit (options : EngineOptions) (stamps : String → Bytes → BatchStamp) :
    Nat → List (String × ByteMap TxnWrite) → EngineCore → CutEngine
  | _, [], core => { core, torn := fun _ => [] }
  | cut, (cf, entries) :: families, core =>
    if cut ≤ (appendedBytes options stamps cf entries).length then
      core.cutAppend options cut cf (batchWrites (.faultless stamps) cf entries)
    else
      match core.commitFamily options (.faultless stamps) cf entries with
      | (.error _, core) => { core, torn := fun _ => [] }
      | (.ok _, core) =>
        cutCommit options stamps
          (cut - (appendedBytes options stamps cf entries).length) families
          core

end EngineCore

/-- The files when only the first `cut` bytes of what the call appends are
there. -/
def BatchCall.crash (options : EngineOptions) (core : EngineCore)
    (cut : Nat) : BatchCall → CutEngine
  | setBatch cf items => core.cutAppend options cut cf (putWrites items)
  | deleteBatch cf keys => core.cutAppend options cut cf (deleteWrites keys)
  | commit stamps txn =>
    core.cutCommit options stamps cut txn.writes.toList

namespace CutEngine

def walFile (options : EngineOptions) (torn : String → Bytes)
    (core : EngineCore) (cf : String) : WriteAheadLog :=
  { file := (core.log cf).flatMap (WriteAheadLog.frame options.encryptor) ++
      torn (logName cf)
    encryptor := options.encryptor }

def recoverLogs (options : EngineOptions) (torn : String → Bytes) :
    List String → EngineCore → Except LsmError EngineCore
  | [], core => .ok core
  | cf :: families, core =>
    match (walFile options torn (core.walHandle cf) cf).recover with
    | .error error => .error error
    | .ok records =>
      recoverLogs options torn families
        ((core.walHandle cf).replayWalRecordsCore records)

/-- `new_generic` on these files. -/
def newGeneric (options : EngineOptions) (found : List String)
    (stopped : CutEngine) : Except LsmError EngineCore :=
  match recoverLogs options stopped.torn
      ("default" :: found.filter (fun cf => decide (cf ≠ "default"))) stopped.core.onDisk with
  | .error error => .error error
  | .ok core =>
    match discoverSstablesFromDisk options.storage core.store with
    | .error error => .error error
    | .ok store => .ok { core with store }

/-- Recovery reaches every complete frame, and nothing in the torn bytes looks
like a frame. -/
structure Readable (options : EngineOptions) (stopped : CutEngine) : Prop where
  reached : ∀ cf,
    readableFrames ⟨0, (walFile options stopped.torn stopped.core cf).file.length⟩
      ((stopped.core.log cf).map (frameLength options.encryptor)) =
        (stopped.core.log cf).length
  inert : ∀ cf, Inert (walFile options stopped.torn stopped.core cf).file.length
    ((stopped.core.log cf).flatMap (WriteAheadLog.frame options.encryptor)).length
    (stopped.torn (logName cf))

theorem recoverLogs_eq {options : EngineOptions} {torn : String → Bytes}
    {core : EngineCore}
    (files : ∀ cf, TornFile options.encryptor (core.log cf) (torn (logName cf)))
    (families : List String) : recoverLogs options torn families core =
      .ok (core.replayLogs families) := by
  induction families generalizing core with
  | nil => rfl
  | cons cf families ih =>
    have recovered : (walFile options torn (core.walHandle cf) cf).recover =
        .ok (deduplicateRecords (core.logRecords cf)) := by
      rw [walFile, log_walHandle, recover_of_torn (files cf)]
      rfl
    rw [recoverLogs, recovered]
    apply ih
    intro other
    rw [log_replay]
    exact files other

end CutEngine

/-! ## What is left in the logs -/

/-- The engine has some writes more in its logs. -/
structure Appended (core after : EngineCore) (writes : List (String × BatchWrite)) :
    Prop where
  store : after.store = core.store
  log : ∀ cf, after.log cf = core.log cf ++
    (writes.filter (fun item => decide (logName item.1 = logName cf))).map logEntry

namespace Appended

variable {core middle after : EngineCore}
  {writes more : List (String × BatchWrite)}

theorem nil (core : EngineCore) :
    Appended core core [] := ⟨rfl, fun _ => (List.append_nil _).symm⟩

theorem trans (first : Appended core middle writes)
    (second : Appended middle after more) :
    Appended core after (writes ++ more) := by
  refine ⟨second.store.trans first.store, ?_⟩
  intro cf
  rw [second.log, first.log, filter_append, map_append, append_assoc]

theorem writeBatch (core : EngineCore) (cf : String) (writes : List BatchWrite) :
    Appended core ((core.walHandle cf).writeBatch cf
      (writes.map (·.entry cf))) (familyWrites cf writes) := by
  refine ⟨rfl, ?_⟩
  intro other
  have logged : ((core.walHandle cf).writeBatch cf (writes.map (·.entry cf))).log other =
        if logName cf = logName other then
          core.log cf ++ writes.map (·.entry cf)
        else core.log other := by
    simp only [EngineCore.log, EngineCore.writeBatch, NameMap.getElem?_insert]
    split
    · exact congrArg (· ++ _) (log_walHandle core cf cf)
    · exact log_walHandle core cf other
  rw [logged]
  split
  · next same =>
    have all : (familyWrites cf writes).filter (fun item =>
        decide (logName item.1 = logName other)) = familyWrites cf writes := by
      apply filter_eq_self.mpr
      intro item member
      obtain ⟨write, _, rfl⟩ := mem_map.mp member
      simpa using same
    rw [all, EngineCore.log, same, familyWrites, map_map]
    rfl
  · next apart =>
    have nothing : (familyWrites cf writes).filter (fun item =>
        decide (logName item.1 = logName other)) = [] := by
      apply filter_eq_nil_iff.mpr
      intro item member
      obtain ⟨write, _, rfl⟩ := mem_map.mp member
      simpa using apart
    rw [nothing, map_nil, append_nil]

theorem applyBatch (core : EngineCore) (cf : String) (writes : List BatchWrite) :
    Appended core (core.applyBatch cf writes) (familyWrites cf writes) := by
  have frame := insertBatch_frame ((core.walHandle cf).writeBatch cf
    (writes.map (·.entry cf))) cf writes
  have logged := writeBatch core cf writes
  refine ⟨frame.1.trans logged.store, ?_⟩
  intro other
  rw [← logged.log other]
  exact congrArg (fun logs : NameMap (List WalEntry) =>
    logs[logName other]?.getD []) frame.2.1

variable (appended : Appended core after writes) (cf : String)
include appended

theorem logRecords : after.logRecords cf = core.logRecords cf ++
      (writes.filter (fun item => decide (logName item.1 = logName cf))).map
        (fun item => item.2.logged item.1) := by
  rw [EngineCore.logRecords, appended.log, map_append, map_map]
  rfl

theorem loggedRecord (key : Bytes) :
    after.loggedRecord cf key = ((lastItem writes cf key).map (·.logged cf)).or
        (core.loggedRecord cf key) := by
  rw [EngineCore.loggedRecord, appended.logRecords, lastPoint_append, lastPoint_writes]
  rfl

theorem loggedRanges : ApexStore.loggedRanges (after.logRecords cf) cf =
      ApexStore.loggedRanges (core.logRecords cf) cf := by
  rw [appended.logRecords, loggedRanges_append]
  apply append_right_eq_self.mpr
  rw [ApexStore.loggedRanges, map_eq_nil_iff, filter_eq_nil_iff]
  intro record member
  obtain ⟨item, _, rfl⟩ := mem_map.mp member
  simp [(item.2.logged_fields item.1).1]

end Appended

/-! ## What survives -/

namespace BatchCall

variable (options : EngineOptions) (cut : Nat) (call : BatchCall)

def kept : List (String × BatchWrite) :=
  call.writes.take (wholeFrames options.encryptor cut call.entries)

def lost : List (String × BatchWrite) :=
  call.writes.drop (wholeFrames options.encryptor cut call.entries)

theorem kept_append_lost :
    call.kept options cut ++ call.lost options cut = call.writes :=
  take_append_drop _ _

end BatchCall

/-- The families that a commit has finished when it stops do not fill their
memtables. -/
def EngineCore.Unflushed (options : EngineOptions)
    (stamps : String → Bytes → BatchStamp)
    (core : EngineCore) : Nat → List (String × ByteMap TxnWrite) → Prop
  | _, [] => True
  | cut, (cf, entries) :: families =>
    (appendedBytes options stamps cf entries).length < cut →
      core.Below options cf
        (((batchWrites (.faultless stamps) cf entries).map (·.size)).sum) ∧
        core.Unflushed options stamps
          (cut - (appendedBytes options stamps cf entries).length) families

/-- The call is stopped before any flush. -/
def BatchCall.Unflushed (options : EngineOptions) (core : EngineCore) (cut : Nat) :
    BatchCall → Prop
  | commit stamps txn => core.Unflushed options stamps cut txn.writes.toList
  | setBatch _ _ | deleteBatch _ _ => True

theorem EngineCore.Unflushed.congr {options : EngineOptions} {core after : EngineCore}
    {stamps : String → Bytes → BatchStamp} {cut : Nat}
    {families : List (String × ByteMap TxnWrite)}
    (unflushed : core.Unflushed options stamps cut families)
    (bytes : ∀ family ∈ families, after.bytesOf family.1 = core.bytesOf family.1) :
    after.Unflushed options stamps cut families := by
  induction families generalizing cut with
  | nil => trivial
  | cons family families ih =>
    obtain ⟨here, rest⟩ := forall_mem_cons.mp bytes
    intro passed
    obtain ⟨below, later⟩ := unflushed passed
    rw [EngineCore.Below, here]
    exact ⟨below, ih later rest⟩

theorem map_familyWrites (cf : String) (writes : List BatchWrite) :
    (familyWrites cf writes).map logEntry = writes.map (·.entry cf) := by
  rw [familyWrites, map_map]
  rfl

section Crash

variable {options : EngineOptions} {core : EngineCore}

theorem appended_cutAppend (cut : Nat) (cf : String) (writes : List BatchWrite) :
    Appended core (core.cutAppend options cut cf writes).core
      ((familyWrites cf writes).take (wholeFrames options.encryptor cut
        ((familyWrites cf writes).map logEntry))) := by
  rw [map_familyWrites, familyWrites, ← map_take, cutAppend, ← map_take]
  exact .writeBatch core cf _

variable {cut : Nat}

theorem torn_cutAppend {cf : String} {writes : List BatchWrite}
    (bounded : ∀ entry ∈ (familyWrites cf writes).map logEntry,
      frameLength options.encryptor entry ≤ maxWalRecordBytes) (name : String) :
    (core.cutAppend options cut cf writes).torn name = [] ∨
      ∃ entry, TornFrame options.encryptor
        ((core.cutAppend options cut cf writes).torn name) entry := by
  rw [map_familyWrites] at bounded
  rw [cutAppend]
  dsimp only
  rw [Function.update_apply]
  split
  · exact tornFrame_tornBytes bounded cut
  · exact .inl rfl

theorem cutCommit_spec {stamps : String → Bytes → BatchStamp}
    {families : List (String × ByteMap TxnWrite)}
    (distinct : families.Pairwise (fun first second => first.1 < second.1))
    (unflushed : core.Unflushed options stamps cut families)
    (bounded : ∀ entry ∈ (commitWrites stamps families).map logEntry,
      frameLength options.encryptor entry ≤ maxWalRecordBytes) :
    Appended core (core.cutCommit options stamps cut families).core
        ((commitWrites stamps families).take (wholeFrames options.encryptor
          cut ((commitWrites stamps families).map logEntry))) ∧
      ∀ name, (core.cutCommit options stamps cut families).torn name = [] ∨
        ∃ entry, TornFrame options.encryptor
          ((core.cutCommit options stamps cut families).torn name) entry := by
  induction families generalizing core cut with
  | nil => exact ⟨.nil core, fun _ => .inl rfl⟩
  | cons family families ih =>
    obtain ⟨cf, entries⟩ := family
    obtain ⟨first, rest⟩ := pairwise_cons.mp distinct
    let writes := batchWrites (.faultless stamps) cf entries
    have split_writes : commitWrites stamps ((cf, entries) :: families) =
        familyWrites cf writes ++ commitWrites stamps families := rfl
    rw [split_writes, map_append] at bounded ⊢
    have own : ∀ entry ∈ (familyWrites cf writes).map logEntry,
        frameLength options.encryptor entry ≤ maxWalRecordBytes :=
      fun entry member => bounded entry (mem_append_left _ member)
    have size : (appendedBytes options stamps cf entries).length =
        (((familyWrites cf writes).map logEntry).flatMap
          (WriteAheadLog.frame options.encryptor)).length := by
      rw [map_familyWrites]
      rfl
    rw [cutCommit]
    split
    · next inside =>
      rw [size] at inside
      have limit :
          wholeFrames options.encryptor cut ((familyWrites cf writes).map logEntry) ≤
            (familyWrites cf writes).length := by
        rw [← length_map logEntry]
        exact wholeFrames_le _ _ _
      rw [wholeFrames_append_of_le _ inside, take_append_of_le_length limit]
      exact ⟨appended_cutAppend cut cf writes, torn_cutAppend own⟩
    · next outside =>
      obtain ⟨below, unflushed⟩ := unflushed (not_le.mp outside)
      rw [size] at outside unflushed ⊢
      rw [commitFamily_of_below rfl below]
      have applied := Appended.applyBatch core cf writes
      have later := @ih (core.applyBatch cf writes)
        (cut - (((familyWrites cf writes).map logEntry).flatMap
          (WriteAheadLog.frame options.encryptor)).length) rest (unflushed.congr ?_)
        (forall_mem_append.mp bounded).2
      · rw [wholeFrames_append_of_ge _ (Nat.le_of_not_le outside),
          length_map, take_length_add_append]
        exact ⟨applied.trans later.1, later.2⟩
      · intro other member
        have apart : other.1 ≠ cf := ne_of_gt (first other member)
        rw [bytesOf, (frame_applyBatch core cf writes).bytes other.1 apart, ← bytesOf]

variable {call : BatchCall}

variable (unflushed : call.Unflushed options core cut)
  (bounded : ∀ entry ∈ call.entries,
    frameLength options.encryptor entry ≤ maxWalRecordBytes)
include unflushed bounded

theorem BatchCall.crash_spec :
    Appended core (call.crash options core cut).core (call.kept options cut) ∧
      ∀ name, (call.crash options core cut).torn name = [] ∨
        ∃ entry, TornFrame options.encryptor
          ((call.crash options core cut).torn name) entry := by
  cases call with
  | setBatch cf items | deleteBatch cf keys =>
    exact ⟨appended_cutAppend cut cf _, torn_cutAppend bounded⟩
  | commit stamps txn =>
    exact cutCommit_spec txn.writes.toList_sorted unflushed bounded

theorem BatchCall.tornFile_crash
    (logged : ∀ cf, ∀ entry ∈ core.log cf, frameLength options.encryptor entry ≤
      maxWalRecordBytes)
    (readable : (call.crash options core cut).Readable options) (cf : String) :
    TornFile options.encryptor ((call.crash options core cut).core.log cf)
      ((call.crash options core cut).torn (logName cf)) := by
  obtain ⟨appended, torn⟩ := BatchCall.crash_spec unflushed bounded
  refine ⟨?_, readable.reached cf, torn _, readable.inert cf⟩
  intro entry member
  rw [appended.log] at member
  rcases mem_append.mp member with old | new
  · exact logged cf entry old
  · obtain ⟨item, listed, rfl⟩ := mem_map.mp new
    exact bounded _ (mem_map_of_mem (mem_of_mem_take (mem_of_mem_filter listed)))

end Crash

/-! ## Reads after the restart -/

/-- What a write shows after it has been replayed. -/
def EngineCore.shownBy (core : EngineCore) (cf : String) (write : BatchWrite) :
    Option Bytes :=
  memtableAnswer (core.coveringRangeTombstoneTs cf write.key) 0 (write.logged cf)

theorem EngineCore.memtableAnswer_logged (core : EngineCore) (now : Nanos)
    (cf : String)
    (write : BatchWrite) :
    memtableAnswer (core.coveringRangeTombstoneTs cf write.key) now
      (write.logged cf) = core.shownBy cf write := by
  have lasting : (write.logged cf).expiresAt = none := by
    unfold BatchWrite.logged BatchWrite.record
    split <;> rfl
  rw [shownBy, memtableAnswer, memtableAnswer, LogRecord.isExpiredAt_of_none lasting,
    LogRecord.isExpiredAt_of_none lasting]

variable {cf : String} {write : BatchWrite}

theorem EngineCore.shownBy_of_uncovered {core : EngineCore}
    (uncovered : core.coveringRangeTombstoneTs cf write.key = none) :
    core.shownBy cf write =
      if write.isDeleted then none else some write.value := by
  rw [shownBy, uncovered, BatchWrite.logged, BatchWrite.record]
  cases write.isDeleted <;> rfl

theorem key_of_lastItem {writes : List (String × BatchWrite)} {key : Bytes}
    (last : lastItem writes cf key = some write) : write.key = key := by
  obtain ⟨item, found, rfl⟩ := Option.map_eq_some_iff.mp last
  have wanted := List.find?_some found
  rw [Bool.and_eq_true, decide_eq_true_eq, decide_eq_true_eq] at wanted
  exact wanted.2

section Restart

variable {options : EngineOptions} {core : EngineCore}

/-- Two restarts of one directory, the second with some writes more in its
logs. -/
theorem restart_with_writes (sound : EngineSound options core)
    (readable : core.LogsReadable options) (apart : core.LogsApart)
    {found listed : List String} (lists : core.Lists found)
    {stopped : CutEngine} {writes : List (String × BatchWrite)}
    (appended : Appended core stopped.core writes)
    (files : ∀ cf, TornFile options.encryptor (stopped.core.log cf)
      (stopped.torn (logName cf)))
    (lists' : stopped.core.Lists listed) :
    ∃ before after, core.newGeneric options found = .ok before ∧
      stopped.newGeneric options listed = .ok after ∧ Reopened options core before ∧
      ∀ now cf key, (after.getCf now cf key).1 =
        match lastItem writes cf key with
        | some write => .ok (before.shownBy cf write)
        | none => (before.getCf now cf key).1 := by
  -- of the engine that stopped only the logs and the files matter
  let entered : EngineCore := { core with logs := stopped.core.logs }
  have appended' : Appended core entered writes := ⟨rfl, appended.log⟩
  have origin : ∀ cf, ∀ entry ∈ entered.log cf, entry ∈ core.log cf ∨
      ∃ item : String × BatchWrite, logName item.1 = logName cf ∧ logEntry item = entry := by
    intro cf entry member
    rw [appended'.log] at member
    rcases mem_append.mp member with old | new
    · exact .inl old
    · obtain ⟨item, listed, rfl⟩ := mem_map.mp new
      exact .inr ⟨item, of_decide_eq_true (mem_filter.mp listed).2, rfl⟩
  have sound' : EngineSound options entered := by
    refine ⟨sound.store, sound.memory.withLogs _ ?_⟩
    intro cf entry member
    rcases origin cf entry member with old | ⟨item, _, rfl⟩
    · exact sound.memory.logged cf entry old
    · exact item.2.bare_logged item.1
  have apart' : entered.LogsApart := by
    intro cf entry member
    rcases origin cf entry member with old | ⟨item, shared, rfl⟩
    · exact apart cf entry old
    · rw [logEntry, BatchWrite.entry, (item.2.logged_fields item.1).2.2, shared]
  obtain ⟨store, discovers, discovered⟩ := discoverSstablesFromDisk_ok
    options.storage core.store.shutdown
  have reopened := reopened_replayLogs sound apart lists discovered
  have reopened' := reopened_replayLogs sound' apart'
    (show entered.Lists listed from lists') discovered
  have opened : stopped.newGeneric options listed =
      .ok { entered.onDisk.replayLogs
          ("default" :: listed.filter (fun cf => decide (cf ≠ "default"))) with
        store } := by
    have disk : stopped.core.onDisk = entered.onDisk := by
      rw [onDisk, onDisk, appended.store]
    have files' : ∀ cf, TornFile options.encryptor (entered.onDisk.log cf)
        (stopped.torn (logName cf)) := files
    have recovered := recovered_replayLogs (show entered.onDisk.LogsApart from apart')
    have same : entered.onDisk.store = core.store.shutdown := rfl
    rw [CutEngine.newGeneric, disk, CutEngine.recoverLogs_eq files']
    dsimp only
    rw [(recovered _).store, same, discovers]
  refine ⟨_, _, newGeneric_eq readable apart found discovers, opened, ?_⟩
  generalize before_eq : ({ core.onDisk.replayLogs
    ("default" :: found.filter (fun cf => decide (cf ≠ "default"))) with
      store } : EngineCore) = before at reopened ⊢
  generalize after_eq : ({ entered.onDisk.replayLogs
    ("default" :: listed.filter (fun cf => decide (cf ≠ "default"))) with
      store } : EngineCore) = after at reopened' ⊢
  have stores : after.store = before.store := by rw [← before_eq, ← after_eq]
  have covering : ∀ cf key, after.coveringRangeTombstoneTs cf key =
      before.coveringRangeTombstoneTs cf key := by
    intro cf key
    rw [coveringRangeTombstoneTs_eq, coveringRangeTombstoneTs_eq]
    apply maxCovering_congr
    intro range
    rw [reopened.ranges, reopened'.ranges, appended'.loggedRanges]
  refine ⟨reopened, ?_⟩
  intro now cf key
  have record := appended'.loggedRecord cf key
  rw [← reopened'.records, ← reopened.records] at record
  rw [getCf_eq reopened'.sound.store, getCf_eq reopened.sound.store, answer, covering]
  cases last : lastItem writes cf key with
  | some write =>
    rw [last] at record
    rw [record]
    have target := key_of_lastItem last
    subst target
    exact congrArg Except.ok (before.memtableAnswer_logged now cf write)
  | none =>
    rw [last] at record
    rw [record]
    dsimp only [Option.map_none, Option.none_or]
    rw [answer, tableValue, tableValue, covering, sideExpired, sideExpired,
      newestEntry, newestEntry, stores]

end Restart

def BatchCall.ShowsAll (call : BatchCall) (before after : EngineCore) : Prop :=
  ∀ cf key write, lastItem call.writes cf key = some write →
    ∀ now, (after.getCf now cf key).1 = .ok (before.shownBy cf write)

/-- The keys of the call are read as without it. -/
def BatchCall.ShowsNone (call : BatchCall) (before after : EngineCore) : Prop :=
  ∀ cf key write, lastItem call.writes cf key = some write →
    ∀ now, (after.getCf now cf key).1 = (before.getCf now cf key).1

def EngineCore.UnchangedBy (before : EngineCore) (kept : List (String × BatchWrite)) :
    Prop :=
  ∀ cf key write, lastItem kept cf key = some write →
    ∀ now, (before.getCf now cf key).1 = .ok (before.shownBy cf write)

/-- The items that are lost would change no read after those that survive. -/
def EngineCore.CompleteWithout (before : EngineCore)
    (kept lost : List (String × BatchWrite)) : Prop :=
  ∀ cf key write, lastItem lost cf key = some write →
    match lastItem kept cf key with
    | some survivor => before.shownBy cf survivor = before.shownBy cf write
    | none => ∀ now, (before.getCf now cf key).1 = .ok (before.shownBy cf write)

/-- A batch or commit, and any number of the bytes it appends, in a state whose
logs can be read back, with and without these bytes, and with no flush before
the commit stops: a restart shows all items or none exactly when the items
whose frames are complete change no read, or the others would change none. -/
theorem batch_is_crash_atomic_iff {options : EngineOptions} {core : EngineCore}
    (reachable : Reachable options core) (readable : core.LogsReadable options)
    {found : List String} (lists : core.Lists found) (call : BatchCall) (cut : Nat)
    (unflushed : call.Unflushed options core cut) (bounded : ∀ entry ∈ call.entries,
      frameLength options.encryptor entry ≤ maxWalRecordBytes)
    (readable' : (call.crash options core cut).Readable options) {listed : List String}
    (lists' : (call.crash options core cut).core.Lists listed) :
    ∃ before after, core.newGeneric options found = .ok before ∧
      (call.crash options core cut).newGeneric options listed = .ok after ∧
      ((call.ShowsAll before after ∨ call.ShowsNone before after) ↔
        before.CompleteWithout (call.kept options cut) (call.lost options cut) ∨
          before.UnchangedBy (call.kept options cut)) := by
  have appended := (BatchCall.crash_spec unflushed bounded).1
  have files := BatchCall.tornFile_crash unflushed bounded readable.bounded readable'
  obtain ⟨before, after, opened, opened', _, reads⟩ := restart_with_writes
    reachable.sound readable reachable.logsApart lists appended files lists'
  have last_of : ∀ cf key, lastItem call.writes cf key =
      (lastItem (call.lost options cut) cf key).or
        (lastItem (call.kept options cut) cf key) := by
    intro cf key
    rw [← lastItem_append, call.kept_append_lost]
  refine ⟨before, after, opened, opened', or_congr ?_ ?_⟩
  · constructor
    · intro all cf key write last
      have read := all cf key write (by rw [last_of, last]; rfl)
      cases survivor : lastItem (call.kept options cut) cf key with
      | some other =>
        have now := read 0
        rw [reads, survivor] at now
        exact Except.ok.inj now
      | none =>
        intro now
        have there := read now
        rw [reads, survivor] at there
        exact there
    · intro complete cf key write last now
      rw [reads]
      rw [last_of] at last
      cases missing : lastItem (call.lost options cut) cf key with
      | some other =>
        rw [missing] at last
        cases last
        have same := complete cf key write missing
        cases survivor : lastItem (call.kept options cut) cf key with
        | some earlier =>
          rw [survivor] at same
          exact congrArg Except.ok same
        | none =>
          rw [survivor] at same
          exact same now
      | none =>
        rw [missing, Option.none_or] at last
        rw [last]
  · constructor
    · intro none_shown cf key write last now
      obtain ⟨final, written⟩ : ∃ final, lastItem call.writes cf key = some final := by
        rw [last_of, last]
        cases lastItem (call.lost options cut) cf key with
        | some other => exact ⟨other, rfl⟩
        | none => exact ⟨write, rfl⟩
      have read := none_shown cf key final written now
      rw [reads, last] at read
      exact read.symm
    · intro unchanged cf key write last now
      rw [reads]
      cases survivor : lastItem (call.kept options cut) cf key with
      | some other => exact (unchanged cf key other survivor now).symm
      | none => rfl

def twoItems : BatchCall :=
  .setBatch "default" [({ logged := 1, stored := 2, nonce := Vector.replicate 12 0 }, [7], [1]),
      ({ logged := 3, stored := 4, nonce := Vector.replicate 12 0 }, [8], [2])]

theorem readable_twoItems {cut : Nat} (reached : readableFrames
        ⟨0, (CutEngine.walFile .default (twoItems.crash .default .empty
          cut).torn (twoItems.crash .default .empty cut).core "default").file.length⟩
        (((twoItems.crash .default .empty cut).core.log "default").map
          (frameLength EngineOptions.default.encryptor)) =
      ((twoItems.crash .default .empty cut).core.log "default").length)
    (short : (tornBytes EngineOptions.default.encryptor cut twoItems.entries).length ≤
      9) :
    (twoItems.crash .default .empty cut).Readable .default := by
  have elsewhere : ∀ cf, logName cf ≠ "default" →
      (twoItems.crash .default .empty cut).core.log cf = [] ∧
        (twoItems.crash .default .empty cut).torn (logName cf) = [] := by
    intro cf other
    constructor
    · simp only [BatchCall.crash, twoItems, cutAppend, EngineCore.log,
        EngineCore.writeBatch, NameMap.getElem?_insert]
      rw [if_neg (by exact Ne.symm other)]
      exact log_walHandle .empty "default" cf
    · simp only [BatchCall.crash, twoItems, cutAppend]
      exact Function.update_of_ne other _ _
  have there : ∀ cf, logName cf = "default" → (twoItems.crash .default .empty cut).core.log cf =
          (twoItems.crash .default .empty cut).core.log "default" ∧
        CutEngine.walFile .default (twoItems.crash .default .empty cut).torn
            (twoItems.crash .default .empty cut).core cf =
          CutEngine.walFile .default (twoItems.crash .default .empty cut).torn
            (twoItems.crash .default .empty cut).core "default" := by
    intro cf same
    have name : logName "default" = "default" := by decide
    constructor
    · rw [log, same, log, name]
    · rw [CutEngine.walFile, CutEngine.walFile, log, log, same, name]
  constructor
  · intro cf
    by_cases same : logName cf = "default"
    · rw [(there cf same).1, (there cf same).2]
      exact reached
    · rw [(elsewhere cf same).1]
      rfl
  · intro cf
    apply Inert.of_short
    by_cases same : logName cf = "default"
    · rw [same]
      exact short
    · rw [(elsewhere cf same).2]
      exact Nat.zero_le 9

/-- The batch is cut inside its first frame: nothing of it is shown. -/
theorem cut_batch_shows_nothing :
    let stopped := twoItems.crash .default .empty 5
    ∃ before after, EngineCore.empty.newGeneric .default [] = .ok before ∧
      stopped.newGeneric .default [] = .ok after ∧
      (twoItems.ShowsAll before after ∨ twoItems.ShowsNone before after) := by
  intro stopped
  have lists : empty.Lists [] := .of_logs (by decide +kernel)
  have lists' : stopped.core.Lists [] := .of_logs (by decide +kernel)
  obtain ⟨before, after, opened, opened', atomic⟩ :=
    batch_is_crash_atomic_iff (Reachable.empty .default)
      (.of_logs (by decide +kernel)) lists twoItems 5 trivial (by decide +kernel)
      (readable_twoItems (by decide +kernel) (by decide +kernel)) lists'
  refine ⟨before, after, opened, opened', atomic.mpr (.inr ?_)⟩
  have nothing : twoItems.kept .default 5 = [] := by
    decide +kernel
  intro cf key write last
  rw [nothing] at last
  cases last

/-- The batch is cut between its two frames: the first item is shown, the
second is not. -/
theorem cut_batch_shows_first_item :
    let cut := (WriteAheadLog.frame EngineOptions.default.encryptor
      (twoItems.entries.headD
        { nonce := Vector.replicate 12 0, record := .new 0 [] [] })).length
    let stopped := twoItems.crash .default .empty cut
    ∃ before after, EngineCore.empty.newGeneric .default [] = .ok before ∧
      stopped.newGeneric .default [] = .ok after ∧
      (before.getCf 10 "default" [7]).1 = .ok none ∧
      (after.getCf 10 "default" [7]).1 = .ok (some [1]) ∧
      (after.getCf 10 "default" [8]).1 = .ok none ∧
      ¬ (twoItems.ShowsAll before after ∨ twoItems.ShowsNone before after) := by
  intro cut stopped
  have lists : empty.Lists [] := .of_logs (by decide +kernel)
  have lists' : stopped.core.Lists [] := .of_logs (by decide +kernel)
  have readable := @readable_twoItems cut (by decide +kernel) (by decide +kernel)
  have bounded : ∀ entry ∈ twoItems.entries, frameLength
      EngineOptions.default.encryptor entry ≤ maxWalRecordBytes := by decide +kernel
  have unflushed : twoItems.Unflushed .default .empty cut := trivial
  have appended := (BatchCall.crash_spec unflushed bounded).1
  have files := BatchCall.tornFile_crash unflushed bounded
    (fun _ _ none_logged => by cases none_logged) readable
  obtain ⟨before, after, opened, opened', reopened, reads⟩ :=
    restart_with_writes (EngineSound.empty .default)
      (.of_logs (by decide +kernel)) .empty lists appended files lists'
  have unchanged : ∀ key, (before.getCf 10 "default" key).1 = .ok none := by
    intro key
    rw [reopened.getCf_filed 10 rfl rfl rfl rfl]
    rfl
  have shown : ∀ {writes : List (String × BatchWrite)} {key value : Bytes},
      (lastItem writes "default" key).map (fun write =>
        (write.value, write.isDeleted)) = some (value, false) →
      ∃ write, lastItem writes "default" key = some write ∧
        before.shownBy "default" write = some value := by
    intro writes key value found
    obtain ⟨write, last, same⟩ := Option.map_eq_some_iff.mp found
    obtain ⟨rfl, live⟩ := Prod.mk.inj same
    refine ⟨write, last, ?_⟩
    rw [shownBy_of_uncovered (reopened.uncovered rfl _), live]
    rfl
  obtain ⟨write, last, value⟩ := shown (show (lastItem (twoItems.kept
    .default cut) "default" [7]).map (fun write =>
      (write.value, write.isDeleted)) = some ([1], false) by decide +kernel)
  have lost : lastItem (twoItems.kept .default cut) "default" [8] = none := by
    decide +kernel
  have first : (after.getCf 10 "default" [7]).1 = .ok (some [1]) := by
    rw [reads, last]
    exact congrArg Except.ok value
  have second : (after.getCf 10 "default" [8]).1 = .ok none := by
    rw [reads, lost]
    exact unchanged [8]
  refine ⟨before, after, opened, opened', unchanged [7], first, second, ?_⟩
  rintro (all | none_shown)
  · obtain ⟨final, written, value⟩ := shown (show (lastItem twoItems.writes
      "default" [8]).map (fun write => (write.value, write.isDeleted)) =
        some ([2], false) by decide +kernel)
    have read := all "default" [8] final written 10
    rw [second, value] at read
    cases read
  · obtain ⟨final, written, _⟩ := shown (show (lastItem twoItems.writes
      "default" [7]).map (fun write => (write.value, write.isDeleted)) =
        some ([1], false) by decide +kernel)
    have read := none_shown "default" [7] final written 10
    rw [first, unchanged] at read
    cases read

end ApexStore
