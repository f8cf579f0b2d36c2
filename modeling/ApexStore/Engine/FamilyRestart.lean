import ApexStore.Engine.Expiry
import ApexStore.Engine.Reopen

/-!
# Families across a restart

The files do not say which family they belong to: at startup they all become
tables of the default family, and the tables of the other families are gone.
A restart gives back what was there as long as only the default family has
written files and the logs are in step with the memtables (`Restorable`).  Over
runs of puts and flushes this is so if every flush that writes is a flush of
the default family that succeeds under a name that sorts after the older ones
(`families_survive_restart`).
-/

namespace ApexStore

open VersionSet EngineCore List Option TableState

/-- What a read makes use of in a record when no range is deleted. -/
def LogRecord.outcome (record : LogRecord) : Bytes × Bool × Option Nanos :=
  (record.value, record.isDeleted, record.expiresAt)

theorem LogRecord.liveAt_of_outcome {first second : LogRecord}
    (same : first.outcome = second.outcome) (now : Nanos) :
    first.liveAt now = second.liveAt now := by
  simp only [outcome, Prod.mk.injEq] at same
  obtain ⟨value, deleted, expiry⟩ := same
  rw [liveAt, liveAt, isExpiredAt, isExpiredAt, value, deleted, expiry]

theorem BatchWrite.outcome_logged (write : BatchWrite) (cf : String) :
    (write.logged cf).outcome = write.stored.outcome := by
  unfold BatchWrite.logged BatchWrite.stored BatchWrite.record
  split <;> rfl

/-! ## States a restart gives back -/

/-- A flush that a restart finds again: if there is something to write, it is
of the default family, it succeeds, its entries can be read back, and the name
of the file sorts after those of the tables it shares a key with. -/
structure EngineCore.FlushKept (core : EngineCore) (options : EngineOptions)
    (clock : FlushClock) (cf : String) : Prop where
  fresh : clock.Fresh core
  written : ∀ mem, (core.memtablesOf cf).getLast? = some mem → mem.data.isEmpty = false →
    cf = "default" ∧ Flushable options.storage clock mem.data ∧
      (∀ entry ∈ combinedEntries clock mem.data,
        SstableBuilder.legible entry.1 entry.2 = true) ∧
      ∀ table ∈ core.store.versions.getTables "default", ∀ key record,
        (key, record) ∈ combinedEntries clock mem.data →
          (table.version core.store.dir key).isSome →
        table.name < flushName clock.now

/-- The default family alone has tables, their files sort by age, no range is
deleted, and the logs are in step with the memtables. -/
structure Restorable (options : EngineOptions) (core : EngineCore) : Prop where
  sound : EngineSound options core
  order : InOrder options.storage "default" core.store
  others : ∀ cf, cf ≠ "default" → core.store.versions.getTables cf = []
  ranges : ∀ cf, core.allRanges cf = []
  named : ∀ cf, ∀ entry ∈ core.log cf, entry.record.family = logName cf
  points : ∀ cf, ∀ entry ∈ core.log cf, entry.record.isRangeTombstone = false
  memory : ∀ cf key, (core.memtableRecord cf key).map LogRecord.outcome =
    (core.loggedRecord cf key).map LogRecord.outcome

variable {cf : String} {core : EngineCore} {options : EngineOptions}

theorem EngineCore.logName_of_named (named : cf ≠ "") : logName cf = cf := by
  rw [logName, if_neg named]

theorem EngineCore.eq_empty_of_logName {other : String} (named : cf ≠ "")
    (shared : logName other = logName cf) (apart : other ≠ cf) : other = "" := by
  by_contra nonempty
  rw [logName_of_named nonempty, logName_of_named named] at shared
  exact apart shared

/-- A log whose entries are of the family it is named for has none of the
family with the empty name. -/
theorem EngineCore.loggedRecord_unnamed
    (named : ∀ entry ∈ core.log "", entry.record.family = logName "")
    (key : Bytes) : core.loggedRecord "" key = none := by
  rw [loggedRecord, lastPoint, List.find?_eq_none]
  intro record member found
  obtain ⟨entry, listed, rfl⟩ := mem_map.mp (mem_reverse.mp member)
  simp only [Bool.and_eq_true, decide_eq_true_eq] at found
  have family := named entry listed
  have here : entry.record.family = "" := (Prod.mk.inj found.2).1
  rw [here] at family
  revert family
  decide

namespace Restorable

variable {options : EngineOptions} {core : EngineCore}

theorem empty (options : EngineOptions) : Restorable options .empty := by
  have no_tables : ∀ cf, EngineCore.empty.store.versions.getTables cf = [] := by
    intro cf
    simp [EngineCore.empty, TableState.empty, VersionSet.new, getTables]
  refine ⟨.empty options, .empty options.storage "default",
    fun cf _ => no_tables cf, fun _ => rfl, ?_, ?_, fun _ _ => rfl⟩
  · intro cf entry member
    cases member
  · intro cf entry member
    cases member

section

variable (restorable : Restorable options core)
include restorable

theorem logsApart : core.LogsApart := by
  intro cf entry member
  rw [restorable.named cf entry member]
  by_cases unnamed : cf = ""
  · rw [unnamed]
    decide
  · rw [logName_of_named unnamed, logName_of_named unnamed]

theorem uncovered (cf : String) (key : Bytes) :
    core.coveringRangeTombstoneTs cf key = none := by
  rw [coveringRangeTombstoneTs_eq, restorable.ranges]
  rfl

theorem walHandle (cf : String) :
    Restorable options (core.walHandle cf) := by
  refine ⟨⟨restorable.sound.store, restorable.sound.memory.walHandle cf⟩,
    restorable.order, restorable.others, restorable.ranges, ?_, ?_, ?_⟩
  · intro other
    rw [log_walHandle]
    exact restorable.named other
  · intro other
    rw [log_walHandle]
    exact restorable.points other
  · intro other key
    rw [(Unseen.walHandle core).points]
    exact restorable.memory other key

end

variable {cf : String}

section

variable (restorable : Restorable options core)
include restorable

theorem write (named : cf ≠ "") (entries : List WalEntry) {after : EngineCore}
    (family : ∀ entry ∈ entries, entry.record.family = cf)
    (points : ∀ entry ∈ entries, entry.record.isRangeTombstone = false)
    (frame : Frame cf core after) (store : after.store = core.store)
    (sound : EngineSound options after)
    (ranges : ∀ other, after.allRanges other = core.allRanges other)
    (log : after.log cf = core.log cf ++ entries) (memory : ∀ key,
      (after.memtableRecord cf key).map LogRecord.outcome =
        ((lastPoint (entries.map (·.record)) cf key).map LogRecord.outcome).or
          ((core.memtableRecord cf key).map LogRecord.outcome)) :
    Restorable options after := by
  have listed : ∀ other, ∀ entry ∈ after.log other,
      entry ∈ core.log other ∨ entry ∈ entries ∧ logName other = cf := by
    intro other entry member
    by_cases shared : logName other = logName cf
    · have same : after.log other = core.log other ++ entries := by
        rw [EngineCore.log, shared]
        refine log.trans ?_
        rw [EngineCore.log, EngineCore.log, shared]
      rw [same] at member
      rcases mem_append.mp member with old | new
      · exact .inl old
      · exact .inr ⟨new, shared.trans (logName_of_named named)⟩
    · rw [frame.logs other shared] at member
      exact .inl member
  have families :
      ∀ other, ∀ entry ∈ after.log other, entry.record.family = logName other := by
    intro other entry member
    rcases listed other entry member with old | ⟨new, here⟩
    · exact restorable.named other entry old
    · rw [family entry new, here]
  refine ⟨sound, ?_, ?_, ?_, families, ?_, ?_⟩
  · rw [store]
    exact restorable.order
  · rw [store]
    exact restorable.others
  · intro other
    rw [ranges]
    exact restorable.ranges other
  · intro other entry member
    rcases listed other entry member with old | ⟨new, _⟩
    · exact restorable.points other entry old
    · exact points entry new
  · intro other key
    by_cases here : other = cf
    · subst here
      have logged : after.loggedRecord other key = (lastPoint (entries.map (·.record)) other key).or
            (core.loggedRecord other key) := by
        rw [loggedRecord, logRecords, log, map_append, lastPoint_append]
        rfl
      rw [memory, restorable.memory, logged]
      cases lastPoint (entries.map (·.record)) other key <;> rfl
    · have seen : after.memtableRecord other key = core.memtableRecord other key := by
        rw [memtableRecord, frame.memtables other here, memtableRecord]
      rw [seen, restorable.memory]
      by_cases shared : logName other = logName cf
      · have unnamed := eq_empty_of_logName named shared here
        subst unnamed
        rw [loggedRecord_unnamed (restorable.named ""), loggedRecord_unnamed (families "")]
      · rw [loggedRecord, logRecords, loggedRecord, logRecords, frame.logs other shared]

theorem writeRecord (named : cf ≠ "") (entry : WalEntry) (record : LogRecord)
    (family : entry.record.family = cf) (point : entry.record.isRangeTombstone = false)
    (key : entry.record.key = record.key)
    (outcome : entry.record.outcome = record.outcome)
    (logged : entry.record.Bare) (bare : record.Bare) (size : Nat) :
    Restorable options (((core.walHandle cf).writeRecord cf
      entry).insertMemtable cf record size) := by
  have own : entry.record.pointKey = (cf, record.key) := Prod.ext family key
  refine restorable.write named [entry] ?_ ?_ ?_ rfl
    ⟨restorable.sound.store, ((restorable.sound.memory.walHandle
      cf).writeRecord cf logged).insertMemtable cf bare size⟩ ?_ ?_ ?_
  · simpa using family
  · simpa using point
  · exact ((frame_walHandle core cf).trans (frame_writeRecord _ cf
      entry)).trans (frame_insertMemtable _ cf record size)
  · exact fun other => allRanges_insertMemtable _ cf other record size
  · refine (log_writeRecord (core.walHandle cf) cf cf entry).trans ?_
    rw [if_pos rfl, log_walHandle]
  · intro other
    have single := lastPoint_concat [] entry.record cf other
    rw [nil_append] at single
    rw [memtableRecord_insertMemtable, map_cons, map_nil, single, own]
    by_cases here : record.key = other
    · rw [if_pos ⟨rfl, here⟩, if_pos ⟨point, by rw [here]⟩, map_some, map_some, outcome]
      rfl
    · rw [if_neg (fun both => here both.2), if_neg (fun both => here (Prod.mk.inj both.2).2)]
      rfl

variable {clock : FlushClock}

theorem flush (kept : core.FlushKept options clock cf) :
    Restorable options (core.flushMemtableImpl options clock cf).2 := by
  have sound := restorable.sound
  have sound' := sound.flush kept.fresh cf
  have frame := frame_flushMemtableImpl options clock cf core
  have works := sound.flush_isOk (fun mem last filled => (kept.written mem last filled).2.1)
  have outcome := flushMemtableImpl_outcome options clock cf core
  generalize core.flushMemtableImpl options clock cf = result at outcome works sound' frame ⊢
  cases outcome with
  | idle _ => exact restorable
  | synced _ _ _ => exact restorable.walHandle cf
  | failed _ _ _ _ _ _ | uncounted _ _ _ _ _ _ _ _ => cases works
  | written mem last nonempty table dir done due =>
    obtain ⟨rfl, _, _, sorted⟩ := kept.written mem last nonempty
    have keeps : (StoreOp.flush clock mem.data).KeepsOrder options.storage
        "default" core.store := ⟨kept.fresh, sorted⟩
    have order := restorable.order.flush keeps
    rw [StoreOp.step, done] at order
    let after := { (core.popMemtable "default").installTable "default" table dir with
      memtableBytes := core.memtableBytes.insert "default" 0 }.clearLog "default"
    have cleared : ∀ other, logName other = logName "default" → after.log other = [] := by
      intro other shared
      rw [log_clearLog, if_pos shared.symm]
    have kept_or_empty : ∀ other, ∀ entry ∈ after.log other, entry ∈ core.log other := by
      intro other entry member
      by_cases shared : logName other = logName "default"
      · rw [cleared other shared] at member
        cases member
      · rwa [frame.logs other shared] at member
    refine ⟨sound', order, ?_, ?_, ?_, ?_, ?_⟩
    · intro other differ
      rw [frame.tables other differ]
      exact restorable.others other differ
    · intro other
      have engine : core.rangesOf other = [] :=
        (append_eq_nil_iff.mp (restorable.ranges other)).1
      rw [allRanges, append_eq_nil_iff]
      refine ⟨engine, eq_nil_iff_forall_not_mem.mpr ?_⟩
      intro range member
      have known := sound'.memory.ranges other range member
      change range ∈ core.rangesOf other at known
      rw [engine] at known
      cases known
    · exact fun other entry member =>
        restorable.named other entry (kept_or_empty other entry member)
    · exact fun other entry member =>
        restorable.points other entry (kept_or_empty other entry member)
    · intro other key
      by_cases here : other = "default"
      · subst here
        have popped := memtableRecord_popMemtable sound.memory "default" key
        rw [loggedRecord, logRecords, cleared "default" rfl]
        exact congrArg (Option.map LogRecord.outcome) popped
      · have seen := frame.memtables other here
        rw [memtableRecord, seen, ← memtableRecord, restorable.memory]
        by_cases shared : logName other = logName "default"
        · have unnamed := eq_empty_of_logName (by decide) shared here
          subst unnamed
          rw [loggedRecord_unnamed (restorable.named ""), loggedRecord, logRecords, cleared "" rfl]
          rfl
        · rw [loggedRecord, logRecords, loggedRecord, logRecords, frame.logs other shared]

theorem flushed_if_full (kept : options.writeBufferLimit ≤ core.bytesOf cf →
      core.FlushKept options clock cf) :
    Restorable options (core.flushIfFull options clock cf).2 := by
  unfold flushIfFull
  split
  · next full => exact restorable.flush (kept full)
  · exact restorable

theorem no_ranges (cf : String) : loggedRanges (core.logRecords cf) cf = [] := by
  rw [loggedRanges, map_eq_nil_iff, filter_eq_nil_iff]
  intro record member
  obtain ⟨entry, listed, rfl⟩ := mem_map.mp member
  simp [restorable.points cf entry listed]

end

theorem reopen {stopped : EngineCore} (restorable : Restorable options stopped)
    (reopened : Reopened options stopped core) : Restorable options core := by
  refine ⟨reopened.sound, reopened.inOrder, fun cf => reopened.others, ?_, ?_, ?_, ?_⟩
  · intro cf
    rw [eq_nil_iff_forall_not_mem]
    intro range member
    rw [reopened.ranges, restorable.no_ranges] at member
    cases member
  · intro cf
    rw [reopened.log]
    exact restorable.named cf
  · intro cf
    rw [reopened.log]
    exact restorable.points cf
  · intro cf key
    rw [reopened.records, loggedRecord, loggedRecord, logRecords, logRecords, reopened.log]

end Restorable

/-! ## Reads after a restart -/

/-- At this instant the expiry of every version that has expired is told under
its TTL key, and what stands there has not expired itself. -/
structure EngineCore.ExpiryTold (core : EngineCore) (now : Nanos) : Prop where
  told : ∀ cf key table record, core.newestEntry cf key = some (table, record) →
    record.isExpiredAt now = true →
    expiredBy now ((core.newestEntry cf (ttlKey key)).map (·.2.value)) = true
  lasting : ∀ cf key table side, core.newestEntry cf (ttlKey key) = some (table, side) →
    side.isExpiredAt now = false

variable {config : StorageConfig} {key : Bytes} {clock : FlushClock}

/-- Without a cache, an entry under a TTL key that has not expired is judged by
its value. -/
theorem EngineCore.sideExpired_of_lasting (sound : StoreSound config core.store)
    {now : Nanos} (uncached : core.store.versions.kvCache = ∅) (lasting : ∀ table side,
      core.newestEntry cf (ttlKey key) = some (table, side) →
        side.isExpiredAt now = false) :
    core.sideExpired now cf key =
      expiredBy now ((core.newestEntry cf (ttlKey key)).map (·.2.value)) := by
  have found := lookup_of_unexpired sound lasting
  rw [sideExpired, peek, uncached]
  cases newest : core.newestEntry cf (ttlKey key) with
  | none =>
    rw [newest] at found
    simp [found]
  | some entry =>
    rw [newest] at found
    obtain ⟨table, side⟩ := entry
    cases deleted : side.isDeleted with
    | false => simp [found, deleted]
    | true =>
      have bare : side.value = [] := newestEntry_bare sound newest deleted
      simp [found, deleted, bare, expiredBy]

namespace Restorable

variable {options : EngineOptions} {stopped core : EngineCore}

theorem newestEntry_eq (restorable : Restorable options stopped)
    (reopened : Reopened options stopped core) (cf : String) (key : Bytes) :
    (core.newestEntry cf key).map (·.2) = (stopped.newestEntry cf key).map (·.2) := by
  by_cases here : cf = "default"
  · subst here
    exact reopened.newest restorable.order key
  · rw [reopened.newestEntry_other here, newestEntry, restorable.others cf here]
    rfl

variable {now : Nanos}

/-- A lookup without a cache finds after the restart what it found before,
unless the newest version has expired. -/
theorem lookup_eq (restorable : Restorable options stopped)
    (reopened : Reopened options stopped core) {cf : String} {key : Bytes}
    (unexpired : ∀ table record, stopped.newestEntry cf key = some (table, record) →
      record.isExpiredAt now = false) :
    core.store.versions.lookup core.store.dir now cf key =
      stopped.store.versions.lookup stopped.store.dir now cf key := by
  have newest := restorable.newestEntry_eq reopened cf key
  rw [lookup_of_unexpired restorable.sound.store unexpired,
    lookup_of_unexpired reopened.sound.store ?_, newest]
  intro table record found
  rw [found] at newest
  obtain ⟨⟨owner, old⟩, there, same⟩ := map_eq_some_iff.mp newest.symm
  subst same
  exact unexpired owner old there

theorem sideExpired_eq (restorable : Restorable options stopped)
    (uncached : stopped.store.versions.kvCache = ∅)
    (reopened : Reopened options stopped core) (told : stopped.ExpiryTold now)
    (cf : String) (key : Bytes) :
    core.sideExpired now cf key = stopped.sideExpired now cf key := by
  have found : core.store.versions.lookup core.store.dir now cf (ttlKey key) =
      stopped.store.versions.lookup stopped.store.dir now cf (ttlKey key) :=
    restorable.lookup_eq reopened (told.lasting cf key)
  rw [sideExpired, sideExpired, peek, peek, reopened.cache, uncached]
  simp [found]

theorem answer_eq (restorable : Restorable options stopped)
    (uncached : stopped.store.versions.kvCache = ∅)
    (reopened : Reopened options stopped core) (told : stopped.ExpiryTold now)
    (cf : String) (key : Bytes) :
    core.answer now cf key = stopped.answer now cf key := by
  have uncovered := restorable.uncovered cf key
  have uncovered' := (restorable.reopen reopened).uncovered cf key
  have memory := restorable.memory cf key
  rw [← reopened.records] at memory
  have side := restorable.sideExpired_eq uncached reopened told cf key
  rw [answer, answer, uncovered, uncovered']
  cases held : stopped.memtableRecord cf key with
  | some record =>
    cases held' : core.memtableRecord cf key with
    | none => simp [held, held'] at memory
    | some other =>
      rw [held, held', map_some, map_some, Option.some.injEq] at memory
      dsimp only
      rw [memtableAnswer_uncovered, memtableAnswer_uncovered,
        LogRecord.liveAt_of_outcome memory]
  | none =>
    cases held' : core.memtableRecord cf key with
    | some other => simp [held, held'] at memory
    | none =>
      rw [side]
      by_cases expired : stopped.sideExpired now cf key = true
      · simp [expired]
      · have unexpired : ∀ table record, stopped.newestEntry cf key = some (table, record) →
            record.isExpiredAt now = false := by
          intro table record newest
          rw [Bool.eq_false_iff]
          intro passed
          rw [sideExpired_of_lasting restorable.sound.store uncached
            (told.lasting cf key)] at expired
          exact expired (told.told cf key table record newest passed)
        have found := restorable.lookup_eq reopened unexpired
        rw [tableValue, tableValue, uncovered, uncovered', peek, peek, reopened.cache,
          uncached]
        simp [found]

end Restorable

/-! ## Runs of puts and flushes -/

/-- A put to a family, or the flush of one. -/
inductive FamilyWrite where
  | put (context : WriteContext) (cf : String) (key value : Bytes) (ttl : Option Nanos)
  | flush (clock : FlushClock) (cf : String)

def FamilyWrite.step (options : EngineOptions) (core : EngineCore) :
    FamilyWrite → EngineCore
  | put context cf key value ttl =>
    (core.putCf options context cf key value ttl).2
  | flush clock cf => (core.flushMemtableImpl options clock cf).2

/-- The condition on the steps of a run.  No family has the empty name, no put
starts a compaction, and every flush, also that of a full memtable, is found
again. -/
def FamilyWrite.Kept (options : EngineOptions) (core : EngineCore) : FamilyWrite → Prop
  | put context cf key value ttl =>
    cf ≠ "" ∧ core.InsertCalm options cf (putRecord options context cf key value ttl)
      (key.length + value.length) (·.FlushKept options context.flush cf)
  | flush clock cf => core.FlushKept options clock cf

theorem EngineCore.FlushKept.withLogs (kept : core.FlushKept options clock cf)
    (logs : NameMap (List WalEntry)) :
    ({ core with logs } : EngineCore).FlushKept options clock cf :=
      ⟨kept.fresh, kept.written⟩

theorem Restorable.put (restorable : Restorable options core)
    {context : WriteContext} {value : Bytes} {ttl : Option Nanos}
    (kept : (FamilyWrite.put context cf key value ttl).Kept options core) :
    Restorable options (core.putCf options context cf key value ttl).2 := by
  obtain ⟨named, _, kept⟩ := kept
  have fields := putRecord_fields options context cf key value ttl
  have bare : (putRecord options context cf key value ttl).Bare :=
    LogRecord.bare_of_live fields.2.2.2.1
  unfold putCf
  split
  · exact restorable
  · have family : (putRecord options context cf key value ttl).family =
        cf := by
      rw [LogRecord.family, fields.2.2.2.2.1]
      rfl
    have written := restorable.writeRecord named
      { nonce := context.nonce
        record := putRecord options context cf key value ttl }
      (putRecord options context cf key value ttl) family fields.2.2.2.2.2 rfl
      rfl bare bare (key.length + value.length)
    exact written.flushed_if_full (fun full => (kept full).withLogs _)

theorem Restorable.step (restorable : Restorable options core) {op : FamilyWrite}
    (kept : op.Kept options core) : Restorable options (op.step options core) := by
  cases op with
  | put context cf key value ttl => exact restorable.put kept
  | flush clock cf => exact restorable.flush kept

theorem FamilyWrite.step_uncached (uncached : core.store.versions.kvCache = ∅)
    (op : FamilyWrite) :
    (op.step options core).store.versions.kvCache = ∅ := by
  have flushed : ∀ (core : EngineCore) (clock : FlushClock) (cf : String),
      core.store.versions.kvCache = ∅ →
      (core.flushMemtableImpl options clock cf).2.store.versions.kvCache = ∅ := by
    intro core clock cf uncached
    have outcome := flushMemtableImpl_outcome options clock cf core
    generalize core.flushMemtableImpl options clock cf = result at outcome ⊢
    cases outcome with
    | idle _ | synced _ _ _ | failed _ _ _ _ _ _ => exact uncached
    | uncounted _ _ _ _ _ _ _ _ => rfl
    | written _ _ _ _ _ _ _ => rfl
  cases op with
  | put context cf key value ttl =>
    rw [step]
    unfold putCf
    split
    · exact uncached
    · unfold insertRecord
      dsimp only
      split
      · exact flushed _ _ _ uncached
      · exact uncached
  | flush clock cf => exact flushed core clock cf uncached

/-- After every run of puts and flushes on any families in which no family has
the empty name, no put starts a compaction, and every flush that writes is of
the default family, succeeds and sorts by its name, a restart changes no
read. -/
theorem families_survive_restart {options : EngineOptions} {ops : List FamilyWrite}
    (run : Guarded (FamilyWrite.step options) (FamilyWrite.Kept options) .empty ops)
    (readable : (ops.foldl (FamilyWrite.step options) .empty).LogsReadable options)
    {found : List String}
    (lists : (ops.foldl (FamilyWrite.step options) .empty).Lists found) :
    ∃ reopened, (ops.foldl
      (FamilyWrite.step options) .empty).newGeneric options found =
        .ok reopened ∧
      ∀ now, (ops.foldl (FamilyWrite.step options) .empty).ExpiryTold now →
        ∀ cf key, (reopened.getCf now cf key).1 =
          ((ops.foldl (FamilyWrite.step options) .empty).getCf now cf key).1 := by
  have kept : Restorable options (ops.foldl (FamilyWrite.step options) .empty) ∧
      (ops.foldl (FamilyWrite.step options) .empty).store.versions.kvCache = ∅ :=
    @Guarded.invariant _ _ _ _ _ _ (fun core => Restorable options core ∧
        core.store.versions.kvCache = ∅)
      (fun _ op held kept => ⟨held.1.step kept, op.step_uncached held.2⟩) run
        ⟨.empty options, rfl⟩
  generalize ops.foldl (FamilyWrite.step options) .empty = core at kept readable lists ⊢
  obtain ⟨restorable, uncached⟩ := kept
  obtain ⟨reopened, opened, same⟩ :=
    newGeneric_ok restorable.sound readable restorable.logsApart lists
  refine ⟨reopened, opened, ?_⟩
  intro now told cf key
  rw [getCf_eq same.sound.store, getCf_eq restorable.sound.store,
    restorable.answer_eq uncached same told]

theorem EngineCore.ExpiryTold.of_permanent (sound : StoreSound config core.store)
    (permanent : core.store.dir.toList.all (fun file =>
      match file.2 with
      | .table records => records.toList.all (·.2.expiresAt.isNone)
      | .unfinished => true) = true) (now : Nanos) : core.ExpiryTold now := by
  have unexpired : ∀ cf key table record, core.newestEntry cf key = some (table, record) →
      record.isExpiredAt now = false := by
    intro cf key table record newest
    have lasting : record.expiresAt = none := by
      obtain ⟨other, member, found⟩ := exists_of_findSome?_eq_some newest
      obtain ⟨version, held, same⟩ := map_eq_some_iff.mp found
      cases same
      cases located : table.path with
      | none =>
        rw [Table.version, located] at held
        obtain ⟨value, _, rfl⟩ := map_eq_some_iff.mp held
        rfl
      | some path =>
        obtain ⟨records, file, versions⟩ := (sound.produced cf table
          (mem_reverse.mp member)).file located
        rw [versions] at held
        have fine := all_eq_true.mp permanent _ ((NameMap.mem_toList _ _ _).mpr file)
        have inside := all_eq_true.mp fine _ ((ByteMap.mem_toList _ _ _).mpr held)
        simpa using inside
    rw [LogRecord.isExpiredAt, lasting]
  constructor
  · intro cf key table record newest expired
    rw [unexpired cf key table record newest] at expired
    cases expired
  · exact fun cf key table side newest =>
      unexpired cf (ttlKey key) table side newest

theorem EngineCore.FlushKept.of_entries (small : options.storage.Legible)
    (fresh : clock.Fresh core)
    (sorted : ((core.flushEntries clock "default").map (·.1)).Pairwise (· < ·))
    (fits : ∀ entry ∈ core.flushEntries clock "default",
      SstableBuilder.entryFits options.storage entry.1 entry.2 = true)
    (nonempty : core.flushEntries clock "default" ≠ [])
    (names : (core.store.versions.getTables "default").all (fun table =>
      decide (table.name < flushName clock.now)) = true) :
    core.FlushKept options clock "default" := by
  refine ⟨fresh, ?_⟩
  intro mem last _
  have flushable := (flushable_of_entries sorted fits nonempty last).1
  refine ⟨rfl, flushable, fun entry member =>
    SstableBuilder.legible_of_entryFits small (flushable.fits entry member), ?_⟩
  intro table member _ _ _ _
  exact of_decide_eq_true (all_eq_true.mp names table member)

/-- A flushed key of the default family and a logged one of another. -/
theorem families_survive_restart_of_logged_key :
    let ops : List FamilyWrite :=
      [.put (.ticking 1) "default" [7] [1] none,
        .put (.ticking 6) "users" [8] [2] none,
        .flush { now := 20, stamp := fun _ => 20 } "default"]
    let core := ops.foldl (FamilyWrite.step .default) .empty
    ∃ reopened, core.newGeneric .default ["users"] = .ok reopened ∧
      ∀ cf key, (reopened.getCf 30 cf key).1 = (core.getCf 30 cf key).1 := by
  intro ops core
  let clock : FlushClock := { now := 20, stamp := fun _ => 20 }
  let written := [FamilyWrite.put (.ticking 1) "default" [7] [1] none,
    .put (.ticking 6) "users" [8] [2] none].foldl (FamilyWrite.step .default) .empty
  have flush : written.FlushKept .default clock "default" :=
    .of_entries (by decide) (by decide +kernel) (by decide +kernel) (by decide +kernel)
      (by decide +kernel) (by decide +kernel)
  have run : Guarded (FamilyWrite.step .default) (FamilyWrite.Kept .default) .empty ops := by
    refine ⟨⟨by decide, by decide +kernel, ?_⟩, ⟨by decide, by decide +kernel, ?_⟩,
      flush, trivial⟩
    · intro full
      exact absurd full (by decide +kernel)
    · intro full
      exact absurd full (by decide +kernel)
  have lists : core.Lists ["users"] := .of_logs (by decide +kernel)
  obtain ⟨reopened, opened, same⟩ := families_survive_restart run
    (.of_logs (by decide +kernel)) lists
  have restorable : Restorable .default core :=
    run.invariant (fun _ _ held kept => held.step kept) (.empty .default)
  exact ⟨reopened, opened,
    same 30 (.of_permanent restorable.sound.store (by decide +kernel) 30)⟩

/-- A value flushed in another family: after a restart that family does not
have it, and the default one does. -/
theorem restart_moves_value_to_default_family :
    let ops : List FamilyWrite :=
      [.put (.ticking 1) "users" [7] [1] none, .flush { now := 10, stamp := fun _ => 10 } "users"]
    let core := ops.foldl (FamilyWrite.step .default) .empty
    core.LogsReadable .default ∧ core.Lists ["users"] ∧
    ∃ reopened, core.newGeneric .default ["users"] = .ok reopened ∧
      (core.getCf 20 "users" [7]).1 = .ok (some [1]) ∧
      (reopened.getCf 20 "users" [7]).1 = .ok none ∧
      (core.getCf 20 "default" [7]).1 = .ok none ∧
      (reopened.getCf 20 "default" [7]).1 = .ok (some [1]) := by
  intro ops core
  have written := (EngineSound.empty .default).putCf
    (show (WriteContext.ticking 1).flush.Fresh .empty by decide +kernel) "users" [7] [1] none
  have sound : EngineSound .default core := written.flush (by decide +kernel) "users"
  have readable : core.LogsReadable .default := .of_logs (by decide +kernel)
  have lists : core.Lists ["users"] := .of_logs (by decide +kernel)
  have apart : core.LogsApart := .of_logs (by decide +kernel)
  obtain ⟨reopened, opened, same⟩ := newGeneric_ok sound readable apart lists
  refine ⟨readable, lists, reopened, opened, ?_, ?_, ?_, ?_⟩
  · rw [getCf_eq_versions sound.store]
    decide +kernel
  · exact same.getCf_of_absent 20 (by decide +kernel)
      (same.newestEntry_other (by decide) [7])
  · rw [getCf_eq_versions sound.store]
    decide +kernel
  · refine (same.getCf_filed 20 (by decide +kernel) ?_ (by decide +kernel)
      (by decide +kernel)).trans (by decide +kernel)
    decide +kernel

end ApexStore
