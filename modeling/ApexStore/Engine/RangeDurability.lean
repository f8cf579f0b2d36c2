import ApexStore.Engine.LogFamilies
import ApexStore.Engine.FamilyRestart

/-!
# Range deletions over runs

A range tombstone lives in the engine, in the memtable and in the log, but in
no file.  In the running engine it hides the older versions of its keys for
good.  After a restart only the logged tombstones are left, and a flush that
writes has cleared the log: what it had deleted stays deleted if no version of
a deleted key was left in the memtable or the tables at that flush
(`range_deletions_are_durable`).
-/

namespace ApexStore

open VersionSet EngineCore List Option TableState

variable {core : EngineCore} {cf : String} {key : Bytes}

/-- The calls on one family. -/
inductive RangeOp where
  | put (context : WriteContext) (key value : Bytes) (ttl : Option Nanos)
  | deleteRange (timestamp logged : Nanos) (nonce : Nonce) (start stop : Bytes)
  | flush (clock : FlushClock)

def RangeOp.step (options : EngineOptions) (cf : String)
    (core : EngineCore) : RangeOp → EngineCore
  | put context key value ttl => (core.putCf options context cf key value ttl).2
  | deleteRange timestamp logged nonce start stop =>
    core.deleteRangeCf timestamp logged nonce cf start stop
  | flush clock => (core.flushMemtableImpl options clock cf).2

/-- The clock readings of a call, in the order they are taken. -/
def RangeOp.readings : RangeOp → List Nanos
  | put context _ _ _ => [context.created, context.ttlBase, context.flush.now]
  | deleteRange timestamp logged _ _ _ => [timestamp, logged]
  | flush clock => [clock.now]

/-- When a key was deleted as part of a range and not written since, with one
more call. -/
def RangeOp.note (key : Bytes) (deleted : Option Nanos) : RangeOp → Option Nanos
  | put _ written value _ =>
    if (checkSizes written value).isOk ∧ written = key then none
    else deleted
  | deleteRange timestamp _ _ start stop =>
    let range : RangeTombstone :=
      { startKey := start, endKey := stop, timestamp }
    if range.covers key then some timestamp else deleted
  | flush _ => deleted

/-- When a key was last deleted as part of a range, if it was not written
since. -/
def deletedAt (ops : List RangeOp) (key : Bytes) : Option Nanos :=
  ops.foldl (RangeOp.note key) none

namespace EngineCore

/-- A flush that forgets no range deletion: where the default family has
something to write, no key has a newest version that is older than a range
tombstone. -/
structure FlushUnburied (core : EngineCore) (clock : FlushClock) (cf : String) :
    Prop where
  fresh : clock.Fresh core
  visible : cf = "default" → ¬ core.Idle cf → ∀ key, ttlPrefix.isPrefixOf key = false →
    ∀ timestamp, core.coveringRangeTombstoneTs cf key = some timestamp →
    ∀ record, core.newestRecord cf key = some record → timestamp ≤ record.timestamp

theorem FlushUnburied.withLogs {clock : FlushClock}
    (unburied : core.FlushUnburied clock cf) (logs : NameMap (List WalEntry)) :
    ({ core with logs } : EngineCore).FlushUnburied clock cf :=
      ⟨unburied.fresh, unburied.visible⟩

end EngineCore

/-- No compaction is started. -/
def RangeOp.Calm (options : EngineOptions) (cf : String) (core : EngineCore) :
    RangeOp → Prop
  | put _ key value _ => core.Calm options cf (key.length + value.length)
  | deleteRange _ _ _ _ _ | flush _ => True

def RangeOp.Unburied (options : EngineOptions) (cf : String)
    (core : EngineCore) : RangeOp → Prop
  | put context key value ttl =>
    core.InsertCalm options cf (putRecord options context cf key value ttl)
      (key.length + value.length) (·.FlushUnburied context.flush cf)
  | deleteRange _ _ _ _ _ => True
  | flush clock => core.FlushUnburied clock cf

/-! ## Where versions are -/

theorem EngineCore.answer_of_older {timestamp : Nanos}
    (covered : core.coveringRangeTombstoneTs cf key = some timestamp)
    (older : ∀ record, core.newestRecord cf key = some record →
      record.timestamp < timestamp)
    (now : Nanos) : core.answer now cf key = none := by
  rw [answer, covered]
  cases held : core.memtableRecord cf key with
  | some record =>
    have before := older record (by rw [EngineCore.newestRecord, held]; rfl)
    simp [memtableAnswer, before]
  | none =>
    rw [tableValue, covered]
    cases newest : core.newestEntry cf key with
    | none => rfl
    | some entry =>
      have before := older entry.2 (by rw [EngineCore.newestRecord, held, newest]; rfl)
      have hidden : decide (timestamp ≤ entry.2.timestamp) = false :=
        decide_eq_false (not_le.mpr before)
      dsimp only
      rw [filter_some, hidden, Bool.and_false]
      rfl

namespace EngineCore

def Filed (core : EngineCore) (key : Bytes) (record : LogRecord) : Prop :=
  ∃ (name : String) (records : ByteMap LogRecord), core.store.dir[name]? =
    some (.table records) ∧
      records[key]? = some record

def Logged (core : EngineCore) (cf : String) (key : Bytes) (record : LogRecord) :
    Prop :=
  record ∈ core.logRecords cf ∧ record.isRangeTombstone = false ∧ record.pointKey = (cf, key)

/-- A version of a key, in the memtable, the log or a file. -/
def Holds (core : EngineCore) (cf : String) (key : Bytes) (record : LogRecord) :
    Prop :=
  core.memtableRecord cf key = some record ∨ core.Logged cf key record ∨
    core.Filed key record

/-- No version of a key would be found after a restart. -/
def Gone (core : EngineCore) (cf : String) (key : Bytes) : Prop :=
  (∀ record, ¬ core.Logged cf key record) ∧ (cf = "default" → ∀ record, ¬ core.Filed key record)

theorem logged_of_loggedRecord {record : LogRecord}
    (found : core.loggedRecord cf key = some record) :
    core.Logged cf key record := by
  have kind := List.find?_some found
  simp only [Bool.and_eq_true, Bool.not_eq_true', decide_eq_true_eq] at kind
  exact ⟨mem_reverse.mp (mem_of_find?_eq_some found), kind.1, kind.2⟩

end EngineCore

/-- What holds along a run.  `deleted` tells when a key was deleted, and
`future` are the clock readings still to come. -/
structure Buried (options : EngineOptions) (cf : String) (future : List Nanos)
    (core : EngineCore) (deleted : Bytes → Option Nanos) : Prop where
  sound : EngineSound options core
  onDisk : ∀ table ∈ core.store.versions.getTables cf, table.path ≠ none
  tracked : core.store.Tracked cf
  apart : core.LogsApart
  recent : ∀ key record, ttlPrefix.isPrefixOf key = false →
    core.Holds cf key record → ∀ instant ∈ future, record.timestamp < instant
  older : ∀ key timestamp, ttlPrefix.isPrefixOf key = false → deleted key = some timestamp →
    ∀ record, core.Holds cf key record → record.timestamp < timestamp
  known : ∀ key timestamp, deleted key = some timestamp →
    ∃ range ∈ core.rangesOf cf, range.covers key = true ∧ range.timestamp = timestamp
  durable : ∀ key timestamp, ttlPrefix.isPrefixOf key = false →
    deleted key = some timestamp →
    (∃ range ∈ loggedRanges (core.logRecords cf) cf,
      range.covers key = true ∧ timestamp ≤ range.timestamp) ∨ core.Gone cf key

namespace Buried

variable {options : EngineOptions} {cf : String} {future : List Nanos}
  {core : EngineCore} {deleted : Bytes → Option Nanos}

theorem empty (options : EngineOptions) (cf : String) (future : List Nanos) :
    Buried options cf future .empty (fun _ => none) := by
  have no_tables : EngineCore.empty.store.versions.getTables cf = [] := by
    simp [EngineCore.empty, TableState.empty, VersionSet.new, getTables]
  have no_files : ∀ name : String, EngineCore.empty.store.dir[name]? = none := by
    simp [EngineCore.empty, TableState.empty]
  refine ⟨.empty options, ?_, ?_, ?_, ?_, ?_, ?_, ?_⟩
  · simp [no_tables]
  · intro name records file
    cases file
  · intro cf entry member
    cases member
  · rintro key record _ (held | ⟨member, _⟩ | ⟨name, records, file, _⟩)
    · cases held
    · cases member
    · rw [no_files] at file
      cases file
  · intro key timestamp _ deleted
    cases deleted
  · intro key timestamp deleted
    cases deleted
  · intro key timestamp _ deleted
    cases deleted

variable {key : Bytes} {record : LogRecord} {timestamp : Nanos}
  {after : EngineCore} {clock : FlushClock}

section

variable (buried : Buried options cf future core deleted)
include buried

theorem filed {table : Table}
    (newest : core.newestEntry cf key = some (table, record)) :
    core.Filed key record := by
  obtain ⟨other, member, found⟩ := exists_of_findSome?_eq_some newest
  obtain ⟨version, held, same⟩ := map_eq_some_iff.mp found
  cases same
  have listed := mem_reverse.mp member
  obtain ⟨path, located⟩ := ne_none_iff_exists'.mp (buried.onDisk table listed)
  obtain ⟨records, file, versions⟩ :=
    (buried.sound.store.produced cf table listed).file located
  rw [versions] at held
  exact ⟨path, records, file, held⟩

theorem holds_of_newestRecord (found : core.newestRecord cf key = some record) :
    core.Holds cf key record := by
  rcases newestRecord_cases found with held | ⟨table, there⟩
  · exact .inl held
  · exact .inr (.inr (buried.filed there))

theorem not_filed (absent : core.newestEntry cf key = none) (record : LogRecord) :
    ¬ core.Filed key record := by
  rintro ⟨name, records, file, held⟩
  obtain ⟨table, listed, located⟩ := buried.tracked name records file
  obtain ⟨records', file', versions⟩ :=
    (buried.sound.store.produced cf table listed).file located
  rw [file] at file'
  cases file'
  have missing := List.findSome?_eq_none_iff.mp absent table (mem_reverse.mpr listed)
  rw [versions, held] at missing
  cases missing

theorem covered (deletion : deleted key = some timestamp) :
    ∃ newest, core.coveringRangeTombstoneTs cf key = some newest ∧
      timestamp ≤ newest := by
  obtain ⟨range, known, covers, rfl⟩ := buried.known key timestamp deletion
  rw [coveringRangeTombstoneTs_eq]
  exact le_maxCovering (mem_append_left _ known) covers

/-! ### Steps -/

theorem later {rest : List Nanos} (fewer : ∀ instant ∈ rest, instant ∈ future) :
    Buried options cf rest core deleted :=
  ⟨buried.sound, buried.onDisk, buried.tracked, buried.apart,
    fun key record plain holds instant member =>
      buried.recent key record plain holds instant (fewer instant member),
    buried.older, buried.known, buried.durable⟩

end

theorem write (buried : Buried options cf (record.timestamp :: future) core deleted)
    (first : ∀ instant ∈ future, record.timestamp < instant)
    (family : record.family = cf) (point : record.isRangeTombstone = false)
    (bare : record.Bare) (nonce : Nonce) (size : Nat) : Buried options cf future
      (((core.walHandle cf).writeRecord cf
        { nonce, record }).insertMemtable cf record size)
      (fun key => if record.key = key then none else deleted key) := by
  have logRecords_eq : (((core.walHandle cf).writeRecord cf
      { nonce, record }).insertMemtable cf record size).logRecords cf =
        core.logRecords cf ++ [record] := logRecords_logged core cf { nonce, record }
  have holds : ∀ key other, (((core.walHandle cf).writeRecord cf
      { nonce, record }).insertMemtable cf record size).Holds cf key other →
      core.Holds cf key other ∨ record.key = key ∧ other = record := by
    rintro key other (held | ⟨member, kind, own⟩ | filed)
    · rw [memtableRecord_insertMemtable] at held
      by_cases here : record.key = key
      · rw [if_pos ⟨rfl, here⟩] at held
        exact .inr ⟨here, (Option.some.inj held).symm⟩
      · rw [if_neg (fun both => here both.2)] at held
        exact .inl (.inl held)
    · rw [logRecords_eq] at member
      rcases mem_append.mp member with old | new
      · exact .inl (.inr (.inl ⟨old, kind, own⟩))
      · rw [mem_singleton.mp new] at own
        exact .inr ⟨(Prod.mk.inj own).2, mem_singleton.mp new⟩
    · exact .inl (.inr (.inr filed))
  have unwritten : ∀ key timestamp,
      (if record.key = key then none else deleted key) = some timestamp →
      record.key ≠ key ∧ deleted key = some timestamp := by
    intro key timestamp deletion
    by_cases here : record.key = key
    · rw [if_pos here] at deletion
      cases deletion
    · rw [if_neg here] at deletion
      exact ⟨here, deletion⟩
  refine ⟨⟨buried.sound.store, ((buried.sound.memory.walHandle
      cf).writeRecord cf bare).insertMemtable cf bare size⟩, buried.onDisk,
    buried.tracked, (buried.apart.walHandle cf).writeRecord family, ?_, ?_, ?_, ?_⟩
  · intro key other plain held instant member
    rcases holds key other held with old | ⟨_, rfl⟩
    · exact buried.recent key other plain old instant (mem_cons_of_mem _ member)
    · exact first instant member
  · intro key timestamp plain deletion other held
    obtain ⟨apart, deletion⟩ := unwritten key timestamp deletion
    rcases holds key other held with old | ⟨here, _⟩
    · exact buried.older key timestamp plain deletion other old
    · exact absurd here apart
  · intro key timestamp deletion
    exact buried.known key timestamp (unwritten key timestamp deletion).2
  · intro key timestamp plain deletion
    obtain ⟨apart, deletion⟩ := unwritten key timestamp deletion
    rw [logRecords_eq, loggedRanges_append]
    rcases buried.durable key timestamp plain deletion with
      ⟨range, listed, covers, newer⟩ | ⟨unlogged, unfiled⟩
    · exact .inl ⟨range, mem_append_left _ listed, covers, newer⟩
    · refine .inr ⟨?_, unfiled⟩
      rintro other ⟨member, kind, own⟩
      rw [logRecords_eq] at member
      rcases mem_append.mp member with old | new
      · exact unlogged other ⟨old, kind, own⟩
      · rw [mem_singleton.mp new] at own
        exact apart (Prod.mk.inj own).2

theorem deleteRange {logged : Nanos}
    (buried : Buried options cf (timestamp :: logged :: future) core deleted)
    (ordered : timestamp < logged) (nonce : Nonce) (start stop : Bytes) :
    Buried options cf future
      (core.deleteRangeCf timestamp logged nonce cf start stop)
      (fun key => RangeOp.note key (deleted key)
        (.deleteRange timestamp logged nonce start stop)) := by
  let range : RangeTombstone := { startKey := start, endKey := stop, timestamp }
  let record : LogRecord :=
    { LogRecord.rangeTombstone logged start stop with columnFamily := some cf }
  let after := core.deleteRangeCf timestamp logged nonce cf start stop
  have logRecords_eq : after.logRecords cf = core.logRecords cf ++ [record] :=
    logRecords_logged core cf { nonce, record }
  have logged_before : ∀ key other, after.Logged cf key other →
      core.Logged cf key other := by
    rintro key other ⟨member, kind, own⟩
    rw [logRecords_eq] at member
    rcases mem_append.mp member with old | new
    · exact ⟨old, kind, own⟩
    · rw [mem_singleton.mp new] at kind
      cases kind
  have holds : ∀ key other, after.Holds cf key other → core.Holds cf key other := by
    rintro key other (held | logs | filed)
    · left
      rw [← held]
      exact (memtableRecord_insertRange _ cf cf range key).symm
    · exact .inr (.inl (logged_before key other logs))
    · exact .inr (.inr filed)
  have cases_of : ∀ key deletion, RangeOp.note key (deleted key)
        (.deleteRange timestamp logged nonce start stop) = some deletion →
      range.covers key = true ∧ deletion = timestamp ∨ deleted key = some deletion := by
    intro key deletion noted
    rw [RangeOp.note] at noted
    split at noted
    · next covers => exact .inl ⟨covers, (Option.some.inj noted).symm⟩
    · exact .inr noted
  have rangesOf_eq : after.rangesOf cf = core.rangesOf cf ++ [range] := by
    refine (rangesOf_insertRange _ cf cf range).trans ?_
    rw [if_pos rfl]
    rfl
  refine ⟨⟨buried.sound.store, ((buried.sound.memory.walHandle
      cf).writeRecord cf (fun _ => rfl)).insertRange cf range⟩,
    buried.onDisk, buried.tracked, (buried.apart.walHandle cf).writeRecord rfl, ?_,
      ?_, ?_, ?_⟩
  · intro key other plain held instant member
    exact buried.recent key other plain (holds key other held) instant
      (mem_cons_of_mem _ (mem_cons_of_mem _ member))
  · intro key deletion plain noted other held
    rcases cases_of key deletion noted with ⟨_, rfl⟩ | before
    · exact buried.recent key other plain (holds key other held) _ mem_cons_self
    · exact buried.older key deletion plain before other (holds key other held)
  · intro key deletion noted
    rw [rangesOf_eq]
    rcases cases_of key deletion noted with ⟨covers, rfl⟩ | before
    · exact ⟨range, by simp, covers, rfl⟩
    · obtain ⟨old, known, covers, same⟩ := buried.known key deletion before
      exact ⟨old, mem_append_left _ known, covers, same⟩
  · intro key deletion plain noted
    rw [logRecords_eq, loggedRanges_append]
    rcases cases_of key deletion noted with ⟨covers, rfl⟩ | before
    · have kind : record.isRangeTombstone = true := rfl
      have family : record.family = cf := rfl
      exact .inl ⟨record.range, mem_append_right _ (by
        simp [loggedRanges, kind, family]), covers, ordered.le⟩
    · rcases buried.durable key deletion plain before with
        ⟨old, listed, covers, newer⟩ | ⟨unlogged, unfiled⟩
      · exact .inl ⟨old, mem_append_left _ listed, covers, newer⟩
      · exact .inr ⟨fun other logs =>
          unlogged other (logged_before key other logs), unfiled⟩

section

variable (buried : Buried options cf future core deleted)
include buried

theorem congr (sound : EngineSound options after)
    (logs : ∀ other, after.log other = core.log other)
    (ranges : after.rangesOf cf = core.rangesOf cf)
    (tables : after.store.versions = core.store.versions)
    (records : ∀ key record, after.memtableRecord cf key = some record →
      core.memtableRecord cf key = some record)
    (files : ∀ (name : String) (contents : ByteMap LogRecord),
      after.store.dir[name]? = some (.table contents) →
      core.store.dir[name]? = some (.table contents)) :
    Buried options cf future after deleted := by
  have logRecords_eq : after.logRecords cf = core.logRecords cf := by
    rw [logRecords, logs, logRecords]
  have logged : ∀ key record, after.Logged cf key record → core.Logged cf key record := by
    rintro key record ⟨member, kind⟩
    exact ⟨logRecords_eq ▸ member, kind⟩
  have filed : ∀ key record, after.Filed key record → core.Filed key record := by
    rintro key record ⟨name, contents, file, held⟩
    exact ⟨name, contents, files name contents file, held⟩
  have holds : ∀ key record, after.Holds cf key record → core.Holds cf key record := by
    rintro key record (held | logs | file)
    · exact .inl (records key record held)
    · exact .inr (.inl (logged key record logs))
    · exact .inr (.inr (filed key record file))
  refine ⟨sound, ?_, ?_, ?_, ?_, ?_, ?_, ?_⟩
  · rw [tables]
    exact buried.onDisk
  · intro name contents file
    rw [tables]
    exact buried.tracked name contents (files name contents file)
  · intro other entry member
    rw [logs] at member
    exact buried.apart other entry member
  · exact fun key record plain held =>
      buried.recent key record plain (holds key record held)
  · exact fun key timestamp plain deletion record held =>
      buried.older key timestamp plain deletion record (holds key record held)
  · rw [ranges]
    exact buried.known
  · intro key timestamp plain deletion
    rw [logRecords_eq]
    refine (buried.durable key timestamp plain deletion).imp_right ?_
    rintro ⟨unlogged, unfiled⟩
    exact ⟨fun record held => unlogged record (logged key record held),
      fun default record held => unfiled default record (filed key record held)⟩

section

variable (unburied : core.FlushUnburied clock cf)
include unburied

theorem unversioned (default : cf = "default") (busy : ¬ core.Idle cf)
    (plain : ttlPrefix.isPrefixOf key = false)
    (deletion : deleted key = some timestamp) :
    core.memtableRecord cf key = none ∧
      ∀ record, ¬ core.Filed key record := by
  obtain ⟨newest, covering, later⟩ := buried.covered deletion
  have nothing : core.newestRecord cf key = none := by
    apply eq_none_iff_forall_ne_some.mpr
    intro record found
    have visible := unburied.visible default busy key plain newest covering record found
    have before := buried.older key timestamp plain deletion record
      (buried.holds_of_newestRecord found)
    exact absurd (later.trans visible) (not_le.mpr before)
  rw [EngineCore.newestRecord, or_eq_none_iff, map_eq_none_iff] at nothing
  exact ⟨nothing.1, buried.not_filed nothing.2⟩

theorem installed (busy : ¬ core.Idle cf)
    (placed : FlushInstalled options clock cf core after)
    (sound' : EngineSound options after) (cleared : after.log cf = [])
    (apart' : after.LogsApart) :
    Buried options cf future after deleted := by
  have sound := buried.sound
  have memory := memory_popped sound placed.memtables placed.ranges
  have unlogged : ∀ key record, ¬ after.Logged cf key record := by
    rintro key record ⟨member, _⟩
    rw [logRecords, cleared] at member
    cases member
  -- the new file has records of the memtable only
  have filed : ∀ key record, ttlPrefix.isPrefixOf key = false → after.Filed key record →
      core.memtableRecord cf key = some record ∨ core.Filed key record := by
    rintro key record plain ⟨name, records, file, held⟩
    rw [placed.store, withTable, NameMap.getElem?_insert] at file
    split at file
    · cases file
      exact .inl ((placed.record_iff sound plain record).mp held).1
    · exact .inr ⟨name, records, file, held⟩
  have holds : ∀ key record, ttlPrefix.isPrefixOf key = false →
      after.Holds cf key record → core.Holds cf key record := by
    rintro key record plain (held | logged | file)
    · rw [(memory key).1] at held
      cases held
    · exact absurd logged (unlogged key record)
    · rcases filed key record plain file with held | old
      · exact .inl held
      · exact .inr (.inr old)
  refine ⟨sound', ?_, ?_, apart', ?_, ?_, ?_, ?_⟩
  · rw [placed.store, withTable, getTables_addTable]
    intro table member
    rcases mem_append.mp member with old | new
    · exact buried.onDisk table old
    · rw [mem_singleton.mp new]
      exact some_ne_none _
  · intro name records file
    rw [placed.store, withTable, NameMap.getElem?_insert] at file
    rw [placed.store, withTable, getTables_addTable]
    split at file
    · next here =>
      exact ⟨_, mem_append_right _ (mem_singleton_self _), congrArg some here⟩
    · obtain ⟨table, listed, located⟩ := buried.tracked name records file
      exact ⟨table, mem_append_left _ listed, located⟩
  · exact fun key record plain held =>
      buried.recent key record plain (holds key record plain held)
  · exact fun key timestamp plain deletion record held =>
      buried.older key timestamp plain deletion record (holds key record plain held)
  · intro key timestamp deletion
    obtain ⟨range, known, rest⟩ := buried.known key timestamp deletion
    refine ⟨range, ?_, rest⟩
    rw [rangesOf, placed.ranges]
    exact known
  · intro key timestamp plain deletion
    refine .inr ⟨unlogged key, fun default record file => ?_⟩
    obtain ⟨missing, unfiled⟩ := buried.unversioned unburied default busy plain deletion
    rcases filed key record plain file with held | old
    · rw [missing] at held
      cases held
    · exact unfiled record old

theorem flush :
    Buried options cf future (core.flushMemtableImpl options clock cf).2 deleted := by
  have sound := buried.sound
  have sound' := sound.flush unburied.fresh cf
  have apart' : (core.flushMemtableImpl options clock cf).2.LogsApart :=
    buried.apart.flush clock cf
  have outcome := flushMemtableImpl_outcome options clock cf core
  generalize core.flushMemtableImpl options clock cf = result at outcome sound' apart' ⊢
  cases outcome with
  | idle _ => exact buried
  | synced _ _ _ =>
    exact buried.congr sound' (log_walHandle core cf) rfl rfl
      (fun _ _ held => held) (fun _ _ file => file)
  | failed mem last nonempty error dir fails =>
    have popped := memtableRecord_popMemtable sound.memory cf
    rw [flushTable_error fails] at sound' ⊢
    refine buried.congr sound' (fun _ => rfl) rfl rfl ?_ ?_
    · intro key record held
      cases (popped key).symm.trans held
    · intro name records file
      rw [NameMap.getElem?_insert] at file
      split at file
      · cases file
      · exact file
  | uncounted mem last nonempty _ _ _ missing _ =>
    exact absurd missing (sound.memory.counted cf mem (mem_of_getLast? last) nonempty)
  | written mem last nonempty table dir done due =>
    have busy : ¬ core.Idle cf := by
      intro idle
      rw [idle mem last] at nonempty
      cases nonempty
    have placed := flushInstalled_of_done sound unburied.fresh last done
    refine buried.installed unburied busy ⟨placed.memtables, placed.ranges,
      placed.store, placed.whole, placed.sorted⟩ sound' ?_ apart'
    rw [log_clearLog, if_pos rfl]

end

theorem flushed_if_full (unburied : options.writeBufferLimit ≤ core.bytesOf cf →
      core.FlushUnburied clock cf) :
    Buried options cf future (core.flushIfFull options clock cf).2
      deleted := by
  unfold flushIfFull
  split
  · next full => exact buried.flush (unburied full)
  · exact buried

end

theorem put {context : WriteContext}
    (buried : Buried options cf (context.created :: future) core deleted)
    (first : ∀ instant ∈ future, context.created < instant) {value : Bytes}
    {ttl : Option Nanos}
    (unburied : (RangeOp.put context key value ttl).Unburied options cf core) :
    Buried options cf future (core.putCf options context cf key value ttl).2
      (fun other => RangeOp.note other (deleted other)
        (.put context key value ttl)) := by
  have fields := putRecord_fields options context cf key value ttl
  have family : (putRecord options context cf key value ttl).family = cf := by
    rw [LogRecord.family, fields.2.2.2.2.1]
    rfl
  unfold putCf
  split
  · next error turned_down =>
    have unnoted : (fun other => RangeOp.note other (deleted other)
        (.put context key value ttl)) = deleted := by
      funext other
      rw [RangeOp.note, turned_down, if_neg]
      exact fun both => Bool.false_ne_true both.1
    rw [unnoted]
    exact buried.later (fun instant member => mem_cons_of_mem _ member)
  · next accepted =>
    have noted : (fun other => RangeOp.note other (deleted other)
        (.put context key value ttl)) = fun other =>
          if (putRecord options context cf key value ttl).key = other then
            none
          else deleted other := by
      funext other
      rw [RangeOp.note, accepted, fields.1]
      by_cases here : key = other
      · rw [if_pos here, if_pos ⟨rfl, here⟩]
      · rw [if_neg here, if_neg (fun both => here both.2)]
    rw [noted]
    rw [← fields.2.2.1] at buried first
    have written := buried.write first family fields.2.2.2.2.2
      (LogRecord.bare_of_live fields.2.2.2.1) context.nonce (key.length + value.length)
    exact written.flushed_if_full (fun full => (unburied.2 full).withLogs _)

theorem step {op : RangeOp}
    (buried : Buried options cf (op.readings ++ future) core deleted)
    (ordered : (op.readings ++ future).Pairwise (· < ·))
    (unburied : op.Unburied options cf core) :
    Buried options cf future (op.step options cf core)
      (fun key => RangeOp.note key (deleted key) op) := by
  cases op with
  | put context key value ttl =>
    have first := (pairwise_cons.mp ordered).1
    exact (buried.put first unburied).later (fun instant member =>
      mem_append_right _ member)
  | deleteRange timestamp logged nonce start stop =>
    exact buried.deleteRange (rel_of_pairwise_cons ordered mem_cons_self) nonce start stop
  | flush clock =>
    exact (buried.flush unburied).later (fun instant member =>
      mem_append_right _ member)

theorem read (buried : Buried options cf future core deleted)
    (plain : ttlPrefix.isPrefixOf key = false)
    (deletion : deleted key = some timestamp)
    (now : Nanos) : (core.getCf now cf key).1 = .ok none := by
  obtain ⟨newest, covering, later⟩ := buried.covered deletion
  rw [getCf_eq buried.sound.store, answer_of_older covering]
  intro record found
  exact (buried.older key timestamp plain deletion record
    (buried.holds_of_newestRecord found)).trans_le later

theorem read_reopened (buried : Buried options cf future core deleted)
    (reopened : Reopened options core after) (plain : ttlPrefix.isPrefixOf key = false)
    (deletion : deleted key = some timestamp) (now : Nanos) :
    (after.getCf now cf key).1 = .ok none := by
  -- what is found was in the log or, in the default family, in a file
  have logged : ∀ record, after.memtableRecord cf key = some record →
      core.Logged cf key record := by
    intro record held
    rw [reopened.records] at held
    exact logged_of_loggedRecord held
  have filed : ∀ table record, after.newestEntry cf key = some (table, record) →
      cf = "default" ∧ core.Filed key record := by
    intro table record newest
    by_cases default : cf = "default"
    · subst default
      have found := reopened.newest_filed key
      rw [newest] at found
      obtain ⟨⟨name, file⟩, member, held⟩ := exists_of_findSome?_eq_some found.symm
      cases file with
      | unfinished => cases held
      | table records =>
        exact ⟨rfl, name, records,
          (NameMap.mem_toList _ _ _).mp (mem_reverse.mp member), held⟩
    · rw [reopened.newestEntry_other default] at newest
      cases newest
  rcases buried.durable key timestamp plain deletion with
    ⟨range, listed, covers, newer⟩ | ⟨unlogged, unfiled⟩
  · obtain ⟨newest, covering, later⟩ := le_maxCovering
      ((reopened.ranges cf range).mpr listed) covers
    rw [← coveringRangeTombstoneTs_eq] at covering
    rw [getCf_eq reopened.sound.store, answer_of_older covering]
    intro record found
    refine (buried.older key timestamp plain deletion record ?_).trans_le (newer.trans later)
    rcases newestRecord_cases found with held | ⟨table, there⟩
    · exact .inr (.inl (logged record held))
    · exact .inr (.inr (filed table record there).2)
  · apply reopened.getCf_of_absent
    · cases held : core.loggedRecord cf key with
      | none => rfl
      | some record =>
        exact absurd (logged_of_loggedRecord held) (unlogged record)
    · cases newest : after.newestEntry cf key with
      | none => rfl
      | some entry =>
        obtain ⟨default, file⟩ := filed entry.1 entry.2 newest
        exact absurd file (unfiled default entry.2)

end Buried

/-- Over every run of puts, range deletions and flushes on one family with a
strictly increasing clock, in which no put starts a compaction and no flush
that writes finds a version older than a range tombstone: a key that was
deleted as part of a range and not written since is not read, now or after a
restart. -/
theorem range_deletions_are_durable {options : EngineOptions}
    (_ : options.storage.Legible) {cf : String} {ops : List RangeOp}
    (run : Guarded (RangeOp.step options cf) (RangeOp.Unburied options cf)
      .empty ops)
    (clock : (ops.flatMap RangeOp.readings).Pairwise (· < ·))
    {key : Bytes} (plain : ttlPrefix.isPrefixOf key = false)
    (deleted : (deletedAt ops key).isSome = true) :
    let core := ops.foldl (RangeOp.step options cf) .empty
    (∀ now, (core.getCf now cf key).1 = .ok none) ∧
    (core.LogsReadable options → ∀ found, core.Lists found →
      ∃ reopened, core.newGeneric options found = .ok reopened ∧
        ∀ now, (reopened.getCf now cf key).1 = .ok none) := by
  have along : ∀ (ops : List RangeOp) {core : EngineCore}
      {deleted : Bytes → Option Nanos},
      Buried options cf (ops.flatMap RangeOp.readings) core deleted →
      Guarded (RangeOp.step options cf) (RangeOp.Unburied options cf) core ops →
      (ops.flatMap RangeOp.readings).Pairwise (· < ·) →
      Buried options cf [] (ops.foldl (RangeOp.step options cf) core)
        (fun key => ops.foldl (RangeOp.note key) (deleted key)) := by
    intro ops
    induction ops with
    | nil => exact fun buried _ _ => buried
    | cons op ops ih =>
      intro core deleted buried run clock
      exact ih (buried.step clock run.1) run.2 (pairwise_append.mp clock).2.1
  intro core
  have buried := along ops (.empty options cf _) run clock
  obtain ⟨timestamp, deletion⟩ := isSome_iff_exists.mp deleted
  refine ⟨buried.read plain deletion, ?_⟩
  intro readable found lists
  obtain ⟨reopened, opened, same⟩ := newGeneric_ok buried.sound readable buried.apart lists
  exact ⟨reopened, opened, buried.read_reopened same plain deletion⟩

/-- A value that is still in the log when its range is deleted. -/
theorem range_deletion_is_durable_while_logged :
    let ops : List RangeOp :=
      [.put (.ticking 1) [9] [2] none,
        .flush { now := 10, stamp := fun _ => 10 },
        .put (.ticking 11) [7] [1] none,
        .deleteRange 20 21 (Vector.replicate 12 0) [7] [8]]
    let core := ops.foldl (RangeOp.step .default "default") .empty
    (∀ now, (core.getCf now "default" [7]).1 = .ok none) ∧
    ∃ reopened, core.newGeneric .default [] = .ok reopened ∧
      ∀ now, (reopened.getCf now "default" [7]).1 = .ok none := by
  intro ops core
  let clock : FlushClock := { now := 10, stamp := fun _ => 10 }
  let written := RangeOp.step .default "default" .empty
    (.put (.ticking 1) [9] [2] none)
  have flush : written.FlushUnburied clock "default" := by
    constructor
    · decide +kernel
    · intro _ _ key _ timestamp covering
      cases covering
  have run : Guarded (RangeOp.step .default "default")
      (RangeOp.Unburied .default "default") .empty ops := by
    refine ⟨⟨by decide +kernel, ?_⟩, flush, ⟨by decide +kernel, ?_⟩, trivial, trivial⟩
    · intro full
      exact absurd full (by decide +kernel)
    · intro full
      exact absurd full (by decide +kernel)
  have lists : core.Lists [] := .of_logs (by decide +kernel)
  have plain : ttlPrefix.isPrefixOf ([7] : Bytes) = false := by decide
  obtain ⟨live, restarted⟩ := range_deletions_are_durable (by decide) run
    (by decide +kernel) plain (by decide +kernel)
  exact ⟨live, restarted (.of_logs (by decide +kernel)) [] lists⟩

/-- A flush after the deletion writes the deleted value and clears the log:
after a restart the value is back. -/
theorem restart_revives_range_deleted_value :
    let ops : List RangeOp :=
      [.put (.ticking 1) [7] [1] none,
        .deleteRange 10 11 (Vector.replicate 12 0) [7] [8],
        .flush { now := 20, stamp := fun _ => 20 }]
    let core := ops.foldl (RangeOp.step .default "default") .empty
    (ops.flatMap RangeOp.readings).Pairwise (· < ·) ∧
    deletedAt ops [7] = some 10 ∧ core.LogsReadable .default ∧
    core.Lists [] ∧ (core.getCf 30 "default" [7]).1 = .ok none ∧
    ∃ reopened, core.newGeneric .default [] = .ok reopened ∧
      (reopened.getCf 30 "default" [7]).1 = .ok (some [1]) := by
  intro ops core
  have written := (EngineSound.empty .default).putCf
    (show (WriteContext.ticking 1).flush.Fresh .empty by
      decide +kernel) "default" [7] [1] none
  have removed := @EngineSound.step _ _ written
    (.deleteRange 10 11 (Vector.replicate 12 0) "default" [7] [8]) trivial
  have sound : EngineSound .default core := removed.flush (by decide +kernel) "default"
  have readable : core.LogsReadable .default := .of_logs (by decide +kernel)
  have lists : core.Lists [] := .of_logs (by decide +kernel)
  obtain ⟨reopened, opened, same⟩ := newGeneric_ok sound readable
    (.of_logs (by decide +kernel)) lists
  refine ⟨by decide +kernel, by decide +kernel, readable, lists, ?_, reopened, opened, ?_⟩
  · rw [getCf_eq_versions sound.store]
    decide +kernel
  · refine (same.getCf_filed 30 (by decide +kernel) ?_ (by decide +kernel)
      (by decide +kernel)).trans (by decide +kernel)
    decide +kernel

end ApexStore
