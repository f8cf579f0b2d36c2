import ApexStore.Engine.ScanAgreement

/-!
# Reads after a flush

A flush takes the memtable away, puts one table over the older ones and
empties the cache.  `EngineCore.answerOver` is what a read then answers, told
in terms of the state before.  It is what the read answered before exactly if
the flush keeps the key (`EngineCore.FlushKeeps`): expired records are not
written and no longer hide older versions, and an entry under a TTL key stays
when its key is overwritten.
-/

namespace ApexStore

open VersionSet Table List EngineCore Option

theorem leNat_leBytes_nanos (instant : Nanos) :
    leNat (leBytes 16 instant.val) = instant.val := by
  apply leNat_leBytes
  exact instant.isLt

theorem Table.version_withContents (config : StorageConfig) (dir : SstDir)
    (name : String) (records : ByteMap LogRecord) (level : Nat) (key : Bytes) :
    (withContents config name records level).version
      (dir.insert name (.table records)) key = records[key]? := by
  have located : (withContents config name records level).path = some name := rfl
  rw [version_of_path located, fileRecord_of_table located]
  rw [NameMap.getElem?_insert, if_pos rfl]

/-! ## A table over the others -/

namespace TableState

def withTable (store : TableState) (config : StorageConfig) (cf : String)
    (name : String) (records : ByteMap LogRecord) : TableState :=
  { versions := store.versions.addTable cf
      (withContents config name records 0)
    dir := store.dir.insert name (.table records) }

variable {config : StorageConfig} {store : TableState} {cf : String}
  {name : String} {records : ByteMap LogRecord}

theorem reverse_getTables_withTable :
    ((store.withTable config cf name records).versions.getTables cf).reverse =
      withContents config name records 0 :: (store.versions.getTables cf).reverse := by
  rw [withTable, getTables_addTable, reverse_append]
  rfl

theorem version_withTable (sound : StoreSound config store)
    (unused : store.dir[name]? = none)
    {table : Table} (member : table ∈ (store.versions.getTables cf).reverse)
    (key : Bytes) :
    table.version (store.withTable config cf name records).dir key =
      table.version store.dir key := by
  apply version_congr
  intro path located
  rw [withTable, NameMap.getElem?_insert, if_neg]
  rintro rfl
  exact sound.path_ne unused (mem_reverse.mp member) located

theorem peek_withTable (now : Nanos) (key : Bytes) :
    (store.withTable config cf name records).peek now cf key =
      (store.withTable config cf name records).versions.lookup
        (store.withTable config cf name records).dir now cf key := by
  have emptied : (store.withTable config cf name records).versions.kvCache = ∅ := rfl
  rw [peek, emptied]
  simp

end TableState

namespace EngineCore

/-- What is found under a key once these records lie over the tables of the
family. -/
def lookupOver (core : EngineCore) (layer : ByteMap LogRecord) (now : Nanos)
    (cf : String) (key : Bytes) : Option Bytes :=
  match layer[key]? with
  | some record =>
    if record.isDeleted then none
    -- an expired record without a value does not end the search
    else if record.isExpiredAt now && record.value.isEmpty then
      core.store.versions.lookup core.store.dir now cf key
    else some record.value
  | none => core.store.versions.lookup core.store.dir now cf key

/-- What stands under the TTL key of a key then has expired. -/
def sideOver (core : EngineCore) (layer : ByteMap LogRecord) (now : Nanos)
    (cf : String) (key : Bytes) : Bool :=
  expiredBy now (core.lookupOver layer now cf (ttlKey key))

def answerOver (core : EngineCore) (layer : ByteMap LogRecord) (now : Nanos)
    (cf : String) (key : Bytes) : Option Bytes :=
  let value : Option Bytes :=
    match core.coveringRangeTombstoneTs cf key with
    | some timestamp =>
      ((layer[key]?.or ((core.newestEntry cf key).map (·.2))).filter
        (fun record => !record.isDeleted && !record.isExpiredAt now &&
          decide (timestamp ≤ record.timestamp))).map (·.value)
    | none => core.lookupOver layer now cf key
  value.filter (fun _ => !core.sideOver layer now cf key)

/-- The value the tables of the family have under a key, without the cache. -/
def valueBelow (core : EngineCore) (now : Nanos) (cf : String) (key : Bytes) :
    Option Bytes :=
  match core.coveringRangeTombstoneTs cf key with
  | some timestamp =>
    ((core.newestEntry cf key).filter (fun entry =>
      !entry.2.isDeleted && !entry.2.isExpiredAt now &&
        decide (timestamp ≤ entry.2.timestamp))).map (·.2.value)
  | none => core.store.versions.lookup core.store.dir now cf key

variable {options : EngineOptions} {core : EngineCore} {cf : String}
  {clock : FlushClock} {layer : ByteMap LogRecord} {now : Nanos} {key : Bytes}

theorem answerOver_of_missing (missing : layer[key]? = none) :
    core.answerOver layer now cf key =
      (core.valueBelow now cf key).filter
        (fun _ => !core.sideOver layer now cf key) := by
  rw [answerOver, valueBelow, lookupOver, missing, none_or]
  cases core.coveringRangeTombstoneTs cf key with
  | none => rfl
  | some timestamp =>
    cases core.newestEntry cf key with
    | none => rfl
    | some entry =>
      dsimp only
      rw [map_some, filter_some, filter_some]
      split <;> rfl

section Installed

variable {config : StorageConfig} {name : String}
  (sound : StoreSound config core.store)
include sound

theorem findSome?_withTable {β : Type} (unused : core.store.dir[name]? = none)
    (found : Table → Option LogRecord → Option β) (key : Bytes) :
    ((core.store.withTable config cf name layer).versions.getTables
        cf).reverse.findSome? (fun table => found table
          (table.version (core.store.withTable config cf name layer).dir key)) =
      (found (withContents config name layer 0) layer[key]?).or
        ((core.store.versions.getTables cf).reverse.findSome? fun table =>
          found table (table.version core.store.dir key)) := by
  have top := version_withContents config core.store.dir name layer 0 key
  rw [TableState.reverse_getTables_withTable, List.findSome?_cons, TableState.withTable, top]
  cases found (withContents config name layer 0) layer[key]? with
  | some answer => rfl
  | none =>
    apply findSome?_congr
    intro table member
    exact congrArg (found table) (TableState.version_withTable sound unused member key)

theorem lookup_withTable (unused : core.store.dir[name]? = none)
    (after : StoreSound config (core.store.withTable config cf name layer))
    (now : Nanos)
    (key : Bytes) : (core.store.withTable config cf name layer).versions.lookup
        (core.store.withTable config cf name layer).dir now cf key =
      core.lookupOver layer now cf key := by
  rw [after.lookup_eq, findSome?_withTable sound unused fun table version =>
    version.bind (table.verdict now key), lookupOver, sound.lookup_eq]
  cases found : layer[key]? with
  | none => rfl
  | some record =>
    have data : (withContents config name layer 0).data[key]? = some record.value := by
      rw [withContents, Std.ExtTreeMap.getElem?_map, found]
      rfl
    rw [bind_some, verdict, data]
    dsimp only
    rw [all_some]
    cases record.isDeleted with
    | true => rfl
    | false =>
      cases record.isExpiredAt now && record.value.isEmpty <;> rfl

variable {after : EngineCore}

theorem newestEntry_withTable (unused : core.store.dir[name]? = none)
    (store : after.store = core.store.withTable config cf name layer) (key : Bytes) :
    after.newestEntry cf key =
      ((layer[key]?).map (withContents config name layer 0, ·)).or
          (core.newestEntry cf key) := by
  rw [newestEntry, store]
  exact findSome?_withTable sound unused (fun table version => version.map (table, ·)) key

theorem answer_withTable (unused : core.store.dir[name]? = none)
    (store : after.store = core.store.withTable config cf name layer)
    (whole : StoreSound config after.store)
    (popped : after.memtableRecord cf key = none)
    (covering : after.coveringRangeTombstoneTs cf key =
      core.coveringRangeTombstoneTs cf key)
    (now : Nanos) : after.answer now cf key = core.answerOver layer now cf key := by
  rw [store] at whole
  have looked : ∀ key, after.store.peek now cf key = core.lookupOver layer now cf key := by
    intro key
    rw [store, TableState.peek_withTable, lookup_withTable sound unused whole now key]
  rw [answer, popped, answerOver, tableValue, sideExpired, covering,
    newestEntry_withTable sound unused store, looked, looked]
  cases core.coveringRangeTombstoneTs cf key with
  | none => rfl
  | some timestamp =>
    dsimp only
    congr 1
    cases layer[key]? with
    | some record =>
      rw [map_some, some_or, some_or, filter_some, filter_some]
      split <;> rfl
    | none =>
      rw [map_none, none_or, none_or]
      cases core.newestEntry cf key with
      | none => rfl
      | some entry =>
        rw [map_some, filter_some, filter_some]
        split <;> rfl

end Installed

/-! ## Without the memtable -/

theorem coveringRangeTombstoneTs_popMemtable (sound : MemorySound core)
    (cf : String) (key : Bytes) :
    (core.popMemtable cf).coveringRangeTombstoneTs cf key =
      core.coveringRangeTombstoneTs cf key := by
  rw [coveringRangeTombstoneTs_eq, coveringRangeTombstoneTs_eq]
  apply maxCovering_congr
  intro range
  have popped := (sound.popMemtable cf).ranges cf range
  have whole := sound.ranges cf range
  rw [allRanges, allRanges, mem_append, mem_append]
  constructor
  · rintro (known | inside)
    · exact .inl known
    · exact .inl (popped inside)
  · rintro (known | inside)
    · exact .inl known
    · exact .inl (whole inside)

theorem memtableRecord_popMemtable (sound : MemorySound core) (cf : String)
    (key : Bytes) : (core.popMemtable cf).memtableRecord cf key = none := by
  have single := sound.single cf
  have emptied : (core.memtablesOf cf).dropLast = [] := by
    apply eq_nil_of_length_eq_zero
    rw [length_dropLast]
    omega
  rw [memtableRecord, memtablesOf_popMemtable, if_pos rfl, emptied]
  rfl

variable {mem : MemTable} {after : EngineCore}

theorem memtableRecord_of_last (sound : MemorySound core)
    (last : (core.memtablesOf cf).getLast? = some mem) (key : Bytes) :
    core.memtableRecord cf key = mem.data[key]? := by
  have single := sound.single cf
  obtain ⟨older, memtables⟩ := List.getLast?_eq_some_iff.mp last
  have alone : older = [] := by
    apply eq_nil_of_length_eq_zero
    rw [memtables, length_append, length_singleton] at single
    omega
  rw [memtableRecord, memtables, alone]
  cases found : mem.data[key]? <;> simp [found]

theorem memory_popped (sound : EngineSound options core)
    (memtables : after.memtables = (core.popMemtable cf).memtables)
    (ranges : after.rangeTombstones = core.rangeTombstones) (key : Bytes) :
    after.memtableRecord cf key = none ∧ after.coveringRangeTombstoneTs cf key =
        core.coveringRangeTombstoneTs cf key := by
  have memtables_eq : after.memtablesOf cf = (core.popMemtable cf).memtablesOf cf := by
    rw [memtablesOf, memtables]
    rfl
  have ranges_eq : after.rangesOf cf = (core.popMemtable cf).rangesOf cf := by
    rw [rangesOf, ranges]
    rfl
  constructor
  · rw [memtableRecord, memtables_eq]
    exact memtableRecord_popMemtable sound.memory cf key
  · rw [← coveringRangeTombstoneTs_popMemtable sound.memory,
      coveringRangeTombstoneTs, coveringRangeTombstoneTs, memtables_eq, ranges_eq]

/-- The records a flush of the family writes, by key. -/
def flushedRecords (core : EngineCore) (clock : FlushClock) (cf : String) :
    ByteMap LogRecord :=
  match (core.memtablesOf cf).getLast? with
  | some mem => ByteMap.insertAll ∅ (combinedEntries clock mem.data)
  | none => ∅

def Idle (core : EngineCore) (cf : String) : Prop :=
  ∀ mem, (core.memtablesOf cf).getLast? = some mem → mem.data.isEmpty = true

/-- What a flush leaves behind once its table is installed. -/
structure FlushInstalled (options : EngineOptions) (clock : FlushClock)
    (cf : String) (core after : EngineCore) : Prop where
  memtables : after.memtables = (core.popMemtable cf).memtables
  ranges : after.rangeTombstones = core.rangeTombstones
  store : after.store = core.store.withTable options.storage cf
    (flushName clock.now) (core.flushedRecords clock cf)
  whole : StoreSound options.storage after.store
  sorted : ∀ mem, (core.memtablesOf cf).getLast? = some mem →
    ((combinedEntries clock mem.data).map (·.1)).Pairwise (· < ·)

theorem flushInstalled_of_done (sound : EngineSound options core)
    (fresh : clock.Fresh core)
    (last : (core.memtablesOf cf).getLast? = some mem) {table : Table} {dir : SstDir}
    (done : flushTable options.storage core.store.dir clock mem.data =
      (.ok table, dir)) : FlushInstalled options clock cf core
      ((core.popMemtable cf).installTable cf table dir) := by
  obtain ⟨sorted, rfl, rfl⟩ := flushTable_ok done
  have records : core.flushedRecords clock cf =
      ByteMap.insertAll ∅ (combinedEntries clock mem.data) := by
    rw [flushedRecords, last]
  refine ⟨rfl, rfl, by rw [records]; rfl, ?_, ?_⟩
  · apply sound.store.addFile fresh
    intro key record found
    exact EngineSound.flushed_bare (sound.memory.tombstones cf mem
      (mem_of_getLast? last)) sorted found
  · intro other found
    rw [last] at found
    cases found
    exact sorted

namespace FlushInstalled

variable {after : EngineCore}

variable (installed : FlushInstalled options clock cf core after)
  (sound : EngineSound options core)
include installed sound

theorem answer_eq (fresh : clock.Fresh core) (now : Nanos) (key : Bytes) :
    after.answer now cf key =
      core.answerOver (core.flushedRecords clock cf) now cf key := by
  obtain ⟨missing, covering⟩ := memory_popped sound installed.memtables installed.ranges key
  exact answer_withTable sound.store fresh installed.store installed.whole missing covering now

/-- What is written: the records that have not expired, and their expiries
under the TTL keys. -/
theorem flushed_iff (key : Bytes) (record : LogRecord) :
    (core.flushedRecords clock cf)[key]? = some record ↔
      (core.memtableRecord cf key = some record ∧
        record.isExpiredAt clock.now = false) ∨
      ∃ (owner : Bytes) (owned : LogRecord) (expiresAt : Nanos),
        core.memtableRecord cf owner = some owned ∧
          owned.isExpiredAt clock.now = false ∧
        owned.expiresAt = some expiresAt ∧ key = ttlKey owner ∧
        record = ttlRecord clock owner expiresAt := by
  cases last : (core.memtablesOf cf).getLast? with
  | none =>
    have nothing : core.memtablesOf cf = [] := List.getLast?_eq_none_iff.mp last
    simp [flushedRecords, memtableRecord, nothing]
  | some mem =>
    simp only [memtableRecord_of_last sound.memory last]
    rw [flushedRecords, last, ← mem_combinedEntries]
    exact ByteMap.getElem?_insertAll_empty (installed.sorted mem last) _ _

theorem record_iff (plain : ttlPrefix.isPrefixOf key = false) (record : LogRecord) :
    (core.flushedRecords clock cf)[key]? = some record ↔
      core.memtableRecord cf key = some record ∧
        record.isExpiredAt clock.now = false := by
  rw [installed.flushed_iff sound]
  constructor
  · rintro (held | ⟨owner, _, _, _, _, _, rfl, _⟩)
    · exact held
    · rw [isPrefixOf_ttlKey] at plain
      cases plain
  · exact .inl

theorem record_eq (plain : ttlPrefix.isPrefixOf key = false) :
    (core.flushedRecords clock cf)[key]? =
      (core.memtableRecord cf key).filter (!·.isExpiredAt clock.now) := by
  ext record
  rw [installed.record_iff sound plain, Option.filter_eq_some_iff, Bool.not_eq_true']

variable {record : LogRecord}

theorem unwritten (plain : ttlPrefix.isPrefixOf key = false)
    (missing : (core.flushedRecords clock cf)[key]? = none)
    (held : core.memtableRecord cf key = some record) :
    record.isExpiredAt clock.now = true := by
  by_contra unexpired
  rw [(installed.record_iff sound plain record).mpr
    ⟨held, Bool.eq_false_iff.mpr unexpired⟩] at missing
  cases missing

theorem sideOver_of_expiry (held : core.memtableRecord cf key = some record)
    (unexpired : record.isExpiredAt clock.now = false) {expiry : Nanos}
    (expires : record.expiresAt = some expiry) (now : Nanos) :
    core.sideOver (core.flushedRecords clock cf) now cf key =
      record.isExpiredAt now := by
  have written := (installed.flushed_iff sound (ttlKey key) _).mpr
    (.inr ⟨key, record, expiry, held, unexpired, expires, rfl, rfl⟩)
  rw [sideOver, lookupOver, written]
  simp [ttlRecord, LogRecord.new, LogRecord.isExpiredAt, expiredBy, expires,
    leNat_leBytes_nanos]

end FlushInstalled

/-! ## Keys a flush keeps -/

/-- What a flush has to find in the memtable, under the TTL key, in the tables
and in the cache so that it does not change what is read under a key. -/
structure FlushKeeps (core : EngineCore) (clock : FlushClock) (now : Nanos)
    (cf : String) (key : Bytes) : Prop where
  /-- A visible record that does not expire: what stands under the TTL key
  after the flush has not expired. -/
  permanent : ∀ record, core.memtableRecord cf key = some record → record.expiresAt = none →
    memtableAnswer (core.coveringRangeTombstoneTs cf key) now record ≠ none →
    core.sideOver (core.flushedRecords clock cf) now cf key = false
  /-- A record that is left out because it has expired: the tables have no
  older value, or what stands under the TTL key hides it. -/
  dropped : ∀ record, core.memtableRecord cf key = some record →
    record.isExpiredAt clock.now = true →
    memtableAnswer (core.coveringRangeTombstoneTs cf key) now record = none →
    core.sideOver (core.flushedRecords clock cf) now cf key = false →
    core.valueBelow now cf key = none
  /-- Such a record read at an instant before its expiry: the tables have its
  value. -/
  outlived : ∀ record, core.memtableRecord cf key = some record →
    record.isExpiredAt clock.now = true → ∀ value,
    memtableAnswer (core.coveringRangeTombstoneTs cf key) now record = some value →
    core.valueBelow now cf key = some value ∧
      core.sideOver (core.flushedRecords clock cf) now cf key = false
  /-- No record, and a TTL entry that hides the key neither before nor after
  the flush: the cache has what the tables have. -/
  cached : core.memtableRecord cf key = none → core.coveringRangeTombstoneTs cf key = none →
    core.sideExpired now cf key = false →
    core.sideOver (core.flushedRecords clock cf) now cf key = false → ∀ value,
    core.store.versions.kvCache[key]? = some value →
    core.store.versions.lookup core.store.dir now cf key =
      if value.isEmpty then none else some value
  /-- No record, and a TTL entry in the cache that hides the key, where the
  entry of the tables does not: they have no value. -/
  revealed : core.memtableRecord cf key = none → core.sideExpired now cf key = true →
    core.sideOver (core.flushedRecords clock cf) now cf key = false →
    core.valueBelow now cf key = none
  /-- No record, and a TTL entry that hides the key only after the flush:
  there was no value. -/
  hidden : core.memtableRecord cf key = none → core.sideExpired now cf key = false →
    core.sideOver (core.flushedRecords clock cf) now cf key = true →
    core.tableValue now cf key = none

/-- A record that is written is answered from its table as from the
memtable, but for what stands under its TTL key. -/
theorem answerOver_of_record {record : LogRecord} (written : layer[key]? = some record)
    (side : record.isExpiredAt now = true → core.sideOver layer now cf key = true) :
    core.answerOver layer now cf key =
      (memtableAnswer (core.coveringRangeTombstoneTs cf key) now
        record).filter (fun _ => !core.sideOver layer now cf key) := by
  rw [answerOver, lookupOver, written, memtableAnswer, some_or]
  cases core.coveringRangeTombstoneTs cf key with
  | none =>
    dsimp only
    cases deleted : record.isDeleted with
    | true => simp
    | false =>
      cases expired : record.isExpiredAt now with
      | false => simp
      | true =>
        rw [side expired]
        simp
  | some timestamp =>
    dsimp only
    rw [filter_some]
    cases deleted : record.isDeleted with
    | true => simp
    | false =>
      cases expired : record.isExpiredAt now with
      | true => simp
      | false =>
        by_cases covered : record.timestamp < timestamp
        · simp [covered, not_le.mpr covered]
        · simp [covered, not_lt.mp covered]

theorem tableValue_eq_valueBelow_iff (now : Nanos) :
    core.tableValue now cf key = core.valueBelow now cf key ↔
      (core.coveringRangeTombstoneTs cf key = none → ∀ value,
        core.store.versions.kvCache[key]? = some value →
        core.store.versions.lookup core.store.dir now cf key =
          if value.isEmpty then none else some value) := by
  rw [tableValue, valueBelow, TableState.peek]
  cases core.coveringRangeTombstoneTs cf key with
  | some timestamp => simp
  | none =>
    cases core.store.versions.kvCache[key]? with
    | none => simp
    | some value =>
      refine ⟨fun same _ other found => ?_, fun agrees => (agrees rfl value rfl).symm⟩
      cases found
      exact same.symm

/-- A key without a record: what the cache and the tables tell is told by the
tables alone. -/
theorem valueBelow_eq_iff {before after : Bool} (now : Nanos) :
    (core.valueBelow now cf key).filter (fun _ => !after) =
        (core.tableValue now cf key).filter (fun _ => !before) ↔
      (before = false → after = false →
        core.tableValue now cf key = core.valueBelow now cf key) ∧
      (before = true → after = false → core.valueBelow now cf key = none) ∧
      (before = false → after = true → core.tableValue now cf key = none) := by
  cases before <;> cases after <;> cases core.valueBelow now cf key <;>
    cases core.tableValue now cf key <;> simp [filter_some, eq_comm]

theorem FlushKeeps.missing_iff (missing : core.memtableRecord cf key = none) :
    core.FlushKeeps clock now cf key ↔
      (core.valueBelow now cf key).filter
          (fun _ => !core.sideOver (core.flushedRecords clock cf) now cf key) =
        core.answer now cf key := by
  rw [answer, missing]
  dsimp only
  rw [valueBelow_eq_iff]
  constructor
  · intro keeps
    refine ⟨fun before after => ?_, keeps.revealed missing, keeps.hidden missing⟩
    exact (tableValue_eq_valueBelow_iff now).mpr fun uncovered =>
      keeps.cached missing uncovered before after
  · rintro ⟨cached, revealed, hidden⟩
    have absent : ∀ {record}, core.memtableRecord cf key = some record → False := by
      intro record held
      rw [missing] at held
      cases held
    exact ⟨fun _ held => (absent held).elim, fun _ held => (absent held).elim,
      fun _ held => (absent held).elim, fun _ uncovered before after =>
        (tableValue_eq_valueBelow_iff now).mp (cached before after) uncovered,
      fun _ => revealed, fun _ => hidden⟩

theorem FlushKeeps.dropped_iff {record : LogRecord}
    (held : core.memtableRecord cf key = some record)
    (expired : record.isExpiredAt clock.now = true) :
    core.FlushKeeps clock now cf key ↔
      (core.valueBelow now cf key).filter
          (fun _ => !core.sideOver (core.flushedRecords clock cf) now cf key) =
        core.answer now cf key := by
  have answered : core.answer now cf key =
      memtableAnswer (core.coveringRangeTombstoneTs cf key) now record := by
    rw [answer, held]
  rw [answered]
  have expires : record.expiresAt ≠ none := by
    intro permanent
    simp [LogRecord.isExpiredAt, permanent] at expired
  have present : core.memtableRecord cf key ≠ none := by
    rw [held]
    exact some_ne_none record
  constructor
  · intro keeps
    cases shown : memtableAnswer (core.coveringRangeTombstoneTs cf key) now record with
    | some value =>
      obtain ⟨found, clear⟩ := keeps.outlived record held expired value shown
      rw [found, clear]
      rfl
    | none =>
      cases clear : core.sideOver (core.flushedRecords clock cf) now cf key with
      | true => simp
      | false =>
        rw [keeps.dropped record held expired shown clear]
        rfl
  · intro same
    have own : ∀ {other}, core.memtableRecord cf key = some other → other = record := by
      intro other found
      exact Option.some.inj (found.symm.trans held)
    refine ⟨?_, ?_, ?_, fun missing => (present missing).elim,
      fun missing => (present missing).elim, fun missing => (present missing).elim⟩
    · intro other found permanent
      exact absurd (own found ▸ permanent) expires
    · intro other found _ shown clear
      rw [own found] at shown
      simpa [shown, clear, Option.eq_none_iff_forall_ne_some] using same
    · intro other found _ value shown
      rw [own found] at shown
      rw [shown] at same
      simpa using same

theorem FlushInstalled.written_iff
    (installed : FlushInstalled options clock cf core after)
    (sound : EngineSound options core) {record : LogRecord}
    (held : core.memtableRecord cf key = some record)
    (unexpired : record.isExpiredAt clock.now = false) :
    core.FlushKeeps clock now cf key ↔
      (memtableAnswer (core.coveringRangeTombstoneTs cf key) now record).filter
          (fun _ => !core.sideOver (core.flushedRecords clock cf) now cf key) =
        memtableAnswer (core.coveringRangeTombstoneTs cf key) now record := by
  have present : core.memtableRecord cf key ≠ none := by
    rw [held]
    exact some_ne_none record
  have kept : ∀ other, core.memtableRecord cf key = some other →
      other.isExpiredAt clock.now = true → False := by
    intro other found expired
    rw [← Option.some.inj (held.symm.trans found), unexpired] at expired
    cases expired
  constructor
  · intro keeps
    cases shown : memtableAnswer (core.coveringRangeTombstoneTs cf key) now record with
    | none => rfl
    | some value =>
      have clear : core.sideOver (core.flushedRecords clock cf) now cf key = false := by
        cases expires : record.expiresAt with
        | none =>
          exact keeps.permanent record held expires (by
            rw [shown]
            exact some_ne_none value)
        | some expiry =>
          rw [installed.sideOver_of_expiry sound held unexpired expires]
          by_contra expired
          rw [memtableAnswer, Bool.eq_true_of_not_eq_false expired] at shown
          simp at shown
      rw [clear]
      rfl
  · intro same
    refine ⟨?_, fun other found expired => (kept other found expired).elim,
      fun other found expired => (kept other found expired).elim,
      fun missing => (present missing).elim, fun missing => (present missing).elim,
      fun missing => (present missing).elim⟩
    intro other found _ visible
    rw [held] at found
    cases found
    obtain ⟨value, shown⟩ := ne_none_iff_exists'.mp visible
    rw [shown] at same
    by_contra hidden
    rw [Bool.eq_true_of_not_eq_false hidden] at same
    cases same

theorem FlushInstalled.answerOver_eq_iff
    (installed : FlushInstalled options clock cf core after)
    (sound : EngineSound options core) (plain : ttlPrefix.isPrefixOf key = false)
    (now : Nanos) :
    core.answerOver (core.flushedRecords clock cf) now cf key =
      core.answer now cf key ↔
      core.FlushKeeps clock now cf key := by
  cases written : (core.flushedRecords clock cf)[key]? with
  | none =>
    rw [answerOver_of_missing written]
    cases held : core.memtableRecord cf key with
    | none => exact (FlushKeeps.missing_iff held).symm
    | some record =>
      exact (FlushKeeps.dropped_iff held
        (installed.unwritten sound plain written held)).symm
  | some record =>
    obtain ⟨held, unexpired⟩ := (installed.record_iff sound plain record).mp written
    have side : record.isExpiredAt now = true →
        core.sideOver (core.flushedRecords clock cf) now cf key = true := by
      intro expired
      cases expires : record.expiresAt with
      | none => simp [LogRecord.isExpiredAt, expires] at expired
      | some expiry =>
        rw [installed.sideOver_of_expiry sound held unexpired expires]
        exact expired
    rw [answerOver_of_record written side, answer, held]
    exact (installed.written_iff sound held unexpired).symm

end EngineCore

/-- A flush that succeeds changes the read of a key exactly if there was
something to flush and the key is not kept.  The files, with the one that is
written, give back their entries. -/
theorem flush_changes_no_read_iff {options : EngineOptions} {core : EngineCore}
    (reachable : Reachable options core) {clock : FlushClock}
    (fresh : clock.Fresh core) {cf : String}
    (_ : SstDir.legible (core.store.dir.insert (flushName clock.now)
      (.table (core.flushedRecords clock cf))) = true)
    {due : Bool} {after : EngineCore}
    (flushed : core.flushMemtableImpl options clock cf = (.ok due, after))
    (now : Nanos) {key : Bytes} (plain : ttlPrefix.isPrefixOf key = false) :
    (after.getCf now cf key).1 = (core.getCf now cf key).1 ↔
      core.Idle cf ∨ core.FlushKeeps clock now cf key := by
  have sound := reachable.sound
  have sound' : EngineSound options after := by
    have whole := sound.flush fresh cf
    rwa [flushed] at whole
  rw [getCf_eq sound.store, getCf_eq sound'.store, Except.ok.injEq]
  have outcome := flushMemtableImpl_outcome options clock cf core
  rw [flushed] at outcome
  cases outcome with
  | idle nothing =>
    refine iff_of_true rfl (.inl ?_)
    intro mem last
    rw [nothing] at last
    cases last
  | synced mem last empty =>
    refine iff_of_true rfl (.inl ?_)
    intro other found
    rw [last] at found
    cases found
    exact empty
  | written mem last nonempty table dir done _ =>
    have installed := flushInstalled_of_done sound fresh last done
    have busy : ¬ core.Idle cf := by
      intro idle
      rw [idle mem last] at nonempty
      cases nonempty
    have answered := installed.answer_eq sound fresh now key
    rw [or_iff_right busy, ← installed.answerOver_eq_iff sound plain, ← answered]
    rfl

/-- A value that does not expire. -/
theorem flush_changes_no_read_of_permanent_value :
    let core := engineRun .default
      [.put (.instant 1) "default" [7] [1] none]
    ∃ due after, core.flushMemtableImpl .default
        { now := 2, stamp := fun _ => 2 } "default" = (.ok due, after) ∧
      (after.getCf 10 "default" [7]).1 = (core.getCf 10 "default" [7]).1 := by
  intro core
  let clock : FlushClock := { now := 2, stamp := fun _ => 2 }
  have reachable : Reachable .default core := .of_check (by decide +kernel)
  have fresh : clock.Fresh core := by decide +kernel
  have present : core.memtableRecord "default" [7] ≠ none := by decide +kernel
  have live : (core.memtableRecord "default" [7]).any
      (fun record => record.isExpiredAt clock.now) = false := by decide +kernel
  have kept : ∀ record, core.memtableRecord "default" [7] = some record →
      record.isExpiredAt clock.now = true → False := by
    intro record held expired
    rw [held, any_some, expired] at live
    cases live
  have keeps : core.FlushKeeps clock 10 "default" [7] := by
    refine ⟨fun _ _ _ _ => by decide +kernel, fun record held expired =>
      (kept record held expired).elim, fun record held expired =>
      (kept record held expired).elim, ?_, ?_, ?_⟩
    all_goals exact fun missing => (present missing).elim
  obtain ⟨due, flushed⟩ : ∃ due, core.flushMemtableImpl .default clock
      "default" = (.ok due, (core.flushMemtableImpl .default clock "default").2) :=
    ⟨false, Prod.ext (by decide +kernel) rfl⟩
  exact ⟨due, _, flushed, (flush_changes_no_read_iff reachable fresh (by decide +kernel)
    flushed 10 (by decide)).mpr (.inr keeps)⟩

/-- A value that expires is flushed and overwritten by one that does not.  The
flush of the second one leaves the expiry of the first under the TTL key. -/
theorem flush_hides_overwriting_value :
    let core := engineRun .default
      [.put (.ticking 1) "default" [7] [1] (some 20),
        .flush { now := 10, stamp := fun _ => 10 } "default",
        .put (.ticking 11) "default" [7] [2] none]
    Reachable .default core ∧ core.allRanges "default" = [] ∧
      ∃ due after, core.flushMemtableImpl .default
          { now := 20, stamp := fun _ => 20 } "default" = (.ok due, after) ∧
        (core.getCf 30 "default" [7]).1 = .ok (some [2]) ∧
        (after.getCf 30 "default" [7]).1 = .ok none := by
  intro core
  let clock : FlushClock := { now := 20, stamp := fun _ => 20 }
  let put := EngineOp.put (.ticking 11) "default" [7] [2] none
  have same : core = put.step .default flushedExpiring := by
    rw [← engineRun_flushedExpiring]
    rfl
  have reachable : Reachable .default core := by
    rw [same]
    exact reachable_flushedExpiring.step put (EngineOp.orderly_sound (by decide +kernel))
  have fresh : clock.Fresh core := by
    rw [same]
    decide +kernel
  have sound := reachable.sound
  have ranges : core.allRanges "default" = [] := by
    rw [same]
    decide +kernel
  have before : core.answerByVersions 30 "default" [7] = some [2] := by
    rw [same]
    decide +kernel
  have result : (core.flushMemtableImpl .default clock "default").1 = .ok false := by
    rw [same]
    decide +kernel
  have after : (core.flushMemtableImpl .default clock
      "default").2.answerByVersions 30 "default" [7] = none := by
    rw [same]
    decide +kernel
  refine ⟨reachable, ranges, false, _, Prod.ext result rfl, ?_, ?_⟩
  · rw [getCf_eq_versions sound.store, before]
  · rw [getCf_eq_versions (sound.flush fresh "default").store, after]

end ApexStore
