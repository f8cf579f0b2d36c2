import ApexStore.Engine.Lookup
import ApexStore.Engine.Scan
import ApexStore.Engine.Writers

/-!
# Histories that stay in memory

As long as a family is not flushed, its calls act on it as on a plain map from
keys to values with an expiry.  Point records and range tombstones are kept
apart in the memtable and are ordered by their timestamps alone, so this rests
on a clock that moves between any two readings.
-/

namespace ApexStore

open VersionSet Option LogRecord

variable {writes : List BatchWrite} {more : List Nanos}

/-- The calls that write to one family. -/
inductive FamilyOp where
  | put (context : WriteContext) (key value : Bytes) (ttl : Option Nanos)
  | delete (context : WriteContext) (key : Bytes)
  | setBatch (clock : FlushClock) (items : List (BatchStamp × Bytes × Bytes))
  | deleteBatch (clock : FlushClock) (keys : List (BatchStamp × Bytes))
  | deleteRange (timestamp logged : Nanos) (nonce : Nonce) (start stop : Bytes)

/-- The values of a family, each with the instant it expires at. -/
abbrev Reference := ByteMap (Bytes × Option Nanos)

namespace Reference

def write (reference : Reference) (key : Bytes)
    (content : Option (Bytes × Option Nanos)) : Reference :=
  match content with
  | some entry => reference.insert key entry
  | none => reference.erase key

theorem getElem?_write (reference : Reference) (key other : Bytes)
    (content : Option (Bytes × Option Nanos)) : (reference.write key content)[other]? =
      if key = other then content else reference[other]? := by
  cases content with
  | some entry => exact ByteMap.getElem?_insert reference key other entry
  | none => simp [write, Std.ExtTreeMap.getElem?_erase]

def liveAt (now : Nanos) (reference : Reference) : Reference :=
  reference.filter (fun _ entry =>
    entry.2.all (fun expiry => decide (now < expiry)))

end Reference

namespace FamilyOp

def step (options : EngineOptions) (cf : String) (core : EngineCore) :
    FamilyOp → EngineCore
  | put context key value ttl => (core.putCf options context cf key value ttl).2
  | delete context key => (core.deleteCf options context cf key).2
  | setBatch clock items => (core.setBatchCf options clock cf items).2
  | deleteBatch clock keys => (core.deleteBatchCf options clock cf keys).2
  | deleteRange timestamp logged nonce start stop =>
    core.deleteRangeCf timestamp logged nonce cf start stop

def apply (reference : Reference) : FamilyOp → Reference
  | put context key value ttl =>
    -- An oversized key or value is turned down.
    if (EngineCore.checkSizes key value).isOk then
      reference.write key (some (value, ttl.map (context.created.saturatingAdd ·)))
    else reference
  | delete _ key => reference.write key none
  | setBatch _ items =>
    items.foldl (fun reference item =>
      reference.write item.2.1 (some (item.2.2, none))) reference
  | deleteBatch _ keys =>
    keys.foldl (fun reference item => reference.write item.2 none) reference
  | deleteRange _ _ _ start stop =>
    reference.filter (fun key _ =>
      !(decide (start ≤ key) && decide (key < stop)))

/-- The clock readings of a call, in the order they are taken. -/
def readings : FamilyOp → List Nanos
  | put context _ _ _ => [context.created]
  | delete context _ => [context.created, context.inserted, context.read]
  | setBatch _ items =>
    items.map (·.1.logged) ++ items.map (·.1.stored)
  | deleteBatch _ keys =>
    keys.map (·.1.logged) ++ keys.map (·.1.stored)
  | deleteRange timestamp logged _ _ _ => [timestamp, logged]

def keys : FamilyOp → List Bytes
  | put _ key _ _ => [key]
  | delete _ key => [key]
  | setBatch _ items => items.map (·.2.1)
  | deleteBatch _ keys => keys.map (·.2)
  | deleteRange .. => []

/-- By how much a call adds to the size of the memtable. -/
def size : FamilyOp → Nat
  | put _ key value _ =>
    if (EngineCore.checkSizes key value).isOk then key.length + value.length
    else 0
  | delete _ key => key.length
  | setBatch _ items => ((putWrites items).map (·.size)).sum
  | deleteBatch _ keys => ((deleteWrites keys).map (·.size)).sum
  | deleteRange .. => 0

end FamilyOp

def familyRun (options : EngineOptions) (cf : String) (core : EngineCore)
    (ops : List FamilyOp) : EngineCore :=
  ops.foldl (FamilyOp.step options cf) core

def referenceRun (ops : List FamilyOp) : Reference :=
  ops.foldl FamilyOp.apply ∅

def LogRecord.entry (record : LogRecord) : Option (Bytes × Option Nanos) :=
  if record.isDeleted then none else some (record.value, record.expiresAt)

namespace EngineCore

/-- The record of a key unless a newer range tombstone covers it. -/
def uncovered (core : EngineCore) (cf : String) (key : Bytes) : Option LogRecord :=
  (core.memtableRecord cf key).filter (fun record =>
    !(maxCovering (core.allRanges cf) key).any
      (fun timestamp => decide (record.timestamp < timestamp)))

/-- The memory of a family stands for a map, and all its timestamps are among
the readings of the past. -/
structure Represents (core : EngineCore) (cf : String)
    (reference : Reference) (past : List Nanos) : Prop where
  entries : ∀ key, reference[key]? = (core.uncovered cf key).bind LogRecord.entry
  records : ∀ key record, core.memtableRecord cf key = some record → record.timestamp ∈ past
  ranges : ∀ range ∈ core.allRanges cf, range.timestamp ∈ past

def HoldsPlain (core : EngineCore) (cf : String) : Prop :=
  ∀ key record, core.memtableRecord cf key = some record → ttlPrefix.isPrefixOf key = false

/-- Nothing of the family is in tables, and nothing is cached. -/
def InMemory (cf : String) (store : TableState) : Prop :=
  store.versions.getTables cf = [] ∧ store.versions.kvCache = ∅

variable {options : EngineOptions} {core : EngineCore} {cf : String}
  {reference : Reference} {past : List Nanos}

namespace Represents

section

variable (represents : core.Represents cf reference past)
include represents

theorem mono (subset : past ⊆ more) : core.Represents cf reference more :=
  ⟨represents.entries,
    fun key record found => subset (represents.records key record found),
    fun range member => subset (represents.ranges range member)⟩

theorem insertMemtable (record : LogRecord)
    (newest : ∀ reading ∈ past, reading < record.timestamp)
    (size : Nat) : (core.insertMemtable cf record size).Represents cf
      (reference.write record.key record.entry) (past ++ [record.timestamp]) := by
  refine ⟨?_, ?_, ?_⟩
  · intro key
    rw [Reference.getElem?_write, represents.entries, uncovered, uncovered,
      memtableRecord_insertMemtable, allRanges_insertMemtable]
    by_cases here : record.key = key
    · subst here
      have visible : (maxCovering (core.allRanges cf) record.key).any
          (fun timestamp => decide (record.timestamp < timestamp)) = false := by
        cases covering : maxCovering (core.allRanges cf) record.key with
        | none => rfl
        | some timestamp =>
          obtain ⟨⟨range, member, _, rfl⟩, _⟩ := maxCovering_eq_some_iff.mp covering
          have older := newest _ (represents.ranges range member)
          simp [older.le]
      rw [if_pos rfl, if_pos ⟨rfl, rfl⟩, filter_some, visible]
      rfl
    · simp [here]
  · intro key other found
    rw [memtableRecord_insertMemtable] at found
    split at found
    · cases found
      simp
    · exact List.mem_append_left _ (represents.records key other found)
  · intro range member
    rw [allRanges_insertMemtable] at member
    exact List.mem_append_left _ (represents.ranges range member)

theorem insertRange (range : RangeTombstone) (newest : ∀ reading ∈ past,
      reading < range.timestamp) : (core.insertRange cf range).Represents cf
      (reference.filter (fun key _ => !range.covers key))
        (past ++ [range.timestamp]) := by
  have members : ∀ other, other ∈ (core.insertRange cf range).allRanges cf ↔
      other ∈ core.allRanges cf ++ [range] := by
    intro other
    rw [allRanges, allRanges, rangesOf_insertRange, memtableRanges_insertRange, if_pos rfl]
    simp only [List.mem_append]
    tauto
  refine ⟨?_, ?_, ?_⟩
  · intro key
    rw [Std.ExtTreeMap.getElem?_filter', represents.entries, uncovered,
      uncovered, memtableRecord_insertRange, maxCovering_congr members, maxCovering_append]
    cases found : core.memtableRecord cf key with
    | none => rfl
    | some record =>
      have older := newest _ (represents.records key record found)
      cases covers : range.covers key with
      | true =>
        have last : maxCovering [range] key = some range.timestamp := by
          simp [maxCovering, covers]
        rw [last]
        cases maxCovering (core.allRanges cf) key with
        | none | some timestamp => simp [filter_some, older]
      | false =>
        have last : maxCovering [range] key = none := by
          simp [maxCovering, covers]
        have all : ∀ entry : Option (Bytes × Option Nanos),
            entry.filter (fun _ => true) = entry := by
          intro entry
          cases entry <;> rfl
        rw [last, Bool.not_false, all]
        cases maxCovering (core.allRanges cf) key <;> rfl
  · intro key record found
    rw [memtableRecord_insertRange] at found
    exact List.mem_append_left _ (represents.records key record found)
  · intro other member
    rcases List.mem_append.mp ((members other).mp member) with old | new
    · exact List.mem_append_left _ (represents.ranges other old)
    · rw [List.mem_singleton.mp new]
      simp

theorem insertBatch
    (increasing : (past ++ writes.map (·.stamp.stored)).Pairwise (· < ·)) :
    (core.insertBatch cf writes).Represents cf (writes.foldl (fun reference write =>
        reference.write write.key write.stored.entry) reference)
      (past ++ writes.map (·.stamp.stored)) := by
  have timestamp : ∀ write : BatchWrite, write.stored.timestamp = write.stamp.stored := by
    intro write
    unfold BatchWrite.stored BatchWrite.record
    split <;> rfl
  induction writes using List.reverseRecOn with
  | nil => simpa [EngineCore.insertBatch] using represents
  | append_singleton writes write ih =>
    rw [List.map_append, ← List.append_assoc] at increasing ⊢
    obtain ⟨earlier, _, later⟩ := List.pairwise_append.mp increasing
    have before := ih earlier
    rw [EngineCore.insertBatch] at before ⊢
    rw [List.foldl_concat, List.foldl_concat]
    have after := before.insertMemtable write.stored (fun reading member => by
        rw [timestamp]
        exact later reading member _ (by simp)) write.size
    rw [key_stored, timestamp] at after
    exact after

end

theorem congr {other : EngineCore} (represents : core.Represents cf reference past)
    (memtables : other.memtablesOf cf = core.memtablesOf cf)
    (ranges : other.rangesOf cf = core.rangesOf cf) :
    other.Represents cf reference past := by
  have records : ∀ key, other.memtableRecord cf key = core.memtableRecord cf key := by
    intro key
    rw [memtableRecord, memtables, memtableRecord]
  have all : other.allRanges cf = core.allRanges cf := by
    rw [allRanges, memtableRanges, ranges, memtables]
    rfl
  refine ⟨?_, ?_, ?_⟩
  · intro key
    rw [represents.entries, uncovered, uncovered, records, all]
  · intro key record found
    exact represents.records key record (records key ▸ found)
  · intro range member
    exact represents.ranges range (all ▸ member)

end Represents

theorem HoldsPlain.insertMemtable (plain : core.HoldsPlain cf)
    {record : LogRecord} (named : ttlPrefix.isPrefixOf record.key = false)
    (size : Nat) : (core.insertMemtable cf record size).HoldsPlain cf := by
  intro key other found
  rw [memtableRecord_insertMemtable] at found
  split at found
  · next here => exact here.2 ▸ named
  · exact plain key other found

theorem HoldsPlain.insertBatch (plain : core.HoldsPlain cf)
    (named : ∀ write ∈ writes, ttlPrefix.isPrefixOf write.key = false) :
    (core.insertBatch cf writes).HoldsPlain cf := by
  induction writes using List.reverseRecOn with
  | nil => exact plain
  | append_singleton writes write ih =>
    have before := ih (List.forall_mem_append.mp named).1
    rw [EngineCore.insertBatch] at before ⊢
    rw [List.foldl_concat]
    apply before.insertMemtable
    rw [key_stored]
    exact named write (by simp)

theorem InMemory.get {store : TableState} (memory : InMemory cf store) (now : Nanos)
    (key : Bytes) :
    (store.versions.get store.dir now cf key).1 = none ∧
      InMemory cf { store with
        versions := (store.versions.get store.dir now cf key).2 } := by
  have uncached : store.versions.kvCache[key]? = none := by
    simp [memory.2]
  have nothing : store.versions.lookup store.dir now cf key = none := by
    simp [lookup, memory.1]
  obtain ⟨quarantined, _, result⟩ := get_of_not_cached uncached store.dir now cf
  rw [result, nothing]
  exact ⟨rfl, memory.1, memory.2⟩

theorem InMemory.readAll (memory : InMemory cf core.store) (now : Nanos)
    (keys : List Bytes) : InMemory cf (core.readAll now cf keys).store := by
  induction keys using List.reverseRecOn with
  | nil => exact memory
  | append_singleton keys key ih =>
    rw [← readAll_append]
    exact (ih.get now key).2

end EngineCore

/-! ## The calls -/

open EngineCore

/-- What holds throughout a history. -/
structure HistoryState (cf : String) (core : EngineCore)
    (reference : Reference) (past : List Nanos) (bytes : Nat) : Prop where
  represents : core.Represents cf reference past
  plain : core.HoldsPlain cf
  memory : InMemory cf core.store
  bytes : core.bytesOf cf = bytes

namespace HistoryState

variable {options : EngineOptions} {cf : String} {core : EngineCore}
  {reference : Reference} {past : List Nanos} {bytes : Nat}

theorem empty (cf : String) : HistoryState cf .empty ∅ [] 0 := by
  refine ⟨⟨?_, ?_, ?_⟩, ?_, ⟨rfl, rfl⟩, rfl⟩
  · intro key
    rfl
  · intro key record found
    cases found
  · intro range member
    cases member
  · intro key record found
    cases found

variable (state : HistoryState cf core reference past bytes)
include state

theorem mono (subset : past ⊆ more) :
    HistoryState cf core reference more bytes :=
  { state with represents := state.represents.mono subset }

theorem logged (logs : NameMap (List WalEntry)) :
    HistoryState cf { core with logs } reference past bytes :=
  ⟨state.represents.congr rfl rfl, state.plain, state.memory, state.bytes⟩

theorem insertMemtable (record : LogRecord)
    (newest : ∀ reading ∈ past, reading < record.timestamp)
    (named : ttlPrefix.isPrefixOf record.key = false) (size : Nat) :
    HistoryState cf (core.insertMemtable cf record size)
      (reference.write record.key record.entry) (past ++ [record.timestamp])
        (bytes + size) := by
  refine ⟨state.represents.insertMemtable record newest size,
    state.plain.insertMemtable named size, state.memory, ?_⟩
  rw [EngineCore.insertMemtable, bytesOf, bytes_addBytes, if_pos rfl, ← state.bytes]
  rfl

theorem insertBatch
    (increasing : (past ++ writes.map (·.stamp.stored)).Pairwise (· < ·))
    (named : ∀ write ∈ writes, ttlPrefix.isPrefixOf write.key = false) :
    HistoryState cf (core.insertBatch cf writes) (writes.foldl (fun reference write =>
        reference.write write.key write.stored.entry) reference)
      (past ++ writes.map (·.stamp.stored)) (bytes + (writes.map (·.size)).sum) := by
  refine ⟨state.represents.insertBatch increasing, state.plain.insertBatch named, ?_, ?_⟩
  · rw [(insertBatch_frame core cf writes).1]
    exact state.memory
  · rw [bytesOf_insertBatch, state.bytes]

theorem readAll (now : Nanos) (keys : List Bytes) :
    HistoryState cf (core.readAll now cf keys) reference past bytes :=
  ⟨state.represents.congr rfl rfl, state.plain, state.memory.readAll now keys, state.bytes⟩

theorem getCf (now : Nanos) (key : Bytes) :
    HistoryState cf (core.getCf now cf key).2 reference past bytes := by
  obtain ⟨keys, _, _, reads⟩ := getCf_reads now cf key core
  rw [reads]
  exact state.readAll now keys

end HistoryState

/-- The readings of the calls so far come before those of the next one. -/
structure Permitted (options : EngineOptions) (past : List Nanos)
    (bytes : Nat) (op : FamilyOp) : Prop where
  increasing : (past ++ op.readings).Pairwise (· < ·)
  named : ∀ key ∈ op.keys, ttlPrefix.isPrefixOf key = false
  below : bytes + op.size < options.writeBufferLimit

namespace HistoryState

variable {options : EngineOptions} {cf : String} {core : EngineCore}
  {reference : Reference} {past : List Nanos} {bytes : Nat}

variable {context : WriteContext} {key : Bytes}

theorem putCf (state : HistoryState cf core reference past bytes)
    (permanent : options.defaultTtl = none) {value : Bytes} {ttl : Option Nanos}
    (permitted : Permitted options past bytes (.put context key value ttl)) :
    HistoryState cf (core.putCf options context cf key value ttl).2
      (FamilyOp.apply reference (.put context key value ttl))
        (past ++ [context.created])
      (bytes + FamilyOp.size (.put context key value ttl)) := by
  have below := permitted.below
  rw [FamilyOp.apply]
  rw [FamilyOp.size] at below ⊢
  unfold EngineCore.putCf
  cases checked : checkSizes key value with
  | error error =>
    exact state.mono (List.subset_append_left _ _)
  | ok accepted =>
    rw [checked] at below
    obtain ⟨named, valued, stamped, alive, _⟩ :=
      putRecord_fields options context cf key value ttl
    have expiry : (putRecord options context cf key value ttl).expiresAt =
        ttl.map (context.created.saturatingAdd ·) := by
      cases ttl <;> simp [putRecord, permanent, LogRecord.new, LogRecord.newWithTtl]
    have entry : (putRecord options context cf key value ttl).entry =
        some (value, ttl.map (context.created.saturatingAdd ·)) := by
      simp [LogRecord.entry, alive, valued, expiry]
    have appended := state.logged ((core.walHandle cf).writeRecord cf
      { nonce := context.nonce
        record := putRecord options context cf key value ttl }).logs
    have inserted := appended.insertMemtable (putRecord options context cf key value ttl) (by
        rw [stamped]
        exact fun reading member => (List.pairwise_append.mp
          permitted.increasing).2.2 reading member _ (by
            simp [FamilyOp.readings])) (by
        rw [named]
        exact permitted.named key (by simp [FamilyOp.keys])) (key.length + value.length)
    rw [named, stamped, entry] at inserted
    rw [insertRecord_of_below context.flush _ (by
      rw [Below]
      exact state.bytes ▸ below)]
    exact inserted

theorem deleteCf (state : HistoryState cf core reference past bytes)
    (permitted : Permitted options past bytes (.delete context key)) :
    HistoryState cf (core.deleteCf options context cf key).2 (reference.write key none)
      (past ++ [context.created, context.inserted, context.read])
        (bytes + key.length) := by
  have appended := state.logged ((core.walHandle cf).writeRecord cf
    { nonce := context.nonce
      record := { tombstone context.created key with
        columnFamily := some cf } }).logs
  have inserted := appended.insertMemtable (tombstone context.inserted key)
    (fun reading member => (List.pairwise_append.mp
      permitted.increasing).2.2 reading member _ (by
        simp [FamilyOp.readings, tombstone]))
    (permitted.named key (by simp [FamilyOp.keys])) key.length
  have later : HistoryState cf _ _ (past ++ [context.created, context.inserted, context.read]) _ :=
    inserted.mono (by simp [tombstone])
  unfold EngineCore.deleteCf
  dsimp only
  rw [insertRecord_of_below context.flush _ (by
    rw [Below]
    exact state.bytes ▸ permitted.below)]
  dsimp only
  -- the lookups at the end are reads
  have read := later.getCf context.read key
  split
  · next value after found =>
    have result := congrArg Prod.snd found
    exact result ▸ read
  · next after found =>
    have result := congrArg Prod.snd found
    exact (result ▸ read).getCf context.read (ttlKey key)

theorem applyBatch (options : EngineOptions)
    (state : HistoryState cf core reference past bytes)
    {Item : Type} (items : List Item) (write : Item → BatchWrite)
    (increasing : (past ++ (items.map (fun item => (write item).stamp.logged) ++
      items.map (fun item => (write item).stamp.stored))).Pairwise (· < ·))
    (named : ∀ item ∈ items, ttlPrefix.isPrefixOf (write item).key = false)
    (below : bytes + ((items.map write).map (·.size)).sum < options.writeBufferLimit)
    (clock : FlushClock) :
    HistoryState cf ((core.applyBatch cf
      (items.map write)).flushIfFull options clock cf).2
      (items.foldl (fun reference item =>
        reference.write (write item).key (write item).stored.entry) reference)
      (past ++ (items.map (fun item => (write item).stamp.logged) ++
        items.map (fun item => (write item).stamp.stored)))
      (bytes + ((items.map write).map (·.size)).sum) := by
  have kept := (List.sublist_append_right (items.map fun item => (write item).stamp.logged)
    (items.map fun item => (write item).stamp.stored)).append_left past
  have appended := state.logged ((core.walHandle cf).writeBatch cf
    ((items.map write).map (·.entry cf))).logs
  have inserted := @insertBatch (items.map write) cf _ reference past bytes appended
    (by rw [List.map_map]; exact increasing.sublist kept) (List.forall_mem_map.mpr named)
  rw [List.foldl_map] at inserted
  rw [flushIfFull_of_below clock (by rwa [Below, state.bytes])]
  exact inserted.mono (by rw [List.map_map]; exact kept.subset)

theorem deleteRangeCf (state : HistoryState cf core reference past bytes)
    {timestamp logged : Nanos} {nonce : Nonce} {start stop : Bytes}
    (permitted : Permitted options past bytes
      (.deleteRange timestamp logged nonce start stop)) :
    HistoryState cf (core.deleteRangeCf timestamp logged nonce cf start stop)
      (FamilyOp.apply reference (.deleteRange timestamp logged nonce start stop))
      (past ++ [timestamp, logged]) bytes := by
  have appended := state.logged ((core.walHandle cf).writeRecord cf
    { nonce
      record := { rangeTombstone logged start stop with
        columnFamily := some cf } }).logs
  have covered := appended.represents.insertRange
    { startKey := start, endKey := stop, timestamp }
      (fun reading member => (List.pairwise_append.mp
      permitted.increasing).2.2 reading member _ (by
        simp [FamilyOp.readings]))
  refine ⟨covered.mono (by simp), ?_, state.memory, state.bytes⟩
  intro key record found
  apply state.plain key record
  exact (memtableRecord_insertRange _ cf cf _ key).symm.trans found

theorem step (state : HistoryState cf core reference past bytes)
    (permanent : options.defaultTtl = none) {op : FamilyOp}
    (permitted : Permitted options past bytes op) :
    HistoryState cf (op.step options cf core) (op.apply reference)
      (past ++ op.readings) (bytes + op.size) := by
  cases op with
  | put context key value ttl => exact state.putCf permanent permitted
  | delete context key => exact state.deleteCf permitted
  | setBatch clock items =>
    exact state.applyBatch options items (fun item => ⟨item.2.1, item.2.2, false, item.1⟩)
      permitted.increasing
        (fun item member => permitted.named _ (List.mem_map_of_mem member))
      permitted.below clock
  | deleteBatch clock keys =>
    exact state.applyBatch options keys (fun item => ⟨item.2, [], true, item.1⟩)
      permitted.increasing
        (fun item member => permitted.named _ (List.mem_map_of_mem member))
      permitted.below clock
  | deleteRange timestamp logged nonce start stop =>
    exact state.deleteRangeCf permitted

end HistoryState

theorem historyState_run {options : EngineOptions} (cf : String)
    (permanent : options.defaultTtl = none) {ops : List FamilyOp}
    (increasing : (ops.flatMap FamilyOp.readings).Pairwise (· < ·))
    (named : ∀ op ∈ ops, ∀ key ∈ op.keys, ttlPrefix.isPrefixOf key = false)
    (below : (ops.map FamilyOp.size).sum < options.writeBufferLimit) :
    HistoryState cf (familyRun options cf .empty ops) (referenceRun ops)
      (ops.flatMap FamilyOp.readings) (ops.map FamilyOp.size).sum := by
  induction ops using List.reverseRecOn with
  | nil => exact .empty cf
  | append_singleton ops op ih =>
    rw [List.flatMap_append, List.flatMap_singleton] at increasing ⊢
    rw [List.map_append, List.sum_append] at below ⊢
    have state := ih (List.pairwise_append.mp increasing).1
      (List.forall_mem_append.mp named).1 (by omega)
    rw [familyRun, referenceRun, List.foldl_concat, List.foldl_concat]
    exact state.step permanent ⟨increasing, named op (by simp), below⟩

/-! ## Reads -/

namespace HistoryState

variable {cf : String} {core : EngineCore} {reference : Reference}
  {past : List Nanos} {bytes : Nat}

variable (state : HistoryState cf core reference past bytes) (now : Nanos)
include state now

theorem liveAt_getElem? (key : Bytes) :
    ((reference.liveAt now)[key]?).map (·.1) = (core.memtableRecord cf key).bind
        (memtableAnswer (core.coveringRangeTombstoneTs cf key) now) := by
  rw [Reference.liveAt, Std.ExtTreeMap.getElem?_filter',
    state.represents.entries, uncovered, coveringRangeTombstoneTs_eq]
  cases core.memtableRecord cf key with
  | none => rfl
  | some record =>
    rw [filter_some, bind_some, memtableAnswer]
    cases (maxCovering (core.allRanges cf) key).any
      (fun timestamp => decide (record.timestamp < timestamp)) with
    | true => rfl
    | false =>
      cases deleted : record.isDeleted with
      | true => simp [entry, deleted]
      | false =>
        cases expiry : record.expiresAt with
        | none =>
          simp [entry, deleted, expiry, isExpiredAt]
        | some instant =>
          by_cases expired : instant ≤ now
          · simp [entry, expiry, expired, isExpiredAt]
          · simp [entry, deleted, expiry, expired, isExpiredAt, not_le.mp expired]

theorem getCf_eq (key : Bytes) :
    (core.getCf now cf key).1 = .ok (((reference.liveAt now)[key]?).map (·.1)) := by
  rw [state.liveAt_getElem?]
  cases found : core.memtableRecord cf key with
  | some record => rw [getCf_of_memtable found]; rfl
  | none =>
    have missing := (state.memory.get now key).1
    have unrecorded : core.store.versions.getRecord core.store.dir cf key = .ok none := by
      rw [getRecord, state.memory.1]
      rfl
    unfold EngineCore.getCf
    rw [found]
    cases core.coveringRangeTombstoneTs cf key with
    | some timestamp =>
      dsimp only [lookupTables]
      rw [unrecorded]
      rfl
    | none =>
      dsimp only [lookupTables]
      rw [missing]
      rfl

theorem scanCf_eq {limit : Option Nat}
    (room : (reference.liveAt now).size ≤ limit.getD maxScanLimit) :
    (core.scanCf now cf none none limit).1 = .ok ((reference.liveAt now).toList.map
        (fun entry => (entry.1, entry.2.1))) := by
  have readable : core.Readable cf := by
    intro table member
    rw [state.memory.1] at member
    cases member
  have answers : ∀ (store : TableState) (key : Bytes), InMemory cf store →
      (legacyExpired now cf key store).1 = false ∧
        InMemory cf (legacyExpired now cf key store).2 := by
    intro store key memory
    obtain ⟨missing, kept⟩ := memory.get now (ttlKey key)
    rw [legacyExpired]
    dsimp only
    rw [missing]
    exact ⟨rfl, kept⟩
  have listing : core.listing now cf (fun _ => false) =
      (reference.liveAt now).toList.map (fun entry => (entry.1, entry.2.1)) := by
    have sorted : SortedEntries ((reference.liveAt now).toList.map
        (fun entry => (entry.1, entry.2.1))) := List.pairwise_map.mpr
          (ByteMap.toList_sorted _)
    apply (core.listing_sorted now cf _).eq_of_mem_iff sorted
    rintro ⟨key, value⟩
    have held : (key, value) ∈ (reference.liveAt now).toList.map
        (fun entry => (entry.1, entry.2.1)) ↔
          ((reference.liveAt now)[key]?).map (·.1) = some value := by
      simp only [List.mem_map, Prod.exists, ByteMap.mem_toList, map_eq_some_iff,
        Prod.mk.injEq]
      constructor
      · rintro ⟨_, stored, expiry, found, rfl, rfl⟩
        exact ⟨stored, expiry, found, rfl⟩
      · rintro ⟨stored, expiry, found, rfl⟩
        exact ⟨key, stored, expiry, found, rfl, rfl⟩
    rw [mem_listing, held, state.liveAt_getElem?, shown, newestVersion_eq, state.memory.1]
    cases found : core.memtableRecord cf key with
    | none => rfl
    | some record =>
      have plain := state.plain key record found
      rw [map_some, some_or, bind_some, listed_record core now cf _ plain]
  rw [← listing]
  apply EngineCore.scanCf_eq readable answers state.memory
  rwa [listing, List.length_map, Std.ExtTreeMap.length_toList]

end HistoryState

def reservedPrefix : Bytes := [95, 95]

theorem ttlPrefix_of_reserved {key : Bytes}
    (free : reservedPrefix.isPrefixOf key = false) :
    ttlPrefix.isPrefixOf key = false := by
  rw [Bool.eq_false_iff] at free ⊢
  intro hidden
  apply free
  rw [List.isPrefixOf_iff_prefix] at hidden ⊢
  exact List.IsPrefix.trans (by decide) hidden

/-- As long as nothing is flushed, reads and scans of a family agree with the
map that its calls describe. -/
theorem memtable_history_matches_reference (options : EngineOptions)
    (cf : String) (ops : List FamilyOp)
    (permanent : options.defaultTtl = none)
    (increasing : (ops.flatMap FamilyOp.readings).Pairwise (· < ·))
    (free : ∀ op ∈ ops, ∀ key ∈ op.keys,
      reservedPrefix.isPrefixOf key = false)
    (below : (ops.map FamilyOp.size).sum < options.writeBufferLimit)
    (now : Nanos) :
    let core := familyRun options cf .empty ops
    let live := (referenceRun ops).liveAt now
    (∀ key, (core.getCf now cf key).1 = .ok (live[key]?.map (·.1))) ∧
      ∀ limit : Option Nat, live.size ≤ limit.getD maxScanLimit →
        (core.scanCf now cf none none limit).1 =
          .ok (live.toList.map (fun entry => (entry.1, entry.2.1))) := by
  intro core live
  have state := historyState_run cf permanent increasing (fun op member key written =>
      ttlPrefix_of_reserved (free op member key written)) below
  exact ⟨state.getCf_eq now, fun limit room => state.scanCf_eq now room⟩

/-- A value in the way of a range deletion, and one written after it. -/
theorem memtable_history_of_overwritten_range :
    let put (now : Nanos) (key value : Bytes) (ttl : Option Nanos) :
        FamilyOp := .put (.instant now) key value ttl
    let ops : List FamilyOp :=
      [put 1 [1] [10] none, put 2 [2] [20] none,
        .deleteRange 3 4 (Vector.replicate 12 0) [0] [3],
        put 5 [2] [21] (some 10), put 6 [3] [30] none]
    let core := familyRun .default "default" .empty ops
    (core.getCf 7 "default" [1]).1 = .ok none ∧
      (core.getCf 7 "default" [2]).1 = .ok (some [21]) ∧
      (core.scanCf 7 "default" none none none).1 = .ok [([2], [21]), ([3], [30])] ∧
      (core.scanCf 15 "default" none none none).1 = .ok [([3], [30])] := by
  intro put ops core
  have matching := memtable_history_matches_reference .default "default" ops
    rfl (by decide) (by decide) (by decide)
  have seventh := matching 7
  have fifteenth := matching 15
  have live : ((referenceRun ops).liveAt 7).toList =
      [([2], ([21], some 15)), ([3], ([30], none))] := by decide +kernel
  have later : ((referenceRun ops).liveAt 15).toList = [([3], ([30], none))] := by
    decide +kernel
  refine ⟨?_, ?_, ?_, ?_⟩
  · rw [seventh.1 [1]]
    decide +kernel
  · rw [seventh.1 [2]]
    decide +kernel
  · rw [seventh.2 none (by decide +kernel), live]
    rfl
  · rw [fifteenth.2 none (by decide +kernel), later]
    rfl

end ApexStore
