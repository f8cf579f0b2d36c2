import ApexStore.Engine.FlushReads
import ApexStore.Engine.TransactionReads

/-!
# Commits that fail half-way

A commit takes the buffer first and then writes one family after another; the
first failure ends it.  What was written before stays, and the buffer is gone.

`commit_is_all_or_nothing_iff` says when a commit is all or nothing in spite of
this: when no failure is met, and every value it writes is visible where it
ends up, in the memtable or in the table that the flush inside the commit makes.
-/

namespace ApexStore

open VersionSet EngineCore List Option

variable {txn : Transaction} {mem : MemTable}
  {families : List (String × ByteMap TxnWrite)}
  {config : StorageConfig} {value : Bytes} {write : TxnWrite}

/-- A commit that returns an error has changed no read, neither now nor after a
restart, and keeps the buffer; one that succeeds shows every write. -/
structure AllOrNothing (options : EngineOptions) (context : CommitContext)
    (txn : Transaction) (core : EngineCore) : Prop where
  kept : ∀ error, (txn.commit options context core).1 = .error error →
    (txn.commit options context core).2.1 = txn
  unseen : ∀ error, (txn.commit options context core).1 = .error error →
    ∀ now cf key, ((txn.commit options context core).2.2.getCf now cf key).1 =
      (core.getCf now cf key).1
  unlogged : ∀ error, (txn.commit options context core).1 = .error error →
    ∀ found now cf key,
      ((txn.commit options context core).2.2.newGeneric options found).map
          (fun restarted => (restarted.getCf now cf key).1) =
        (core.newGeneric options found).map (fun restarted => (restarted.getCf now cf key).1)
  shown : (txn.commit options context core).1 = .ok () →
    ∀ now cf key write, txn.buffered cf key = some write →
      ((txn.commit options context core).2.2.getCf now cf key).1 =
        .ok (if write.isDeleted then none else some write.value)

def Transaction.Grouped (txn : Transaction) : Prop :=
  ∀ (cf : String) (entries : ByteMap TxnWrite), txn.writes[cf]? = some entries → entries ≠ ∅

theorem Transaction.grouped_begin : begin.Grouped := by
  intro cf entries listed
  simp [begin] at listed

theorem Transaction.Grouped.buffer (grouped : txn.Grouped) (cf : String) (key : Bytes)
    (write : TxnWrite) : (txn.buffer cf key write).Grouped := by
  intro other entries listed
  rw [Transaction.buffer, NameMap.getElem?_insert] at listed
  split at listed
  · cases listed
    exact Std.ExtTreeMap.insert_ne_empty
  · exact grouped other entries listed

/-! ## One family -/

section Turn

variable (options : EngineOptions) (context : CommitContext) (cf : String)
  (entries : ByteMap TxnWrite) (core : EngineCore)

/-- The memtable does not fill up when the writes of a family come in. -/
def Fits : Prop :=
  core.Below options cf (((batchWrites context cf entries).map (·.size)).sum)

def Passes : Prop :=
  match context.faults cf with
  | none => True
  -- the log is rotated only when the memtable is full
  | some (.clearLog _) => Fits options context cf entries core
  | some _ => False

/-- The memtable of a family with the writes of a commit. -/
def committedRecord (key : Bytes) : Option LogRecord :=
  match entries[key]? with
  | some write =>
    some (BatchWrite.stored
      { key, value := write.value, isDeleted := write.isDeleted
        stamp := context.stamps cf key })
  | none => core.memtableRecord cf key

/-- What a read finds under the TTL key of a key when the memtable has become a
table. -/
def committedSide (now : Nanos) (key : Bytes) : Option Bytes :=
  match committedRecord context cf entries core (ttlKey key) with
  | some record => some record.value
  | none => core.store.versions.lookup core.store.dir now cf (ttlKey key)

/-- A write is visible where it ends up.  In the memtable a newer range
tombstone hides it.  The table of a commit keeps the value alone: an empty
value is a deletion, and it counts as older than every range tombstone. -/
def Showable (key : Bytes) (write : TxnWrite) : Prop :=
  write.isDeleted = true ∨ (Fits options context cf entries core ∧
      ∀ timestamp, core.coveringRangeTombstoneTs cf key = some timestamp →
        timestamp ≤ (context.stamps cf key).stored) ∨
    (¬ Fits options context cf entries core ∧ write.value ≠ [] ∧
      (∀ timestamp, core.coveringRangeTombstoneTs cf key = some timestamp → timestamp = 0) ∧
      ∀ now, expiredBy now (committedSide context cf entries core now key) = false)

/-- The state of a family after its turn, as far as reads of it go. -/
inductive Committed (after : EngineCore) : Prop where
  | stored (fits : Fits options context cf entries core)
      (records : ∀ key, after.memtableRecord cf key =
        committedRecord context cf entries core key)
      (covering : ∀ key, after.coveringRangeTombstoneTs cf key =
        core.coveringRangeTombstoneTs cf key)
  | tabled (full : ¬ Fits options context cf entries core) (data : ByteMap Bytes)
      (held : ∀ key : Bytes, data[key]? =
        (committedRecord context cf entries core key).map (·.value))
      (records : ∀ key, after.memtableRecord cf key = none)
      (covering : ∀ key, after.coveringRangeTombstoneTs cf key =
        core.coveringRangeTombstoneTs cf key) (tables : after.store.versions.getTables cf =
        core.store.versions.getTables cf ++ [Table.build options.storage data])
      (dir : after.store.dir = core.store.dir) (emptied : after.store.versions.kvCache = ∅)

end Turn

section TurnFacts

variable {options : EngineOptions} {context : CommitContext} {cf : String}
  {entries : ByteMap TxnWrite} {core : EngineCore}

theorem find?_batchWrites (context : CommitContext) (cf : String)
    (entries : ByteMap TxnWrite) (key : Bytes) :
    (batchWrites context cf entries).reverse.find?
        (fun write => decide (write.key = key)) =
      entries[key]?.map (fun write =>
        { key, value := write.value, isDeleted := write.isDeleted
          stamp := context.stamps cf key }) := by
  cases found : (batchWrites context cf entries).reverse.find?
      (fun write => decide (write.key = key)) with
  | none =>
    rw [List.find?_eq_none] at found
    cases held : entries[key]? with
    | none => rfl
    | some write =>
      have listed := (ByteMap.mem_toList entries key write).mpr held
      exact absurd (decide_eq_true rfl) (found _ (mem_reverse.mpr (mem_map_of_mem listed)))
  | some write =>
    have same : write.key = key := by simpa using List.find?_some found
    have member := mem_reverse.mp (mem_of_find?_eq_some found)
    obtain ⟨⟨other, held⟩, listed, rfl⟩ := mem_map.mp member
    subst same
    rw [(ByteMap.mem_toList entries other held).mp listed, map_some]

theorem memtableRecord_committed (key : Bytes) :
    (core.applyBatch cf (batchWrites context cf entries)).memtableRecord cf
        key = committedRecord context cf entries core key := by
  rw [applyBatch, memtableRecord_insertBatch, if_pos rfl, find?_batchWrites, committedRecord]
  cases entries[key]? <;> rfl

theorem applyBatch_store (core : EngineCore) (cf : String) (writes : List BatchWrite) :
    (core.applyBatch cf writes).store = core.store := (insertBatch_frame _ cf writes).1

theorem covering_applyBatch (core : EngineCore) (cf other : String)
    (writes : List BatchWrite)
    (key : Bytes) : (core.applyBatch cf writes).coveringRangeTombstoneTs other key =
      core.coveringRangeTombstoneTs other key := by
  have ranges : (core.applyBatch cf writes).rangesOf other = core.rangesOf other := by
    rw [rangesOf, applyBatch, (insertBatch_frame _ cf writes).2.2]
    rfl
  rw [coveringRangeTombstoneTs_eq, coveringRangeTombstoneTs_eq, allRanges, ranges,
    applyBatch, memtableRanges_insertBatch]
  rfl

theorem memtable_of_committed (sound : EngineSound options core)
    (written : entries ≠ ∅) :
    ∃ mem bytes, ((core.applyBatch cf
        (batchWrites context cf entries)).memtablesOf cf).getLast? = some mem ∧
      (core.applyBatch cf (batchWrites context cf entries)).memtableBytes[cf]? =
        some bytes := by
  obtain ⟨key, present⟩ : ∃ key, key ∈ entries := by
    by_contra missing
    exact written (Std.ExtTreeMap.eq_empty_iff_forall_not_mem.mpr (not_exists.mp missing))
  obtain ⟨write, held⟩ :=
    isSome_iff_exists.mp (Std.ExtTreeMap.mem_iff_isSome_getElem?.mp present)
  have record := @memtableRecord_committed context cf entries core key
  rw [committedRecord, held] at record
  have applied := (sound.applyBatch cf (batchWrites context cf entries)).memory
  cases last : ((core.applyBatch cf (batchWrites context cf entries)).memtablesOf cf).getLast? with
  | none =>
    rw [memtableRecord, List.getLast?_eq_none_iff.mp last] at record
    cases record
  | some mem =>
    rw [memtableRecord_of_last applied last] at record
    have filled : mem.data.isEmpty = false := by
      rw [Bool.eq_false_iff]
      intro empty
      rw [Std.ExtTreeMap.isEmpty_iff.mp empty] at record
      simp at record
    have counted := applied.counted cf mem (mem_of_getLast? last) filled
    obtain ⟨bytes, there⟩ := ne_none_iff_exists'.mp counted
    exact ⟨mem, bytes, rfl, there⟩

/-- What the turn of a family can do. -/
inductive CommitTurn (options : EngineOptions) (context : CommitContext)
    (cf : String) (entries : ByteMap TxnWrite) (core : EngineCore) :
    Except LsmError Bool × EngineCore → Prop where
  | refused (error : LsmError) (after : EngineCore)
      (stopped : ¬ Passes options context cf entries core) :
      CommitTurn options context cf entries core (.error error, after)
  | done (due : Bool) (after : EngineCore) (passes : Passes options context cf entries core)
      (committed : Committed options context cf entries core after) :
      CommitTurn options context cf entries core (.ok due, after)

/-- The engine after the flush inside a commit. -/
def EngineCore.afterInlineFlush (core : EngineCore) (config : StorageConfig)
    (cf : String) (mem : MemTable) : EngineCore :=
  let tabled := (core.popMemtable cf).installTable cf
    (Table.build config (mem.data.map (fun _ record => record.value))) core.store.dir
  ({ tabled with memtableBytes := tabled.memtableBytes.insert cf 0 }).clearLog cf

theorem flushMemtableForCf_of_last {bytes : Nat}
    (last : (core.memtablesOf cf).getLast? = some mem)
    (counted : core.memtableBytes[cf]? = some bytes) :
    (∃ due, core.flushMemtableForCf options none cf =
        (.ok due, core.afterInlineFlush options.storage cf mem)) ∧ ∀ renamed, ∃ after,
        core.flushMemtableForCf options (some renamed) cf = (.error .io, after) := by
  have there :
      ((core.popMemtable cf).installTable cf (Table.build options.storage (mem.data.map
        (fun _ record => record.value))) core.store.dir).memtableBytes[cf]? =
          some bytes := counted
  unfold flushMemtableForCf
  rw [last]
  dsimp only
  rw [there]
  refine ⟨⟨_, rfl⟩, ?_⟩
  intro renamed
  cases renamed with
  | true | false => exact ⟨_, rfl⟩

theorem committed_afterInlineFlush (sound : EngineSound options core)
    (full : ¬ Fits options context cf entries core) (last : ((core.applyBatch cf
      (batchWrites context cf entries)).memtablesOf cf).getLast? = some mem) :
    Committed options context cf entries core
      ((core.applyBatch cf (batchWrites context cf entries)).afterInlineFlush
        options.storage cf mem) := by
  have store := applyBatch_store core cf (batchWrites context cf entries)
  have applied := (sound.applyBatch cf (batchWrites context cf entries)).memory
  refine .tabled full (mem.data.map (fun _ record => record.value)) ?_ ?_ ?_ ?_ ?_ rfl
  · intro key
    rw [Std.ExtTreeMap.getElem?_map, ← memtableRecord_committed,
      memtableRecord_of_last applied last]
  · exact memtableRecord_popMemtable applied cf
  · intro key
    rw [← covering_applyBatch core cf cf (batchWrites context cf entries)]
    exact coveringRangeTombstoneTs_popMemtable applied cf key
  · rw [← store]
    exact getTables_addTable _ cf _
  · rw [← store]
    rfl

theorem commitFamily_turn (sound : EngineSound options core)
    (context : CommitContext) (cf : String) {entries : ByteMap TxnWrite}
    (written : entries ≠ ∅) :
    CommitTurn options context cf entries core
      (core.commitFamily options context cf entries) := by
  obtain ⟨mem, bytes, last, counted⟩ :=
    @memtable_of_committed options context cf entries core sound written
  obtain ⟨⟨due, flushed⟩, broken⟩ :=
    @flushMemtableForCf_of_last mem options cf _ bytes last counted
  have full_iff : options.writeBufferLimit ≤ (core.applyBatch cf
      (batchWrites context cf entries)).bytesOf cf ↔
        ¬ Fits options context cf entries core := by
    rw [bytesOf_applyBatch, Fits, Below, Nat.not_lt]
  have stored : Fits options context cf entries core →
      Committed options context cf entries core
        (core.applyBatch cf (batchWrites context cf entries)) :=
    fun fits => .stored fits (fun _ => memtableRecord_committed _)
      (covering_applyBatch core cf cf _)
  have passes : Passes options context cf entries core ↔
      match context.faults cf with
      | none => True
      | some (.clearLog _) => Fits options context cf entries core
      | some _ => False := Iff.rfl
  unfold commitFamily
  cases fault : context.faults cf with
  | none =>
    rw [fault] at passes
    dsimp only
    split
    · next reached =>
      rw [flushed]
      exact .done _ _ (passes.mpr trivial)
        (committed_afterInlineFlush sound (full_iff.mp reached) last)
    · next below =>
      exact .done _ _ (passes.mpr trivial) (stored (not_not.mp (mt full_iff.mpr below)))
  | some kind =>
    rw [fault] at passes
    cases kind with
    | openLog | writeBatch _ => exact .refused _ _ passes.mp
    | clearLog renamed =>
      dsimp only
      split
      · next reached =>
        obtain ⟨after, failed⟩ := broken renamed
        rw [failed]
        exact .refused _ _ (mt passes.mp (full_iff.mp reached))
      · next below =>
        have fits := not_not.mp (mt full_iff.mpr below)
        exact .done _ _ (passes.mpr fits) (stored fits)

end TurnFacts

/-! ## All families -/

/-- What the turns of other families leave alone. -/
structure Beside (cf : String) (before after : EngineCore) : Prop where
  memtables : after.memtablesOf cf = before.memtablesOf cf
  bytes : after.memtableBytes[cf]? = before.memtableBytes[cf]?
  ranges : after.rangesOf cf = before.rangesOf cf
  tables : after.store.versions.getTables cf = before.store.versions.getTables cf
  dir : after.store.dir = before.store.dir
  emptied : before.store.versions.kvCache = ∅ → after.store.versions.kvCache = ∅

namespace Beside

variable {options : EngineOptions} {context : CommitContext} {cf other : String}
  {entries : ByteMap TxnWrite} {first second third : EngineCore}

theorem refl (cf : String) (core : EngineCore) : Beside cf core core :=
  ⟨rfl, rfl, rfl, rfl, rfl, id⟩

theorem trans (left : Beside cf first second) (right : Beside cf second third) :
    Beside cf first third :=
      ⟨right.memtables.trans left.memtables, right.bytes.trans left.bytes,
    right.ranges.trans left.ranges, right.tables.trans left.tables,
    right.dir.trans left.dir, right.emptied ∘ left.emptied⟩

theorem commitFamily (apart : cf ≠ other) (options : EngineOptions)
    (context : CommitContext) (entries : ByteMap TxnWrite) (core : EngineCore) :
    Beside cf core (core.commitFamily options context other entries).2 := by
  have frame := frame_commitFamily options context other entries core
  have store : ((core.commitFamily options context other entries).2.store.dir = core.store.dir) ∧
      (core.store.versions.kvCache = ∅ → (core.commitFamily options context other
          entries).2.store.versions.kvCache = ∅) := by
    have applied := applyBatch_store core other (batchWrites context other entries)
    unfold EngineCore.commitFamily
    split
    · exact ⟨rfl, id⟩
    · exact ⟨rfl, id⟩
    · dsimp only
      split
      · unfold flushMemtableForCf
        split
        · rw [applied]
          exact ⟨rfl, id⟩
        · dsimp only
          rw [applied]
          split
          · exact ⟨rfl, fun _ => rfl⟩
          · split
            · exact ⟨rfl, fun _ => rfl⟩
            · exact ⟨rfl, fun _ => rfl⟩
            · exact ⟨rfl, fun _ => rfl⟩
      · rw [applied]
        exact ⟨rfl, id⟩
  exact ⟨frame.memtables cf apart, frame.bytes cf apart,
    frame.ranges cf apart, frame.tables cf apart, store.1, store.2⟩

theorem commitFamilies (options : EngineOptions) (context : CommitContext)
    (apart : ∀ family ∈ families, cf ≠ family.1) (core : EngineCore) :
    Beside cf core (core.commitFamilies options context families).2 := by
  induction families generalizing core with
  | nil => exact refl cf core
  | cons family families ih =>
    obtain ⟨other, entries⟩ := family
    have turn := commitFamily (apart _ mem_cons_self) options context entries core
    rw [EngineCore.commitFamilies]
    split
    · next error after failed =>
      rw [failed] at turn
      exact turn
    · next due after done =>
      rw [done] at turn
      exact turn.trans (ih (forall_mem_cons.mp apart).2 after)

section

variable (beside : Beside cf first second)
include beside

theorem fits_iff : Fits options context cf entries second ↔
      Fits options context cf entries first := by
  rw [Fits, Fits, Below, Below, bytesOf, bytesOf, beside.bytes]

theorem passes_iff : Passes options context cf entries second ↔
      Passes options context cf entries first := by
  rw [Passes, Passes, beside.fits_iff]

theorem record_eq (key : Bytes) :
    second.memtableRecord cf key = first.memtableRecord cf key := by
  rw [memtableRecord, memtableRecord, beside.memtables]

theorem covering_eq (key : Bytes) : second.coveringRangeTombstoneTs cf key =
      first.coveringRangeTombstoneTs cf key := by
  rw [coveringRangeTombstoneTs, coveringRangeTombstoneTs, beside.memtables, beside.ranges]

theorem committedRecord_eq (key : Bytes) :
    committedRecord context cf entries second key =
      committedRecord context cf entries first key := by
  rw [committedRecord, committedRecord, beside.record_eq]

theorem committed_before
    (committed : Committed options context cf entries second third) :
    Committed options context cf entries first third := by
  cases committed with
  | stored fits records covering =>
    refine .stored (beside.fits_iff.mp fits) ?_ ?_
    · intro key
      rw [records, beside.committedRecord_eq]
    · intro key
      rw [covering, beside.covering_eq]
  | tabled full data held records covering tables dir emptied =>
    refine .tabled (mt beside.fits_iff.mpr full) data ?_ records ?_ ?_
      (dir.trans beside.dir) emptied
    · intro key
      rw [held, beside.committedRecord_eq]
    · intro key
      rw [covering, beside.covering_eq]
    · rw [tables, beside.tables]

end

theorem committed_after (beside : Beside cf second third)
    (committed : Committed options context cf entries first second) :
    Committed options context cf entries first third := by
  cases committed with
  | stored fits records covering =>
    refine .stored fits ?_ ?_
    · intro key
      rw [beside.record_eq, records]
    · intro key
      rw [beside.covering_eq, covering]
  | tabled full data held records covering tables dir emptied =>
    refine .tabled full data held ?_ ?_ ?_ (beside.dir.trans dir) (beside.emptied emptied)
    · intro key
      rw [beside.record_eq, records]
    · intro key
      rw [beside.covering_eq, covering]
    · rw [beside.tables, tables]

end Beside

section Families

variable {options : EngineOptions} {context : CommitContext}
  {core : EngineCore}

/-- The loop ends with an error when a family meets a failure; otherwise every
family is committed. -/
theorem commitFamilies_spec
    (distinct : families.Pairwise (fun first second => first.1 < second.1))
    (written : ∀ family ∈ families, family.2 ≠ ∅) (sound : EngineSound options core) :
    match core.commitFamilies options context families with
    | (.error _, _) => ∃ family ∈ families,
      ¬ Passes options context family.1 family.2 core
    | (.ok _, after) => ∀ family ∈ families,
      Passes options context family.1 family.2 core ∧
          Committed options context family.1 family.2 core after := by
  induction families generalizing core with
  | nil =>
    intro family member
    cases member
  | cons family families ih =>
    obtain ⟨cf, entries⟩ := family
    obtain ⟨first, rest⟩ := pairwise_cons.mp distinct
    have turn := commitFamily_turn sound context cf (written _ mem_cons_self)
    have kept := sound.commitFamily context cf entries
    have others : ∀ family ∈ families, Beside family.1 core
        (core.commitFamily options context cf entries).2 :=
      fun family member => .commitFamily (ne_of_gt (first family member))
        options context entries core
    rw [commitFamilies]
    generalize core.commitFamily options context cf entries = result at turn kept others ⊢
    cases turn with
    | refused error after stopped =>
      exact ⟨(cf, entries), mem_cons_self, stopped⟩
    | done due middle passes committed =>
      dsimp only at kept others ⊢
      have later := ih rest (forall_mem_cons.mp written).2 kept
      have own : Beside cf middle (middle.commitFamilies options context families).2 :=
        .commitFamilies options context
          (fun family member => ne_of_lt (first family member)) middle
      generalize middle.commitFamilies options context families = result at later own ⊢
      obtain ⟨outcome, after⟩ := result
      cases outcome with
      | error error =>
        obtain ⟨family, member, stopped⟩ := later
        exact ⟨family, mem_cons_of_mem _ member,
          mt (others family member).passes_iff.mpr stopped⟩
      | ok _ =>
        intro family member
        rcases mem_cons.mp member with rfl | behind
        · exact ⟨passes, own.committed_after committed⟩
        · obtain ⟨passed, there⟩ := later family behind
          exact ⟨(others family behind).passes_iff.mp passed,
            (others family behind).committed_before there⟩

end Families

/-! ## Reads of a committed family -/

section Reads

variable {options : EngineOptions} {context : CommitContext} {cf : String}
  {entries : ByteMap TxnWrite} {core after : EngineCore} {data : ByteMap Bytes}

theorem version_build (config : StorageConfig) (data : ByteMap Bytes) (dir : SstDir)
    (key : Bytes) :
    (Table.build config data).version dir key = data[key]?.map (fun value =>
        { LogRecord.new 0 key value with isDeleted := value.isEmpty }) := rfl

theorem lookup_over_build (sound : StoreSound config core.store)
    (whole : StoreSound config after.store)
    (tables : after.store.versions.getTables cf =
      core.store.versions.getTables cf ++ [Table.build config data])
    (dir : after.store.dir = core.store.dir) (now : Nanos) (key : Bytes) :
    after.store.versions.lookup after.store.dir now cf key =
      match data[key]? with
      | some value => if value.isEmpty then none else some value
      | none => core.store.versions.lookup core.store.dir now cf key := by
  rw [whole.lookup_eq, tables, reverse_append, reverse_singleton,
    singleton_append, List.findSome?_cons, version_build, dir, sound.lookup_eq]
  cases data[key]? with
  | none => rfl
  | some value =>
    cases value with
    | nil => rfl
    | cons byte bytes => rfl

variable {key : Bytes}

theorem newestEntry_over_build (tables : after.store.versions.getTables cf =
      core.store.versions.getTables cf ++ [Table.build config data])
    (held : data[key]? = some value) :
    after.newestEntry cf key = some (Table.build config data,
      { LogRecord.new 0 key value with isDeleted := value.isEmpty }) := by
  rw [newestEntry, tables, reverse_append, reverse_singleton,
    singleton_append, List.findSome?_cons, version_build, held]
  rfl

theorem answer_over_build (sound : EngineSound options core)
    (whole : EngineSound options after)
    (tables : after.store.versions.getTables cf = core.store.versions.getTables cf ++
        [Table.build options.storage data]) (dir : after.store.dir = core.store.dir)
    (emptied : after.store.versions.kvCache = ∅)
    (popped : after.memtableRecord cf key = none)
    (held : data[key]? = some value) (now : Nanos) :
    after.answer now cf key = (if value.isEmpty ∨ ∃ timestamp,
          after.coveringRangeTombstoneTs cf key = some timestamp ∧
            timestamp ≠ 0 then none
        else some value).filter (fun _ => !expiredBy now
          (after.store.versions.lookup after.store.dir now cf (ttlKey key))) := by
  have peeked : ∀ key, after.store.peek now cf key =
      after.store.versions.lookup after.store.dir now cf key := by
    intro key
    rw [TableState.peek, emptied]
    simp
  rw [answer, popped, sideExpired, peeked]
  dsimp only
  congr 1
  rw [tableValue]
  cases covering : after.coveringRangeTombstoneTs cf key with
  | none =>
    rw [peeked, lookup_over_build sound.store whole.store tables dir, held]
    simp
  | some timestamp =>
    dsimp only
    have fresh : ({ LogRecord.new 0 key value with
        isDeleted := value.isEmpty } : LogRecord).isExpiredAt now = false :=
      LogRecord.isExpiredAt_of_none rfl
    rw [newestEntry_over_build tables held, filter_some]
    rw [fresh]
    by_cases bare : value.isEmpty = true
    · simp [bare]
    · by_cases zero : timestamp = 0
      · simp [bare, zero, LogRecord.new]
      · simp [bare, zero, LogRecord.new]

theorem value_stored (write : BatchWrite) :
    write.stored.value = if write.isDeleted then [] else write.value := by
  unfold BatchWrite.stored BatchWrite.record
  split <;> rfl

theorem committedRecord_of_held (held : entries[key]? = some write) :
    committedRecord context cf entries core key = some (BatchWrite.stored
      { key, value := write.value, isDeleted := write.isDeleted
        stamp := context.stamps cf key }) := by
  rw [committedRecord, held]

theorem expiredBy_lookup (sound : EngineSound options core)
    (whole : EngineSound options after) (holds : ∀ key : Bytes, data[key]? =
      (committedRecord context cf entries core key).map (·.value))
    (tables : after.store.versions.getTables cf = core.store.versions.getTables cf ++
        [Table.build options.storage data])
    (dir : after.store.dir = core.store.dir) (now : Nanos) (key : Bytes) :
    expiredBy now (after.store.versions.lookup after.store.dir now cf (ttlKey key)) =
      expiredBy now (committedSide context cf entries core now key) := by
  rw [lookup_over_build sound.store whole.store tables dir, holds, committedSide]
  cases committedRecord context cf entries core (ttlKey key) with
  | none => rfl
  | some record =>
    rw [map_some]
    dsimp only
    cases record.value with
    | nil => rfl
    | cons byte bytes => rfl

theorem memtableAnswer_stored (covering : Option Nanos) (now : Nanos)
    (write : BatchWrite) :
    memtableAnswer covering now write.stored =
      if write.isDeleted ∨ ∃ timestamp, covering = some timestamp ∧
        ¬ timestamp ≤ write.stamp.stored then none else some write.value := by
  rw [memtableAnswer, BatchWrite.stored, BatchWrite.record]
  cases write.isDeleted with
  | true => simp [LogRecord.tombstone]
  | false =>
    cases covering with
    | none | some timestamp => simp [LogRecord.new, LogRecord.isExpiredAt]

theorem Committed.shows_iff (sound : EngineSound options core)
    (whole : EngineSound options after)
    (committed : Committed options context cf entries core after)
    (held : entries[key]? = some write) : (∀ now, (after.getCf now cf key).1 =
        .ok (if write.isDeleted then none else some write.value)) ↔
      Showable options context cf entries core key write := by
  have record := @committedRecord_of_held write context cf entries core key held
  simp only [getCf_eq whole.store, Except.ok.injEq]
  cases committed with
  | stored fits records covering =>
    have read : ∀ now, after.answer now cf key =
        memtableAnswer (core.coveringRangeTombstoneTs cf key) now (BatchWrite.stored
            { key, value := write.value, isDeleted := write.isDeleted
              stamp := context.stamps cf key }) := by
      intro now
      rw [answer, records, record, covering]
    simp only [read, memtableAnswer_stored]
    cases deleted : write.isDeleted with
    | true => simp [Showable, deleted]
    | false => simp [Showable, deleted, fits]
  | tabled full data holds records covering tables dir emptied =>
    have value := holds key
    rw [record, map_some, value_stored] at value
    have read : ∀ now, after.answer now cf key = _ := fun now =>
      answer_over_build sound whole tables dir emptied (records key) value now
    simp only [read, covering, expiredBy_lookup sound whole holds tables dir]
    cases deleted : write.isDeleted with
    | true => simp [Showable, deleted]
    | false =>
      have visible : (if write.value.isEmpty = true ∨ ∃ timestamp,
            core.coveringRangeTombstoneTs cf key = some timestamp ∧
              timestamp ≠ 0 then none else some write.value) = some write.value ↔
          write.value ≠ [] ∧
            ∀ timestamp, core.coveringRangeTombstoneTs cf key = some timestamp →
              timestamp = 0 := by
        simp
      rw [Showable, deleted]
      simp only [Bool.false_eq_true, full, false_and, false_or,
        not_false_eq_true, true_and, ↓reduceIte, filter_eq_some_iff,
          Bool.not_eq_true', visible]
      refine ⟨fun shows => ⟨(shows 0).1.1, (shows 0).1.2, fun now => (shows now).2⟩, ?_⟩
      rintro ⟨filled, uncovered, fresh⟩ now
      exact ⟨⟨filled, uncovered⟩, fresh now⟩

end Reads

/-! ## The whole commit -/

theorem commit_outcome {options : EngineOptions} {core : EngineCore}
    (sound : EngineSound options core) (context : CommitContext)
    (grouped : txn.Grouped) :
    (∃ error, (txn.commit options context core).1 = .error error ∧
        (txn.commit options context core).2.1 ≠ txn ∧
          ∃ (cf : String) (entries : ByteMap TxnWrite),
          txn.writes[cf]? = some entries ∧ ¬ Passes options context cf entries core) ∨
      (txn.commit options context core).1 = .ok () ∧
        ∀ (cf : String) (entries : ByteMap TxnWrite),
          txn.writes[cf]? = some entries → Passes options context cf entries core ∧
            Committed options context cf entries core
              (txn.commit options context core).2.2 := by
  unfold Transaction.commit
  split
  · next blank =>
    refine .inr ⟨rfl, ?_⟩
    intro cf entries listed
    simp [Std.ExtTreeMap.isEmpty_iff.mp blank] at listed
  · next filled =>
    have families := @commitFamilies_spec txn.writes.toList options context
      core txn.writes.toList_sorted (fun family member => grouped family.1 family.2
        ((NameMap.mem_toList txn.writes family.1 family.2).mp member)) sound
    generalize core.commitFamilies options context txn.writes.toList = result at families ⊢
    obtain ⟨outcome, after⟩ := result
    cases outcome with
    | error error =>
      obtain ⟨⟨cf, entries⟩, member, stopped⟩ := families
      refine .inl ⟨error, rfl, ?_, cf, entries,
        (NameMap.mem_toList txn.writes cf entries).mp member, stopped⟩
      intro same
      have taken : txn.writes = ∅ := by rw [← same]
      exact filled (Std.ExtTreeMap.isEmpty_iff.mpr taken)
    | ok _ =>
      refine .inr ⟨rfl, ?_⟩
      intro cf entries listed
      exact families (cf, entries) ((NameMap.mem_toList txn.writes cf entries).mpr listed)

/-- A commit is all or nothing exactly when no family meets a failure and every
write of it is visible where it ends up. -/
theorem commit_is_all_or_nothing_iff {options : EngineOptions} {core : EngineCore}
    (reachable : Reachable options core) (context : CommitContext) {txn : Transaction}
    (grouped : txn.Grouped) : AllOrNothing options context txn core ↔
      ∀ (cf : String) (entries : ByteMap TxnWrite), txn.writes[cf]? = some entries →
        Passes options context cf entries core ∧
          ∀ (key : Bytes) (write : TxnWrite), entries[key]? = some write →
            Showable options context cf entries core key write := by
  have sound := reachable.sound
  have whole := sound.commit context txn
  have buffered : ∀ cf key write, txn.buffered cf key = some write ↔
      ∃ entries : ByteMap TxnWrite, txn.writes[cf]? = some entries ∧
        entries[key]? = some write := by
    intro cf key write
    rw [Transaction.buffered, bind_eq_some_iff]
  rcases commit_outcome sound context grouped with
    ⟨error, failed, taken, cf, entries, listed, stopped⟩ | ⟨done, families⟩
  · constructor
    · intro atomic
      exact absurd (atomic.kept error failed) taken
    · intro passes
      exact absurd (passes cf entries listed).1 stopped
  · have unfailed : ∀ error, (txn.commit options context core).1 ≠ .error error := by
      intro error failed
      rw [done] at failed
      cases failed
    constructor
    · intro atomic cf entries listed
      obtain ⟨passes, committed⟩ := families cf entries listed
      refine ⟨passes, ?_⟩
      intro key write held
      apply (committed.shows_iff sound whole held).mp
      intro now
      exact atomic.shown done now cf key write
        ((buffered cf key write).mpr ⟨entries, listed, held⟩)
    · intro visible
      refine ⟨fun error failed => absurd failed (unfailed error),
        fun error failed => absurd failed (unfailed error),
        fun error failed => absurd failed (unfailed error), ?_⟩
      intro _ now cf key write written
      obtain ⟨entries, listed, held⟩ := (buffered cf key write).mp written
      exact ((families cf entries listed).2.shows_iff sound whole held).mpr
        ((visible cf entries listed).2 key write held) now

def twoFamilyWrites : Transaction :=
  (Transaction.begin.putCf "a" [7] [1]).putCf "b" [8] [2]

/-- The environment of its commit, with a failure at a family or without. -/
def twoFamilyContext (failing : Option String) : CommitContext :=
  { stamps := fun _ _ =>
      { logged := 1, stored := 1, nonce := Vector.replicate 12 0 }
    faults := fun cf => if failing = some cf then some .openLog else none }

theorem grouped_twoFamilyWrites : twoFamilyWrites.Grouped :=
  (Transaction.grouped_begin.buffer "a" [7] _).buffer "b" [8] _

theorem commit_of_two_families_is_all_or_nothing :
    AllOrNothing .default (twoFamilyContext none) twoFamilyWrites .empty := by
  apply (commit_is_all_or_nothing_iff (Reachable.empty .default)
    (twoFamilyContext none) grouped_twoFamilyWrites).mpr
  have sizes : ∀ family ∈ twoFamilyWrites.writes.toList,
      ((batchWrites (twoFamilyContext none) family.1 family.2).map
        (·.size)).sum < EngineOptions.default.writeBufferLimit := by decide +kernel
  intro cf entries listed
  have fits : Fits .default (twoFamilyContext none) cf entries .empty := by
    rw [Fits, Below, show empty.bytesOf cf = 0 from rfl, Nat.zero_add]
    exact sizes (cf, entries)
      ((NameMap.mem_toList twoFamilyWrites.writes cf entries).mpr listed)
  refine ⟨trivial, ?_⟩
  intro key write held
  refine .inr (.inl ⟨fits, ?_⟩)
  intro timestamp covered
  cases covered

/-- The log of the second family cannot be opened.  The commit fails, its
first write is visible and the buffer is lost. -/
theorem failed_commit_shows_first_family :
    let result := twoFamilyWrites.commit .default (twoFamilyContext (some "b"))
      .empty
    result.1 = .error .io ∧
      (result.2.2.getCf 10 "a" [7]).1 = .ok (some [1]) ∧
      (EngineCore.empty.getCf 10 "a" [7]).1 = .ok none ∧
      result.2.1.buffered "b" [8] = none ∧
      ¬ AllOrNothing .default (twoFamilyContext (some "b")) twoFamilyWrites
        .empty := by
  intro result
  have failed : result.1 = .error .io := rfl
  have visible : (result.2.2.getCf 10 "a" [7]).1 = .ok (some [1]) := rfl
  have missing : (empty.getCf 10 "a" [7]).1 = .ok none := rfl
  refine ⟨failed, visible, missing, ?_, ?_⟩
  · exact Transaction.buffered_commit _ _ _ _ _ _
  · intro atomic
    have unseen : (result.2.2.getCf 10 "a" [7]).1 = (empty.getCf 10 "a" [7]).1 :=
      atomic.unseen _ failed 10 "a" [7]
    cases unseen

end ApexStore
