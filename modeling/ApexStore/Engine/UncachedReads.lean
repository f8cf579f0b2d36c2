import ApexStore.Engine.CommitAtomicity
import ApexStore.Engine.FamilyIsolation

/-!
# Reads behind the cache

The value cache of the tables is keyed without the family, and a value in it
outlives its expiry.  `EngineCore.uncached` is the engine as it would be with
an empty cache.  What it answers changes with writes, and with flushes that do
not keep every read; lookups do not change it.
-/

namespace ApexStore

open VersionSet LogRecord List EngineCore Option

variable {writes : List BatchWrite} {size : Nat} {context : WriteContext} {cf : String}

namespace EngineCore

def uncached (core : EngineCore) : EngineCore :=
  { core with
    store := { core.store with versions := core.store.versions.clearCache } }

/-- The cache holds nothing that the tables do not say, neither under a key nor
under its TTL key. -/
def Coherent (core : EngineCore) (now : Nanos) (cf : String) (key : Bytes) : Prop :=
  core.memtableRecord cf key = none → core.store.peek now cf key =
        core.store.versions.lookup core.store.dir now cf key ∧
          core.store.peek now cf (ttlKey key) =
        core.store.versions.lookup core.store.dir now cf (ttlKey key)

/-- No version of a key carries an expiry, and there is nothing under its TTL
key. -/
structure NeverExpires (core : EngineCore) (cf : String) (key : Bytes) : Prop where
  memory : ∀ record, core.memtableRecord cf key = some record → record.expiresAt = none
  tables : ∀ table ∈ core.store.versions.getTables cf, ∀ record,
    table.version core.store.dir key = some record → record.expiresAt = none
  side : ∀ table ∈ core.store.versions.getTables cf,
    table.version core.store.dir (ttlKey key) = none

/-- Every read of a key behind the cache is as before. -/
def Steady (cf : String) (key : Bytes) (before after : EngineCore) : Prop :=
  ∀ now, after.uncached.answer now cf key = before.uncached.answer now cf key

/-- A flush writes the whole memtable and finds nothing that changes a read of
a key that is not reserved. -/
structure FlushQuiet (options : EngineOptions) (clock : FlushClock)
    (cf : String) (core : EngineCore) : Prop where
  fresh : clock.Fresh core
  flushable : ∀ mem, (core.memtablesOf cf).getLast? = some mem →
    mem.data.isEmpty = false → Flushable options.storage clock mem.data
  keeps : ¬ core.Idle cf → ∀ now key, ttlPrefix.isPrefixOf key = false →
    core.uncached.FlushKeeps clock now cf key

/-- So does the flush after an insertion that fills the memtable, and no
compaction is started. -/
abbrev InsertQuiet (options : EngineOptions) (clock : FlushClock) (cf : String)
    (record : LogRecord) (size : Nat) (core : EngineCore) : Prop :=
  core.InsertCalm options cf record size (FlushQuiet options clock cf)

structure BatchQuiet (options : EngineOptions) (clock : FlushClock) (cf : String)
    (writes : List BatchWrite) (core : EngineCore) : Prop where
  calm : core.Calm options cf (writes.map (·.size)).sum
  flush : options.writeBufferLimit ≤ (core.applyBatch cf writes).bytesOf cf →
    FlushQuiet options clock cf (core.applyBatch cf writes)

variable {options : EngineOptions} {core before after : EngineCore}
  {cf other : String} {key target : Bytes} {now : Nanos}

theorem sound_uncached (sound : EngineSound options core) :
    EngineSound options core.uncached :=
  ⟨sound.store.withCache ∅, sound.memory.withStore _⟩

theorem peek_uncached (core : EngineCore) (now : Nanos) (cf : String) (key : Bytes) :
    core.uncached.store.peek now cf key =
      core.store.versions.lookup core.store.dir now cf key := by
  rfl

theorem answer_uncached (coherent : core.Coherent now cf key) :
    core.uncached.answer now cf key = core.answer now cf key := by
  have record : core.uncached.memtableRecord cf key = core.memtableRecord cf key := rfl
  have covering : core.uncached.coveringRangeTombstoneTs cf key =
      core.coveringRangeTombstoneTs cf key := rfl
  have newest : core.uncached.newestEntry cf key = core.newestEntry cf key := rfl
  rw [answer, answer, record]
  cases held : core.memtableRecord cf key with
  | some record => rfl
  | none =>
    obtain ⟨here, side⟩ := coherent held
    rw [tableValue, tableValue, sideExpired, sideExpired, covering, newest,
      peek_uncached, peek_uncached, here, side]

/-! ## Without expiries -/

section

variable (sound : EngineSound options core) (lasting : core.NeverExpires cf key)
include sound lasting

theorem lookup_of_lasting (now later : Nanos) :
    core.store.versions.lookup core.store.dir now cf key =
      core.store.versions.lookup core.store.dir later cf key := by
  rw [sound.store.lookup_eq, sound.store.lookup_eq]
  congr 1
  apply findSome?_congr
  intro table member
  cases found : table.version core.store.dir key with
  | none => rfl
  | some record =>
    have permanent := lasting.tables table (mem_reverse.mp member) record found
    rw [bind_some, bind_some, Table.verdict, Table.verdict,
      isExpiredAt_of_none permanent, isExpiredAt_of_none permanent]

theorem lookup_side_of_lasting (now : Nanos) :
    core.store.versions.lookup core.store.dir now cf (ttlKey key) = none := by
  rw [sound.store.lookup_eq]
  have nothing : (core.store.versions.getTables cf).reverse.findSome?
      (fun table => (table.version core.store.dir (ttlKey key)).bind
        (table.verdict now (ttlKey key))) = none := by
    rw [List.findSome?_eq_none_iff]
    intro table member
    rw [lasting.side table (mem_reverse.mp member)]
    rfl
  rw [nothing]
  rfl

theorem answer_of_lasting (now later : Nanos) :
    core.uncached.answer now cf key = core.uncached.answer later cf key := by
  have record : core.uncached.memtableRecord cf key = core.memtableRecord cf key := rfl
  rw [answer, answer, record]
  cases held : core.memtableRecord cf key with
  | some record =>
    have permanent := lasting.memory record held
    dsimp only
    rw [memtableAnswer, memtableAnswer, isExpiredAt_of_none permanent,
      isExpiredAt_of_none permanent]
  | none =>
    rw [sideExpired, sideExpired, peek_uncached, peek_uncached,
      lookup_side_of_lasting sound lasting,
      lookup_side_of_lasting sound lasting, tableValue, tableValue, peek_uncached,
      lookup_of_lasting sound lasting now later]
    cases core.uncached.coveringRangeTombstoneTs cf key with
    | none => rfl
    | some timestamp =>
      dsimp only
      cases newest : core.uncached.newestEntry cf key with
      | none => rfl
      | some entry =>
        obtain ⟨table, version⟩ := entry
        have permanent : version.expiresAt = none := by
          obtain ⟨_, member, found⟩ := exists_of_findSome?_eq_some newest
          obtain ⟨_, stored, same⟩ := map_eq_some_iff.mp found
          cases same
          exact lasting.tables table (mem_reverse.mp member) _ stored
        rw [filter_some, filter_some]
        rw [isExpiredAt_of_none permanent, isExpiredAt_of_none permanent]
        rfl

end

/-! ## What keeps reads steady -/

namespace Steady

theorem refl (cf : String) (key : Bytes) (core : EngineCore) :
    Steady cf key core core :=
  fun _ => rfl

theorem trans {middle : EngineCore} (left : Steady cf key before middle)
    (right : Steady cf key middle after) : Steady cf key before after :=
  fun now => (right now).trans (left now)

/-- The same record in memory under the same range tombstones, over the same
tables. -/
theorem of_views (record : after.memtableRecord cf key = before.memtableRecord cf key)
    (covering : after.coveringRangeTombstoneTs cf key =
      before.coveringRangeTombstoneTs cf key)
    (store : after.uncached.store = before.uncached.store) :
    Steady cf key before after := by
  intro now
  have record' : after.uncached.memtableRecord cf key =
      before.uncached.memtableRecord cf key := record
  have covering' : after.uncached.coveringRangeTombstoneTs cf key =
      before.uncached.coveringRangeTombstoneTs cf key := covering
  rw [answer, answer, record', tableValue, tableValue, covering',
    sideExpired, sideExpired, newestEntry, newestEntry, store]

variable {record : LogRecord} {clock : FlushClock}

theorem insertMemtable (core : EngineCore)
    (apart : ¬ (cf = other ∧ record.key = target))
    (size : Nat) : Steady other target core (core.insertMemtable cf record size) := by
  refine of_views ?_ ?_ rfl
  · rw [memtableRecord_insertMemtable, if_neg apart]
  · rw [coveringRangeTombstoneTs_eq, coveringRangeTombstoneTs_eq, allRanges_insertMemtable]

theorem applyBatch (core : EngineCore)
    (apart : ¬ (cf = other ∧ ∃ write ∈ writes, write.key = target)) :
    Steady other target core (core.applyBatch cf writes) := by
  refine of_views ?_ (covering_applyBatch core cf other writes target) ?_
  · rw [EngineCore.applyBatch, memtableRecord_insertBatch]
    split
    · next family =>
      have missing :
          writes.reverse.find? (fun write => decide (write.key = target)) = none := by
        rw [List.find?_eq_none]
        intro write member same
        exact apart ⟨family, write, mem_reverse.mp member, of_decide_eq_true same⟩
      rw [missing]
      rfl
    · rfl
  · rw [uncached, applyBatch_store]
    rfl

theorem deleteRange (core : EngineCore) {range : RangeTombstone}
    (apart : ¬ (cf = other ∧ range.covers target = true)) :
    Steady other target core (core.insertRange cf range) := by
  refine of_views (memtableRecord_insertRange core cf other range target) ?_ rfl
  have uncovered : (if cf = other then [range] else []).filter (·.covers target) = [] := by
    split
    · next family =>
      have outside : range.covers target = false :=
        Bool.eq_false_iff.mpr (fun covered => apart ⟨family, covered⟩)
      rw [filter_singleton, outside]
      rfl
    · rfl
  rw [coveringRangeTombstoneTs_eq, coveringRangeTombstoneTs_eq, allRanges,
    allRanges, rangesOf_insertRange, memtableRanges_insertRange, maxCovering, maxCovering]
  simp only [filter_append, uncovered, append_nil]

theorem readAll (sound : EngineSound options core) (now : Nanos) (cf other : String)
    (keys : List Bytes) (target : Bytes) :
    Steady other target core (core.readAll now cf keys) := by
  induction keys generalizing core with
  | nil => exact refl other target core
  | cons key keys ih =>
    have first : Steady other target core (core.readAll now cf [key]) := by
      refine of_views rfl rfl ?_
      rw [readAll]
      dsimp only [foldl_cons]
      rw [sound.store.get_eq]
      rfl
    have rest := ih (sound.readAll now cf [key])
    exact first.trans rest

theorem getCf (sound : EngineSound options core) (now : Nanos) (cf other : String)
    (key target : Bytes) : Steady other target core (core.getCf now cf key).2 := by
  obtain ⟨keys, _, _, reads⟩ := getCf_reads now cf key core
  rw [reads]
  exact readAll sound now cf other keys target

theorem evict (core : EngineCore) (dropped : Bytes → Bool) :
    Steady cf key core (core.evict dropped) := of_views rfl rfl rfl

section

variable (sound : EngineSound options core)
include sound

theorem flush_other (apart : cf ≠ other) (quiet : FlushQuiet options clock cf core) :
    Steady other target core (core.flushMemtableImpl options clock cf).2 := by
  have frame := frame_flushMemtableImpl options clock cf core
  have works := sound.flush_isOk quiet.flushable
  have outcome := flushMemtableImpl_outcome options clock cf core
  generalize core.flushMemtableImpl options clock cf = result at outcome works frame ⊢
  cases outcome with
  | idle _ => exact refl other target core
  | synced _ _ _ => exact of_views rfl rfl rfl
  | failed _ _ _ _ _ _ | uncounted _ _ _ _ _ _ _ _ => cases works
  | written mem last filled table dir done _ =>
    have kept : ∀ table ∈ core.store.versions.getTables other, ∀ path,
        table.path = some path → dir[path]? = core.store.dir[path]? := by
      intro owner member path located
      have files := @flushTable_dir options.storage core.store.dir clock mem.data path (by
          rintro rfl
          exact sound.store.path_ne quiet.fresh member located)
      rwa [done] at files
    intro now
    have same : SameReads other now core.uncached
        (uncached ({ (core.popMemtable cf).installTable cf table
          dir with
            memtableBytes := core.memtableBytes.insert cf 0 }.clearLog cf)) := by
      refine ⟨frame.memtables other apart.symm, rfl, frame.tables other apart.symm, kept, ?_⟩
      intro key
      rw [peek_uncached, peek_uncached, ← lookup_congr_dir kept now key]
      have tables := getTables_addTable_ne apart core.store.versions table
      exact congrArg (fun tables => (tables.reverse.findSome? (fun table =>
        table.answer dir core.store.versions.hasBlockCache
          core.store.versions.quarantined now key)).join) tables
    exact same.answer_eq target

theorem flush_same (quiet : FlushQuiet options clock cf core)
    (plain : ttlPrefix.isPrefixOf target = false) :
    Steady cf target core (core.flushMemtableImpl options clock cf).2 := by
  have works := sound.flush_isOk quiet.flushable
  have outcome := flushMemtableImpl_outcome options clock cf core
  generalize core.flushMemtableImpl options clock cf = result at outcome works ⊢
  cases outcome with
  | idle _ => exact refl cf target core
  | synced _ _ _ => exact of_views rfl rfl rfl
  | failed _ _ _ _ _ _ | uncounted _ _ _ _ _ _ _ _ => cases works
  | written mem last filled table dir done _ =>
    have busy : ¬ core.Idle cf := by
      intro idle
      rw [idle mem last] at filled
      cases filled
    have installed := @flushInstalled_of_done options core.uncached cf clock mem
      (sound_uncached sound) quiet.fresh last table dir done
    intro now
    have answered := installed.answer_eq (sound_uncached sound) quiet.fresh now target
    rw [(installed.answerOver_eq_iff (sound_uncached sound) plain now).mpr
      (quiet.keeps busy now target plain)] at answered
    exact answered

theorem flush (quiet : FlushQuiet options clock cf core)
    (apart : ¬ (cf = other ∧ ttlPrefix.isPrefixOf target = true)) :
    Steady other target core (core.flushMemtableImpl options clock cf).2 := by
  by_cases family : cf = other
  · subst family
    exact flush_same sound quiet
      (Bool.eq_false_iff.mpr (fun reserved => apart ⟨rfl, reserved⟩))
  · exact flush_other sound family quiet

theorem insertRecord (bare : record.Bare)
    (quiet : InsertQuiet options clock cf record size core)
    (apart : ¬ (cf = other ∧
      (record.key = target ∨ ttlPrefix.isPrefixOf target = true))) :
    Steady other target core
      (core.insertRecord options clock cf record size).2 := by
  have inserted : Steady other target core (core.insertMemtable cf record size) :=
    insertMemtable core (fun ⟨family, here⟩ => apart ⟨family, .inl here⟩) size
  unfold EngineCore.insertRecord
  dsimp only
  split
  · next full =>
    have whole : EngineSound options (core.insertMemtable cf record size) :=
      ⟨sound.store, sound.memory.insertMemtable cf bare size⟩
    exact inserted.trans (flush whole (quiet.flush full)
      (fun ⟨family, reserved⟩ => apart ⟨family, .inr reserved⟩))
  · exact inserted

theorem batch (quiet : BatchQuiet options clock cf writes core)
    (apart : ¬ (cf = other ∧ ((∃ write ∈ writes, write.key = target) ∨
      ttlPrefix.isPrefixOf target = true))) : Steady other target core
      ((core.applyBatch cf writes).flushIfFull options clock cf).2 := by
  have applied : Steady other target core (core.applyBatch cf writes) :=
    applyBatch core (fun ⟨family, here⟩ => apart ⟨family, .inl here⟩)
  unfold flushIfFull
  split
  · next full =>
    exact applied.trans (flush (sound.applyBatch cf writes) (quiet.flush full)
      (fun ⟨family, reserved⟩ => apart ⟨family, .inr reserved⟩))
  · exact applied

end

theorem logged (core : EngineCore) (cf : String) (entry : WalEntry) :
    Steady other target core
      ((core.walHandle cf).writeRecord cf entry) := of_views rfl rfl rfl

theorem quiet_logged (quiet : InsertQuiet options clock cf record size core)
    (entry : WalEntry) :
    InsertQuiet options clock cf record size
      ((core.walHandle cf).writeRecord cf entry) := by
  refine ⟨quiet.calm, fun full => ?_⟩
  obtain ⟨fresh, flushable, keeps⟩ := quiet.flush full
  refine ⟨fresh, flushable, fun busy now key plain => ?_⟩
  have same := keeps busy now key plain
  exact ⟨same.permanent, same.dropped, same.outlived, same.cached, same.revealed,
    same.hidden⟩

theorem deleteCf (sound : EngineSound options core) (fresh : context.flush.Fresh core)
    (quiet : InsertQuiet options context.flush cf
      (tombstone context.inserted key) key.length core)
    (apart : ¬ (cf = other ∧ (key = target ∨ ttlPrefix.isPrefixOf target = true))) :
    Steady other target core (core.deleteCf options context cf key).2 := by
  have locked : Steady other target core (core.deleteLocked options context cf key).2 := by
    refine (logged core cf _).trans
      (insertRecord ?_ (fun _ => rfl) (quiet_logged quiet _) apart)
    exact ⟨sound.store, (sound.memory.walHandle cf).writeRecord cf (fun _ => rfl)⟩
  have whole := sound.deleteLocked fresh cf key
  have read := locked.trans (getCf whole context.read cf other key target)
  rcases deleteCf_state options context cf key core with same | same | same
  · rw [same]
    exact locked
  · rw [same]
    exact read
  · rw [same]
    exact read.trans (getCf (whole.getCf context.read cf key) context.read cf
      other (ttlKey key) target)

theorem putCf (sound : EngineSound options core) {value : Bytes} {ttl : Option Nanos}
    (quiet : InsertQuiet options context.flush cf
      (putRecord options context cf key value ttl) (key.length + value.length) core)
    (apart : ¬ (cf = other ∧ (key = target ∨ ttlPrefix.isPrefixOf target = true))) :
    Steady other target core (core.putCf options context cf key value ttl).2 := by
  have fields := putRecord_fields options context cf key value ttl
  have bare : (putRecord options context cf key value ttl).Bare :=
    bare_of_live fields.2.2.2.1
  unfold EngineCore.putCf
  split
  · exact refl other target core
  · refine (logged core cf _).trans (insertRecord ?_ bare (quiet_logged quiet _) ?_)
    · exact ⟨sound.store, (sound.memory.walHandle cf).writeRecord cf bare⟩
    · rw [fields.1]
      exact apart

theorem scanCf (sound : EngineSound options core) (now : Nanos)
    (cf other : String) (lower upper : Option Bytes) (limit : Option Nat)
    (target : Bytes) :
    Steady other target core (core.scanCf now cf lower upper limit).2 := by
  obtain ⟨keys, looked⟩ := core.scanCf_reads now cf lower upper limit
  rw [looked]
  exact readAll sound now cf other (keys.map ttlKey) target

end Steady

end EngineCore

/-! ## Commits -/

/-- A commit meets no failure and fills no memtable. -/
def CommitQuiet (options : EngineOptions) (context : CommitContext)
    (txn : Transaction) (core : EngineCore) : Prop :=
  ∀ (cf : String) (entries : ByteMap TxnWrite), txn.writes[cf]? = some entries →
    Passes options context cf entries core ∧ Fits options context cf entries core

namespace EngineCore

variable {options : EngineOptions} {context : CommitContext}
  {core : EngineCore}

theorem commitFamily_of_fits {entries : ByteMap TxnWrite}
    (passes : Passes options context cf entries core)
    (fits : Fits options context cf entries core) :
    core.commitFamily options context cf entries =
      (.ok false, core.applyBatch cf (batchWrites context cf entries)) := by
  have below : ¬ options.writeBufferLimit ≤
      (core.applyBatch cf (batchWrites context cf entries)).bytesOf cf := by
    rw [bytesOf_applyBatch]
    exact Nat.not_le.mpr fits
  rw [Passes] at passes
  unfold commitFamily
  split at passes
  · next fault =>
    rw [fault]
    dsimp only
    rw [if_neg below]
  · next fault =>
    rw [fault]
    dsimp only
    rw [if_neg below]
  · cases passes

theorem commitFamilies_of_fits {families : List (String × ByteMap TxnWrite)}
    (distinct : families.Pairwise (fun first second => first.1 < second.1))
    (quiet : ∀ family ∈ families, Passes options context family.1 family.2 core ∧
        Fits options context family.1 family.2 core) :
    (core.commitFamilies options context families).1 = .ok () ∧ ∀ other target,
        (∀ family ∈ families, ¬ (family.1 = other ∧ target ∈ family.2)) →
          Steady other target core
          (core.commitFamilies options context families).2 := by
  induction families generalizing core with
  | nil => exact ⟨rfl, fun other target _ => .refl other target core⟩
  | cons family families ih =>
    obtain ⟨cf, entries⟩ := family
    obtain ⟨first, rest⟩ := pairwise_cons.mp distinct
    obtain ⟨passes, fits⟩ := quiet _ mem_cons_self
    have turn := commitFamily_of_fits passes fits
    have later := @ih (core.applyBatch cf (batchWrites context cf entries)) rest ?_
    · rw [commitFamilies, turn]
      refine ⟨later.1, ?_⟩
      intro other target apart
      refine Steady.trans ?_ (later.2 other target (forall_mem_cons.mp apart).2)
      apply Steady.applyBatch
      rintro ⟨family, write, member, rfl⟩
      obtain ⟨⟨key, held⟩, listed, rfl⟩ := mem_map.mp member
      exact apart _ mem_cons_self ⟨family, Std.ExtTreeMap.mem_iff_isSome_getElem?.mpr (by
          rw [(ByteMap.mem_toList entries key held).mp listed]
          rfl)⟩
    · intro family member
      have beside := Beside.commitFamily (ne_of_gt (first family member))
        options context entries core
      rw [turn] at beside
      obtain ⟨passes, fits⟩ := quiet family (mem_cons_of_mem _ member)
      exact ⟨beside.passes_iff.mpr passes, beside.fits_iff.mpr fits⟩

theorem commit_of_quiet {txn : Transaction}
    (quiet : CommitQuiet options context txn core) :
    (txn.commit options context core).1 = .ok () ∧
      ∀ cf key, txn.buffered cf key = none →
        Steady cf key core (txn.commit options context core).2.2 := by
  unfold Transaction.commit
  split
  · exact ⟨rfl, fun cf key _ => .refl cf key core⟩
  · obtain ⟨done, steady⟩ := @commitFamilies_of_fits options context core
      txn.writes.toList txn.writes.toList_sorted
        (fun family member => quiet family.1 family.2
        ((NameMap.mem_toList txn.writes family.1 family.2).mp member))
    refine ⟨done, fun cf key apart => steady cf key ?_⟩
    rintro ⟨family, entries⟩ member ⟨rfl, present⟩
    have listed := (NameMap.mem_toList txn.writes family entries).mp member
    rw [Transaction.buffered, listed, bind_some] at apart
    rw [Std.ExtTreeMap.mem_iff_isSome_getElem?, apart] at present
    cases present

end EngineCore

/-! ## Calls of other parties -/

namespace EngineOp

/-- The keys a call may write to.  A flush may write to any reserved key of
its family. -/
def Touches (cf : String) (key : Bytes) : EngineOp → Prop
  | put _ family target _ _ =>
    family = cf ∧ (target = key ∨ ttlPrefix.isPrefixOf key = true)
  | delete _ family target =>
    family = cf ∧ (target = key ∨ ttlPrefix.isPrefixOf key = true)
  | setBatch _ family items => family = cf ∧
      ((∃ item ∈ items, item.2.1 = key) ∨ ttlPrefix.isPrefixOf key = true)
  | deleteBatch _ family keys => family = cf ∧
      ((∃ item ∈ keys, item.2 = key) ∨ ttlPrefix.isPrefixOf key = true)
  | commit _ txn => txn.buffered cf key ≠ none
  | deleteRange _ _ _ family start stop => family = cf ∧ start ≤ key ∧ key < stop
  | flush _ family => family = cf ∧ ttlPrefix.isPrefixOf key = true
  | get _ _ _ | scan _ _ _ _ _ | evict _ => False
  | compact family _ => family = cf
  | reopen _ => True

/-- A call changes no read but of the keys it writes to: what it flushes is
read as before, and it neither compacts, starts a compaction, nor restarts. -/
def Quiet (options : EngineOptions) (core : EngineCore) : EngineOp → Prop
  | put context cf key value ttl =>
    core.InsertQuiet options context.flush cf
      (EngineCore.putRecord options context cf key value ttl)
        (key.length + value.length)
  | delete context cf key =>
    core.InsertQuiet options context.flush cf
      (.tombstone context.inserted key) key.length
  | setBatch clock cf items =>
    core.BatchQuiet options clock cf (putWrites items)
  | deleteBatch clock cf keys =>
    core.BatchQuiet options clock cf (deleteWrites keys)
  | commit context txn => CommitQuiet options context txn core
  | flush clock cf => core.FlushQuiet options clock cf
  | deleteRange _ _ _ _ _ _ | get _ _ _ | scan _ _ _ _ _ | evict _ => True
  | compact _ _ | reopen _ => False

theorem steady_step {options : EngineOptions} {core : EngineCore}
    (sound : EngineSound options core)
    {op : EngineOp} (orderly : op.Orderly options core) (quiet : op.Quiet options core)
    {key : Bytes} (apart : ¬ op.Touches cf key) :
    EngineCore.Steady cf key core (op.step options core) := by
  cases op with
  | put context family target value ttl => exact .putCf sound quiet apart
  | delete context family target => exact .deleteCf sound orderly quiet apart
  | setBatch clock family items | deleteBatch clock family keys =>
    refine .batch sound quiet ?_
    rintro ⟨same, ⟨write, member, here⟩ | reserved⟩
    · obtain ⟨item, listed, rfl⟩ := mem_map.mp member
      exact apart ⟨same, .inl ⟨item, listed, here⟩⟩
    · exact apart ⟨same, .inr reserved⟩
  | commit context txn =>
    exact (commit_of_quiet quiet).2 cf key (not_not.mp apart)
  | deleteRange timestamp logged nonce family start stop =>
    refine (EngineCore.Steady.logged core family _).trans
      (EngineCore.Steady.deleteRange _ ?_)
    rintro ⟨same, covered⟩
    rw [RangeTombstone.covers, Bool.and_eq_true, decide_eq_true_eq,
      decide_eq_true_eq] at covered
    exact apart ⟨same, covered⟩
  | flush clock family => exact .flush sound quiet apart
  | get now family target => exact .getCf sound now family cf target key
  | scan now family lower upper limit =>
    exact .scanCf sound now family cf lower upper limit key
  | compact family plan => cases quiet
  | evict dropped => exact .evict core dropped
  | reopen found => cases quiet

end EngineOp

end ApexStore
