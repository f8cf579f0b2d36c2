import ApexStore.Engine.Expiry
import ApexStore.Engine.TextKeys

/-!
# Values and their TTL entries

A flush writes the expiry of a value twice: in its record, and in an entry of
its own under the TTL key.  As long as a family is written to key by key, with
text for keys, the newest version of a key in the tables and the newest entry
under its TTL key belong together whenever the version carries an expiry
(`TtlPaired`).  A version without an expiry writes no entry and removes none.
-/

namespace ApexStore

open VersionSet EngineCore

def PlainText (key : Bytes) : Prop :=
  ttlPrefix.isPrefixOf key = false ∧ ∃ text, key = utf8 text

theorem ttlKey_utf8 (text : String) : ttlKey (utf8 text) = ttlPrefix ++ utf8 text := by
  rw [ttlKey, fromUtf8Lossy_utf8]

theorem PlainText.eq_of_ttlKey {first second : Bytes} (plain : PlainText first)
    (plain' : PlainText second) (same : ttlKey first = ttlKey second) :
    first = second := by
  obtain ⟨_, text, rfl⟩ := plain
  obtain ⟨_, text', rfl⟩ := plain'
  rw [ttlKey_utf8, ttlKey_utf8] at same
  exact List.append_cancel_left same

theorem ttlKey_ttlKey_ne (text : String) {owner : Bytes}
    (plain : PlainText owner) : ttlKey (ttlKey (utf8 text)) ≠ ttlKey owner := by
  obtain ⟨free, other, rfl⟩ := plain
  have twice : ttlKey (ttlKey (utf8 text)) = ttlPrefix ++ (ttlPrefix ++ utf8 text) := by
    have named : ttlPrefix = utf8 "__ttl:" := by decide
    rw [ttlKey_utf8, named, ← utf8_append, ttlKey_utf8, named]
  rw [twice, ttlKey_utf8]
  intro same
  rw [← List.append_cancel_left same] at free
  cases free

/-- What holds while a family is written to key by key. -/
structure TtlPaired (options : EngineOptions) (cf : String) (core : EngineCore) :
    Prop where
  sound : EngineSound options core
  uncovered : ∀ key, core.coveringRangeTombstoneTs cf key = none
  memory : ∀ key record, core.memtableRecord cf key = some record → PlainText key
  sides : ∀ key table record, ttlPrefix.isPrefixOf key = true →
    core.newestEntry cf key = some (table, record) →
    (∃ owner, PlainText owner ∧ key = ttlKey owner) ∧
      record.isDeleted = false ∧ record.expiresAt = none ∧
      ∃ expiry : Nanos, record.value = leBytes 16 expiry.val
  paired : ∀ key table record expiry, PlainText key →
    core.newestEntry cf key = some (table, record) → record.expiresAt = some expiry →
    (core.newestEntry cf (ttlKey key)).map (·.2.value) = some (leBytes 16 expiry.val)
  cache : ∀ key value, ttlPrefix.isPrefixOf key = true →
    core.store.versions.kvCache[key]? = some value →
    (core.newestEntry cf key).map (·.2.value) = some value

namespace TtlPaired

variable {options : EngineOptions} {cf : String} {core : EngineCore}

theorem empty (options : EngineOptions) (cf : String) :
    TtlPaired options cf .empty := by
  refine ⟨.empty options, fun _ => rfl, ?_, ?_, ?_, ?_⟩
  · intro key record held
    cases held
  · intro key table record _ found
    cases found
  · intro key table record expiry _ found
    cases found
  · intro key value _ cached
    simp [EngineCore.empty, TableState.empty, VersionSet.new] at cached

theorem withLogs (paired : TtlPaired options cf core) {logs : NameMap (List WalEntry)}
    (memory : MemorySound { core with logs }) :
    TtlPaired options cf { core with logs } :=
  ⟨⟨paired.sound.store, memory⟩, paired.uncovered, paired.memory,
    paired.sides, paired.paired, paired.cache⟩

variable {key : Bytes} {clock : FlushClock}

variable (paired : TtlPaired options cf core)
include paired

theorem peek_side (reserved : ttlPrefix.isPrefixOf key = true) (now : Nanos) :
    core.store.peek now cf key = (core.newestEntry cf key).map (·.2.value) := by
  refine peek_eq_newest paired.sound.store ?_
    (fun value => paired.cache key value reserved) now
  intro table record newest
  obtain ⟨_, live, permanent, expiry, value⟩ := paired.sides key table record reserved newest
  refine ⟨live, permanent, ?_⟩
  rw [value]
  intro nil
  have length := congrArg List.length nil
  simp at length

/-! ### Reads -/

theorem read (now : Nanos) (key : Bytes) :
    TtlPaired options cf (core.readAll now cf [key]) := by
  refine ⟨paired.sound.readAll now cf [key], paired.uncovered, paired.memory, ?_, ?_, ?_⟩
  · intro other table record reserved found
    rw [newestEntry_readAll] at found
    exact paired.sides other table record reserved found
  · intro other table record expiry plain found expires
    rw [newestEntry_readAll] at found ⊢
    exact paired.paired other table record expiry plain found expires
  · intro other value reserved cached
    rw [newestEntry_readAll]
    rcases kvCache_read paired.sound.store cached with before | ⟨rfl, uncached, looked⟩
    · exact paired.cache other value reserved before
    · have peeked := paired.peek_side reserved now
      rw [TableState.peek, uncached] at peeked
      exact peeked.symm.trans looked

theorem readAll (now : Nanos) (keys : List Bytes) :
    TtlPaired options cf (core.readAll now cf keys) := by
  induction keys generalizing core with
  | nil => exact paired
  | cons key keys ih =>
    have rest := ih (paired.read now key)
    rwa [readAll_append] at rest

theorem getCf (now : Nanos) (key : Bytes) :
    TtlPaired options cf (core.getCf now cf key).2 := by
  obtain ⟨keys, _, _, reads⟩ := getCf_reads now cf key core
  rw [reads]
  exact paired.readAll now keys

/-! ### Writes -/

variable {record : LogRecord} {context : WriteContext}

theorem insertMemtable (bare : record.Bare) (plain : PlainText record.key)
    (size : Nat) :
    TtlPaired options cf (core.insertMemtable cf record size) := by
  refine ⟨⟨paired.sound.store, paired.sound.memory.insertMemtable cf bare
    size⟩, ?_, ?_, paired.sides, paired.paired, paired.cache⟩
  · intro key
    rw [coveringRangeTombstoneTs_eq, allRanges_insertMemtable, ← coveringRangeTombstoneTs_eq]
    exact paired.uncovered key
  · intro key other held
    rw [memtableRecord_insertMemtable] at held
    by_cases here : record.key = key
    · rw [← here]
      exact plain
    · rw [if_neg (fun both => here both.2)] at held
      exact paired.memory key other held

section

variable (fresh : clock.Fresh core)
include fresh

/-- A flush that installed its table: a value and its entry are written
together. -/
theorem installed {after : EngineCore}
    (installed : FlushInstalled options clock cf core after)
    (sound' : EngineSound options after) : TtlPaired options cf after := by
  have sound := paired.sound
  have popped := memory_popped sound installed.memtables installed.ranges
  have versions := newestEntry_withTable sound.store fresh installed.store
  -- an entry under a TTL key is written for the value it belongs to
  have owned : ∀ key side, ttlPrefix.isPrefixOf key = true →
      (core.flushedRecords clock cf)[key]? = some side →
      ∃ owner record expiry, core.memtableRecord cf owner = some record ∧
        record.isExpiredAt clock.now = false ∧ record.expiresAt = some expiry ∧
          key = ttlKey owner ∧
        side = ttlRecord clock owner expiry := by
    intro key side reserved written
    rcases (installed.flushed_iff sound key side).mp written with ⟨held, _⟩ | entry
    · rw [(paired.memory key side held).1] at reserved
      cases reserved
    · exact entry
  refine ⟨sound', fun key => (popped key).2.trans (paired.uncovered key), ?_, ?_, ?_, ?_⟩
  · intro key record held
    rw [(popped key).1] at held
    cases held
  · intro key table record reserved found
    rw [versions] at found
    cases written : (core.flushedRecords clock cf)[key]? with
    | none =>
      rw [written] at found
      exact paired.sides key table record reserved found
    | some side =>
      rw [written] at found
      cases found
      obtain ⟨owner, _, expiry, held, _, _, rfl, rfl⟩ := owned key record reserved written
      exact ⟨⟨owner, paired.memory owner _ held, rfl⟩, rfl, rfl, expiry, rfl⟩
  · intro key table record expiry plain found expires
    rw [versions] at found
    cases written : (core.flushedRecords clock cf)[key]? with
    | some version =>
      rw [written] at found
      cases found
      obtain ⟨held, unexpired⟩ := (installed.record_iff sound plain.1 record).mp written
      have side := (installed.flushed_iff sound (ttlKey key) _).mpr
        (.inr ⟨key, record, expiry, held, unexpired, expires, rfl, rfl⟩)
      rw [versions, side]
      rfl
    | none =>
      rw [written] at found
      have unwritten : (core.flushedRecords clock cf)[ttlKey key]? =
          none := by
        apply Option.eq_none_iff_forall_ne_some.mpr
        intro side entry
        obtain ⟨owner, owner_record, _, held, unexpired, _, same, _⟩ :=
          owned _ side (isPrefixOf_ttlKey key) entry
        have here := plain.eq_of_ttlKey (paired.memory owner _ held) same
        subst here
        rw [(installed.record_iff sound plain.1 owner_record).mpr
          ⟨held, unexpired⟩] at written
        cases written
      rw [versions, unwritten]
      exact paired.paired key table record expiry plain found expires
  · intro key value _ cached
    rw [installed.store] at cached
    simp [TableState.withTable, addTable, clearCache, bumpGeneration] at cached

/-- A flush that failed: the memtable is gone, and there may be a file that
belongs to no table. -/
theorem failed {file : SstFile} (sound' : EngineSound options
      { core.popMemtable cf with
        store := { core.store with
          dir := core.store.dir.insert (flushName clock.now) file } }) :
    TtlPaired options cf
      { core.popMemtable cf with
        store := { core.store with
          dir := core.store.dir.insert (flushName clock.now) file } } := by
  have sound := paired.sound
  have same : ∀ key, ({ core.popMemtable cf with
      store := { core.store with
        dir := core.store.dir.insert (flushName clock.now) file } } :
          EngineCore).newestEntry cf key = core.newestEntry cf key := by
    intro key
    apply findSome?_congr
    intro table member
    congr 1
    apply Table.version_congr
    intro path located
    rw [NameMap.getElem?_insert, if_neg]
    rintro rfl
    exact sound.store.path_ne fresh (List.mem_reverse.mp member) located
  refine ⟨sound', ?_, ?_, ?_, ?_, ?_⟩
  · intro key
    exact (memory_popped sound rfl rfl key).2.trans (paired.uncovered key)
  · intro key record held
    cases (memtableRecord_popMemtable sound.memory cf key).symm.trans held
  · intro key table record reserved found
    rw [same] at found
    exact paired.sides key table record reserved found
  · intro key table record expiry plain found expires
    rw [same] at found ⊢
    exact paired.paired key table record expiry plain found expires
  · intro key value reserved cached
    rw [same]
    exact paired.cache key value reserved cached

theorem flush :
    TtlPaired options cf (core.flushMemtableImpl options clock cf).2 := by
  have sound := paired.sound
  have sound' := sound.flush fresh cf
  have outcome := flushMemtableImpl_outcome options clock cf core
  generalize core.flushMemtableImpl options clock cf = result at outcome sound' ⊢
  cases outcome with
  | idle _ => exact paired
  | synced _ _ _ => exact paired.withLogs (sound.memory.walHandle cf)
  | failed mem newest nonempty error dir fails =>
    rw [flushTable_error fails] at sound' ⊢
    exact paired.failed fresh sound'
  | uncounted mem newest nonempty _ _ _ missing _ =>
    exact absurd missing (sound.memory.counted cf mem (List.mem_of_getLast? newest) nonempty)
  | written mem newest nonempty table dir done _ =>
    have placed := flushInstalled_of_done sound fresh newest done
    exact paired.installed fresh ⟨placed.memtables, placed.ranges,
      placed.store, placed.whole, placed.sorted⟩ sound'

theorem write {entry : WalEntry} (logged : entry.record.Bare) (bare : record.Bare)
    (plain : PlainText record.key) (size : Nat) :
    TtlPaired options cf (((core.walHandle cf).writeRecord cf
      entry).insertRecord options clock cf record size).2 := by
  have inserted := (paired.withLogs ((paired.sound.memory.walHandle
    cf).writeRecord cf logged)).insertMemtable bare plain size
  unfold insertRecord
  dsimp only
  split
  · exact inserted.flush fresh
  · exact inserted

end

theorem putCf (fresh : context.flush.Fresh core) (plain : PlainText key)
    (value : Bytes) (ttl : Option Nanos) :
    TtlPaired options cf (core.putCf options context cf key value ttl).2 := by
  obtain ⟨same, _, _, live, _, _⟩ := putRecord_fields options context cf key value ttl
  have bare := LogRecord.bare_of_live live
  unfold EngineCore.putCf
  split
  · exact paired
  · exact paired.write fresh bare bare (by rwa [same]) _

theorem deleteCf (fresh : context.flush.Fresh core) (plain : PlainText key) :
    TtlPaired options cf (core.deleteCf options context cf key).2 := by
  have locked : TtlPaired options cf (core.deleteLocked options context cf key).2 :=
    paired.write fresh (fun _ => rfl) (fun _ => rfl) plain _
  rcases deleteCf_state options context cf key core with same | same | same
  · rw [same]
    exact locked
  · rw [same]
    exact locked.getCf context.read key
  · rw [same]
    exact (locked.getCf context.read key).getCf context.read _

end TtlPaired

end ApexStore
