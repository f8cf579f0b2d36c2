import ApexStore.Engine.FlushReads

/-!
# Expiry over runs

The expiry of a value is in its record and, once the record is flushed, also
under the TTL key of its key.  A read of the tables goes by the TTL key alone.
Over runs of puts, deletes and flushes the last write of a key decides what is
read as long as every flush is safe (`EngineCore.FlushSafe`): a record that has
expired hides no older version, a record without an expiry finds no entry
under its TTL key, and no two keys share a TTL key.
-/

namespace ApexStore

open VersionSet List EngineCore Option LogRecord TableState

/-- What a read should answer when this is the last write. -/
def LogRecord.liveAt (now : Nanos) (record : LogRecord) : Option Bytes :=
  if record.isDeleted || record.isExpiredAt now then none
  else some record.value

theorem memtableAnswer_uncovered (now : Nanos) (record : LogRecord) :
    EngineCore.memtableAnswer none now record = record.liveAt now := by
  rw [memtableAnswer, liveAt]
  cases record.isDeleted <;> cases record.isExpiredAt now <;> rfl

theorem expiredBy_expiry (now : Nanos) (record : LogRecord) :
    expiredBy now (record.expiresAt.map (fun expiry =>
      leBytes 16 expiry.val)) = record.isExpiredAt now := by
  rw [isExpiredAt]
  cases record.expiresAt with
  | none => rfl
  | some expiry =>
    simp [expiredBy, leNat_leBytes_nanos]

namespace EngineCore

variable {config : StorageConfig} {core : EngineCore} {cf : String}
  {key : Bytes}

theorem peek_eq_newest (sound : StoreSound config core.store)
    (lasting : ∀ table record, core.newestEntry cf key = some (table, record) →
      record.isDeleted = false ∧ record.expiresAt = none ∧ record.value ≠ [])
    (cache : ∀ value, core.store.versions.kvCache[key]? = some value →
      (core.newestEntry cf key).map (·.2.value) = some value) (now : Nanos) :
    core.store.peek now cf key = (core.newestEntry cf key).map (·.2.value) := by
  cases newest : core.newestEntry cf key with
  | none =>
    rw [peek]
    cases cached : core.store.versions.kvCache[key]? with
    | none => exact lookup_of_absent sound now newest
    | some value =>
      have held := cache value cached
      rw [newest] at held
      cases held
  | some entry =>
    obtain ⟨table, record⟩ := entry
    obtain ⟨live, permanent, nonempty⟩ := lasting table record newest
    rw [peek]
    cases cached : core.store.versions.kvCache[key]? with
    | none =>
      apply lookup_of_newest sound _ newest
      simp [Table.verdict, live, isExpiredAt, permanent]
    | some value =>
      have held := cache value cached
      rw [newest] at held
      cases held
      simp [nonempty]

theorem kvCache_read (sound : StoreSound config core.store) {now : Nanos}
    {other value : Bytes}
    (cached : (core.readAll now cf [key]).store.versions.kvCache[other]? =
      some value) : core.store.versions.kvCache[other]? = some value ∨
      key = other ∧ core.store.versions.kvCache[key]? = none ∧
        core.store.versions.lookup core.store.dir now cf key = some value := by
  have looked := sound.get_eq now cf key
  rw [readAll, foldl_cons, foldl_nil, looked] at cached
  split at cached
  · next found uncached looked =>
    rw [ByteMap.getElem?_insert] at cached
    split at cached
    · next here =>
      cases cached
      exact .inr ⟨here, uncached, looked⟩
    · exact .inl cached
  · exact .inl cached

/-- A lookup that finds nothing leaves the cache alone. -/
theorem readAll_of_absent (sound : StoreSound config core.store) {now : Nanos}
    {keys : List Bytes}
    (absent : ∀ key ∈ keys, core.store.versions.lookup core.store.dir now cf key =
      none) :
    core.readAll now cf keys = core := by
  induction keys with
  | nil => rfl
  | cons key keys ih =>
    have looked := sound.get_eq now cf key
    rw [absent key mem_cons_self] at looked
    have first : core.readAll now cf [key] = core := by
      rw [readAll, foldl_cons, foldl_nil, looked]
      cases core.store.versions.kvCache[key]? <;> rfl
    have rest := ih (fun other member => absent other (mem_cons_of_mem _ member))
    rw [← singleton_append, ← readAll_append, first, rest]

theorem dir_readAll (now : Nanos) (cf : String) (keys : List Bytes)
    (core : EngineCore) :
    (core.readAll now cf keys).store.dir = core.store.dir := by
  induction keys generalizing core with
  | nil => rfl
  | cons read keys ih =>
    have rest := ih (core.readAll now cf [read])
    exact rest

theorem getTables_readAll (core : EngineCore) (now : Nanos) (family cf : String)
    (keys : List Bytes) : (core.readAll now family keys).store.versions.getTables cf =
      core.store.versions.getTables cf := by
  induction keys generalizing core with
  | nil => rfl
  | cons read keys ih =>
    refine (ih (core.readAll now family [read])).trans ?_
    rw [readAll, foldl_cons, foldl_nil]
    exact getTables_get ..

theorem newestEntry_readAll (core : EngineCore) (now : Nanos)
    (family cf : String) (keys : List Bytes) (key : Bytes) :
    (core.readAll now family keys).newestEntry cf key = core.newestEntry cf key := by
  rw [newestEntry, newestEntry, getTables_readAll, dir_readAll]

end EngineCore

/-- The calls on one family, and its flushes. -/
inductive ExpiryOp where
  | put (context : WriteContext) (key value : Bytes) (ttl : Option Nanos)
  | delete (context : WriteContext) (key : Bytes)
  | flush (clock : FlushClock)
  | get (now : Nanos) (key : Bytes)

namespace ExpiryOp

def step (options : EngineOptions) (cf : String) (core : EngineCore) :
    ExpiryOp → EngineCore
  | put context key value ttl => (core.putCf options context cf key value ttl).2
  | delete context key => (core.deleteCf options context cf key).2
  | flush clock => (core.flushMemtableImpl options clock cf).2
  | get now key => (core.getCf now cf key).2

/-- The record a call writes; an oversized key or value is turned down. -/
def written (options : EngineOptions) (cf : String) : ExpiryOp → Option LogRecord
  | put context key value ttl =>
    if (EngineCore.checkSizes key value).isOk then
      some (EngineCore.putRecord options context cf key value ttl)
    else none
  | delete context key => some (.tombstone context.inserted key)
  | flush _ | get _ _ => none

/-- The clock readings of a call, in the order they are taken. -/
def readings : ExpiryOp → List Nanos
  | put context _ _ _ => [context.created, context.ttlBase, context.flush.now]
  | delete context _ =>
    [context.created, context.inserted, context.flush.now, context.read]
  | flush clock => [clock.now]
  | get now _ => [now]

/-- The last write of a key, with one more call. -/
def note (options : EngineOptions) (cf : String) (key : Bytes)
    (last : Option LogRecord) (op : ExpiryOp) : Option LogRecord :=
  ((op.written options cf).filter (fun record =>
    decide (record.key = key))).or last

variable {options : EngineOptions} {cf : String} {op : ExpiryOp}

theorem note_of_written {record : LogRecord}
    (written : op.written options cf = some record)
    (last : Bytes → Option LogRecord) :
    (fun key => note options cf key (last key) op) =
      fun key => if record.key = key then some record else last key := by
  funext key
  rw [note, written, filter_some]
  by_cases here : record.key = key <;> simp [here]

theorem note_of_unwritten (unwritten : op.written options cf = none)
    (last : Bytes → Option LogRecord) :
    (fun key => note options cf key (last key) op) = last := by
  funext key
  rw [note, unwritten]
  rfl

end ExpiryOp

namespace EngineCore

/-- The flush of a memtable under which the last writes stay decisive. -/
structure FlushSafe (core : EngineCore) (options : EngineOptions)
    (clock : FlushClock) (cf : String) : Prop where
  fresh : clock.Fresh core
  flushable : ∀ mem, (core.memtablesOf cf).getLast? = some mem →
    mem.data.isEmpty = false → Flushable options.storage clock mem.data
  /-- A record that is left out hides nothing. -/
  dropped : ∀ key record, core.memtableRecord cf key = some record →
    record.isExpiredAt clock.now = true → core.newestEntry cf key = none
  /-- A value without an expiry has none left under its TTL key. -/
  permanent : ∀ key record, core.memtableRecord cf key = some record →
    record.isDeleted = false → record.expiresAt = none →
      core.newestEntry cf (ttlKey key) = none
  /-- No other key has the TTL key of a value that expires. -/
  apart : ∀ owner record key, core.memtableRecord cf owner = some record →
    record.expiresAt ≠ none → ttlKey key = ttlKey owner → key ≠ owner →
    core.memtableRecord cf key = none ∧ core.newestEntry cf key = none

/-- The locked part of a write is safe. -/
abbrev InsertSafe (core : EngineCore) (options : EngineOptions)
    (clock : FlushClock) (cf : String) (record : LogRecord) (size : Nat) : Prop :=
  core.InsertCalm options cf record size (·.FlushSafe options clock cf)

theorem InsertSafe.withLogs {core : EngineCore} {options : EngineOptions}
    {clock : FlushClock} {cf : String} {record : LogRecord} {size : Nat}
    (safe : core.InsertSafe options clock cf record size)
    (logs : NameMap (List WalEntry)) :
    ({ core with logs } : EngineCore).InsertSafe options clock cf record size := by
  refine ⟨safe.calm, fun full => ?_⟩
  have flush := safe.flush full
  exact ⟨flush.fresh, flush.flushable, flush.dropped, flush.permanent, flush.apart⟩

end EngineCore

/-- Keys outside the TTL names are written, all flushes are safe, and no empty
value is read from a table: once it is cached it counts as a tombstone. -/
def ExpiryOp.Safe (options : EngineOptions) (cf : String)
    (core : EngineCore) : ExpiryOp → Prop
  | put context key value ttl =>
    ttlPrefix.isPrefixOf key = false ∧ core.InsertSafe options context.flush cf
        (EngineCore.putRecord options context cf key value ttl)
          (key.length + value.length)
  | delete context key =>
    ttlPrefix.isPrefixOf key = false ∧ core.InsertSafe options context.flush cf
        (.tombstone context.inserted key) key.length
  | flush clock => core.FlushSafe options clock cf
  | get _ key =>
    core.memtableRecord cf key = none → ∀ table record,
      core.newestEntry cf key = some (table, record) → record.isDeleted = false →
        record.value ≠ []

/-! ## The invariant -/

/-- The tables tell of the last write of a key: it is their newest version,
with its expiry under the TTL key, or it had expired when it was flushed and
they have no version. -/
def EngineCore.Settled (core : EngineCore) (cf : String) (instant : Nanos)
    (key : Bytes) : Option LogRecord → Prop
  | none => core.newestEntry cf key = none
  | some record =>
    (core.newestEntry cf key = none ∧ record.isExpiredAt instant = true) ∨
      ∃ table, core.newestEntry cf key = some (table, record) ∧
        (record.isDeleted = false →
          (core.newestEntry cf (ttlKey key)).map (·.2.value) =
            record.expiresAt.map (fun expiry => leBytes 16 expiry.val))

/-- A value may stand in the cache: it is that of the newest version, unless
that one has expired by the instant. -/
def EngineCore.Cacheable (core : EngineCore) (cf : String) (instant : Nanos)
    (key value : Bytes) : Prop :=
  ∃ table record, core.newestEntry cf key = some (table, record) ∧ record.isDeleted = false ∧
    (record.isExpiredAt instant = true ∨ record.value = value ∧ value ≠ [])

/-- What holds when the last writes are known, for reads at an instant after
all flushes. -/
structure Decided (options : EngineOptions) (cf : String) (instant : Nanos)
    (core : EngineCore) (last : Bytes → Option LogRecord) : Prop where
  sound : EngineSound options core
  uncovered : ∀ key, core.coveringRangeTombstoneTs cf key = none
  memory : ∀ key record, core.memtableRecord cf key = some record →
    ttlPrefix.isPrefixOf key = false ∧ last key = some record
  sides : ∀ key table record, ttlPrefix.isPrefixOf key = true →
    core.newestEntry cf key = some (table, record) →
    record.isDeleted = false ∧ record.expiresAt = none ∧ record.value ≠ []
  cache : ∀ key value, core.store.versions.kvCache[key]? = some value →
    core.Cacheable cf instant key value
  settled : ∀ key, ttlPrefix.isPrefixOf key = false → core.memtableRecord cf key = none →
    core.Settled cf instant key (last key)

namespace Decided

variable {options : EngineOptions} {cf : String} {instant : Nanos}
  {core : EngineCore} {last : Bytes → Option LogRecord}

theorem empty (options : EngineOptions) (cf : String) (instant : Nanos) :
    Decided options cf instant .empty (fun _ => none) := by
  refine ⟨.empty options, fun _ => rfl, ?_, ?_, ?_, fun _ _ _ => rfl⟩
  · intro key record held
    cases held
  · intro key table record _ found
    cases found
  · intro key value cached
    simp [EngineCore.empty, TableState.empty, VersionSet.new] at cached

/-! ### Reads -/

variable {key : Bytes} {record : LogRecord} {clock : FlushClock}

variable (decided : Decided options cf instant core last)
include decided

theorem peek_reserved (reserved : ttlPrefix.isPrefixOf key = true) (now : Nanos) :
    core.store.peek now cf key = (core.newestEntry cf key).map (·.2.value) :=
  peek_eq_newest decided.sound.store
    (fun table record => decided.sides key table record reserved)
    (fun value cached => by
      obtain ⟨table, record, newest, _, expired | ⟨rfl, _⟩⟩ := decided.cache key value cached
      · rw [isExpiredAt, (decided.sides key table record reserved newest).2.1] at expired
        cases expired
      · rw [newest]
        rfl) now

theorem peek_absent (absent : core.newestEntry cf key = none) :
    core.store.peek instant cf key = none := by
  rw [peek]
  cases cached : core.store.versions.kvCache[key]? with
  | none => exact lookup_of_absent decided.sound.store instant absent
  | some value =>
    obtain ⟨table, record, newest, _⟩ := decided.cache key value cached
    rw [absent] at newest
    cases newest

theorem peek_deleted {table : Table}
    (newest : core.newestEntry cf key = some (table, record))
    (deleted : record.isDeleted = true) : core.store.peek instant cf key = none := by
  rw [peek]
  cases cached : core.store.versions.kvCache[key]? with
  | none =>
    exact lookup_of_newest decided.sound.store none newest (by simp [Table.verdict, deleted])
  | some value =>
    obtain ⟨other, found, there, live, _⟩ := decided.cache key value cached
    rw [newest] at there
    cases there
    rw [live] at deleted
    cases deleted

theorem peek_live {table : Table}
    (newest : core.newestEntry cf key = some (table, record))
    (live : record.isDeleted = false)
    (unexpired : record.isExpiredAt instant = false) :
    core.store.peek instant cf key = some record.value := by
  rw [peek]
  cases cached : core.store.versions.kvCache[key]? with
  | none =>
    exact lookup_of_newest decided.sound.store (some record.value) newest
      (by simp [Table.verdict, live, unexpired])
  | some value =>
    obtain ⟨other, found, there, _, expired | ⟨rfl, nonempty⟩⟩ :=
      decided.cache key value cached
    · rw [newest] at there
      cases there
      rw [unexpired] at expired
      cases expired
    · rw [newest] at there
      cases there
      simp [nonempty]

theorem answer_eq (plain : ttlPrefix.isPrefixOf key = false) :
    core.answer instant cf key = (last key).bind (·.liveAt instant) := by
  have sound := decided.sound.store
  cases held : core.memtableRecord cf key with
  | some record =>
    rw [answer, held, decided.uncovered, (decided.memory key record held).2]
    exact memtableAnswer_uncovered instant record
  | none =>
    have settled := decided.settled key plain held
    rw [answer, held, tableValue, decided.uncovered, sideExpired,
      decided.peek_reserved (isPrefixOf_ttlKey key)]
    cases written : last key with
    | none =>
      rw [written] at settled
      rw [decided.peek_absent settled]
      rfl
    | some record =>
      rw [written] at settled
      rw [bind_some, liveAt]
      rcases settled with ⟨absent, expired⟩ | ⟨table, newest, side⟩
      · rw [decided.peek_absent absent, expired]
        simp
      · cases deleted : record.isDeleted with
        | true =>
          rw [decided.peek_deleted newest deleted]
          simp
        | false =>
          rw [side deleted, expiredBy_expiry]
          cases expired : record.isExpiredAt instant with
          | true => cases core.store.peek instant cf key <;> rfl
          | false =>
            rw [decided.peek_live newest deleted expired]
            rfl

/-- What a lookup of a reserved key puts into the cache. -/
theorem cacheable_reserved (reserved : ttlPrefix.isPrefixOf key = true) {now : Nanos}
    {value : Bytes}
    (found : core.store.versions.lookup core.store.dir now cf key = some value) :
    core.Cacheable cf instant key value := by
  have sound := decided.sound.store
  cases newest : core.newestEntry cf key with
  | none =>
    rw [lookup_of_absent sound now newest] at found
    cases found
  | some entry =>
    obtain ⟨live, permanent, nonempty⟩ := decided.sides key entry.1 entry.2 reserved newest
    rw [lookup_of_newest sound (some entry.2.value) newest
      (by simp [Table.verdict, live, isExpiredAt, permanent])] at found
    cases found
    exact ⟨entry.1, entry.2, newest, live, .inr ⟨rfl, nonempty⟩⟩

/-- What a lookup of any key puts there, if its newest version is not empty. -/
theorem cacheable_plain {now : Nanos} (past : now ≤ instant)
    (nonempty : ∀ table record, core.newestEntry cf key = some (table, record) →
      record.isDeleted = false → record.value ≠ []) {value : Bytes}
    (found : core.store.versions.lookup core.store.dir now cf key = some value) :
    core.Cacheable cf instant key value := by
  have sound := decided.sound.store
  cases newest : core.newestEntry cf key with
  | none =>
    rw [lookup_of_absent sound now newest] at found
    cases found
  | some entry =>
    refine ⟨entry.1, entry.2, newest, ?_⟩
    cases deleted : entry.2.isDeleted with
    | true =>
      rw [lookup_of_newest sound none newest (by simp [Table.verdict, deleted])] at found
      cases found
    | false =>
      refine ⟨rfl, ?_⟩
      cases expired : entry.2.isExpiredAt now with
      | true => exact .inl (entry.2.isExpiredAt_mono past expired)
      | false =>
        rw [lookup_of_newest sound (some entry.2.value) newest
          (by simp [Table.verdict, deleted, expired])] at found
        cases found
        exact .inr ⟨rfl, nonempty entry.1 entry.2 newest deleted⟩

theorem get (now : Nanos) (harmless : ∀ value,
      core.store.versions.lookup core.store.dir now cf key = some value →
        core.Cacheable cf instant key value) :
    Decided options cf instant (core.readAll now cf [key]) last := by
  refine ⟨decided.sound.readAll now cf [key], decided.uncovered, decided.memory, ?_, ?_, ?_⟩
  · intro other table record reserved found
    rw [newestEntry_readAll] at found
    exact decided.sides other table record reserved found
  · intro other value cached
    unfold EngineCore.Cacheable
    rw [newestEntry_readAll]
    rcases kvCache_read decided.sound.store cached with before | ⟨rfl, _, looked⟩
    · exact decided.cache other value before
    · exact harmless value looked
  · intro other plain missing
    have settled := decided.settled other plain missing
    unfold EngineCore.Settled at settled ⊢
    simpa only [newestEntry_readAll] using settled

theorem readAll (now : Nanos) {keys : List Bytes}
    (harmless : ∀ key ∈ keys, ∀ value,
      core.store.versions.lookup core.store.dir now cf key = some value →
        core.Cacheable cf instant key value) :
    Decided options cf instant (core.readAll now cf keys) last := by
  induction keys generalizing core with
  | nil => exact decided
  | cons key keys ih =>
    have first := decided.get now (harmless key mem_cons_self)
    have rest := ih first (fun other member value found => by
      unfold EngineCore.Cacheable
      rw [newestEntry_readAll]
      refine harmless other (mem_cons_of_mem _ member) value ?_
      exact (lookup_get core.store.dir core.store.versions now now
        cf cf key other).symm.trans found)
    rwa [readAll_append] at rest

theorem getCf (now : Nanos) (harmless : core.memtableRecord cf key = none → ∀ value,
      core.store.versions.lookup core.store.dir now cf key = some value →
        core.Cacheable cf instant key value) :
    Decided options cf instant (core.getCf now cf key).2 last := by
  obtain ⟨keys, only, in_memory, reads⟩ := getCf_reads now cf key core
  rw [reads]
  apply decided.readAll now
  intro read member value
  rcases only read member with rfl | rfl
  · refine harmless ?_ value
    by_contra present
    rw [in_memory present] at member
    cases member
  · exact decided.cacheable_reserved (isPrefixOf_ttlKey key)

/-! ### Writes -/

theorem withLogs (logs : NameMap (List WalEntry))
    (memory : MemorySound { core with logs }) :
    Decided options cf instant { core with logs } last :=
  ⟨⟨decided.sound.store, memory⟩, decided.uncovered, decided.memory,
    decided.sides, decided.cache, decided.settled⟩

theorem insertMemtable (bare : record.Bare)
    (plain : ttlPrefix.isPrefixOf record.key = false)
    (size : Nat) : Decided options cf instant (core.insertMemtable cf record size)
      (fun key => if record.key = key then some record else last key) := by
  refine ⟨⟨decided.sound.store, decided.sound.memory.insertMemtable cf bare
    size⟩, ?_, ?_, decided.sides, decided.cache, ?_⟩
  · intro key
    rw [coveringRangeTombstoneTs_eq, allRanges_insertMemtable, ← coveringRangeTombstoneTs_eq]
    exact decided.uncovered key
  · intro key other held
    rw [memtableRecord_insertMemtable] at held
    by_cases here : record.key = key
    · rw [if_pos ⟨rfl, here⟩] at held
      rw [if_pos here]
      exact ⟨here ▸ plain, held⟩
    · rw [if_neg (fun both => here both.2)] at held
      rw [if_neg here]
      exact decided.memory key other held
  · intro key outside missing
    rw [memtableRecord_insertMemtable] at missing
    by_cases here : record.key = key
    · rw [if_pos ⟨rfl, here⟩] at missing
      cases missing
    · rw [if_neg (fun both => here both.2)] at missing
      rw [if_neg here]
      exact decided.settled key outside missing

theorem installed (past : clock.now ≤ instant) (safe : core.FlushSafe options clock cf)
    {after : EngineCore}
    (installed : EngineCore.FlushInstalled options clock cf core after)
    (sound' : EngineSound options after) : Decided options cf instant after last := by
  have sound := decided.sound
  have popped := memory_popped sound installed.memtables installed.ranges
  -- versions in the new table come first
  have versions := newestEntry_withTable sound.store safe.fresh installed.store
  refine ⟨sound', fun key => (popped key).2.trans (decided.uncovered key), ?_, ?_, ?_, ?_⟩
  · intro key record held
    rw [(popped key).1] at held
    cases held
  · intro key table record reserved found
    rw [versions] at found
    cases written : (core.flushedRecords clock cf)[key]? with
    | none =>
      rw [written] at found
      exact decided.sides key table record reserved found
    | some other =>
      rw [written] at found
      cases found
      rcases (installed.flushed_iff sound key record).mp written with
        ⟨held, _⟩ | ⟨owner, _, expiry, _, _, _, _, rfl⟩
      · rw [(decided.memory key record held).1] at reserved
        cases reserved
      · refine ⟨rfl, rfl, ?_⟩
        intro nil
        have length := congrArg List.length nil
        simp [ttlRecord, LogRecord.new] at length
  · intro key value cached
    rw [installed.store] at cached
    simp [withTable, addTable, clearCache, bumpGeneration] at cached
  · intro key plain _
    -- the TTL key is written for an owner of its own only
    have unowned : (∀ record ∈ core.memtableRecord cf key, record.expiresAt = none) →
        ¬ (core.memtableRecord cf key = none ∧ core.newestEntry cf key = none) →
        (core.flushedRecords clock cf)[ttlKey key]? = none := by
      intro permanent known
      apply eq_none_iff_forall_ne_some.mpr
      intro side written
      rcases (installed.flushed_iff sound _ _).mp written with
        ⟨held, _⟩ | ⟨owner, owned, expiry, held, _, expires, shared, rfl⟩
      · cases (decided.memory _ _ held).1
      · by_cases same : key = owner
        · subst same
          rw [permanent owned held] at expires
          cases expires
        · exact known (safe.apart owner owned key held (by simp [expires]) shared same)
    cases held : core.memtableRecord cf key with
    | none =>
      have same : after.newestEntry cf key = core.newestEntry cf key := by
        rw [versions, installed.record_eq sound plain, held]
        rfl
      have settled := decided.settled key plain held
      cases written : last key with
      | none =>
        rw [written] at settled
        exact same.trans settled
      | some record =>
        rw [written] at settled
        rcases settled with ⟨absent, expired⟩ | ⟨table, newest, side⟩
        · exact .inl ⟨same.trans absent, expired⟩
        · refine .inr ⟨table, same.trans newest, fun live => ?_⟩
          rw [versions, unowned (by simp [held]) (by simp [newest])]
          exact side live
    | some record =>
      rw [(decided.memory key record held).2]
      cases expired : record.isExpiredAt clock.now with
      | true =>
        left
        refine ⟨?_, record.isExpiredAt_mono past expired⟩
        rw [versions, installed.record_eq sound plain, held, Option.filter_some, expired]
        exact safe.dropped key record held expired
      | false =>
        right
        have written := (installed.record_iff sound plain record).mpr ⟨held, expired⟩
        refine ⟨_, by rw [versions, written]; rfl, fun live => ?_⟩
        cases expires : record.expiresAt with
        | some expiry =>
          have side := (installed.flushed_iff sound (ttlKey key) _).mpr
            (.inr ⟨key, record, expiry, held, expired, expires, rfl, rfl⟩)
          rw [versions, side]
          rfl
        | none =>
          rw [versions, unowned (by simp [held, expires]) (by simp [held]),
            safe.permanent key record held live expires]
          rfl

theorem flush (past : clock.now ≤ instant) (safe : core.FlushSafe options clock cf) :
    Decided options cf instant (core.flushMemtableImpl options clock cf).2 last := by
  have sound := decided.sound
  have sound' := sound.flush safe.fresh cf
  have works := sound.flush_isOk safe.flushable
  have outcome := flushMemtableImpl_outcome options clock cf core
  generalize core.flushMemtableImpl options clock cf = result at outcome works sound' ⊢
  cases outcome with
  | idle _ => exact decided
  | synced _ _ _ => exact decided.withLogs _ (sound.memory.walHandle cf)
  | failed _ _ _ _ _ _ | uncounted _ _ _ _ _ _ _ _ => cases works
  | written mem newest nonempty table dir done _ =>
    have placed := flushInstalled_of_done sound safe.fresh newest done
    exact decided.installed past safe ⟨placed.memtables, placed.ranges,
      placed.store, placed.whole, placed.sorted⟩ sound'

variable {size : Nat} {context : WriteContext}

theorem insertRecord (past : clock.now ≤ instant) (bare : record.Bare)
    (plain : ttlPrefix.isPrefixOf record.key = false)
    (safe : core.InsertSafe options clock cf record size) : Decided options cf instant
      (core.insertRecord options clock cf record size).2
      (fun key => if record.key = key then some record else last key) := by
  have inserted := decided.insertMemtable bare plain size
  unfold EngineCore.insertRecord
  dsimp only
  split
  · next full => exact inserted.flush past (safe.flush full)
  · exact inserted

theorem write (past : clock.now ≤ instant) (entry : WalEntry)
    (logged : entry.record.Bare)
    (bare : record.Bare) (plain : ttlPrefix.isPrefixOf record.key = false)
    (safe : core.InsertSafe options clock cf record size) : Decided options cf instant
      (((core.walHandle cf).writeRecord cf entry).insertRecord options clock cf record size).2
      (fun key => if record.key = key then some record else last key) :=
  (decided.withLogs _ ((decided.sound.memory.walHandle cf).writeRecord cf
    logged)).insertRecord past bare plain (safe.withLogs _)

theorem put (past : context.flush.now ≤ instant) {value : Bytes} {ttl : Option Nanos}
    (safe : (ExpiryOp.put context key value ttl).Safe options cf core) :
    Decided options cf instant
      (core.putCf options context cf key value ttl).2
      (fun other => ExpiryOp.note options cf other (last other)
        (.put context key value ttl)) := by
  obtain ⟨plain, safe⟩ := safe
  have fields := putRecord_fields options context cf key value ttl
  have bare : (putRecord options context cf key value ttl).Bare :=
    bare_of_live fields.2.2.2.1
  unfold putCf
  split
  · next error turned_down =>
    rw [ExpiryOp.note_of_unwritten (by
      rw [ExpiryOp.written, turned_down]
      rfl)]
    exact decided
  · next accepted =>
    rw [ExpiryOp.note_of_written (by
      rw [ExpiryOp.written, accepted]
      rfl)]
    exact decided.write past _ bare bare (by rwa [fields.1]) safe

theorem delete (past : context.flush.now ≤ instant)
    (safe : (ExpiryOp.delete context key).Safe options cf core) :
    Decided options cf instant (core.deleteCf options context cf key).2
      (fun other => ExpiryOp.note options cf other (last other)
        (.delete context key)) := by
  obtain ⟨plain, safe⟩ := safe
  rw [ExpiryOp.note_of_written rfl]
  have locked : Decided options cf instant
      (core.deleteLocked options context cf key).2 (fun other =>
        if (tombstone context.inserted key).key = other then
          some (tombstone context.inserted key)
        else last other) := decided.write past _ (fun _ => rfl) (fun _ => rfl) plain safe
  -- the reads at the end find no value of the deleted key
  have missing : (core.deleteLocked options context cf key).2.memtableRecord cf key = none →
      (core.deleteLocked options context cf key).2.store.versions.lookup
        (core.deleteLocked options context cf key).2.store.dir context.read cf key =
          none := by
    intro held
    have settled := locked.settled key plain held
    have here : (tombstone context.inserted key).key = key := rfl
    rw [if_pos here] at settled
    rcases settled with ⟨absent, _⟩ | ⟨table, newest, _⟩
    · exact lookup_of_absent locked.sound.store _ absent
    · exact lookup_of_newest locked.sound.store none newest rfl
  have read := locked.getCf context.read (fun held value found => by
    rw [missing held] at found
    cases found)
  rcases deleteCf_state options context cf key core with same | same | same
  · rw [same]
    exact locked
  · rw [same]
    exact read
  · rw [same]
    exact read.getCf context.read fun _ _ =>
      read.cacheable_reserved (isPrefixOf_ttlKey key)

theorem step {op : ExpiryOp} (past : ∀ reading ∈ op.readings, reading ≤ instant)
    (safe : op.Safe options cf core) :
    Decided options cf instant (op.step options cf core)
      (fun key => ExpiryOp.note options cf key (last key) op) := by
  cases op with
  | put context key value ttl =>
    exact decided.put (past context.flush.now (by simp [ExpiryOp.readings])) safe
  | delete context key =>
    exact decided.delete (past context.flush.now (by
      simp [ExpiryOp.readings])) safe
  | flush clock =>
    exact decided.flush (past clock.now (by simp [ExpiryOp.readings])) safe
  | get now key =>
    rw [ExpiryOp.note_of_unwritten rfl]
    exact decided.getCf now fun missing value found =>
      decided.cacheable_plain (past now (by simp [ExpiryOp.readings])) (safe missing) found

end Decided

/-- The first flush of a family, of records without an expiry. -/
theorem EngineCore.FlushSafe.first {options : EngineOptions} {core : EngineCore}
    {clock : FlushClock} {cf : String} (sound : EngineSound options core)
    (fresh : clock.Fresh core)
    (flushable : ∀ mem, (core.memtablesOf cf).getLast? = some mem →
      Flushable options.storage clock mem.data)
    (absent : ∀ key, core.newestEntry cf key = none)
    (permanent : (core.memtablesOf cf).getLast?.all (fun mem =>
      mem.data.toList.all (fun entry => entry.2.expiresAt.isNone)) = true) :
    core.FlushSafe options clock cf := by
  refine ⟨fresh, fun mem last _ => flushable mem last, fun key _ _ _ => absent key,
    fun key _ _ _ _ => absent (ttlKey key), ?_⟩
  intro owner record key held expires
  have filled : (core.memtablesOf cf).getLast? ≠ none := by
    intro none
    rw [memtableRecord, getLast?_eq_none_iff.mp none] at held
    cases held
  obtain ⟨mem, last⟩ := ne_none_iff_exists'.mp filled
  rw [last, all_some] at permanent
  rw [memtableRecord_of_last sound.memory last, ← ByteMap.mem_toList] at held
  have lasting := all_eq_true.mp permanent _ held
  exact absurd (isNone_iff_eq_none.mp lasting) expires

end ApexStore
