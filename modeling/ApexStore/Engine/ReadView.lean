import ApexStore.Engine.EngineRuns

/-!
# What reads return

`get_cf` goes to the memtables, then to the cache or the tables, and checks
the expiry that stands under the TTL key.  `EngineCore.answer` says what comes
out of this, and the lookup in the tables of a sound store is described by the
versions they stand for.
-/

namespace ApexStore

open VersionSet Option

variable {key : Bytes} {table : Table} {record : LogRecord} {dir : SstDir}
  {tables : List Table} {now : Nanos} {config : StorageConfig}

/-! ## TTL keys -/

theorem sequenceLength_le (first : UInt8) (rest : Bytes) :
    sequenceLength first rest ≤ rest.length ∧
      sequenceLength first rest ≤ utf8CharWidth first - 1 := by
  cases rest with
  | nil => simp [sequenceLength]
  | cons second rest =>
    rw [sequenceLength]
    split
    · next fits =>
      have wide : 2 ≤ utf8CharWidth first := by
        by_contra narrow
        rw [secondByteFits, if_pos (by omega)] at fits
        cases fits
      have short : (rest.takeWhile isContinuation).length ≤
          rest.length := (List.takeWhile_sublist _).length_le
      rw [List.length_cons]
      omega
    · simp

theorem utf8CharWidth_le (first : UInt8) : utf8CharWidth first ≤ 4 := by
  unfold utf8CharWidth
  repeat' split
  all_goals omega

theorem length_le_fromUtf8Lossy (bytes : Bytes) :
    bytes.length ≤ (fromUtf8Lossy bytes).length := by
  induction bytes using fromUtf8Lossy.induct with
  | case1 => simp
  | case2 first rest length ih =>
    have bounds := sequenceLength_le first rest
    have width := utf8CharWidth_le first
    rw [fromUtf8Lossy, List.length_append]
    dsimp only [length] at ih ⊢
    rw [List.length_drop] at ih
    split
    · simp only [List.length_cons, List.length_take]
      omega
    · simp only [List.length_cons]
      omega

theorem ttlKey_ne (key : Bytes) : ttlKey key ≠ key := by
  intro same
  have longer := length_le_fromUtf8Lossy key
  have lengths := congrArg List.length same
  rw [ttlKey, List.length_append] at lengths
  simp only [ttlPrefix, List.length_cons] at lengths
  omega

/-- The entry under a TTL key says that the value has expired. -/
def expiredBy (now : Nanos) (side : Option Bytes) : Bool :=
  side.any (fun bytes =>
    decide (bytes.length = 16) && decide (leNat bytes ≤ now.val))

/-! ## The cache in front of the tables -/

namespace TableState

/-- What `VersionSet::get` returns. -/
def peek (store : TableState) (now : Nanos) (cf : String) (key : Bytes) :
    Option Bytes :=
  match store.versions.kvCache[key]? with
  | some cached => if cached.isEmpty then none else some cached
  | none => store.versions.lookup store.dir now cf key

theorem get_fst (store : TableState) (now : Nanos) (cf : String) (key : Bytes) :
    (store.versions.get store.dir now cf key).1 = store.peek now cf key := by
  cases cached : store.versions.kvCache[key]? with
  | some value => rw [get_of_cached cached, peek, cached]
  | none =>
    obtain ⟨_, _, result⟩ := get_of_not_cached cached store.dir now cf
    rw [result, peek, cached]

theorem peek_get_of_ne (store : TableState) (now later : Nanos) (cf : String)
    {key other : Bytes} (apart : key ≠ other) :
    ({ store with
        versions := (store.versions.get store.dir now cf key).2 } :
          TableState).peek later cf other = store.peek later cf other := by
  cases cached : store.versions.kvCache[key]? with
  | some value => rw [get_of_cached cached]
  | none =>
    have looked := lookup_get store.dir store.versions now later cf cf key other
    obtain ⟨_, _, result⟩ := get_of_not_cached cached store.dir now cf
    rw [result] at looked ⊢
    rw [peek, peek]
    rw [looked]
    cases store.versions.lookup store.dir now cf key with
    | none => rfl
    | some value =>
      rw [ByteMap.getElem?_insert, if_neg apart]

/-- Nor what the entry under a TTL key says at some instant, if it says the
same when it is looked up now and later. -/
theorem expiredBy_peek_get (store : TableState) {now later instant : Nanos}
    {cf : String} (still : expiredBy instant (store.peek now cf key) =
      expiredBy instant (store.peek later cf key)) (other : Bytes) :
    expiredBy instant (({ store with
        versions := (store.versions.get store.dir now cf key).2 } :
          TableState).peek later cf other) =
            expiredBy instant (store.peek later cf other) := by
  by_cases apart : key = other
  · subst apart
    cases cached : store.versions.kvCache[key]? with
    | some value => rw [get_of_cached cached]
    | none =>
      have looked := lookup_get store.dir store.versions now later cf cf key key
      obtain ⟨_, _, result⟩ := get_of_not_cached cached store.dir now cf
      rw [peek, cached] at still
      rw [result] at looked ⊢
      rw [← still, peek]
      rw [looked]
      cases found : store.versions.lookup store.dir now cf key with
      | none =>
        rw [found, peek, cached] at still
        rw [cached]
        exact still.symm
      | some value =>
        rw [ByteMap.getElem?_insert, if_pos rfl]
        -- an empty value counts as missing once it is cached
        cases value with
        | nil | cons byte bytes => rfl
  · rw [peek_get_of_ne store now later cf apart]

end TableState

namespace EngineCore

/-- The newest table of a family that has a version of a key, with that
version. -/
def newestEntry (core : EngineCore) (cf : String) (key : Bytes) :
    Option (Table × LogRecord) :=
  (core.store.versions.getTables cf).reverse.findSome? (fun table =>
    (table.version core.store.dir key).map (table, ·))

/-- The newest version of a key: in the memtable, or else in the newest table
that has one. -/
def newestRecord (core : EngineCore) (cf : String) (key : Bytes) : Option LogRecord :=
  (core.memtableRecord cf key).or ((core.newestEntry cf key).map (·.2))

theorem newestRecord_cases {core : EngineCore} {cf : String} {key : Bytes}
    {record : LogRecord} (found : core.newestRecord cf key = some record) :
    core.memtableRecord cf key = some record ∨
      ∃ table, core.newestEntry cf key = some (table, record) := by
  rw [newestRecord] at found
  cases held : core.memtableRecord cf key with
  | some other =>
    rw [held] at found
    exact .inl found
  | none =>
    rw [held] at found
    obtain ⟨⟨table, other⟩, newest, rfl⟩ := Option.map_eq_some_iff.mp found
    exact .inr ⟨table, newest⟩

/-- What the tables answer, before the TTL key is looked at. -/
def tableValue (core : EngineCore) (now : Nanos) (cf : String) (key : Bytes) :
    Option Bytes :=
  match core.coveringRangeTombstoneTs cf key with
  | some timestamp =>
    ((core.newestEntry cf key).filter (fun entry =>
      !entry.2.isDeleted && !entry.2.isExpiredAt now &&
        decide (timestamp ≤ entry.2.timestamp))).map (·.2.value)
  | none => core.store.peek now cf key

/-- What stands under the TTL key of a key has expired. -/
def sideExpired (core : EngineCore) (now : Nanos) (cf : String) (key : Bytes) : Bool :=
  expiredBy now (core.store.peek now cf (ttlKey key))

def answer (core : EngineCore) (now : Nanos) (cf : String) (key : Bytes) :
    Option Bytes :=
  match core.memtableRecord cf key with
  | some record =>
    memtableAnswer (core.coveringRangeTombstoneTs cf key) now record
  | none =>
    (core.tableValue now cf key).filter (fun _ => !core.sideExpired now cf key)

variable {config : StorageConfig} {core : EngineCore} {cf : String}

theorem newestEntry_record (core : EngineCore) (cf : String) (key : Bytes) :
    (core.newestEntry cf key).map (·.2) =
      (core.store.versions.getTables cf).reverse.findSome?
        (·.version core.store.dir key) := by
  rw [newestEntry]
  generalize (core.store.versions.getTables cf).reverse = tables
  induction tables with
  | nil => rfl
  | cons table tables ih =>
    rw [List.findSome?_cons, List.findSome?_cons]
    cases table.version core.store.dir key with
    | none => exact ih
    | some record => rfl

theorem getRecord_eq (sound : StoreSound config core.store) (cf : String)
    (key : Bytes) :
    core.store.versions.getRecord core.store.dir cf key =
      .ok ((core.newestEntry cf key).map (·.2)) := by
  rw [getRecord, sound.readable, getRecordIn_eq key
    (fun table member => sound.produced cf table (List.mem_reverse.mp member))
    (by simp), newestEntry_record]

theorem checkTtl_fst (now : Nanos) (cf : String) (key value : Bytes)
    (store : TableState) :
    (checkTtl now cf key value store).1 =
      if expiredBy now (store.peek now cf (ttlKey key)) then none else some value := by
  rw [checkTtl]
  dsimp only
  rw [store.get_fst]
  rfl

theorem getCf_eq (sound : StoreSound config core.store) (now : Nanos) (cf : String)
    (key : Bytes) :
    (core.getCf now cf key).1 = .ok (core.answer now cf key) := by
  cases found : core.memtableRecord cf key with
  | some record => rw [getCf_of_memtable found, answer, found]
  | none =>
    rw [answer, found]
    dsimp only
    rw [tableValue]
    unfold getCf
    rw [found]
    dsimp only
    cases core.coveringRangeTombstoneTs cf key with
    | some timestamp =>
      rw [lookupTables, getRecord_eq sound]
      dsimp only
      cases core.newestEntry cf key with
      | none => rfl
      | some entry =>
        rw [map_some, filter_some, filter_some]
        cases visible : !entry.2.isDeleted && !entry.2.isExpiredAt now &&
            decide (timestamp ≤ entry.2.timestamp) with
        | false => rfl
        | true =>
          rw [if_pos rfl, if_pos rfl, map_some, map_some, sideExpired]
          dsimp only
          rw [checkTtl_fst]
          cases expiredBy now (core.store.peek now cf (ttlKey key)) <;> rfl
    | none =>
      rw [lookupTables]
      have looked := core.store.get_fst now cf key
      have side := core.store.peek_get_of_ne now now cf (ttlKey_ne key).symm
      generalize core.store.versions.get core.store.dir now cf key = result at looked side ⊢
      obtain ⟨value, versions⟩ := result
      rw [← looked]
      cases value with
      | none => rfl
      | some value =>
        rw [sideExpired, ← side]
        dsimp only
        rw [checkTtl_fst]
        cases expiredBy now (({ core.store with versions } :
          TableState).peek now cf (ttlKey key)) <;> rfl

end EngineCore

/-! ## Lookups in sound stores -/

namespace Table

/-- What a table decides about a key by its version.  A value in memory is
taken without a look at its expiry; in the file an expired version is passed
over. -/
def verdict (table : Table) (now : Nanos) (key : Bytes) (record : LogRecord) :
    Option (Option Bytes) :=
  if record.isDeleted then some none
  else if record.isExpiredAt now && table.data[key]?.all (·.isEmpty) then none
  else some (some record.value)

variable {config : StorageConfig} {dir : SstDir} {table : Table} {key : Bytes}

theorem WellFormed.answer_eq (wellFormed : table.WellFormed config dir)
    (now : Nanos) (key : Bytes) : table.answer dir true [] now key =
      (table.version dir key).bind (table.verdict now key) := by
  cases found : table.version dir key with
  | none =>
    have probed := wellFormed.produced.probe_of_absent found true [] now
    rw [← probe_answer, probed]
    rfl
  | some record =>
    rw [bind_some]
    have bare := wellFormed.tombstones key record found
    rcases wellFormed.produced.cases with
      ⟨path, records, located, file, admitted, values⟩ | ⟨located, admitted⟩
    · rw [version_of_path located] at found
      have held : records[key]? = some record := by
        rw [← fileRecord_of_table located file]
        exact found
      have admits := (admitted key
        (Std.ExtTreeMap.mem_iff_isSome_getElem?.mpr (by rw [held]; rfl))).1
      have in_file : table.fileAnswer dir true [] now key = record.decides now := by
        simp [fileAnswer, found]
      rw [answer, admits, in_file, verdict, LogRecord.decides]
      cases data : table.data[key]? with
      | none => simp
      | some value =>
        have same : record.value = value := by
          have stored := values key value data
          rw [held] at stored
          exact Option.some.inj stored
        cases value with
        | nil => simp [located]
        | cons byte bytes =>
          have live : record.isDeleted = false := by
            rw [Bool.eq_false_iff]
            intro deleted
            rw [bare deleted] at same
            cases same
          simp [live, same]
    · rw [version, located] at found
      obtain ⟨value, data, rfl⟩ := map_eq_some_iff.mp found
      have admits := (admitted key
        (Std.ExtTreeMap.mem_iff_isSome_getElem?.mpr (by rw [data]; rfl))).1
      rw [answer, admits, data, verdict]
      cases value with
      | nil => simp [located]
      | cons byte bytes => simp [LogRecord.isExpiredAt, LogRecord.new]

end Table

namespace StoreSound

variable {config : StorageConfig} {store : TableState} {cf : String}

theorem lookup_eq (sound : StoreSound config store) (now : Nanos) (cf : String)
    (key : Bytes) :
    store.versions.lookup store.dir now cf key =
      ((store.versions.getTables cf).reverse.findSome? (fun table =>
        (table.version store.dir key).bind (table.verdict now key))).join := by
  rw [lookup, sound.readable, sound.blockCache]
  congr 1
  apply findSome?_congr
  intro table member
  exact (sound.wellFormed (List.mem_reverse.mp member)).answer_eq now key

end StoreSound

theorem findSome?_bind_of_newest {decide : Table → LogRecord → Option (Option Bytes)}
    {answer : Option Bytes} (newest : tables.findSome? (fun table =>
      (table.version dir key).map (table, ·)) = some (table, record))
    (decides : decide table record = some answer) : tables.findSome? (fun table =>
      (table.version dir key).bind (decide table)) = some answer := by
  induction tables with
  | nil => cases newest
  | cons other tables ih =>
    rw [List.findSome?_cons] at newest ⊢
    cases found : other.version dir key with
    | none =>
      rw [found] at newest
      exact ih newest
    | some version =>
      rw [found] at newest
      cases newest
      rw [bind_some, decides]

theorem findSome?_bind_of_absent {decide : Table → LogRecord → Option (Option Bytes)}
    (absent : tables.findSome? (fun table => (table.version dir key).map (table, ·)) =
      none) :
    tables.findSome? (fun table =>
      (table.version dir key).bind (decide table)) = none := by
  rw [List.findSome?_eq_none_iff] at absent ⊢
  intro table member
  rw [map_eq_none_iff.mp (absent table member)]
  rfl

namespace EngineCore

variable {config : StorageConfig} {core : EngineCore} {cf : String}
  {key : Bytes}

variable (sound : StoreSound config core.store)
include sound

theorem newestEntry_bare (newest : core.newestEntry cf key = some (table, record)) :
    record.Bare := by
  obtain ⟨other, member, found⟩ := List.exists_of_findSome?_eq_some newest
  obtain ⟨version, held, same⟩ := map_eq_some_iff.mp found
  cases same
  exact (sound.wellFormed (List.mem_reverse.mp member)).tombstones key record held

theorem lookup_of_absent (now : Nanos) (absent : core.newestEntry cf key = none) :
    core.store.versions.lookup core.store.dir now cf key = none := by
  rw [sound.lookup_eq, findSome?_bind_of_absent absent]
  rfl

theorem lookup_of_newest (answer : Option Bytes)
    (newest : core.newestEntry cf key = some (table, record))
    (decides : table.verdict now key record = some answer) :
    core.store.versions.lookup core.store.dir now cf key = answer := by
  rw [sound.lookup_eq, findSome?_bind_of_newest newest decides]
  rfl

theorem lookup_of_unexpired (unexpired : ∀ table record,
      core.newestEntry cf key = some (table, record) →
        record.isExpiredAt now = false) :
    core.store.versions.lookup core.store.dir now cf key =
      ((core.newestEntry cf key).map (·.2)).bind (fun record =>
        if record.isDeleted then none else some record.value) := by
  cases newest : core.newestEntry cf key with
  | none => exact lookup_of_absent sound now newest
  | some entry =>
    obtain ⟨table, record⟩ := entry
    apply lookup_of_newest sound _ newest
    cases deleted : record.isDeleted <;>
      simp [Table.verdict, unexpired table record newest, deleted]

end EngineCore

/-! ## Reads by versions -/

namespace TableState

/-- What `VersionSet::get` returns, by the versions of the tables. -/
def seen (store : TableState) (now : Nanos) (cf : String) (key : Bytes) :
    Option Bytes :=
  match store.versions.kvCache[key]? with
  | some cached => if cached.isEmpty then none else some cached
  | none =>
    ((store.versions.getTables cf).reverse.findSome? (fun table =>
      (table.version store.dir key).bind (table.verdict now key))).join

theorem peek_eq_seen {store : TableState} (sound : StoreSound config store)
    (now : Nanos)
    (cf : String) (key : Bytes) : store.peek now cf key = store.seen now cf key := by
  rw [peek, seen, sound.lookup_eq]

end TableState

namespace EngineCore

/-- `answer` by the versions of the tables. -/
def answerByVersions (core : EngineCore) (now : Nanos) (cf : String) (key : Bytes) :
    Option Bytes :=
  let covering := core.coveringRangeTombstoneTs cf key
  match core.memtableRecord cf key with
  | some record => memtableAnswer covering now record
  | none =>
    let value : Option Bytes :=
      match covering with
      | some timestamp =>
        ((core.newestEntry cf key).filter (fun entry =>
          !entry.2.isDeleted && !entry.2.isExpiredAt now &&
            decide (timestamp ≤ entry.2.timestamp))).map (·.2.value)
      | none => core.store.seen now cf key
    value.filter (fun _ =>
      !expiredBy now (core.store.seen now cf (ttlKey key)))

theorem getCf_eq_versions {core : EngineCore} (sound : StoreSound config core.store)
    (now : Nanos) (cf : String) (key : Bytes) :
    (core.getCf now cf key).1 = .ok (core.answerByVersions now cf key) := by
  rw [getCf_eq sound, answer, answerByVersions]
  cases core.memtableRecord cf key with
  | some record => rfl
  | none =>
    rw [tableValue, sideExpired, TableState.peek_eq_seen sound,
      TableState.peek_eq_seen sound]

/-- In every run, with Bloom filters, key ranges, copies of tables in memory and
the cache in place, a point read of files that give back their entries succeeds
and tells what the versions say. -/
theorem reachable_reads_by_versions {options : EngineOptions} {core : EngineCore}
    (_ : core.store.dir.legible = true) (reachable : Reachable options core)
    (now : Nanos) (cf : String) (key : Bytes) :
    (core.getCf now cf key).1 = .ok (core.answerByVersions now cf key) :=
  getCf_eq_versions reachable.sound.store now cf key

theorem flushed_value_by_versions :
    let core := engineRun .default [.put (.instant 1) "default" [7] [1] none,
      .flush { now := 2, stamp := fun _ => 2 } "default"]
    (core.getCf 10 "default" [7]).1 = .ok (some [1]) := by
  intro core
  have reachable : Reachable .default core := .of_check (by decide +kernel)
  rw [reachable_reads_by_versions (by decide +kernel) reachable]
  decide +kernel

end EngineCore

end ApexStore
