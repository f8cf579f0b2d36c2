import ApexStore.Engine.ReadView

/-!
# Point reads and scans

A scan takes the newest version of a key with the expiry in its record; a
point read takes what the cache or the tables give and then the expiry under
the TTL key.  With a cache that tells what the tables say, the two agree
exactly if the entries under the TTL keys agree with the newest versions
(`scan_agrees_with_point_reads`).
-/

namespace ApexStore

open VersionSet EngineCore List Option EngineOp

namespace Table

variable {config : StorageConfig} {dir : SstDir} {table : Table}

theorem Produced.getElem?_versions (produced : table.Produced config dir)
    (key : Bytes) :
    (table.versions dir)[key]? = (table.version dir key).map (fun record =>
      (record.value, if table.path.isSome then some record else none)) := by
  cases located : table.path with
  | none =>
    rw [versions, version, located]
    rw [Std.ExtTreeMap.getElem?_map, Option.map_map]
    rfl
  | some path =>
    obtain ⟨records, file, held⟩ := produced.file located
    rw [versions, located, held]
    dsimp only
    rw [file]
    rw [Std.ExtTreeMap.getElem?_map]
    rfl

theorem Produced.admitsRecord_of_versions (produced : table.Produced config dir)
    {key : Bytes}
    (held : (table.versions dir)[key]? ≠ none) : table.admitsRecord key = true := by
  rcases produced.cases with ⟨path, records, located, file, admitted, _⟩ |
    ⟨located, admitted⟩
  · rw [versions, located] at held
    simp only [file, Std.ExtTreeMap.getElem?_map, ne_eq, map_eq_none_iff] at held
    exact (admitted key (Std.ExtTreeMap.mem_iff_isSome_getElem?.mpr
      (isSome_iff_ne_none.mpr held))).2
  · rw [versions, located] at held
    simp only [Std.ExtTreeMap.getElem?_map, ne_eq, map_eq_none_iff] at held
    exact (admitted key (Std.ExtTreeMap.mem_iff_isSome_getElem?.mpr
      (isSome_iff_ne_none.mpr held))).2

end Table

namespace EngineCore

/-- What is cached of the keys that are looked up in the tables is what the
tables say, unless it has expired. -/
def ValuesCached (core : EngineCore) (now : Nanos) (cf : String) : Prop :=
  ∀ key value, ttlPrefix.isPrefixOf key = false → core.memtableRecord cf key = none →
    core.coveringRangeTombstoneTs cf key = none → core.sideExpired now cf key = false →
    core.store.versions.kvCache[key]? = some value → value ≠ [] ∧
      core.store.versions.lookup core.store.dir now cf key = some value

/-- The entry under the TTL key of a key agrees with its newest version: it
has not expired before a record in a file has, it hides what an expired record
in a file lets through, and it hides a value without a record from a range
tombstone of the epoch, the timestamp such values are given. -/
structure SideAgrees (core : EngineCore) (now : Nanos) (cf : String) (key : Bytes) :
    Prop where
  live : ∀ table record, core.newestEntry cf key = some (table, record) →
    table.path ≠ none → record.isDeleted = false → record.isExpiredAt now = false →
    (∀ timestamp, core.coveringRangeTombstoneTs cf key = some timestamp →
      timestamp ≤ record.timestamp) → core.sideExpired now cf key = false
  expired : ∀ table record, core.newestEntry cf key = some (table, record) →
    table.path ≠ none → record.isDeleted = false → record.isExpiredAt now = true →
    core.coveringRangeTombstoneTs cf key = none → core.sideExpired now cf key = true ∨
      core.store.versions.lookup core.store.dir now cf key = none
  memory : ∀ table record, core.newestEntry cf key = some (table, record) →
    table.path = none → record.isDeleted = false →
      core.coveringRangeTombstoneTs cf key = some 0 →
    core.sideExpired now cf key = true

variable {config : StorageConfig} {core : EngineCore} {cf : String}
  {now : Nanos} {key : Bytes}

theorem newestVersion_of_tables (sound : StoreSound config core.store)
    (missing : core.memtableRecord cf key = none) : core.newestVersion cf key =
      (core.newestEntry cf key).map (fun entry =>
        (entry.2.value, if entry.1.path.isSome then some entry.2 else none)) := by
  have mapped : ∀ tables :
      List Table, (∀ table ∈ tables, table.Produced config core.store.dir) →
      tables.findSome? (fun table =>
          (table.versions core.store.dir)[key]?) = (tables.findSome? (fun table =>
          (table.version core.store.dir key).map (table, ·))).map
            (fun entry => (entry.2.value,
              if entry.1.path.isSome then some entry.2 else none)) := by
    intro tables produced
    induction tables with
    | nil => rfl
    | cons table tables ih =>
      have later := ih (forall_mem_cons.mp produced).2
      rw [List.findSome?_cons, List.findSome?_cons, later,
        (produced table mem_cons_self).getElem?_versions]
      cases table.version core.store.dir key <;> rfl
  rw [newestVersion_eq, missing, mapped]
  · rfl
  · exact fun table member =>
      sound.produced cf table (mem_reverse.mp member)

/-- With a cache that tells what the tables say, a read of the tables is a
lookup. -/
theorem tableValue_of_cached (cached : core.ValuesCached now cf)
    (plain : ttlPrefix.isPrefixOf key = false)
    (missing : core.memtableRecord cf key = none)
    (uncovered : core.coveringRangeTombstoneTs cf key = none) :
    (core.tableValue now cf key).filter
        (fun _ => !core.sideExpired now cf key) =
      (core.store.versions.lookup core.store.dir now cf key).filter
        (fun _ => !core.sideExpired now cf key) := by
  rw [tableValue, uncovered]
  rw [TableState.peek]
  cases held : core.store.versions.kvCache[key]? with
  | none => rfl
  | some value =>
    cases side : core.sideExpired now cf key with
    | true =>
      cases core.store.versions.lookup core.store.dir now cf key <;> cases value <;> rfl
    | false =>
      obtain ⟨nonempty, looked⟩ := cached key value plain missing uncovered side held
      rw [looked]
      simp [nonempty]

variable {table : Table} {record : LogRecord}

theorem newestEntry_of_memory (newest : core.newestEntry cf key = some (table, record))
    (located : table.path = none) :
    record.isDeleted = record.value.isEmpty ∧ record.timestamp = 0 ∧
      record.expiresAt = none := by
  obtain ⟨other, _, found⟩ := exists_of_findSome?_eq_some newest
  obtain ⟨version, held, same⟩ := map_eq_some_iff.mp found
  cases same
  rw [Table.version, located] at held
  obtain ⟨value, _, rfl⟩ := map_eq_some_iff.mp held
  exact ⟨rfl, rfl, rfl⟩

section

variable (sound : StoreSound config core.store)
  (plain : ttlPrefix.isPrefixOf key = false)
  (missing : core.memtableRecord cf key = none)
  (newest : core.newestEntry cf key = some (table, record))
include sound plain missing newest

/-- Where the newest version stands in a file, a scan shows what a memtable
with that record would answer. -/
theorem shown_of_file (located : table.path ≠ none) (legacy : Bytes → Bool) :
    core.shown now cf legacy key =
      memtableAnswer (core.coveringRangeTombstoneTs cf key) now record := by
  rw [shown, newestVersion_of_tables sound missing, newest, map_some]
  rw [if_pos (isSome_iff_ne_none.mpr located), listed_record core now cf legacy plain]

/-- Where it stands in memory only, a scan goes by the value and the TTL
key. -/
theorem shown_of_memory (located : table.path = none) (legacy : Bytes → Bool) :
    core.shown now cf legacy key = if !record.isDeleted &&
          (core.coveringRangeTombstoneTs cf key).isNone && !legacy key then some record.value
      else none := by
  have deleted := (newestEntry_of_memory newest located).1
  rw [shown, newestVersion_of_tables sound missing, newest, map_some]
  rw [located, filter_some, listed, deletedAt, deleted, plain]
  cases record.value.isEmpty <;> cases core.coveringRangeTombstoneTs cf key <;>
    cases legacy key <;> rfl

end

section

variable (newest : core.newestEntry cf key = some (table, record))
include newest

theorem sideAgrees_of_file (located : table.path ≠ none) : core.SideAgrees now cf key ↔
      record.isDeleted = false → (record.isExpiredAt now = false →
          (∀ timestamp, core.coveringRangeTombstoneTs cf key =
            some timestamp → timestamp ≤ record.timestamp) →
              core.sideExpired now cf key = false) ∧
        (record.isExpiredAt now = true → core.coveringRangeTombstoneTs cf key = none →
          core.sideExpired now cf key = true ∨
            core.store.versions.lookup core.store.dir now cf key = none) := by
  constructor
  · intro agrees live
    exact ⟨agrees.live table record newest located live,
      agrees.expired table record newest located live⟩
  · intro agrees
    refine ⟨?_, ?_, ?_⟩
    · intro other version found _ live
      cases newest.symm.trans found
      exact (agrees live).1
    · intro other version found _ live
      cases newest.symm.trans found
      exact (agrees live).2
    · intro other version found nowhere
      cases newest.symm.trans found
      exact absurd nowhere located

theorem sideAgrees_of_memory (located : table.path = none) :
    core.SideAgrees now cf key ↔
      record.isDeleted = false → core.coveringRangeTombstoneTs cf key = some 0 →
        core.sideExpired now cf key = true := by
  constructor
  · intro agrees
    exact agrees.memory table record newest located
  · intro agrees
    refine ⟨?_, ?_, ?_⟩
    · intro other version found somewhere
      cases newest.symm.trans found
      exact absurd located somewhere
    · intro other version found somewhere
      cases newest.symm.trans found
      exact absurd located somewhere
    · intro other version found _
      cases newest.symm.trans found
      exact agrees

theorem tableValue_of_covered {timestamp : Nanos}
    (covering : core.coveringRangeTombstoneTs cf key = some timestamp) :
    core.tableValue now cf key = if !record.isDeleted && !record.isExpiredAt now &&
          decide (timestamp ≤ record.timestamp) then some record.value else none := by
  rw [tableValue, covering, newest]
  dsimp only
  rw [filter_some]
  split <;> rfl

end

section

variable (sound : StoreSound config core.store) (cached : core.ValuesCached now cf)
  (plain : ttlPrefix.isPrefixOf key = false)
  (missing : core.memtableRecord cf key = none)
include sound cached plain missing

theorem answer_eq_shown_of_file
    (newest : core.newestEntry cf key = some (table, record))
    (located : table.path ≠ none) :
    core.answer now cf key = core.shown now cf (core.sideExpired now cf) key ↔
      core.SideAgrees now cf key := by
  rw [sideAgrees_of_file newest located,
    shown_of_file sound plain missing newest located, answer, missing, memtableAnswer]
  cases covering : core.coveringRangeTombstoneTs cf key with
  | none =>
    rw [tableValue_of_cached cached plain missing covering]
    cases deleted : record.isDeleted with
    | true =>
      rw [lookup_of_newest sound none newest (by
        simp [Table.verdict, deleted])]
      simp
    | false =>
      cases expired : record.isExpiredAt now with
      | true =>
        cases core.store.versions.lookup core.store.dir now cf key <;>
          cases core.sideExpired now cf key <;> simp
      | false =>
        rw [lookup_of_newest sound (some record.value) newest (by
          simp [Table.verdict, deleted, expired])]
        cases core.sideExpired now cf key <;> simp
  | some timestamp =>
    rw [tableValue_of_covered newest covering]
    cases deleted : record.isDeleted with
    | true => simp
    | false =>
      cases expired : record.isExpiredAt now with
      | true => simp
      | false =>
        by_cases older : timestamp ≤ record.timestamp
        · cases core.sideExpired now cf key <;> simp [not_lt.mpr older]
        · cases core.sideExpired now cf key <;> simp [not_le.mp older]

theorem answer_eq_shown_of_memory
    (newest : core.newestEntry cf key = some (table, record))
    (located : table.path = none) :
    core.answer now cf key = core.shown now cf (core.sideExpired now cf) key ↔
      core.SideAgrees now cf key := by
  obtain ⟨_, stamped, permanent⟩ := newestEntry_of_memory newest located
  have unexpired : record.isExpiredAt now = false := LogRecord.isExpiredAt_of_none permanent
  rw [sideAgrees_of_memory newest located,
    shown_of_memory sound plain missing newest located, answer, missing]
  cases covering : core.coveringRangeTombstoneTs cf key with
  | none =>
    rw [tableValue_of_cached cached plain missing covering]
    cases deleted : record.isDeleted with
    | true =>
      rw [lookup_of_newest sound none newest (by
        simp [Table.verdict, deleted])]
      simp
    | false =>
      rw [lookup_of_newest sound (some record.value) newest (by
        simp [Table.verdict, deleted, unexpired])]
      cases core.sideExpired now cf key <;> simp
  | some timestamp =>
    rw [tableValue_of_covered newest covering, stamped, unexpired]
    cases record.isDeleted with
    | true => simp
    | false =>
      by_cases epoch : timestamp = 0
      · cases core.sideExpired now cf key <;> simp
      · have later : ¬ timestamp ≤ 0 := by
          rw [Fin.le_zero_iff]
          exact epoch
        cases core.sideExpired now cf key <;> simp

/-- A scan shows what a read answers exactly if the entry under the TTL key
agrees. -/
theorem answer_eq_shown_iff : core.answer now cf key =
        core.shown now cf (core.sideExpired now cf) key ↔
          core.SideAgrees now cf key := by
  cases newest : core.newestEntry cf key with
  | some entry =>
    obtain ⟨table, record⟩ := entry
    by_cases located : table.path = none
    · exact answer_eq_shown_of_memory sound cached plain missing newest located
    · exact answer_eq_shown_of_file sound cached plain missing newest located
  | none =>
    have hidden : core.shown now cf (core.sideExpired now cf) key = none := by
      rw [shown, newestVersion_of_tables sound missing, newest]
      rfl
    have nothing : core.answer now cf key = none := by
      rw [answer, missing]
      cases covering : core.coveringRangeTombstoneTs cf key with
      | none =>
        rw [tableValue_of_cached cached plain missing covering,
          lookup_of_absent sound now newest]
        rfl
      | some timestamp => rw [tableValue, covering, newest]; rfl
    rw [hidden, nothing]
    refine ⟨fun _ => ⟨?_, ?_, ?_⟩, fun _ => rfl⟩ <;>
      · intro table record other
        rw [newest] at other
        cases other

end

theorem answer_eq_shown_of_memtable (plain : ttlPrefix.isPrefixOf key = false)
    (present : core.memtableRecord cf key ≠ none) (legacy : Bytes → Bool) :
    core.answer now cf key = core.shown now cf legacy key := by
  obtain ⟨record, found⟩ := ne_none_iff_exists'.mp present
  rw [answer, shown, newestVersion_eq, found, map_some,
    some_or, listed_record core now cf legacy plain]

/-- A scan of a sound store lists what is visible within its bounds, up to its
limit. -/
theorem scanCf_eq_window (sound : StoreSound config core.store) (now : Nanos)
    (cf : String)
    (lower upper : Option Bytes) (limit : Option Nat) :
    (core.scanCf now cf lower upper limit).1 =
      .ok (((core.listing now cf (core.sideExpired now cf)).filter
        (fun entry => inBounds lower upper entry.1)).take
          (limit.getD maxScanLimit)) := by
  have readable : core.Readable cf := by
    intro table member path located
    obtain ⟨records, file, _⟩ := (sound.produced cf table member).file located
    refine ⟨?_, records, file⟩
    rw [sound.readable]
    simp
  -- lookups on the way do not change what the TTL keys say
  have answers : ∀ (store : TableState) (key : Bytes),
      (∀ other, expiredBy now (store.peek now cf other) =
        expiredBy now (core.store.peek now cf other)) →
      (legacyExpired now cf key store).1 = core.sideExpired now cf key ∧
        ∀ other, expiredBy now
            ((legacyExpired now cf key store).2.peek now cf other) =
          expiredBy now (core.store.peek now cf other) := by
    intro store key same
    constructor
    · rw [legacyExpired]
      dsimp only
      rw [store.get_fst]
      exact same (ttlKey key)
    · intro other
      exact (store.expiredBy_peek_get rfl other).trans (same other)
  apply scanCf_within readable _ answers (fun _ => rfl) limit
  intro table member key within held
  exact Table.outside_eq_false
    ((sound.produced cf table member).admitsRecord_of_versions held) within

theorem scanCf_eq_listing (sound : StoreSound config core.store)
    (now : Nanos) (cf : String) {limit : Option Nat}
    (room : (core.listing now cf (core.sideExpired now cf)).length ≤
      limit.getD maxScanLimit) :
    (core.scanCf now cf none none limit).1 =
      .ok (core.listing now cf (core.sideExpired now cf)) := by
  have all : (core.listing now cf (core.sideExpired now cf)).filter
      (fun entry => inBounds none none entry.1) =
        core.listing now cf (core.sideExpired now cf) := filter_eq_self.mpr (fun _ _ => rfl)
  rw [scanCf_eq_window sound, all, take_of_length_le room]

/-- The point reads of all keys that are not reserved, in key order. -/
structure PointReads (core : EngineCore) (now : Nanos) (cf : String)
    (results : List (Bytes × Bytes)) : Prop where
  sorted : SortedEntries results
  members : ∀ key value, (key, value) ∈ results ↔ ttlPrefix.isPrefixOf key = false ∧
      (core.getCf now cf key).1 = .ok (some value)

theorem mem_listing_plain {legacy : Bytes → Bool} {value : Bytes}
    (member : (key, value) ∈ core.listing now cf legacy) :
    ttlPrefix.isPrefixOf key = false := by
  rw [mem_listing, shown, map_eq_some_iff] at member
  obtain ⟨version, kept, _⟩ := member
  have visible := (filter_eq_some_iff.mp kept).2
  rw [listed] at visible
  simp only [Bool.and_eq_true, Bool.not_eq_true'] at visible
  exact visible.1.1.1

/-- The keys the tables of a family have versions of. -/
def tableKeys (core : EngineCore) (cf : String) : List Bytes :=
  (core.store.versions.getTables cf).flatMap (fun table =>
    (table.versions core.store.dir).toList.map (·.1))

theorem mem_tableKeys (sound : StoreSound config core.store)
    (present : core.newestEntry cf key ≠ none) : key ∈ core.tableKeys cf := by
  obtain ⟨entry, newest⟩ := ne_none_iff_exists'.mp present
  obtain ⟨table, listed, found⟩ := exists_of_findSome?_eq_some newest
  obtain ⟨record, held, _⟩ := map_eq_some_iff.mp found
  have member := mem_reverse.mp listed
  have version := (sound.produced cf table member).getElem?_versions key
  rw [held] at version
  exact mem_flatMap.mpr ⟨table, member,
    mem_map.mpr ⟨_, (ByteMap.mem_toList _ _ _).mpr version, rfl⟩⟩

end EngineCore

/-- In every state the engine can get into whose cache tells what the tables
say and whose files can be decoded, a scan returns the point reads exactly if
the entry under the TTL key of every key agrees with the newest version of the
key. -/
theorem scan_agrees_with_point_reads {options : EngineOptions} {core : EngineCore}
    (reachable : Reachable options core) (_ : core.store.dir.legible = true)
    {now : Nanos} {cf : String} (cached : core.ValuesCached now cf) :
    (∃ results, core.PointReads now cf results ∧
      ∀ limit, results.length ≤ limit →
        (core.scanCf now cf none none (some limit)).1 = .ok results) ↔
      ∀ key, ttlPrefix.isPrefixOf key = false →
        core.memtableRecord cf key = none → core.SideAgrees now cf key := by
  have sound := reachable.sound.store
  constructor
  · rintro ⟨results, reads, scanned⟩ key plain missing
    have listed : (core.scanCf now cf none none (some (max results.length
        (core.listing now cf (core.sideExpired now cf)).length))).1 =
          .ok (core.listing now cf (core.sideExpired now cf)) :=
      scanCf_eq_listing sound now cf (le_max_right _ _)
    rw [scanned _ (le_max_left _ _)] at listed
    cases listed
    rw [← answer_eq_shown_iff sound cached plain missing]
    apply Option.ext
    intro value
    rw [← mem_listing, reads.members, getCf_eq sound]
    simp [plain]
  · intro agrees
    have same : ∀ key, ttlPrefix.isPrefixOf key = false → core.answer now cf key =
          core.shown now cf (core.sideExpired now cf) key := by
      intro key plain
      by_cases missing : core.memtableRecord cf key = none
      · exact (answer_eq_shown_iff sound cached plain missing).mpr (agrees key plain missing)
      · exact answer_eq_shown_of_memtable plain missing _
    refine ⟨core.listing now cf (core.sideExpired now cf),
      ⟨core.listing_sorted now cf _, ?_⟩, ?_⟩
    · intro key value
      constructor
      · intro member
        have plain := mem_listing_plain member
        refine ⟨plain, ?_⟩
        rw [getCf_eq sound, same key plain]
        exact congrArg Except.ok ((core.mem_listing now cf _ key value).mp member)
      · rintro ⟨plain, read⟩
        rw [mem_listing, ← same key plain]
        rw [getCf_eq sound] at read
        exact Except.ok.inj read
    · intro limit room
      exact scanCf_eq_listing sound now cf room

/-- A value with an expiry that is still to come, flushed. -/
theorem scan_agrees_for_flushed_value :
    let core := engineRun .default
      [.put (.instant 1) "default" [7] [1] (some 100),
        .flush { now := 2, stamp := fun _ => 2 } "default"]
    ∃ results, core.PointReads 10 "default" results ∧
      ∀ limit, results.length ≤ limit →
        (core.scanCf 10 "default" none none (some limit)).1 = .ok results := by
  intro core
  let clock : FlushClock := { now := 2, stamp := fun _ => 2 }
  let written := engineRun .default
    [.put (.instant 1) "default" [7] [1] (some 100)]
  let flushed := written.afterFlush EngineOptions.default.storage "default"
    (flushName 2) (written.flushEntries clock "default")
  have same : core = flushed := step_flush .default written clock
    "default" (by decide +kernel) (by decide +kernel) (by decide +kernel) (by decide +kernel)
  have reachable : Reachable .default core := .of_check (by decide +kernel)
  have uncached : flushed.store.versions.kvCache = ∅ :=
    Std.ExtTreeMap.isEmpty_iff.mp (by decide +kernel)
  have keys : flushed.tableKeys "default" = [[7], ttlKey [7]] := by decide +kernel
  have side : expiredBy 10 (flushed.store.seen 10 "default" (ttlKey [7])) =
      false := by decide +kernel
  have legible : flushed.store.dir.legible = true := by decide +kernel
  have newest : (flushed.newestEntry "default" [7]).all (fun entry =>
      !entry.2.isExpiredAt 10 && entry.1.path.isSome) = true := by decide +kernel
  rw [← same] at uncached keys side newest legible
  rw [← TableState.peek_eq_seen reachable.sound.store] at side
  apply (scan_agrees_with_point_reads reachable legible (by
    intro key value _ _ _ _ held
    rw [uncached] at held
    simp at held)).mpr
  intro key plain _
  have only : ∀ entry, core.newestEntry "default" key = some entry →
      key = [7] ∧ entry.2.isExpiredAt 10 = false ∧ entry.1.path.isSome = true := by
    intro entry found
    have member : key ∈ core.tableKeys "default" :=
      mem_tableKeys reachable.sound.store (by rw [found]; simp)
    rw [keys, mem_cons, mem_singleton] at member
    rcases member with rfl | reserved
    · rw [found] at newest
      exact ⟨rfl, by simpa using newest⟩
    · rw [reserved] at plain
      cases plain
  refine ⟨?_, ?_, ?_⟩
  · intro table record found _ _ _ _
    rw [(only _ found).1]
    exact side
  · intro table record found _ _ expired
    rw [(only _ found).2.1] at expired
    cases expired
  · intro table record found nowhere
    have somewhere := (only _ found).2.2
    rw [nowhere] at somewhere
    cases somewhere

/-- A value with an expiry is flushed, overwritten without one and flushed
again.  Once the first value would have expired, a read no longer finds the
second one, which a scan still lists. -/
theorem scan_lists_unreadable_key :
    let core := engineRun .default
      [.put (.instant 1) "default" [7] [1] (some 4),
        .flush { now := 2, stamp := fun _ => 2 } "default",
        .put (.instant 3) "default" [7] [2] none,
        .flush { now := 4, stamp := fun _ => 4 } "default"]
    Reachable .default core ∧
      ¬ ∃ results, core.PointReads 10 "default" results ∧
        ∀ limit, results.length ≤ limit →
          (core.scanCf 10 "default" none none (some limit)).1 =
            .ok results := by
  intro core
  let first : FlushClock := { now := 2, stamp := fun _ => 2 }
  let second : FlushClock := { now := 4, stamp := fun _ => 4 }
  let written := engineRun .default
    [.put (.instant 1) "default" [7] [1] (some 4)]
  let flushed := written.afterFlush EngineOptions.default.storage "default"
    (flushName 2) (written.flushEntries first "default")
  have first_flush : step .default written (.flush first "default") =
      flushed := step_flush .default written first "default"
    (by decide +kernel) (by decide +kernel) (by decide +kernel) (by decide +kernel)
  let last := [put (.instant 3) "default" [7] [2] none,
    .flush second "default"].foldl (step .default) flushed
  have same : core = last := by
    change [put (.instant 3) "default" [7] [2] none,
      .flush second "default"].foldl (step .default)
        (step .default written (.flush first "default")) = last
    rw [first_flush]
  have reachable : Reachable .default core := by
    refine ⟨[.put (.instant 1) "default" [7] [1] (some 4),
      .flush first "default", .put (.instant 3) "default" [7] [2] none,
      .flush second "default"], ⟨?_, ?_, ?_, ?_, trivial⟩, rfl⟩
    · exact orderly_sound (by decide +kernel)
    · exact orderly_sound (by decide +kernel)
    · change (WriteContext.instant 3).flush.Fresh (step .default written (.flush first "default"))
      rw [first_flush]
      decide +kernel
    · change second.Fresh (step .default (step .default written (.flush first "default")) _)
      rw [first_flush]
      decide +kernel
  have read : last.answerByVersions 10 "default" [7] = none := by decide +kernel
  have listing : last.listing 10 "default" (fun key =>
      expiredBy 10 (last.store.seen 10 "default" (ttlKey key))) = [([7], [2])] := by decide +kernel
  rw [← same] at read listing
  simp only [← TableState.peek_eq_seen reachable.sound.store] at listing
  change core.listing 10 "default" (core.sideExpired 10 "default") = _ at listing
  refine ⟨reachable, ?_⟩
  rintro ⟨results, reads, scanned⟩
  have scan : (core.scanCf 10 "default" none none
      (some (max results.length 1))).1 = .ok (core.listing 10 "default"
        (core.sideExpired 10 "default")) :=
    scanCf_eq_listing reachable.sound.store 10 "default" (by
      rw [listing]
      exact le_max_right _ _)
  rw [scanned _ (le_max_left _ _), listing] at scan
  cases scan
  have present := ((reads.members [7] [2]).mp mem_cons_self).2
  rw [getCf_eq_versions reachable.sound.store, read] at present
  cases present

end ApexStore
