import ApexStore.Engine.FlushReads

/-!
# Column families side by side

Calls addressed to one family leave the memtables, the range tombstones, the
tables and the files of every other family alone.  What the families share is
the cache of the version set: it is keyed without the family and emptied by
every flush.  Reads in another family stay the same as long as no value is
cached, and none dropped, that the tables of that family do not have
(`families_do_not_interfere`).
-/

namespace ApexStore

open VersionSet EngineCore TableState

/-- The calls addressed to one family. -/
inductive FamilyCall where
  | put (context : WriteContext) (key value : Bytes) (ttl : Option Nanos)
  | delete (context : WriteContext) (key : Bytes)
  | get (now : Nanos) (key : Bytes)
  | flush (clock : FlushClock)

def FamilyCall.step (options : EngineOptions) (cf : String)
    (core : EngineCore) : FamilyCall → EngineCore
  | put context key value ttl => (core.putCf options context cf key value ttl).2
  | delete context key => (core.deleteCf options context cf key).2
  | get now key => (core.getCf now cf key).2
  | flush clock => (core.flushMemtableImpl options clock cf).2

namespace EngineCore

/-- A lookup in a family at an instant `read` caches nothing but what the
tables of another family say at `now`.  An empty cached value counts as
missing. -/
def LookupNeutral (core : EngineCore) (cf other : String) (now read : Nanos)
    (key : Bytes) : Prop :=
  core.store.versions.kvCache[key]? = none → ∀ value,
    core.store.versions.lookup core.store.dir read cf key = some value →
    core.store.versions.lookup core.store.dir now other key =
      if value.isEmpty then none else some value

/-- So do the lookups of a read, of the key and its TTL key. -/
def ReadNeutral (core : EngineCore) (cf other : String) (now read : Nanos)
    (key : Bytes) : Prop :=
  core.memtableRecord cf key = none → core.LookupNeutral cf other now read key ∧
      core.LookupNeutral cf other now read (ttlKey key)

/-- A flush gets a new file, and the cache it empties holds nothing but what
the tables of another family say at `now`. -/
def FlushNeutral (core : EngineCore) (clock : FlushClock)
    (cf other : String) (now : Nanos) : Prop :=
  clock.Fresh core ∧ (¬ core.Idle cf → ∀ key, core.store.peek now other key =
      core.store.versions.lookup core.store.dir now other key)

/-- The locked part of a write: it starts no compaction, which would merge the
tables of every family, and a full memtable is flushed. -/
structure InsertNeutral (core : EngineCore) (options : EngineOptions)
    (clock : FlushClock) (cf other : String) (now : Nanos)
    (record : LogRecord) (size : Nat) : Prop
    extends core.InsertCalm options cf record size (·.FlushNeutral clock cf other now)
    where
  fresh : clock.Fresh core

end EngineCore

/-- No call caches or drops a value that the tables of another family do not
have. -/
def FamilyCall.Neutral (options : EngineOptions) (cf other : String)
    (now : Nanos) (core : EngineCore) : FamilyCall → Prop
  | put context key value ttl =>
    core.InsertNeutral options context.flush cf other now
      (putRecord options context cf key value ttl) (key.length + value.length)
  | delete context key =>
    core.InsertNeutral options context.flush cf other now
        (.tombstone context.inserted key) key.length ∧
      (core.deleteLocked options context cf key).2.ReadNeutral cf other now context.read key ∧
      (core.deleteLocked options context cf key).2.ReadNeutral cf other now
          context.read (ttlKey key)
  | get read key => core.ReadNeutral cf other now read key
  | flush clock => core.FlushNeutral clock cf other now

/-! ## What reads of another family see -/

/-- Nothing has changed for reads of a family at an instant. -/
structure SameReads (cf : String) (now : Nanos) (before after : EngineCore) :
    Prop where
  memtables : after.memtablesOf cf = before.memtablesOf cf
  ranges : after.rangesOf cf = before.rangesOf cf
  tables : after.store.versions.getTables cf = before.store.versions.getTables cf
  files : ∀ table ∈ before.store.versions.getTables cf, ∀ path,
    table.path = some path → after.store.dir[path]? = before.store.dir[path]?
  found : ∀ key, after.store.peek now cf key = before.store.peek now cf key

namespace SameReads

variable {cf : String} {now : Nanos} {first second third : EngineCore}

theorem refl (cf : String) (now : Nanos) (core : EngineCore) :
    SameReads cf now core core :=
  ⟨rfl, rfl, rfl, fun _ _ _ _ => rfl, fun _ => rfl⟩

theorem trans (left : SameReads cf now first second)
    (right : SameReads cf now second third) :
    SameReads cf now first third :=
  ⟨right.memtables.trans left.memtables, right.ranges.trans left.ranges,
    right.tables.trans left.tables,
    fun table member path located =>
      (right.files table (left.tables ▸ member) path located).trans
        (left.files table member path located),
    fun key => (right.found key).trans (left.found key)⟩

theorem answer_eq (same : SameReads cf now first second) (key : Bytes) :
    second.answer now cf key = first.answer now cf key := by
  have newest : second.newestEntry cf key = first.newestEntry cf key := by
    rw [newestEntry, same.tables]
    apply findSome?_congr
    intro table member
    rw [Table.version_congr (same.files table (List.mem_reverse.mp member))]
  have covering : second.coveringRangeTombstoneTs cf key =
      first.coveringRangeTombstoneTs cf key := by
    rw [coveringRangeTombstoneTs, coveringRangeTombstoneTs, same.ranges, same.memtables]
  rw [answer, answer, memtableRecord, memtableRecord, same.memtables, tableValue, tableValue,
    sideExpired, sideExpired, covering, newest, same.found, same.found]

end SameReads

namespace EngineCore

variable {options : EngineOptions} {core : EngineCore} {cf other : String}
  {now read : Nanos}

/-- A change of the newest memtable of a family, its byte count and the
logs. -/
theorem sameReads_insertMemtable (apart : cf ≠ other) (now : Nanos)
    (record : LogRecord) (size : Nat) (core : EngineCore) :
    SameReads other now core (core.insertMemtable cf record size) := by
  refine ⟨?_, rfl, rfl, fun _ _ _ _ => rfl, fun _ => rfl⟩
  exact (frame_insertMemtable core cf record size).memtables other apart.symm

variable {clock : FlushClock} {keys : List Bytes}

theorem sameReads_flush (sound : EngineSound options core) (apart : cf ≠ other)
    (neutral : core.FlushNeutral clock cf other now) : SameReads other now core
      (core.flushMemtableImpl options clock cf).2 := by
  obtain ⟨fresh, emptied⟩ := neutral
  have frame := frame_flushMemtableImpl options clock cf core
  have outcome := flushMemtableImpl_outcome options clock cf core
  generalize core.flushMemtableImpl options clock cf = result at outcome frame ⊢
  have files : ∀ data, ∀ table ∈ core.store.versions.getTables other,
      ∀ path, table.path = some path →
        (flushTable options.storage core.store.dir clock data).2[path]? =
          core.store.dir[path]? := by
    intro data table member path located
    apply flushTable_dir
    rintro rfl
    exact sound.store.path_ne fresh member located
  have busy : ∀ mem, (core.memtablesOf cf).getLast? = some mem →
      mem.data.isEmpty = false → ¬ core.Idle cf := by
    intro mem last filled idle
    rw [idle mem last] at filled
    cases filled
  have installed : ∀ mem table dir, (core.memtablesOf cf).getLast? = some mem →
      mem.data.isEmpty = false → flushTable options.storage core.store.dir clock mem.data =
        (.ok table, dir) →
          ∀ key, ({ versions := core.store.versions.addTable cf table, dir } :
        TableState).peek now other key = core.store.peek now other key := by
    intro mem table dir last filled done key
    have kept := files mem.data
    rw [done] at kept
    rw [emptied (busy mem last filled) key, ← lookup_congr_dir kept now key, peek]
    rw [lookup, getTables_addTable_ne apart]
    rfl
  cases outcome with
  | idle _ => exact .refl other now core
  | synced _ _ _ =>
    exact ⟨rfl, rfl, rfl, fun _ _ _ _ => rfl, fun _ => rfl⟩
  | failed mem last filled error dir fails =>
    have kept := files mem.data
    rw [fails] at kept
    refine ⟨frame.memtables other apart.symm, rfl, rfl, kept, ?_⟩
    intro key
    rw [peek, peek, lookup_congr_dir kept]
  | uncounted mem last filled table dir done _ _ | written mem last filled table dir done _ =>
    have kept := files mem.data
    rw [done] at kept
    exact ⟨frame.memtables other apart.symm, rfl, frame.tables other apart.symm, kept,
      installed mem table dir last filled done⟩

variable {key : Bytes}

variable (sound : EngineSound options core)
include sound

theorem sameReads_get (neutral : core.LookupNeutral cf other now read key) :
    SameReads other now core (core.readAll read cf [key]) := by
  have same : core.readAll read cf [key] =
      { core with
        store := { core.store with
          versions := (core.store.versions.get core.store.dir read cf key).2 } } := rfl
  rw [same, sound.store.get_eq]
  refine ⟨rfl, rfl, rfl, fun _ _ _ _ => rfl, ?_⟩
  intro target
  cases cached : core.store.versions.kvCache[key]? with
  | some value => rfl
  | none =>
    cases looked : core.store.versions.lookup core.store.dir read cf key with
    | none => rfl
    | some value =>
      rw [peek, peek]
      by_cases here : key = target
      · subst here
        rw [ByteMap.getElem?_insert, if_pos rfl, cached]
        exact (neutral cached value looked).symm
      · rw [ByteMap.getElem?_insert, if_neg here]
        rfl

theorem LookupNeutral.get (neutral : core.LookupNeutral cf other now read key)
    (first : Bytes) :
    (core.readAll read cf [first]).LookupNeutral cf other now read key := by
  intro uncached value looked
  have same : (core.readAll read cf [first]).store =
      { core.store with
        versions := (core.store.versions.get core.store.dir read cf first).2 } := rfl
  rw [same] at uncached looked ⊢
  rw [lookup_get] at looked ⊢
  apply neutral _ value looked
  rw [sound.store.get_eq] at uncached
  split at uncached
  · rw [ByteMap.getElem?_insert] at uncached
    split at uncached
    · cases uncached
    · exact uncached
  · exact uncached

theorem sameReads_readAll
    (neutral : ∀ key ∈ keys, core.LookupNeutral cf other now read key) :
    SameReads other now core (core.readAll read cf keys) := by
  induction keys generalizing core with
  | nil => exact .refl other now core
  | cons key keys ih =>
    have first := sameReads_get sound (neutral key List.mem_cons_self)
    have rest := ih (sound.readAll read cf [key]) (fun later member =>
      (neutral later (List.mem_cons_of_mem _ member)).get sound key)
    exact first.trans rest

theorem LookupNeutral.readAll (neutral : core.LookupNeutral cf other now read key) :
    (core.readAll read cf keys).LookupNeutral cf other now read key := by
  induction keys generalizing core with
  | nil => exact neutral
  | cons first keys ih =>
    have rest := ih (sound.readAll read cf [first]) (neutral.get sound first)
    rwa [readAll_append] at rest

theorem sameReads_getCf (neutral : core.ReadNeutral cf other now read key) :
    SameReads other now core (core.getCf read cf key).2 := by
  obtain ⟨keys, only, in_memory, reads⟩ := getCf_reads read cf key core
  rw [reads]
  apply sameReads_readAll sound
  intro target member
  cases missing : core.memtableRecord cf key with
  | some record =>
    rw [in_memory (by simp [missing])] at member
    cases member
  | none =>
    rcases only target member with rfl | rfl
    · exact (neutral missing).1
    · exact (neutral missing).2

theorem ReadNeutral.getCf (neutral : core.ReadNeutral cf other now read key)
    (first : Bytes) :
    (core.getCf read cf first).2.ReadNeutral cf other now read key := by
  obtain ⟨keys, _, _, reads⟩ := getCf_reads read cf first core
  rw [reads]
  intro missing
  obtain ⟨here, side⟩ := neutral missing
  exact ⟨here.readAll sound, side.readAll sound⟩

theorem sameReads_insertRecord (apart : cf ≠ other) {record : LogRecord}
    (bare : record.Bare)
    {size : Nat}
    (neutral : core.InsertNeutral options clock cf other now record size) :
    SameReads other now core (core.insertRecord options clock cf record size).2 := by
  have inserted := sameReads_insertMemtable apart now record size core
  unfold insertRecord
  dsimp only
  split
  · next full =>
    have whole : EngineSound options (core.insertMemtable cf record size) :=
      ⟨sound.store, sound.memory.insertMemtable cf bare size⟩
    exact inserted.trans (sameReads_flush whole apart (neutral.flush full))
  · exact inserted

end EngineCore

theorem FamilyCall.sameReads {options : EngineOptions} {core : EngineCore}
    {cf other : String} {now : Nanos} (sound : EngineSound options core)
    (apart : cf ≠ other) {call : FamilyCall}
    (neutral : call.Neutral options cf other now core) :
    SameReads other now core (call.step options cf core) ∧
      EngineSound options (call.step options cf core) := by
  -- the log entry of a write, and then its locked part
  have write : ∀ {clock : FlushClock} (entry : WalEntry) {record : LogRecord}
      {size : Nat}, entry.record.Bare → record.Bare →
      core.InsertNeutral options clock cf other now record size → SameReads other now core
        (((core.walHandle cf).writeRecord cf entry).insertRecord options clock
          cf record size).2 := by
    intro clock entry record size bare_entry bare neutral
    have logged : SameReads other now core ((core.walHandle cf).writeRecord cf entry) :=
      ⟨rfl, rfl, rfl, fun _ _ _ _ => rfl, fun _ => rfl⟩
    have whole : EngineSound options ((core.walHandle cf).writeRecord cf entry) :=
      ⟨sound.store, (sound.memory.walHandle cf).writeRecord cf bare_entry⟩
    exact logged.trans (sameReads_insertRecord whole apart bare
      ⟨⟨neutral.calm, neutral.flush⟩, neutral.fresh⟩)
  cases call with
  | put context key value ttl =>
    refine ⟨?_, sound.putCf neutral.fresh cf key value ttl⟩
    have bare : (putRecord options context cf key value ttl).Bare :=
      LogRecord.bare_of_live (putRecord_fields options context cf key value ttl).2.2.2.1
    rw [FamilyCall.step]
    unfold putCf
    split
    · exact .refl other now core
    · exact write _ bare bare neutral
  | delete context key =>
    obtain ⟨insert, reads, side⟩ := neutral
    refine ⟨?_, sound.deleteCf insert.fresh cf key⟩
    have locked : SameReads other now core (core.deleteLocked options context cf key).2 :=
      write _ (fun _ => rfl) (fun _ => rfl) insert
    have whole : EngineSound options (core.deleteLocked options context cf key).2 :=
      sound.deleteLocked insert.fresh cf key
    have read := locked.trans (sameReads_getCf whole reads)
    rcases deleteCf_state options context cf key core with same | same | same
    · rw [FamilyCall.step, same]
      exact locked
    · rw [FamilyCall.step, same]
      exact read
    · rw [FamilyCall.step, same]
      exact read.trans
        (sameReads_getCf (whole.getCf context.read cf key) (side.getCf whole key))
  | get read key =>
    exact ⟨sameReads_getCf sound neutral, sound.getCf read cf key⟩
  | flush clock =>
    exact ⟨sameReads_flush sound apart neutral, sound.flush neutral.1 cf⟩

/-- Neutral calls to one family change no read of another. -/
theorem families_do_not_interfere {options : EngineOptions} {core : EngineCore}
    (reachable : Reachable options core) {cf other : String} (apart : cf ≠ other)
    {now : Nanos}
    {calls : List FamilyCall} (neutral : Guarded (FamilyCall.step options cf)
      (FamilyCall.Neutral options cf other now) core calls) (key : Bytes) :
    ((calls.foldl (FamilyCall.step options cf) core).getCf now other key).1 =
      (core.getCf now other key).1 := by
  have run := @Guarded.invariant _ _ _ _ core calls
    (fun state => SameReads other now core state ∧ EngineSound options state)
    (fun state call held allowed => by
      obtain ⟨same, sound⟩ := FamilyCall.sameReads held.2 apart allowed
      exact ⟨held.1.trans same, sound⟩) neutral ⟨.refl other now core, reachable.sound⟩
  rw [getCf_eq run.2.store, getCf_eq reachable.sound.store, run.1.answer_eq]

/-- A write, a flush and a read that finds nothing. -/
theorem families_do_not_interfere_for_missing_key :
    let calls : List FamilyCall :=
      [.put (.instant 1) [7] [1] none, .flush { now := 2, stamp := fun _ => 2 }, .get 3 [8]]
    ((calls.foldl (FamilyCall.step .default "users") .empty).getCf 10
      "orders" [7]).1 = (EngineCore.empty.getCf 10 "orders" [7]).1 := by
  intro calls
  let clock : FlushClock := { now := 2, stamp := fun _ => 2 }
  let written := FamilyCall.step .default "users" .empty
    (.put (.instant 1) [7] [1] none)
  let flushed := FamilyCall.step .default "users" written (.flush clock)
  have put : (FamilyCall.put (.instant 1) [7] [1] none).Neutral .default
      "users" "orders" 10 .empty := by
    exact ⟨.of_room (by decide +kernel), by decide +kernel⟩
  have sound : EngineSound .default written :=
    (FamilyCall.sameReads (EngineSound.empty .default) (by decide) put).2
  have flush : (FamilyCall.flush clock).Neutral .default "users" "orders" 10
      written := by
    refine ⟨?_, fun _ key => ?_⟩
    · decide +kernel
    · have empty : written.store.versions.kvCache = ∅ :=
        Std.ExtTreeMap.isEmpty_iff.mp (by decide +kernel)
      rw [peek, empty, Std.ExtTreeMap.getElem?_empty]
  have sound' : EngineSound .default flushed :=
    (FamilyCall.sameReads sound (by decide) flush).2
  have get : (FamilyCall.get 3 [8]).Neutral .default "users" "orders" 10
      flushed := by
    intro _
    constructor
    · intro _ value looked
      rw [lookup_of_absent sound'.store 3 (by decide +kernel)] at looked
      cases looked
    · intro _ value looked
      rw [lookup_of_absent sound'.store 3 (by decide +kernel)] at looked
      cases looked
  have neutral : Guarded (FamilyCall.step .default "users")
      (FamilyCall.Neutral .default "users" "orders" 10) .empty calls := ⟨put, flush, get, trivial⟩
  exact families_do_not_interfere (Reachable.empty .default) (by decide) neutral [7]

/-- A read in one family puts its value before the eyes of another. -/
theorem read_shows_value_to_other_family :
    let core := engineRun .default
      [.put (.instant 1) "users" [7] [1] none,
        .flush { now := 2, stamp := fun _ => 2 } "users"]
    Reachable .default core ∧
      (core.getCf 10 "orders" [7]).1 = .ok none ∧
      ((FamilyCall.step .default "users" core (.get 10 [7])).getCf 10 "orders"
        [7]).1 = .ok (some [1]) := by
  intro core
  have reachable : Reachable .default core := .of_check (by decide +kernel)
  have sound := reachable.sound
  let cached : VersionSet :=
    { core.store.versions with
      kvCache := (∅ : ByteMap Bytes).insert [7] [1] }
  have uncached : core.store.versions.kvCache = ∅ :=
    Std.ExtTreeMap.isEmpty_iff.mp (by decide +kernel)
  have value : core.store.versions.lookup core.store.dir 10 "users" [7] = some [1] := by
    rw [sound.store.lookup_eq]
    decide +kernel
  have side : core.store.versions.lookup core.store.dir 10 "users" (ttlKey [7]) = none :=
    lookup_of_absent sound.store 10 (by decide +kernel)
  have first : core.store.versions.get core.store.dir 10 "users" [7] = (some [1], cached) := by
    apply Prod.ext
    · rw [core.store.get_fst, peek, uncached]
      exact value
    · rw [sound.store.get_eq, value, uncached, Std.ExtTreeMap.getElem?_empty]
  have whole : StoreSound EngineOptions.default.storage
      { core.store with versions := cached } := sound.store.withCache _
  have second : cached.get core.store.dir 10 "users" (ttlKey [7]) = (none, cached) := by
    have missing : cached.kvCache[ttlKey [7]]? = none := by decide +kernel
    have looked : cached.lookup core.store.dir 10 "users" (ttlKey [7]) =
        none := side
    apply Prod.ext
    · refine (get_fst { core.store with versions := cached } 10 "users" (ttlKey [7])).trans ?_
      exact looked
    · refine (whole.get_eq 10 "users" (ttlKey [7])).trans ?_
      rw [missing, looked]
  have state : FamilyCall.step .default "users" core (.get 10 [7]) =
      { core with store := { core.store with versions := cached } } := by
    have missing : core.memtableRecord "users" [7] = none := by decide +kernel
    have uncovered : core.coveringRangeTombstoneTs "users" [7] = none := by decide +kernel
    rw [FamilyCall.step]
    unfold getCf
    rw [missing]
    dsimp only
    rw [uncovered, lookupTables]
    rw [first]
    dsimp only
    rw [checkTtl]
    dsimp only
    rw [second]
  have sound' : EngineSound .default
      { core with store := { core.store with versions := cached } } :=
    ⟨whole, sound.memory.withStore _⟩
  refine ⟨reachable, ?_, ?_⟩
  · rw [getCf_eq_versions sound.store]
    decide +kernel
  · rw [state, getCf_eq_versions sound'.store]
    decide +kernel

end ApexStore
