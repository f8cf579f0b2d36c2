import ApexStore.Engine.CompactionReads
import ApexStore.Engine.RangeDurability

/-!
# Range deletions and the order of time

Reads compare the timestamp of a version with that of a range tombstone; a
merge drops every key inside a range tombstone, whatever is older.  Under a
strictly increasing clock the versions of a key stand in the order of their
timestamps, so what a range tombstone hides stays hidden.  What it does not
hide stays visible as long as the table that has it is not merged
(`compaction_respects_range_deletions`).
-/

namespace ApexStore

open VersionSet EngineCore TableState List

variable {key : Bytes} {table : Table} {options : EngineOptions} {core : EngineCore}
  {cf : String}
  {after : EngineCore} {tables : List Table} {record : LogRecord} {timestamp : Nanos}
  {plan : CompactionPlan}

/-! ## Runs -/

abbrev RangeCall := String × RangeOp

def RangeCall.step (options : EngineOptions) (core : EngineCore) (call : RangeCall) :
    EngineCore :=
  call.2.step options call.1 core

/-- No compaction is started. -/
def RangeCall.Calm (options : EngineOptions) (core : EngineCore) (call : RangeCall) :
    Prop :=
  call.2.Calm options call.1 core

def rangeRun (options : EngineOptions) (calls : List RangeCall) : EngineCore :=
  calls.foldl (RangeCall.step options) .empty

def rangeReadings (calls : List RangeCall) : List Nanos :=
  calls.flatMap (·.2.readings)

theorem flushName_injective {first second : Nanos}
    (same : flushName first = flushName second) : first = second := by
  apply Fin.ext
  simpa [flushName] using same

def EngineCore.versionsOf (core : EngineCore) (cf : String) (key : Bytes) :
    List LogRecord :=
  (core.store.versions.getTables cf).filterMap (·.version core.store.dir key) ++
    (core.memtableRecord cf key).toList

/-- What holds along a run, with the clock readings still to come. -/
structure Timeline (options : EngineOptions) (future : List Nanos)
    (core : EngineCore) : Prop where
  sound : EngineSound options core
  uncached : core.store.versions.kvCache = ∅
  filled : ∀ cf, ∀ table ∈ core.store.versions.getTables cf,
    table.Filled options.storage core.store.dir
  named : ∀ (name : String) (file : SstFile), core.store.dir[name]? = some file →
    ∃ instant, name = flushName instant ∧ ∀ later ∈ future, instant < later
  ordered : ∀ cf key, ttlPrefix.isPrefixOf key = false →
    (core.versionsOf cf key).Pairwise (fun older newer =>
      older.timestamp ≤ newer.timestamp)
  recent : ∀ cf key, ttlPrefix.isPrefixOf key = false →
    ∀ record ∈ core.versionsOf cf key, ∀ instant ∈ future, record.timestamp < instant

namespace Timeline

variable {options : EngineOptions} {future : List Nanos} {core : EngineCore}
  {clock : FlushClock} {cf : String}

theorem empty (options : EngineOptions) (future : List Nanos) :
    Timeline options future .empty := by
  have no_versions : ∀ cf key, EngineCore.empty.versionsOf cf key = [] := by
    intro cf key
    rfl
  refine ⟨.empty options, rfl, ?_, ?_, ?_, ?_⟩
  · intro cf table member
    cases member
  · intro name file present
    simp [EngineCore.empty, TableState.empty] at present
  · intro cf key _
    rw [no_versions]
    exact List.Pairwise.nil
  · intro cf key _ record member
    cases member

theorem later (timeline : Timeline options future core) {rest : List Nanos}
    (fewer : ∀ instant ∈ rest, instant ∈ future) : Timeline options rest core := by
  refine ⟨timeline.sound, timeline.uncached, timeline.filled, ?_, timeline.ordered, ?_⟩
  · intro name file present
    obtain ⟨instant, same, before⟩ := timeline.named name file present
    exact ⟨instant, same, fun later member => before later (fewer later member)⟩
  · intro cf key plain record member instant awaited
    exact timeline.recent cf key plain record member instant (fewer instant awaited)

theorem fresh (timeline : Timeline options (clock.now :: future) core) :
    clock.Fresh core := by
  rw [FlushClock.Fresh]
  apply Option.eq_none_iff_forall_ne_some.mpr
  intro file present
  obtain ⟨instant, same, before⟩ := timeline.named _ file present
  have earlier := before clock.now mem_cons_self
  rw [flushName_injective same] at earlier
  exact absurd earlier (lt_irrefl _)

/-! ### Steps -/

theorem congr (timeline : Timeline options future core)
    (sound : EngineSound options after) (store : after.store = core.store)
    (fewer : ∀ cf key, (after.memtableRecord cf key).toList.Sublist
      (core.memtableRecord cf key).toList) : Timeline options future after := by
  have versions : ∀ cf key, (after.versionsOf cf key).Sublist (core.versionsOf cf key) := by
    intro cf key
    rw [versionsOf, store]
    exact (List.Sublist.refl _).append (fewer cf key)
  refine ⟨sound, by rw [store]; exact timeline.uncached,
    by rw [store]; exact timeline.filled,
    by rw [store]; exact timeline.named, ?_, ?_⟩
  · intro cf key plain
    exact (timeline.ordered cf key plain).sublist (versions cf key)
  · intro cf key plain record member
    exact timeline.recent cf key plain record ((versions cf key).subset member)

theorem write (timeline : Timeline options (record.timestamp :: future) core)
    (first : ∀ instant ∈ future, record.timestamp < instant) (bare : record.Bare)
    (cf : String) (nonce : Nonce) (size : Nat) : Timeline options future
      (((core.walHandle cf).writeRecord cf
        { nonce, record }).insertMemtable cf record size) := by
  have memory := timeline.sound.memory
  have passed := timeline.later (fun instant member =>
    mem_cons_of_mem record.timestamp member)
  -- the versions of a key: those before, or those of the tables and the new one
  have versions : ∀ other key, (((core.walHandle cf).writeRecord cf
      { nonce, record }).insertMemtable cf record size).versionsOf other key =
        core.versionsOf other key ∨ (((core.walHandle cf).writeRecord cf
        { nonce, record }).insertMemtable cf record size).versionsOf other key =
          (core.store.versions.getTables other).filterMap
            (·.version core.store.dir key) ++ [record] := by
    intro other key
    rw [versionsOf, memtableRecord_insertMemtable]
    split
    · exact .inr rfl
    · exact .inl rfl
  have tables : ∀ other key, ttlPrefix.isPrefixOf key = false →
      ∀ version ∈
        (core.store.versions.getTables other).filterMap (·.version core.store.dir key),
      version.timestamp < record.timestamp := by
    intro other key plain version member
    exact timeline.recent other key plain version (mem_append_left _ member) _ mem_cons_self
  refine ⟨⟨timeline.sound.store, ((memory.walHandle cf).writeRecord cf
    bare).insertMemtable cf bare size⟩, timeline.uncached, timeline.filled,
      passed.named, ?_, ?_⟩
  · intro other key plain
    rcases versions other key with same | new
    · rw [same]
      exact timeline.ordered other key plain
    · rw [new, pairwise_append]
      refine ⟨(timeline.ordered other key plain).sublist
        (sublist_append_left _ _), pairwise_singleton _ _, ?_⟩
      intro version member newest only
      rw [mem_singleton.mp only]
      exact (tables other key plain version member).le
  · intro other key plain version member
    rcases versions other key with same | new
    · rw [same] at member
      exact passed.recent other key plain version member
    · rw [new] at member
      rcases mem_append.mp member with old | only
      · exact passed.recent other key plain version (mem_append_left _ old)
      · rw [mem_singleton.mp only]
        exact first

theorem deleteRange {timestamp logged : Nanos}
    (timeline : Timeline options future core) (nonce : Nonce) (cf : String)
    (start stop : Bytes) :
    Timeline options future
      (core.deleteRangeCf timestamp logged nonce cf start stop) := by
  have sound := @EngineSound.step _ _ timeline.sound
    (.deleteRange timestamp logged nonce cf start stop) trivial
  refine timeline.congr sound rfl ?_
  intro other key
  have same := memtableRecord_insertRange ((core.walHandle cf).writeRecord cf
    { nonce, record :=
      { LogRecord.rangeTombstone logged start stop with
        columnFamily := some cf } }) cf other
    { startKey := start, endKey := stop, timestamp } key
  exact (congrArg Option.toList same) ▸ List.Sublist.refl _

section

variable (timeline : Timeline options (clock.now :: future) core)
include timeline

theorem version_insert (file : SstFile)
    (member : table ∈ core.store.versions.getTables cf) :
    table.version (core.store.dir.insert (flushName clock.now) file) =
        table.version core.store.dir ∧ table.Filled options.storage
        (core.store.dir.insert (flushName clock.now) file) := by
  have same : ∀ path, table.path = some path →
      (core.store.dir.insert (flushName clock.now) file)[path]? = core.store.dir[path]? := by
    intro path located
    rw [NameMap.getElem?_insert, if_neg]
    rintro rfl
    exact timeline.sound.store.path_ne timeline.fresh member located
  exact ⟨funext (Table.version_congr same),
    (timeline.filled cf table member).of_same_file same⟩

theorem filterMap_insert (file : SstFile) (cf : String) (key : Bytes) :
    (core.store.versions.getTables cf).filterMap
        (·.version (core.store.dir.insert (flushName clock.now) file) key) =
      (core.store.versions.getTables cf).filterMap (·.version core.store.dir key) := by
  apply filterMap_congr
  intro table member
  rw [(timeline.version_insert file member).1]

variable (first : ∀ instant ∈ future, clock.now < instant)
include first

theorem named_insert (file : SstFile) :
    ∀ (name : String) (other : SstFile),
      (core.store.dir.insert (flushName clock.now) file)[name]? = some other →
      ∃ instant, name = flushName instant ∧ ∀ later ∈ future, instant < later := by
  intro name other present
  rw [NameMap.getElem?_insert] at present
  split at present
  · next here => exact ⟨clock.now, here.symm, first⟩
  · obtain ⟨instant, same, before⟩ := timeline.named name other present
    exact ⟨instant, same, fun later member =>
      before later (mem_cons_of_mem _ member)⟩

theorem lost (sound : EngineSound options after)
    (versions : after.store.versions = core.store.versions)
    (dir : after.store.dir = core.store.dir.insert (flushName clock.now) .unfinished)
    (fewer : ∀ cf key, (after.memtableRecord cf key).toList.Sublist
      (core.memtableRecord cf key).toList) : Timeline options future after := by
  have sublist : ∀ cf key, (after.versionsOf cf key).Sublist (core.versionsOf cf key) := by
    intro cf key
    rw [versionsOf, versions, dir, timeline.filterMap_insert]
    exact (List.Sublist.refl _).append (fewer cf key)
  refine ⟨sound, by rw [versions]; exact timeline.uncached, ?_,
    by rw [dir]; exact timeline.named_insert first .unfinished, ?_, ?_⟩
  · intro cf table member
    rw [versions] at member
    rw [dir]
    exact (timeline.version_insert .unfinished member).2
  · intro cf key plain
    exact (timeline.ordered cf key plain).sublist (sublist cf key)
  · intro cf key plain record member instant awaited
    exact timeline.recent cf key plain record ((sublist cf key).subset member) instant
      (mem_cons_of_mem _ awaited)

theorem installed (sound : EngineSound options after)
    (placed : FlushInstalled options clock cf core after) :
    Timeline options future after := by
  have memory := memory_popped timeline.sound placed.memtables placed.ranges
  let records := core.flushedRecords clock cf
  have dir : after.store.dir =
      core.store.dir.insert (flushName clock.now) (.table records) := by
    rw [placed.store]
    rfl
  -- what the memtable had of a key goes into the new table or is lost
  have sublist : ∀ other key, ttlPrefix.isPrefixOf key = false →
      (after.versionsOf other key).Sublist (core.versionsOf other key) := by
    intro other key plain
    rw [versionsOf, versionsOf]
    by_cases family : cf = other
    · subst family
      have new_version : (Table.withContents options.storage
          (flushName clock.now) records 0).version after.store.dir key = records[key]? := by
        rw [Table.version_of_path rfl, dir, Table.fileRecord_of_table rfl
          (by rw [NameMap.getElem?_insert, if_pos rfl])]
      have tables : after.store.versions.getTables cf = core.store.versions.getTables cf ++
            [Table.withContents options.storage (flushName clock.now) records 0] := by
        rw [placed.store]
        exact getTables_addTable _ _ _
      rw [tables, filterMap_append, dir, timeline.filterMap_insert, ← dir, (memory key).1,
        Option.toList_none, append_nil]
      apply (List.Sublist.refl _).append
      rw [filterMap_cons, new_version]
      cases written : records[key]? with
      | none => exact nil_sublist _
      | some record =>
        rw [((placed.record_iff timeline.sound plain record).mp written).1]
        exact List.Sublist.refl _
    · have tables : after.store.versions.getTables other = core.store.versions.getTables other := by
        rw [placed.store]
        exact getTables_addTable_ne family _ _
      have memtables : after.memtableRecord other key = core.memtableRecord other key := by
        have same := memtablesOf_popMemtable core cf other
        rw [if_neg family] at same
        rw [memtableRecord, memtablesOf, placed.memtables, ← memtablesOf, same]
        rfl
      rw [tables, dir, timeline.filterMap_insert, memtables]
  refine ⟨sound, by rw [placed.store]; rfl, ?_,
    by rw [dir]; exact timeline.named_insert first _, ?_, ?_⟩
  · intro other table member
    by_cases family : cf = other
    · subst family
      rw [placed.store, withTable, getTables_addTable] at member
      rcases mem_append.mp member with old | new
      · rw [dir]
        exact (timeline.version_insert _ old).2
      · rw [mem_singleton.mp new]
        refine ⟨flushName clock.now, records, ?_, rfl⟩
        rw [dir, NameMap.getElem?_insert, if_pos rfl]
    · rw [placed.store, withTable, getTables_addTable_ne family] at member
      rw [dir]
      exact (timeline.version_insert _ member).2
  · intro other key plain
    exact (timeline.ordered other key plain).sublist (sublist other key plain)
  · intro other key plain record member instant awaited
    exact timeline.recent other key plain record
      ((sublist other key plain).subset member) instant
      (mem_cons_of_mem _ awaited)

end

theorem popped (timeline : Timeline options future core) (cf other : String)
    (key : Bytes) :
    ((core.popMemtable cf).memtableRecord other key).toList.Sublist
      (core.memtableRecord other key).toList := by
  by_cases family : cf = other
  · subst family
    rw [memtableRecord_popMemtable timeline.sound.memory]
    exact nil_sublist _
  · rw [memtableRecord, memtablesOf_popMemtable, if_neg family]
    exact List.Sublist.refl _

theorem flush (timeline : Timeline options (clock.now :: future) core)
    (first : ∀ instant ∈ future, clock.now < instant) (cf : String) :
    Timeline options future (core.flushMemtableImpl options clock cf).2 := by
  have passed := timeline.later (fun instant member =>
    mem_cons_of_mem clock.now member)
  have sound := timeline.sound.flush timeline.fresh cf
  have outcome := flushMemtableImpl_outcome options clock cf core
  generalize core.flushMemtableImpl options clock cf = result at outcome sound ⊢
  cases outcome with
  | idle _ => exact passed
  | synced _ _ _ =>
    exact passed.congr sound rfl (fun _ _ => List.Sublist.refl _)
  | failed mem last nonempty error dir fails =>
    exact timeline.lost first sound rfl (flushTable_error fails) (timeline.popped cf)
  | uncounted mem last nonempty table dir done _ _ =>
    exact timeline.installed first sound
      (flushInstalled_of_done timeline.sound timeline.fresh last done)
  | written mem last nonempty table dir done due =>
    have placed := flushInstalled_of_done timeline.sound timeline.fresh last done
    exact timeline.installed first sound ⟨placed.memtables, placed.ranges,
      placed.store, placed.whole, placed.sorted⟩

theorem put {context : WriteContext} (timeline : Timeline options
      (context.created :: context.ttlBase :: context.flush.now :: future) core)
    (ordered : (context.created :: context.ttlBase :: context.flush.now ::
      future).Pairwise (· < ·))
    (cf : String) (key value : Bytes) (ttl : Option Nanos) : Timeline options future
      (core.putCf options context cf key value ttl).2 := by
  have fields := putRecord_fields options context cf key value ttl
  obtain ⟨first, rest⟩ := pairwise_cons.mp ordered
  have last := (pairwise_cons.mp (pairwise_cons.mp rest).2).1
  unfold putCf
  split
  · exact timeline.later (fun instant member => mem_cons_of_mem _
      (mem_cons_of_mem _ (mem_cons_of_mem _ member)))
  · rw [← fields.2.2.1] at timeline first
    have written :=
      (timeline.write first (LogRecord.bare_of_live fields.2.2.2.1) cf context.nonce
      (key.length + value.length)).later (fun instant member =>
        mem_cons_of_mem context.ttlBase member)
    unfold insertRecord
    dsimp only
    split
    · exact written.flush last cf
    · exact written.later (fun instant member => mem_cons_of_mem _ member)

theorem step {call : RangeCall}
    (timeline : Timeline options (call.2.readings ++ future) core)
    (ordered : (call.2.readings ++ future).Pairwise (· < ·)) :
    Timeline options future (call.step options core) := by
  obtain ⟨cf, op⟩ := call
  cases op with
  | put context key value ttl => exact timeline.put ordered cf key value ttl
  | deleteRange timestamp logged nonce start stop =>
    exact (timeline.later (fun instant member => mem_cons_of_mem _
      (mem_cons_of_mem _ member))).deleteRange nonce cf start stop
  | flush clock =>
    exact timeline.flush (pairwise_cons.mp ordered).1 cf

theorem run {calls : List RangeCall}
    (timeline : Timeline options (rangeReadings calls) core)
    (ordered : (rangeReadings calls).Pairwise (· < ·)) :
    Timeline options [] (calls.foldl (RangeCall.step options) core) := by
  induction calls generalizing core with
  | nil => exact timeline
  | cons call calls ih =>
    exact ih (timeline.step ordered) (pairwise_append.mp ordered).2.1

theorem table_order (timeline : Timeline options future core)
    (plain : ttlPrefix.isPrefixOf key = false) {older newer : Nat}
    (before : older < newer)
    {table other : Table}
    (at_older : (core.store.versions.getTables cf)[older]? = some table)
    (at_newer : (core.store.versions.getTables cf)[newer]? = some other)
    {record version : LogRecord}
    (held : table.version core.store.dir key = some record)
    (found : other.version core.store.dir key = some version) :
    record.timestamp ≤ version.timestamp := by
  have ordered := (timeline.ordered cf key plain).sublist (sublist_append_left _ _)
  rw [pairwise_filterMap, pairwise_iff_getElem] at ordered
  obtain ⟨older_bound, rfl⟩ := List.getElem?_eq_some_iff.mp at_older
  obtain ⟨newer_bound, rfl⟩ := List.getElem?_eq_some_iff.mp at_newer
  exact ordered older newer older_bound newer_bound before record held version found

end Timeline

/-! ## The compaction -/

/-- When a compaction of a family respects the order of time.  `shown`: the
version of a key that is not older than the range tombstones over it is not
in a merged table.  `sides`: nor is the expiry of a key, when a range
tombstone covers the name it stands under.  Keys outside all range tombstones
that are in a merged table have no empty value, and the groups do not change
which value is the newest. -/
structure RespectsTime (core : EngineCore) (cf : String) (plan : CompactionPlan) :
    Prop where
  admissible : plan.Admissible cf core.store
  shown : ∀ key, ttlPrefix.isPrefixOf key = false → core.memtableRecord cf key = none →
    ∀ timestamp, core.coveringRangeTombstoneTs cf key = some timestamp →
    ∀ table record, core.newestEntry cf key = some (table, record) →
      timestamp ≤ record.timestamp →
    ¬ plan.Merges (core.store.versions.getTables cf) table
  sides : ∀ key, ttlPrefix.isPrefixOf key = true →
    isKeyInRangeTombstones key (core.rangesOf cf) = true →
    ∀ table, plan.Merges (core.store.versions.getTables cf) table →
      table.version core.store.dir key = none
  values : ∀ key, isKeyInRangeTombstones key (core.rangesOf cf) = false →
    ∀ merged, plan.Merges (core.store.versions.getTables cf) merged →
    merged.version core.store.dir key ≠ none →
      ∀ table ∈ core.store.versions.getTables cf, ∀ value,
      table.data[key]? = some value → value ≠ []
  winners : ∀ key, isKeyInRangeTombstones key (core.rangesOf cf) = false → ∀ newest latest,
      Latest (core.store.versions.getTables cf).length id
        (heldAt (core.store.versions.getTables cf) key) newest →
      Latest (core.store.versions.getTables cf).length (groupStart (plan.jobs.map (·.1)))
        (heldAt (core.store.versions.getTables cf) key) latest →
      heldAt (core.store.versions.getTables cf) key newest =
        heldAt (core.store.versions.getTables cf) key latest

theorem EngineSound.covering_eq_none_iff (sound : EngineSound options core) :
    core.coveringRangeTombstoneTs cf key = none ↔
      isKeyInRangeTombstones key (core.rangesOf cf) = false := by
  rw [coveringRangeTombstoneTs_eq, isKeyInRangeTombstones, any_eq_false]
  constructor
  · intro nothing range known covers
    obtain ⟨newest, covering, _⟩ := le_maxCovering (mem_append_left _ known) covers
    rw [allRanges, covering] at nothing
    cases nothing
  · intro uncovered
    apply Option.eq_none_iff_forall_ne_some.mpr
    intro newest covering
    obtain ⟨⟨range, known, covers, _⟩, _⟩ := maxCovering_eq_some_iff.mp covering
    rcases mem_append.mp known with own | memtable
    · exact absurd covers (uncovered range own)
    · exact absurd covers (uncovered range (sound.memory.ranges cf range memtable))

theorem EngineSound.covered (sound : EngineSound options core)
    (covering : core.coveringRangeTombstoneTs cf key = some timestamp) :
    isKeyInRangeTombstones key (core.rangesOf cf) = true := by
  by_contra uncovered
  have nothing := sound.covering_eq_none_iff.mpr (Bool.eq_false_iff.mpr uncovered)
  rw [covering] at nothing
  cases nothing

theorem EngineSound.compactCf (sound : EngineSound options core)
    (admissible : plan.Admissible cf core.store) :
    EngineSound options (core.compactCf options cf plan) :=
  @EngineSound.step _ _ sound (.compact cf plan) admissible

section Compaction

variable {options : EngineOptions} {core : EngineCore} {cf : String}
  {plan : CompactionPlan} {after : TableState}
  {replacements : List Replacement} {future : List Nanos}

def Untouched (core : EngineCore) (cf : String) (plan : CompactionPlan) (key : Bytes) :
    Prop :=
  ∀ table, plan.Merges (core.store.versions.getTables cf) table →
    table.version core.store.dir key = none

/-- Lookups under keys in no range tombstone, and under the reserved names,
find what they found. -/
theorem RespectsTime.seen_eq (respects : RespectsTime core cf plan)
    (timeline : Timeline options future core) (installed : Installed options.storage cf
      { plan with tombstones := core.rangesOf cf } core.store after replacements)
    (whole : StoreSound options.storage after) (lookedUp : ttlPrefix.isPrefixOf key = true ∨
      isKeyInRangeTombstones key (core.rangesOf cf) = false) (now : Nanos) :
    after.seen now cf key = core.store.seen now cf key := by
  have sound := timeline.sound.store
  by_cases untouched : Untouched core cf plan key
  · rw [seen_of_uncached (installed.uncached timeline.uncached),
      seen_of_uncached timeline.uncached,
      installed.newestDecision_of_untouched (sound.family cf) untouched]
  · cases covered : isKeyInRangeTombstones key (core.rangesOf cf) with
    | true =>
      rcases lookedUp with reserved | uncovered
      · exact absurd (respects.sides key reserved covered) untouched
      · rw [covered] at uncovered
        cases uncovered
    | false =>
      simp only [Untouched, not_forall] at untouched
      obtain ⟨merged, in_group, held⟩ := untouched
      have values := respects.values key covered merged in_group held
      have valid : DisjointGroups (core.store.versions.getTables cf).length (plan.jobs.map (·.1)) :=
        (pickTables_disjoint plan.strategy _).sublist respects.admissible.picked
      rw [seen_of_nonempty whole (installed.uncached timeline.uncached)
          (installed.filled (timeline.filled cf)) (installed.nonempty values),
        seen_of_nonempty sound timeline.uncached (timeline.filled cf) values,
        installed.newestData_of_nonempty valid covered values, newestData_eq_newestAt]
      exact (newestAt_units_eq_iff (groupStart_lt valid)).mpr (respects.winners key covered)

theorem entry_at {dir : SstDir} {index : Nat} {entry : Table × LogRecord}
    (found : (tables[index]?.bind (fun table =>
      (table.version dir key).bind (fun record => some (table, record)))) =
        some entry) :
    tables[index]? = some entry.1 ∧ entry.1.version dir key = some entry.2 := by
  obtain ⟨table, at_index, decided⟩ := Option.bind_eq_some_iff.mp found
  obtain ⟨record, held, same⟩ := Option.bind_eq_some_iff.mp decided
  cases same
  exact ⟨at_index, held⟩

theorem hidden_of_older {now timestamp : Nanos} (found : Option (Table × LogRecord))
    (older : ∀ entry, found = some entry → entry.2.timestamp < timestamp) :
    found.filter (unhidden now timestamp) = none := by
  cases found with
  | none => rfl
  | some entry =>
    rw [Option.filter_some, unhidden, decide_eq_false (not_le.mpr (older entry rfl)),
      Bool.and_false]
    rfl

variable (respects : RespectsTime core cf plan)
  (timeline : Timeline options future core)
  (installed : Installed options.storage cf { plan with tombstones := core.rangesOf cf }
    core.store after replacements)
include respects timeline installed

/-- What a range tombstone hides stays hidden, and what it does not hide is
still the newest version. -/
theorem RespectsTime.visible_eq (plain : ttlPrefix.isPrefixOf key = false)
    (missing : core.memtableRecord cf key = none)
    (covering : core.coveringRangeTombstoneTs cf key = some timestamp) (now : Nanos) :
    (({ core with store := after } : EngineCore).newestEntry cf key).filter
        (unhidden now timestamp) =
          (core.newestEntry cf key).filter (unhidden now timestamp) := by
  have covered := timeline.sound.covered covering
  have before : core.newestEntry cf key =
      newestAt (core.store.versions.getTables cf).length (fun index =>
        (core.store.versions.getTables cf)[index]?.bind (fun table =>
          (table.version core.store.dir key).bind (fun record =>
            some (table, record)))) := by
    rw [newestEntry_eq, newestDecision, findSome?_reverse_eq]
  have kept := installed.newestDecision_of_dropped
    (installed.dropped_of_covered covered) (fun table record =>
      some (table, record))
  rw [newestEntry_eq, kept]
  rcases newestAt_masked (core.store.versions.getTables cf).length
    (fun index => (core.store.versions.getTables cf)[index]?.bind (fun table =>
      (table.version core.store.dir key).bind (fun record =>
        some (table, record)))) (isRemoved replacements) with
    same | ⟨index, bound, entry, removed, here, newest, earlier⟩
  · rw [same, before]
  · -- the newest version goes, so it was hidden; an older one that stays is
    -- hidden as well
    rw [← before] at newest
    obtain ⟨at_index, held⟩ := entry_at here
    have older : entry.2.timestamp < timestamp := by
      by_contra visible
      exact respects.shown key plain missing timestamp covering entry.1
        entry.2 newest (not_lt.mp visible) (installed.merges at_index removed)
    rw [newest, hidden_of_older (some entry)]
    · apply hidden_of_older
      intro other remaining
      obtain ⟨position, before_index, there⟩ := earlier other remaining
      obtain ⟨at_position, found⟩ := entry_at there
      exact (timeline.table_order plain before_index at_position at_index found held).trans_lt older
    · intro other same
      cases same
      exact older

theorem RespectsTime.answer_eq (whole : StoreSound options.storage after) (now : Nanos)
    (key : Bytes) :
    ({ core with store := after } : EngineCore).answerByVersions now cf key =
      core.answerByVersions now cf key := by
  apply answerByVersions_withStore
  · exact respects.seen_eq timeline installed whole (.inl (isPrefixOf_ttlKey key)) now
  · intro covering
    exact respects.seen_eq timeline installed whole
      (.inr (timeline.sound.covering_eq_none_iff.mp covering)) now
  · intro timestamp missing covering
    cases reserved : ttlPrefix.isPrefixOf key with
    | false =>
      exact respects.visible_eq timeline installed reserved missing covering now
    | true =>
      have covered := timeline.sound.covered covering
      rw [newestEntry_eq, newestEntry_eq, installed.newestDecision_of_untouched
          (timeline.sound.store.family cf) (respects.sides key reserved covered)]

end Compaction

/-- After every run of puts that start no compaction, range deletions and
flushes with a strictly increasing clock, a compaction of a family that merges
no table with a version that the range tombstones over it do not hide, and
otherwise only keys with values in an order the groups keep, changes no read
of the family. -/
theorem compaction_respects_range_deletions {options : EngineOptions}
    (_ : options.storage.Legible) {calls : List RangeCall}
    (_ : Guarded (RangeCall.step options) (RangeCall.Calm options) .empty calls)
    (clock : (rangeReadings calls).Pairwise (· < ·)) {cf : String}
    {plan : CompactionPlan}
    (respects : RespectsTime (rangeRun options calls) cf plan) (now : Nanos)
    (key : Bytes) :
    (((rangeRun options calls).compactCf options cf plan).getCf now cf key).1 =
      ((rangeRun options calls).getCf now cf key).1 := by
  have timeline := (Timeline.empty options _).run clock
  change Timeline options [] (rangeRun options calls) at timeline
  generalize rangeRun options calls = core at respects timeline ⊢
  have sound := timeline.sound
  have whole := (sound.compactCf respects.admissible).store
  rw [getCf_eq_versions whole, getCf_eq_versions sound.store]
  congr 1
  let merging : CompactionPlan := { plan with tombstones := core.rangesOf cf }
  rcases @compactCfCore_cases _ _ _ merging (sound.store.family cf)
    respects.admissible.fresh with ⟨same, files⟩ | ⟨replacements, installed⟩
  · -- a failed compaction leaves the tables alone
    have decisions := @newestDecision_congr cf core.store
      (core.compactCf options cf plan).store (by rw [← same]; rfl) files
    have seen : ∀ key, (core.compactCf options cf plan).store.seen now cf key =
        core.store.seen now cf key := by
      intro key
      rw [seen_of_uncached, seen_of_uncached timeline.uncached, decisions]
      rw [← timeline.uncached]
      exact congrArg (·.kvCache) same
    apply answerByVersions_withStore (seen _) (fun _ => seen _)
    intro _ _ _
    rw [newestEntry_eq, newestEntry_eq]
    exact congrArg (Option.filter _) (decisions key _)
  · exact respects.answer_eq timeline installed whole now key

def allEntries (tables : List Table) : List (Bytes × Bytes) :=
  tables.flatMap (·.data.toList)

theorem mem_allEntries (member : table ∈ tables) {key value : Bytes}
    (held : table.data[key]? = some value) : (key, value) ∈ allEntries tables :=
  mem_flatMap.mpr ⟨table, member, (ByteMap.mem_toList _ _ _).mpr held⟩

theorem Timeline.mem_allEntries {future : List Nanos}
    (timeline : Timeline options future core)
    (member : table ∈ core.store.versions.getTables cf)
    (held : table.version core.store.dir key = some record) :
    (key, record.value) ∈ allEntries (core.store.versions.getTables cf) := by
  apply ApexStore.mem_allEntries member
  have filled := timeline.filled cf table member
  have located := filled
  obtain ⟨path, _, _, same⟩ := located
  rw [filled.data_eq, ← Table.version_of_path (by rw [same]; rfl), held]
  rfl

theorem CompactionPlan.Merges.mem (merges : plan.Merges tables table) :
    table ∈ tables := by
  obtain ⟨_, _, _, _, at_index⟩ := merges
  exact mem_of_getElem? at_index

/-- A value is deleted with its range and then flushed; it is merged with the
table of another key. -/
theorem compaction_respects_flushed_range_deletion :
    let calls : List RangeCall :=
      [("default", .put (.ticking 1) [7] [1] none),
        ("default", .deleteRange 10 11 (Vector.replicate 12 0) [7] [8]),
        ("default", .flush { now := 20, stamp := fun _ => 20 }),
        ("default", .put (.ticking 21) [9] [2] none),
        ("default", .flush { now := 30, stamp := fun _ => 30 })]
    let core := rangeRun .default calls
    let plan : CompactionPlan :=
      { strategy := .sizeTiered .default, tombstones := [],
        jobs := [([0, 1], { timestamp := 40, stamp := fun _ => 40 })] }
    (core.getCf 50 "default" [7]).1 = .ok none ∧
    (core.getCf 50 "default" [9]).1 = .ok (some [2]) ∧
    ∀ now key,
      ((core.compactCf .default "default" plan).getCf now "default" key).1 =
        (core.getCf now "default" key).1 := by
  intro calls core plan
  have clock : (rangeReadings calls).Pairwise (· < ·) := by decide +kernel
  have timeline := (Timeline.empty .default _).run clock
  change Timeline .default [] core at timeline
  have entries : allEntries (core.store.versions.getTables "default") =
      [([7], [1]), ([9], [2])] := by decide +kernel
  have keys : ∀ table ∈ core.store.versions.getTables "default",
      ∀ key record, table.version core.store.dir key = some record → key = [7] ∨
        key = [9] := by
    intro table member key record held
    have listed := timeline.mem_allEntries member held
    rw [entries] at listed
    simp only [mem_cons, Prod.mk.injEq, not_mem_nil, or_false] at listed
    exact listed.imp And.left And.left
  have respects : RespectsTime core "default" plan := by
    refine ⟨by decide +kernel, ?_, ?_, ?_, ?_⟩
    · intro key _ _ timestamp covering table record newest visible
      obtain ⟨other, member, found⟩ := exists_of_findSome?_eq_some newest
      obtain ⟨version, held, _⟩ := Option.map_eq_some_iff.mp found
      rcases keys other (mem_reverse.mp member) key version held with rfl | rfl
      · have at_ten : core.coveringRangeTombstoneTs "default" [7] = some 10 := by decide +kernel
        have stamp : (core.newestEntry "default" [7]).map
            (·.2.timestamp) = some 1 := by decide +kernel
        rw [newest] at stamp
        rw [at_ten] at covering
        cases covering
        rw [show record.timestamp = 1 from Option.some.inj stamp] at visible
        exact absurd visible (by decide)
      · have uncovered : core.coveringRangeTombstoneTs "default" [9] =
            none := by decide +kernel
        rw [uncovered] at covering
        cases covering
    · intro key reserved _ table merges
      apply Option.eq_none_iff_forall_ne_some.mpr
      intro record held
      rcases keys table merges.mem key record held with rfl | rfl
      · cases reserved
      · cases reserved
    · intro key _ _ _ _ table member value held
      have listed := mem_allEntries member held
      rw [entries] at listed
      simp only [mem_cons, not_mem_nil, or_false] at listed
      rcases listed with ⟨_, rfl⟩ | ⟨_, rfl⟩ <;> simp
    · intro key _ newest latest is_newest is_latest
      have two : (core.store.versions.getTables "default").length = 2 := by decide +kernel
      refine Latest.of_whole ?_ is_newest is_latest
      rw [two]
      decide
  have calm : Guarded (RangeCall.step .default) (RangeCall.Calm .default) .empty calls :=
    ⟨Calm.of_room (by decide +kernel), trivial, trivial, Calm.of_room (by decide +kernel),
      trivial, trivial⟩
  refine ⟨?_, ?_, compaction_respects_range_deletions (by decide) calm clock respects⟩
  · rw [getCf_eq_versions timeline.sound.store]
    decide +kernel
  · rw [getCf_eq_versions timeline.sound.store]
    decide +kernel

/-- A key is written again after its range was deleted.  Both tables are
merged, and with the range tombstone still known the new value is dropped. -/
theorem compaction_drops_value_written_after_range_deletion :
    let calls : List RangeCall :=
      [("default", .put (.ticking 1) [7] [1] none),
        ("default", .deleteRange 10 11 (Vector.replicate 12 0) [7] [8]),
        ("default", .put (.ticking 20) [7] [2] none),
        ("default", .flush { now := 30, stamp := fun _ => 30 }),
        ("default", .put (.ticking 40) [9] [3] none),
        ("default", .flush { now := 50, stamp := fun _ => 50 })]
    let core := rangeRun .default calls
    let plan : CompactionPlan :=
      { strategy := .sizeTiered .default, tombstones := [],
        jobs := [([0, 1], { timestamp := 60, stamp := fun _ => 60 })] }
    (rangeReadings calls).Pairwise (· < ·) ∧
    plan.Admissible "default" core.store ∧
    (core.getCf 70 "default" [7]).1 = .ok (some [2]) ∧
    ((core.compactCf .default "default" plan).getCf 70 "default" [7]).1 = .ok none := by
  intro calls core plan
  have clock : (rangeReadings calls).Pairwise (· < ·) := by decide +kernel
  have timeline := (Timeline.empty .default _).run clock
  change Timeline .default [] core at timeline
  have sound := timeline.sound
  have admissible : plan.Admissible "default" core.store := by decide +kernel
  refine ⟨clock, admissible, ?_, ?_⟩
  · rw [getCf_eq_versions sound.store]
    decide +kernel
  · rw [getCf_eq_versions (sound.compactCf admissible).store]
    decide +kernel

end ApexStore
