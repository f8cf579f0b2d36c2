import ApexStore.Core.MergeSeek
import ApexStore.Storage.Blocks
import ApexStore.Engine.MemoryView

/-!
# Scans

A scan merges the memtables and the tables of a family, newest first, and
visits the newest version of every key in key order.  Which versions are
visible is decided anew here, not by the code of the point reads.
-/

namespace ApexStore

open VersionSet EngineCore MergeIterator List

variable {key : Bytes} {lower upper : Option Bytes}

def maxScanLimit : Nat := 10000

/-- What an iterator yields with a key: the value, and the record unless the
source has values only. -/
abbrev Version := Bytes × Option LogRecord

def MemTable.iter (mem : MemTable) : List (Bytes × Version) :=
  mem.data.toList.map (fun entry => (entry.1, entry.2.value, some entry.2))

def Table.iter (table : Table) : List (Bytes × Version) :=
  table.data.toList.map (fun entry => (entry.1, entry.2, none))

/-- A table whose keys all lie outside the bounds is left out. -/
def Table.outside (lower upper : Option Bytes) (table : Table) : Bool :=
  (!table.maxKey.isEmpty && lower.any (fun bound => decide (table.maxKey < bound))) ||
    (!table.minKey.isEmpty && upper.any (fun bound => decide (bound ≤ table.minKey)))

/-- The versions of a table within the bounds; a table without a file yields
all it has. -/
def Table.recordIter (dir : SstDir) (quarantined : List String)
    (lower upper : Option Bytes) (table : Table) :
    Except LsmError (List (Bytes × Version)) :=
  match table.path with
  | none => .ok table.iter
  | some path =>
    if quarantined.contains path then
      .error (.invalidSstableFormat s!"cannot read quarantined SSTable {path}")
    else
      match dir.openTable path with
      | .error error => .error error
      | .ok records =>
        let blocks := SstableBuilder.layout table.blockSize records.toList
        .ok ((SstableReader.scanRange lower upper blocks).map
          (fun entry => (entry.1, entry.2.value, some entry.2)))

def VersionSet.recordIters (dir : SstDir) (quarantined : List String)
    (lower upper : Option Bytes) :
    List Table → Except LsmError (List (List (Bytes × Version)))
  | [] => .ok []
  | table :: older =>
    if table.outside lower upper then
      recordIters dir quarantined lower upper older
    else
      match table.recordIter dir quarantined lower upper with
      | .error error => .error error
      | .ok versions =>
        match recordIters dir quarantined lower upper older with
        | .error error => .error error
        | .ok rest => .ok (versions :: rest)

def VersionSet.recordItersInRange (versions : VersionSet) (dir : SstDir) (cf : String)
    (lower upper : Option Bytes) : Except LsmError (List (List (Bytes × Version))) :=
  recordIters dir versions.quarantined lower upper (versions.getTables cf).reverse

namespace EngineCore

/-- For values without a record the expiry stands under the TTL key. -/
def legacyExpired (now : Nanos) (cf : String) (key : Bytes)
    (store : TableState) : Bool × TableState :=
  let (ttlValue, versions) := store.versions.get store.dir now cf (ttlKey key)
  (ttlValue.any (fun bytes =>
      decide (bytes.length = 16) && decide (leNat bytes ≤ now.val)),
    { store with versions })

def checkLegacy (now : Nanos) (cf : String) (key : Bytes)
    (record : Option LogRecord) (store : TableState) : Bool × TableState :=
  match record with
  | some _ => (false, store)
  | none => legacyExpired now cf key store

def deletedAt (now : Nanos) (version : Version) : Bool :=
  match version.2 with
  | some record => record.isDeleted || record.isExpiredAt now
  | none => version.1.isEmpty

/-- A value without a record is covered by any range tombstone. -/
def coveredBy (covering : Option Nanos) (version : Version) : Bool :=
  covering.any (fun timestamp =>
    version.2.all (fun record => decide (record.timestamp < timestamp)))

def visitRecords (core : EngineCore) (now : Nanos) (cf : String)
    (lower upper : Option Bytes) (limit : Nat) :
    List (Bytes × Version) → TableState → Nat →
      List (Bytes × Bytes) × TableState
  | [], store, _ => ([], store)
  | (key, version) :: rest, store, visible =>
    if limit ≤ visible then ([], store)
    else if upper.any (fun bound => decide (bound ≤ key)) then ([], store)
    else if lower.any (fun bound => decide (key < bound)) ||
        ttlPrefix.isPrefixOf key then
      visitRecords core now cf lower upper limit rest store visible
    else
      let covering := core.coveringRangeTombstoneTs cf key
      let (legacy, store) := checkLegacy now cf key version.2 store
      if !deletedAt now version && !coveredBy covering version && !legacy then
        let (results, store) := visitRecords core now cf lower upper limit
          rest store (visible + 1)
        ((key, version.1) :: results, store)
      else visitRecords core now cf lower upper limit rest store visible

def forEachVisibleRecord (core : EngineCore) (now : Nanos) (cf : String)
    (lower upper : Option Bytes) (limit : Nat) :
    Except LsmError (List (Bytes × Bytes)) × EngineCore :=
  let inverted :=
    match lower, upper with
    | some low, some high => decide (high ≤ low)
    | _, _ => false
  if limit = 0 || inverted then (.ok [], core)
  else
    match core.store.versions.recordItersInRange core.store.dir cf lower
        upper with
    | .error error => (.error error, core)
    | .ok iters =>
      let merged := MergeIterator.new
        ((core.memtablesOf cf).reverse.map (·.iter) ++ iters)
      let (results, store) := core.visitRecords now cf lower upper limit
        merged.drain core.store 0
      (.ok results, { core with store })

def scanCf (now : Nanos) (cf : String) (lower upper : Option Bytes)
    (limit : Option Nat) (core : EngineCore) :
    Except LsmError (List (Bytes × Bytes)) × EngineCore :=
  core.forEachVisibleRecord now cf lower upper (limit.getD maxScanLimit)

theorem visitRecords_reads (core : EngineCore) (now : Nanos) (cf : String)
    (lower upper : Option Bytes) (limit : Nat)
    (entries : List (Bytes × Version)) (store : TableState) (visible : Nat) :
    ∃ keys : List Bytes,
      { core with
        store := (core.visitRecords now cf lower upper limit entries store visible).2 } =
        { core with store }.readAll now cf (keys.map ttlKey) := by
  induction entries generalizing store visible with
  | nil => exact ⟨[], rfl⟩
  | cons entry entries ih =>
    obtain ⟨key, value, record⟩ := entry
    have checked : ∃ keys : List Bytes,
        { core with store := (checkLegacy now cf key record store).2 } =
          { core with store }.readAll now cf (keys.map ttlKey) := by
      cases record with
      | some record => exact ⟨[], rfl⟩
      | none => exact ⟨[key], rfl⟩
    obtain ⟨first, looked⟩ := checked
    rw [visitRecords]
    split
    · exact ⟨[], rfl⟩
    split
    · exact ⟨[], rfl⟩
    split
    · exact ih store visible
    · dsimp only
      split
      · obtain ⟨others, later⟩ := ih _ (visible + 1)
        refine ⟨first ++ others, later.trans ?_⟩
        rw [looked, readAll_append, map_append]
      · obtain ⟨others, later⟩ := ih _ visible
        refine ⟨first ++ others, later.trans ?_⟩
        rw [looked, readAll_append, map_append]

theorem scanCf_reads (core : EngineCore) (now : Nanos) (cf : String)
    (lower upper : Option Bytes)
    (limit : Option Nat) :
    ∃ keys : List Bytes, (core.scanCf now cf lower upper limit).2 =
      core.readAll now cf (keys.map ttlKey) := by
  unfold scanCf forEachVisibleRecord
  dsimp only
  generalize (match lower, upper with
    | some low, some high => decide (high ≤ low)
    | _, _ => false) = inverted
  split
  · exact ⟨[], rfl⟩
  split
  · exact ⟨[], rfl⟩
  · exact visitRecords_reads core now cf lower upper _ _ core.store 0

/-! ## What a scan lists -/

/-- Whether a version is listed, given what the TTL keys say. -/
def listed (core : EngineCore) (now : Nanos) (cf : String)
    (legacy : Bytes → Bool) (entry : Bytes × Version) : Bool :=
  !ttlPrefix.isPrefixOf entry.1 && !deletedAt now entry.2 &&
    !coveredBy (core.coveringRangeTombstoneTs cf entry.1) entry.2 &&
    !(entry.2.2.isNone && legacy entry.1)

/-- As long as the TTL keys answer the same throughout, a scan lists what is
visible within the bounds until it has enough. -/
theorem visitRecords_eq (core : EngineCore) (now : Nanos) (cf : String)
    (lower upper : Option Bytes)
    {legacy : Bytes → Bool} {good : TableState → Prop}
    (answers : ∀ store key, good store →
      (legacyExpired now cf key store).1 = legacy key ∧
        good (legacyExpired now cf key store).2)
    (limit : Nat) {entries : List (Bytes × Version)}
    (sorted : SortedEntries entries) {store : TableState} (fine : good store)
    (visible : Nat) :
    (core.visitRecords now cf lower upper limit entries store visible).1 =
      (((entries.filter (core.listed now cf legacy)).filter
          (fun entry => inBounds lower upper entry.1)).map
        (fun entry => (entry.1, entry.2.1))).take (limit - visible) := by
  induction entries generalizing store visible with
  | nil => simp [visitRecords]
  | cons entry entries ih =>
    obtain ⟨key, value, record⟩ := entry
    have rest : SortedEntries entries := List.Pairwise.of_cons sorted
    rw [visitRecords]
    by_cases full : limit ≤ visible
    · rw [if_pos full, Nat.sub_eq_zero_of_le full, take_zero]
    rw [if_neg full]
    by_cases beyond : upper.any (fun bound => decide (bound ≤ key)) = true
    · -- all keys to come are above the upper bound as well
      have nothing :
          (((key, value, record) :: entries).filter (core.listed now cf legacy)).filter
            (fun entry => inBounds lower upper entry.1) = [] := by
        rw [filter_eq_nil_iff]
        intro other member
        have above : key ≤ other.1 := by
          rcases mem_cons.mp (mem_filter.mp member).1 with rfl | after
          · exact le_rfl
          · exact le_of_lt (rel_of_pairwise_cons sorted after)
        simp [inBounds_eq_false_of_upper beyond above]
      rw [if_pos beyond, nothing, map_nil, take_nil]
    rw [if_neg beyond]
    by_cases passed : (lower.any (fun bound => decide (key < bound)) ||
        ttlPrefix.isPrefixOf key) = true
    · have dropped :
          (((key, value, record) :: entries).filter (core.listed now cf legacy)).filter
            (fun entry => inBounds lower upper entry.1) =
          (entries.filter (core.listed now cf legacy)).filter
            (fun entry => inBounds lower upper entry.1) := by
        rcases Bool.or_eq_true_iff.mp passed with below | reserved
        · cases lower with
          | none => cases below
          | some bound => simp_all [inBounds]
        · simp [listed, reserved]
      rw [if_pos passed, dropped]
      exact ih rest fine visible
    rw [if_neg passed]
    -- the TTL key is read for values without a record only
    have read : ∃ store', good store' ∧ checkLegacy now cf key record store =
          (record.isNone && legacy key, store') := by
      cases record with
      | some record => exact ⟨store, fine, rfl⟩
      | none =>
        obtain ⟨same, still⟩ := answers store key fine
        exact ⟨_, still, Prod.ext same rfl⟩
    obtain ⟨store', fine', read⟩ := read
    rw [read]
    dsimp only
    obtain ⟨above, reserved⟩ := Bool.or_eq_false_iff.mp (Bool.eq_false_iff.mpr passed)
    have within : inBounds lower upper key = true := by
      cases lower <;> cases upper <;> simp_all [inBounds]
    have shown : core.listed now cf legacy (key, value, record) = (!deletedAt now (value, record) &&
          !coveredBy (core.coveringRangeTombstoneTs cf key)
            (value, record) && !(record.isNone && legacy key)) := by
      simp [listed, reserved]
    by_cases visible' : core.listed now cf legacy (key, value, record) = true
    · have kept :
          (((key, value, record) :: entries).filter (core.listed now cf legacy)).filter
            (fun entry => inBounds lower upper entry.1) =
          (key, value, record) :: (entries.filter (core.listed now cf legacy)).filter
              (fun entry => inBounds lower upper entry.1) := by
        rw [filter_cons_of_pos visible']
        exact filter_cons_of_pos within
      have room : limit - visible = limit - (visible + 1) + 1 := by omega
      rw [kept, ← shown, if_pos visible', map_cons, room,
        take_succ_cons, ih rest fine' (visible + 1)]
    · rw [filter_cons_of_neg visible', ← shown, if_neg visible']
      exact ih rest fine' visible

end EngineCore

/-! ## The newest versions -/

def MemTable.versions (mem : MemTable) : ByteMap Version :=
  mem.data.map (fun _ record => (record.value, some record))

def Table.versions (dir : SstDir) (table : Table) : ByteMap Version :=
  match table.path with
  | none => table.data.map (fun _ value => (value, none))
  | some path =>
    match dir[path]? with
    | some (.table records) =>
      records.map (fun _ record => (record.value, some record))
    | _ => ∅

theorem MemTable.iter_eq (mem : MemTable) : mem.iter = mem.versions.toList := by
  rw [versions, Std.ExtTreeMap.toList_map]
  rfl

variable {table : Table} {lower upper : Option Bytes} {dir : SstDir}
  {quarantined : List String}

theorem Table.outside_eq_false (admitted : table.admitsRecord key = true)
    (within : inBounds lower upper key = true) :
    table.outside lower upper = false := by
  rw [inBounds, Bool.and_eq_true] at within
  rw [admitsRecord, Bool.and_eq_true, Bool.not_eq_true', Bool.or_eq_false_iff] at admitted
  obtain ⟨⟨above, below⟩, _⟩ := admitted
  rw [outside, Bool.or_eq_false_iff]
  constructor
  · cases lower with
    | none => simp
    | some bound =>
      rw [Bool.and_eq_false_iff] at below ⊢
      refine below.imp_right (fun not_above => ?_)
      have le : bound ≤ key := by simpa using within.1
      have low : key ≤ table.maxKey := by simpa using not_above
      simpa using le.trans low
  · cases upper with
    | none => simp
    | some bound =>
      rw [Bool.and_eq_false_iff] at above ⊢
      refine above.imp_right (fun not_below => ?_)
      have lt : key < bound := by simpa using within.2
      have high : table.minKey ≤ key := by simpa using not_below
      simpa using high.trans_lt lt

theorem Table.recordIter_eq (readable : ∀ path, table.path = some path →
      path ∉ quarantined ∧ ∃ records, dir[path]? = some (.table records))
    (lower upper : Option Bytes) : ∃ yielded : ByteMap Version,
      table.recordIter dir quarantined lower upper = .ok yielded.toList ∧
      ∀ key, inBounds lower upper key = true →
        yielded[key]? = (table.versions dir)[key]? := by
  cases located : table.path with
  | none =>
    refine ⟨table.versions dir, ?_, fun _ _ => rfl⟩
    simp only [recordIter, versions, located, iter]
    rw [Std.ExtTreeMap.toList_map]
  | some path =>
    obtain ⟨free, records, file⟩ := readable path located
    refine ⟨(records.filter (fun key _ =>
      inBounds lower upper key)).map (fun _ record => (record.value, some record)), ?_, ?_⟩
    · simp only [recordIter, located, file, SstDir.openTable, SstableReader.scanRange_layout]
      rw [if_neg (by simpa using free), Std.ExtTreeMap.toList_map,
        Std.ExtTreeMap.toList_filter]
    · intro key within
      simp only [versions, located, file, Std.ExtTreeMap.getElem?_map,
        Std.ExtTreeMap.getElem?_filter']
      cases records[key]? with
      | none => rfl
      | some record => simp [within]

theorem VersionSet.recordIters_eq {tables : List Table}
    (readable : ∀ table ∈ tables, ∀ path, table.path = some path →
      path ∉ quarantined ∧ ∃ records, dir[path]? = some (.table records))
    (spanned : ∀ table ∈ tables, ∀ key, inBounds lower upper key = true →
      (table.versions dir)[key]? ≠ none → table.outside lower upper = false) :
    ∃ yielded : List (ByteMap Version),
      recordIters dir quarantined lower upper tables =
        .ok (yielded.map (·.toList)) ∧ ∀ key, inBounds lower upper key = true →
        yielded.findSome? (·[key]?) =
          tables.findSome? (fun table => (table.versions dir)[key]?) := by
  induction tables with
  | nil => exact ⟨[], rfl, fun _ _ => rfl⟩
  | cons table older ih =>
    obtain ⟨rest, walked, same⟩ := ih
      (forall_mem_cons.mp readable).2
      (forall_mem_cons.mp spanned).2
    rw [recordIters]
    by_cases left : table.outside lower upper = true
    · rw [if_pos left]
      refine ⟨rest, walked, fun key within => ?_⟩
      have absent : (table.versions dir)[key]? = none := by
        by_contra held
        exact absurd left
          (Bool.eq_false_iff.mp (spanned table mem_cons_self key within held))
      rw [same key within, List.findSome?_cons, absent]
    · obtain ⟨yielded, first, agrees⟩ := Table.recordIter_eq
        (readable table mem_cons_self) lower upper
      rw [if_neg left, first]
      rw [walked]
      refine ⟨yielded :: rest, rfl, fun key within => ?_⟩
      rw [List.findSome?_cons, List.findSome?_cons, agrees key within, same key within]

namespace EngineCore

def sources (core : EngineCore) (cf : String) : List (ByteMap Version) :=
  (core.memtablesOf cf).reverse.map (·.versions) ++
    (core.store.versions.getTables cf).reverse.map
      (·.versions core.store.dir)

/-- What the newest source that has a key holds for it. -/
def newestVersion (core : EngineCore) (cf : String) (key : Bytes) : Option Version :=
  (core.sources cf).findSome? (·[key]?)

def Readable (core : EngineCore) (cf : String) : Prop :=
  ∀ table ∈ core.store.versions.getTables cf, ∀ path, table.path = some path →
    path ∉ core.store.versions.quarantined ∧
      ∃ records, core.store.dir[path]? = some (.table records)

theorem newestVersion_eq (core : EngineCore) (cf : String) (key : Bytes) :
    core.newestVersion cf key = ((core.memtableRecord cf key).map
        (fun record => (record.value, some record))).or
        ((core.store.versions.getTables cf).reverse.findSome?
          (fun table => (table.versions core.store.dir)[key]?)) := by
  have in_memory : ∀ memtables :
      List MemTable, (memtables.map (·.versions)).findSome? (·[key]?) =
        (memtables.findSome? (·.data[key]?)).map
          (fun record => (record.value, some record)) := by
    intro memtables
    induction memtables with
    | nil => rfl
    | cons mem memtables ih =>
      rw [map_cons, List.findSome?_cons, List.findSome?_cons, ih,
        MemTable.versions, Std.ExtTreeMap.getElem?_map]
      cases mem.data[key]? <;> rfl
  rw [newestVersion, sources, List.findSome?_append, in_memory, List.findSome?_map]
  rfl

def shown (core : EngineCore) (now : Nanos) (cf : String)
    (legacy : Bytes → Bool) (key : Bytes) : Option Bytes :=
  ((core.newestVersion cf key).filter
    (fun version => core.listed now cf legacy (key, version))).map (·.1)

theorem listed_record (core : EngineCore) (now : Nanos) (cf : String)
    (legacy : Bytes → Bool)
    (plain : ttlPrefix.isPrefixOf key = false) (record : LogRecord) :
    ((some (record.value, some record)).filter (fun version =>
      core.listed now cf legacy (key, version))).map (·.1) =
      memtableAnswer (core.coveringRangeTombstoneTs cf key) now record := by
  rw [memtableAnswer]
  cases covered : (core.coveringRangeTombstoneTs cf key).any
      (fun timestamp => decide (record.timestamp < timestamp)) with
  | true => simp [listed, coveredBy, covered]
  | false =>
    cases deleted : record.isDeleted with
    | true => simp [listed, deletedAt, deleted]
    | false =>
      cases expired : record.isExpiredAt now with
      | true => simp [listed, plain, deletedAt, expired]
      | false =>
        simp [listed, plain, coveredBy, covered, deletedAt, deleted, expired]

def listing (core : EngineCore) (now : Nanos) (cf : String)
    (legacy : Bytes → Bool) : List (Bytes × Bytes) :=
  (((MergeIterator.new ((core.sources cf).map (·.toList))).drain).filter
    (core.listed now cf legacy)).map (fun entry => (entry.1, entry.2.1))

theorem listing_sorted (core : EngineCore) (now : Nanos) (cf : String)
    (legacy : Bytes → Bool) : SortedEntries (core.listing now cf legacy) :=
  pairwise_map.mpr (List.Pairwise.sublist filter_sublist (drain_new_sorted _))

theorem mem_listing (core : EngineCore) (now : Nanos) (cf : String)
    (legacy : Bytes → Bool) (key value : Bytes) :
    (key, value) ∈ core.listing now cf legacy ↔
      core.shown now cf legacy key = some value := by
  rw [listing, shown, Option.map_eq_some_iff, mem_map]
  simp only [mem_filter, Prod.exists, Option.filter_eq_some_iff, mem_drain_new,
    Prod.mk.injEq]
  constructor
  · rintro ⟨_, stored, record, ⟨newest, visible⟩, rfl, rfl⟩
    exact ⟨stored, record, ⟨newest, visible⟩, rfl⟩
  · rintro ⟨stored, record, ⟨newest, visible⟩, rfl⟩
    exact ⟨key, stored, record, ⟨newest, visible⟩, rfl, rfl⟩

variable {core : EngineCore} {cf : String} {now : Nanos} {legacy : Bytes → Bool}
  {good : TableState → Prop}

/-- A scan lists, in key order, the newest versions that are visible within its
bounds, up to its limit. -/
theorem scanCf_within (readable : core.Readable cf)
    (spanned : ∀ table ∈ core.store.versions.getTables cf, ∀ key,
      inBounds lower upper key = true →
      (table.versions core.store.dir)[key]? ≠ none → table.outside lower upper = false)
    (answers : ∀ store key, good store →
      (legacyExpired now cf key store).1 = legacy key ∧
        good (legacyExpired now cf key store).2) (fine : good core.store)
          (limit : Option Nat) :
    (core.scanCf now cf lower upper limit).1 =
      .ok (((core.listing now cf legacy).filter
        (fun entry => inBounds lower upper entry.1)).take
          (limit.getD maxScanLimit)) := by
  obtain ⟨yielded, iters, same⟩ := recordIters_eq
    (fun table member => readable table (mem_reverse.mp member))
    (fun table member => spanned table (mem_reverse.mp member))
  have memory : (core.memtablesOf cf).reverse.map (·.iter) =
      ((core.memtablesOf cf).reverse.map (·.versions)).map (·.toList) := by
    rw [map_map]
    exact map_congr_left (fun mem _ => mem.iter_eq)
  -- within the bounds, what is merged is what all the sources hold
  have merged : ((MergeIterator.new (((core.memtablesOf cf).reverse.map (·.versions) ++ yielded).map
        (·.toList))).drain.filter (core.listed now cf legacy)).filter
          (fun entry => inBounds lower upper entry.1) =
      ((MergeIterator.new ((core.sources cf).map (·.toList))).drain.filter
        (core.listed now cf legacy)).filter (fun entry => inBounds lower upper entry.1) := by
    have kept : ∀ maps : List (ByteMap Version), SortedEntries
        (((MergeIterator.new (maps.map (·.toList))).drain.filter
          (core.listed now cf legacy)).filter
            (fun entry => inBounds lower upper entry.1)) := fun maps =>
      ((drain_new_sorted maps).sublist filter_sublist).sublist filter_sublist
    apply (kept _).eq_of_mem_iff (kept _)
    rintro ⟨key, version⟩
    rw [mem_filter, mem_filter, mem_filter, mem_filter,
      mem_drain_new, mem_drain_new, sources, List.findSome?_append, List.findSome?_append]
    apply and_congr_left
    intro within
    simp only [same key within, List.findSome?_map]
    rfl
  rw [scanCf]
  generalize limit.getD maxScanLimit = bound
  unfold forEachVisibleRecord
  by_cases empty : (decide (bound = 0) || (match lower, upper with
      | some low, some high => decide (high ≤ low)
      | _, _ => false)) = true
  · rw [if_pos empty]
    rcases Bool.or_eq_true_iff.mp empty with none_allowed | inverted
    · rw [of_decide_eq_true none_allowed, take_zero]
    · have nothing : (core.listing now cf legacy).filter
          (fun entry => inBounds lower upper entry.1) = [] := by
        rw [filter_eq_nil_iff]
        intro entry _ within
        cases lower with
        | none => cases inverted
        | some low =>
          cases upper with
          | none => cases inverted
          | some high =>
            have both : low ≤ entry.1 ∧ entry.1 < high := by
              simpa [inBounds] using within
            exact absurd (of_decide_eq_true inverted) (not_le.mpr (both.1.trans_lt both.2))
      rw [nothing, take_nil]
  · rw [if_neg empty, recordItersInRange, iters]
    dsimp only
    rw [memory, ← map_append, visitRecords_eq core now cf lower upper
      answers bound (drain_new_sorted _) fine 0, merged, listing, filter_map]
    rfl

theorem scanCf_eq (readable : core.Readable cf) (answers : ∀ store key, good store →
      (legacyExpired now cf key store).1 = legacy key ∧
        good (legacyExpired now cf key store).2)
    (fine : good core.store) {limit : Option Nat}
    (room : (core.listing now cf legacy).length ≤ limit.getD maxScanLimit) :
    (core.scanCf now cf none none limit).1 = .ok (core.listing now cf legacy) := by
  rw [scanCf_within readable (fun _ _ _ _ _ => by simp [Table.outside]) answers fine limit]
  congr 1
  have all : (core.listing now cf legacy).filter (fun entry => inBounds none none entry.1) =
        core.listing now cf legacy := filter_eq_self.mpr (fun _ _ => rfl)
  rw [all, take_of_length_le room]

end EngineCore

end ApexStore
