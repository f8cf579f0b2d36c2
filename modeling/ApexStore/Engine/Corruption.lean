import ApexStore.Engine.ReadView

/-!
# Lookups among unreadable tables

Files of tables may become unreadable: `get` then quarantines the file and goes
on to older tables, `get_record` reports an error, and a restart moves the file
aside and leaves the table out of the list.  When an older version of a key is
returned is a matter of which table can still answer first
(`lookups_never_go_back_iff`).
-/

namespace ApexStore

open VersionSet List Option LogRecord

/-- What has become of a list of tables whose files were as in `intact`: some
tables were moved aside at startup, and some of the other files cannot be read
any more. -/
structure Damaged (intact : SstDir) (tables : List Table) (dir : SstDir)
    (versions : VersionSet) (cf : String) : Prop where
  kept : (versions.getTables cf).Sublist tables
  files : ∀ table ∈ versions.getTables cf, ∀ path, table.path = some path →
    dir[path]? = intact[path]? ∨ dir.Unreadable path

namespace Table

/-- The table has no file, or one that can be read and is not quarantined. -/
def Legible (dir : SstDir) (quarantined : List String) (table : Table) : Prop :=
  ∀ path, table.path = some path → path ∉ quarantined ∧ ¬ dir.Unreadable path

/-- `get` can take an answer from a table with the given version of the key:
from a non-empty value in memory, or from a file that can be read and whose
record has not expired. -/
def Responds (dir : SstDir) (versions : VersionSet) (now : Nanos)
    (key : Bytes) (record : LogRecord) (table : Table) : Prop :=
  table.path = none ∨ (∃ value, table.data[key]? = some value ∧ value ≠ []) ∨
    (versions.hasBlockCache = true ∧ table.Legible dir versions.quarantined ∧
      (record.isDeleted = true ∨ record.isExpiredAt now = false))

/-- `get_record` goes on to the next older table. -/
def PassedOver (intact dir : SstDir) (quarantined : List String)
    (key : Bytes) (table : Table) : Prop :=
  table.version intact key = none ∧
    (table.admitsRecord key = true → table.Legible dir quarantined)

variable {config : StorageConfig} {intact dir : SstDir} {table : Table}
  {key : Bytes} {versions : VersionSet} {now : Nanos}
  {quarantined : List String}

variable {path : String}

theorem fileRecord_of_unreadable (located : table.path = some path)
    (unreadable : dir.Unreadable path) (key : Bytes) :
    table.fileRecord dir key = none := by
  obtain ⟨error, opened⟩ := unreadable
  simp [fileRecord, located, SstDir.get, opened, Except.toOption]

theorem Legible.same_file (legible : table.Legible dir quarantined)
    (files : ∀ path, table.path = some path → dir[path]? = intact[path]? ∨
      dir.Unreadable path) :
    ∀ path, table.path = some path → dir[path]? = intact[path]? :=
  fun path located =>
    (files path located).resolve_right (legible path located).2

variable {record : LogRecord}

theorem Produced.admits_of_version (produced : table.Produced config dir)
    (found : table.version dir key = some record) :
    table.admits key = true ∧ table.admitsRecord key = true := by
  rcases produced.cases with ⟨path, records, located, file, admitted, _⟩ |
    ⟨located, admitted⟩
  · rw [version_of_path located, fileRecord_of_table located file] at found
    exact admitted key (Std.ExtTreeMap.mem_iff_isSome_getElem?.mpr (by rw [found]; rfl))
  · rw [version, located] at found
    obtain ⟨value, held, _⟩ := map_eq_some_iff.mp found
    exact admitted key (Std.ExtTreeMap.mem_iff_isSome_getElem?.mpr (by rw [held]; rfl))

theorem answer_of_data {value : Bytes} (admits : table.admits key = true)
    (held : table.data[key]? = some value) (nonempty : value ≠ [])
    (hasBlockCache : Bool) :
    table.answer dir hasBlockCache quarantined now key = some (some value) := by
  have filled : value.isEmpty = false := by simpa using nonempty
  rw [answer, admits, held]
  dsimp only
  rw [filled]
  rfl

theorem answer_of_no_data (located : table.path = some path)
    (admits : table.admits key = true)
    (empty : ∀ value, table.data[key]? = some value → value = [])
    (hasBlockCache : Bool) :
    table.answer dir hasBlockCache quarantined now key =
      table.fileAnswer dir hasBlockCache quarantined now key := by
  rw [answer, admits, located]
  cases held : table.data[key]? with
  | none => rfl
  | some value => rw [empty value held]; rfl

variable (wellFormed : table.WellFormed config intact)
  (files : ∀ path, table.path = some path → dir[path]? = intact[path]? ∨
    dir.Unreadable path)
include wellFormed files

theorem WellFormed.answer_of_absent (absent : table.version intact key = none)
    (hasBlockCache : Bool) (quarantined : List String) (now : Nanos) :
    table.answer dir hasBlockCache quarantined now key = none := by
  have data : table.data[key]? = none := by
    apply eq_none_iff_forall_ne_some.mpr
    intro value held
    obtain ⟨record, found, _⟩ := wellFormed.produced.version_of_data held
    rw [absent] at found
    cases found
  have file : table.fileRecord dir key = none := by
    cases located : table.path with
    | none => simp [fileRecord, located]
    | some path =>
      rcases files path located with same | unreadable
      · rw [version_of_path located] at absent
        rw [← absent]
        apply fileRecord_congr
        intro other again
        rw [located] at again
        cases again
        exact same
      · exact fileRecord_of_unreadable located unreadable key
  simp [answer, data, fileAnswer, file]

theorem WellFormed.answer_of_responds (found : table.version intact key = some record)
    (responds : table.Responds dir versions now key record) :
    table.answer dir versions.hasBlockCache versions.quarantined now key =
      some (if record.isDeleted then none else some record.value) := by
  have admits := (wellFormed.produced.admits_of_version found).1
  -- a value in memory is the value of the version
  have from_memory : ∀ {value : Bytes}, table.data[key]? = some value →
      value ≠ [] → table.answer dir versions.hasBlockCache versions.quarantined now key =
        some (if record.isDeleted then none else some record.value) := by
    intro value held nonempty
    obtain ⟨version, same, rfl⟩ := wellFormed.produced.version_of_data held
    rw [found] at same
    cases same
    have live : record.isDeleted = false := by
      rw [Bool.eq_false_iff]
      exact fun deleted =>
        nonempty (wellFormed.tombstones key record found deleted)
    rw [answer_of_data admits held nonempty, live]
    rfl
  cases located : table.path with
  | none =>
    rw [version, located] at found
    obtain ⟨value, held, rfl⟩ := map_eq_some_iff.mp found
    cases value with
    | nil => simp [answer, admits, held, located]
    | cons byte bytes => exact from_memory held (by simp)
  | some path =>
    by_cases filled : ∃ value, table.data[key]? = some value ∧ value ≠ []
    · obtain ⟨value, held, nonempty⟩ := filled
      exact from_memory held nonempty
    · obtain ⟨cached, legible, lasting⟩ :=
        (responds.resolve_left (by simp [located])).resolve_left filled
      have same : table.fileRecord dir key = some record := by
        rw [fileRecord_congr (legible.same_file files), ← version_of_path located, found]
      have outside := (legible path located).1
      rw [answer_of_no_data located admits (fun value held => by
        by_contra nonempty
        exact filled ⟨value, held, nonempty⟩), fileAnswer, same, located,
        cached, any_some, contains_eq_mem,
        decide_eq_false outside, if_neg (by simp), bind_some,
        decides]
      rcases lasting with deleted | unexpired
      · rw [deleted]
        rfl
      · rw [unexpired]
        cases record.isDeleted <;> rfl

theorem WellFormed.answer_of_silent (found : table.version intact key = some record)
    (silent : ¬ table.Responds dir versions now key record) :
    table.answer dir versions.hasBlockCache versions.quarantined now key = none := by
  have admits := (wellFormed.produced.admits_of_version found).1
  cases located : table.path with
  | none => exact absurd (.inl located) silent
  | some path =>
    rw [answer_of_no_data located admits (fun value held => by
      by_contra nonempty
      exact silent (.inr (.inl ⟨value, held, nonempty⟩))), fileAnswer]
    by_cases isolated : path ∈ versions.quarantined
    · simp [located, isolated]
    cases cached : versions.hasBlockCache with
    | false => simp
    | true =>
      by_cases unreadable : dir.Unreadable path
      · simp [fileRecord_of_unreadable located unreadable]
      · have legible : table.Legible dir versions.quarantined := by
          intro other again
          rw [located] at again
          cases again
          exact ⟨isolated, unreadable⟩
        have same : table.fileRecord dir key = some record := by
          rw [fileRecord_congr (legible.same_file files), ← version_of_path located, found]
        have live : record.isDeleted = false := by
          rw [Bool.eq_false_iff]
          exact fun deleted =>
            silent (.inr (.inr ⟨cached, legible, .inl deleted⟩))
        have expired : record.isExpiredAt now = true := by
          rw [← Bool.not_eq_false]
          exact fun unexpired =>
            silent (.inr (.inr ⟨cached, legible, .inr unexpired⟩))
        simp [same, decides, live, expired]

end Table

/-! ## `get_record` -/

section Records

variable {config : StorageConfig} {intact dir : SstDir}
  {quarantined : List String} {key : Bytes}

variable {table : Table}

theorem getRecordIn_of_passedOver (older : List Table)
    (wellFormed : table.WellFormed config intact)
    (files : ∀ path, table.path = some path → dir[path]? = intact[path]? ∨
      dir.Unreadable path)
    (passed : table.PassedOver intact dir quarantined key) :
    getRecordIn dir quarantined key (table :: older) =
      getRecordIn dir quarantined key older := by
  obtain ⟨absent, readable⟩ := passed
  cases admitted : table.admitsRecord key with
  | false => simp [getRecordIn, admitted]
  | true =>
    have legible := readable admitted
    have same := legible.same_file files
    rw [getRecordIn_cons older key (wellFormed.produced.of_same_file same)
      (fun path located => (legible path located).1), Table.version_congr same, absent]

variable {record : LogRecord}

theorem getRecordIn_of_found (older : List Table)
    (wellFormed : table.WellFormed config intact)
    (files : ∀ path, table.path = some path → dir[path]? = intact[path]? ∨
      dir.Unreadable path)
    (legible : table.Legible dir quarantined)
    (found : table.version intact key = some record) :
    getRecordIn dir quarantined key (table :: older) = .ok (some record) := by
  have same := legible.same_file files
  rw [getRecordIn_cons older key (wellFormed.produced.of_same_file same)
    (fun path located => (legible path located).1), Table.version_congr same, found]

theorem getRecordIn_of_illegible (older : List Table)
    (illegible : ¬ table.Legible dir quarantined)
    (admitted : table.admitsRecord key = true) :
    ∃ error, getRecordIn dir quarantined key (table :: older) = .error error := by
  obtain ⟨path, located, broken⟩ : ∃ path, table.path = some path ∧
      ¬ (path ∉ quarantined ∧ ¬ dir.Unreadable path) := by
    by_contra fine
    apply illegible
    intro path located
    by_contra broken
    exact fine ⟨path, located, broken⟩
  rw [getRecordIn, admitted, located]
  dsimp only
  by_cases isolated : path ∈ quarantined
  · rw [contains_eq_mem, decide_eq_true isolated]
    exact ⟨_, rfl⟩
  · have unreadable : dir.Unreadable path := by
      by_contra open_file
      exact broken ⟨isolated, open_file⟩
    obtain ⟨error, opened⟩ := unreadable
    refine ⟨error, ?_⟩
    simp [isolated, SstDir.get, opened]

/-- The record comes from the first table that has one, all tables before it
being passed over. -/
theorem getRecordIn_eq_some_iff {tables : List Table}
    (wellFormed : ∀ table ∈ tables, table.WellFormed config intact)
    (files : ∀ table ∈ tables, ∀ path, table.path = some path →
      dir[path]? = intact[path]? ∨ dir.Unreadable path) :
    getRecordIn dir quarantined key tables = .ok (some record) ↔
      ∃ newer table older, tables = newer ++ table :: older ∧
        (∀ other ∈ newer, other.PassedOver intact dir quarantined key) ∧
        table.Legible dir quarantined ∧ table.version intact key = some record := by
  induction tables with
  | nil => simp [getRecordIn]
  | cons table tables ih =>
    have here := wellFormed table mem_cons_self
    have file := files table mem_cons_self
    have later := ih (forall_mem_cons.mp wellFormed).2
      (forall_mem_cons.mp files).2
    -- the first table is passed over, answers, or stops the search
    have first_split : ∀ {holds : Prop}, ¬ table.PassedOver intact dir quarantined key →
        (holds ↔ table.Legible dir quarantined ∧ table.version intact key = some record) →
        (holds ↔ ∃ newer first older, table :: tables = newer ++ first :: older ∧
          (∀ other ∈ newer, other.PassedOver intact dir quarantined key) ∧
          first.Legible dir quarantined ∧ first.version intact key = some record) := by
      intro holds stops same
      rw [same]
      constructor
      · intro found
        exact ⟨[], table, tables, rfl, by simp, found⟩
      · rintro ⟨newer, first, older, split_eq, passed, found⟩
        cases newer with
        | nil =>
          cases split_eq
          exact found
        | cons front newer =>
          cases split_eq
          exact absurd (passed table mem_cons_self) stops
    by_cases passed : table.PassedOver intact dir quarantined key
    · rw [getRecordIn_of_passedOver tables here file passed, later]
      constructor
      · rintro ⟨newer, first, older, rfl, before, found⟩
        refine ⟨table :: newer, first, older, rfl, ?_, found⟩
        intro other member
        rcases mem_cons.mp member with rfl | deeper
        · exact passed
        · exact before other deeper
      · rintro ⟨newer, first, older, split_eq, before, legible, found⟩
        cases newer with
        | nil =>
          cases split_eq
          rw [passed.1] at found
          cases found
        | cons front newer =>
          cases split_eq
          exact ⟨newer, first, older, rfl, fun other member =>
            before other (mem_cons_of_mem _ member), legible, found⟩
    · apply first_split passed
      by_cases legible : table.Legible dir quarantined
      · cases found : table.version intact key with
        | none => exact absurd ⟨found, fun _ => legible⟩ passed
        | some version =>
          rw [getRecordIn_of_found tables here file legible found]
          simp [legible]
      · have admitted : table.admitsRecord key = true := by
          by_contra refused
          have absent : table.version intact key ≠ none := fun absent =>
            passed ⟨absent, fun admitted => absurd admitted refused⟩
          obtain ⟨version, found⟩ := ne_none_iff_exists'.mp absent
          exact refused (here.produced.admits_of_version found).2
        obtain ⟨error, failed⟩ := getRecordIn_of_illegible tables legible admitted
        rw [failed]
        simp [legible]

end Records

/-! ## `get` -/

namespace Table

variable {config : StorageConfig} {intact dir : SstDir} {table : Table}
  {key : Bytes} {versions : VersionSet} {now : Nanos}

variable (wellFormed : table.WellFormed config intact)
  (files : ∀ path, table.path = some path → dir[path]? = intact[path]? ∨
    dir.Unreadable path)
include wellFormed files

theorem WellFormed.answer_eq_none_iff :
    table.answer dir versions.hasBlockCache versions.quarantined now key = none ↔
      ∀ record, table.version intact key = some record →
        ¬ table.Responds dir versions now key record := by
  constructor
  · intro unanswered record found responds
    rw [wellFormed.answer_of_responds files found responds] at unanswered
    cases unanswered
  · intro silent
    cases found : table.version intact key with
    | none => exact wellFormed.answer_of_absent files found _ _ now
    | some record =>
      exact wellFormed.answer_of_silent files found (silent record found)

theorem WellFormed.answer_eq_value_iff {value : Bytes} :
    table.answer dir versions.hasBlockCache versions.quarantined now key =
      some (some value) ↔
      ∃ record, table.version intact key = some record ∧
        table.Responds dir versions now key record ∧
        record.isDeleted = false ∧ record.value = value := by
  constructor
  · intro answered
    have speaks : ¬ ∀ record, table.version intact key = some record →
        ¬ table.Responds dir versions now key record := by
      intro silent
      rw [(wellFormed.answer_eq_none_iff files).mpr silent] at answered
      cases answered
    push Not at speaks
    obtain ⟨record, found, responds⟩ := speaks
    rw [wellFormed.answer_of_responds files found responds] at answered
    cases deleted : record.isDeleted with
    | true => simp [deleted] at answered
    | false =>
      refine ⟨record, found, responds, deleted, ?_⟩
      simpa [deleted] using answered
  · rintro ⟨record, found, responds, live, rfl⟩
    rw [wellFormed.answer_of_responds files found responds, live]
    rfl

end Table

/-- The newest version of a key in a list of tables, oldest first. -/
def newestVersion (dir : SstDir) (tables : List Table) (key : Bytes) :
    Option LogRecord :=
  tables.reverse.findSome? (·.version dir key)

/-- The newest version is live and has the given value. -/
def NewestIs (dir : SstDir) (tables : List Table) (key value : Bytes) : Prop :=
  ∃ newest, newestVersion dir tables key = some newest ∧
    newest.isDeleted = false ∧ newest.value = value

/-- The tables of a family, newest first, up to one at which `get` stops. -/
structure FirstToRespond (intact dir : SstDir) (versions : VersionSet)
    (cf : String) (now : Nanos) (key : Bytes) (record : LogRecord)
    (newer : List Table) (table : Table) (older : List Table) : Prop where
  listed : (versions.getTables cf).reverse = newer ++ table :: older
  silent : ∀ other ∈ newer, ∀ version, other.version intact key = some version →
      ¬ other.Responds dir versions now key version
  found : table.version intact key = some record
  responds : table.Responds dir versions now key record

/-- The same for `get_record`. -/
structure FirstToRecord (intact dir : SstDir) (versions : VersionSet)
    (cf : String) (key : Bytes) (record : LogRecord) (newer : List Table)
    (table : Table) (older : List Table) : Prop where
  listed : (versions.getTables cf).reverse = newer ++ table :: older
  passed : ∀ other ∈ newer, other.PassedOver intact dir versions.quarantined key
  legible : table.Legible dir versions.quarantined
  found : table.version intact key = some record

/-- The first table that can still answer has the newest version, a tombstone
or the same value; so has the cache, and `get_record` meets the newest version
first or a table that cannot be read. -/
structure NewestAnswers (intact : SstDir) (tables : List Table) (dir : SstDir)
    (versions : VersionSet) (cf : String) (now : Nanos) (key : Bytes) : Prop where
  cached : ∀ value, versions.kvCache[key]? = some value → value ≠ [] →
    NewestIs intact tables key value
  values : versions.kvCache[key]? = none → ∀ record newer table older,
    FirstToRespond intact dir versions cf now key record newer table older →
    record.isDeleted = false → NewestIs intact tables key record.value
  records : ∀ record newer table older,
    FirstToRecord intact dir versions cf key record newer table older →
    newestVersion intact tables key = some record

section

variable {config : StorageConfig} {intact dir : SstDir} {tables : List Table}
  {versions : VersionSet} {cf : String} {now : Nanos} {key : Bytes}

theorem get_eq_some_iff (uncached : versions.kvCache[key]? = none)
    (wellFormed : ∀ table ∈ versions.getTables cf, table.WellFormed config intact)
    (files : ∀ table ∈ versions.getTables cf, ∀ path, table.path = some path →
        dir[path]? = intact[path]? ∨ dir.Unreadable path) {value : Bytes} :
    (versions.get dir now cf key).1 = some value ↔ ∃ record newer table older,
        FirstToRespond intact dir versions cf now key record newer table
          older ∧ record.isDeleted = false ∧ record.value = value := by
  have inside : ∀ {newer older : List Table} {table other : Table},
      (versions.getTables cf).reverse = newer ++ table :: older →
      (other ∈ newer ∨ other = table) → other ∈ versions.getTables cf := by
    intro newer older table other listed place
    rw [← mem_reverse, listed]
    rcases place with front | rfl
    · exact mem_append_left _ front
    · simp
  rw [get_of_uncached uncached, (search_eq dir versions.hasBlockCache now key
    (versions.getTables cf).reverse versions.quarantined).1,
    join_eq_some_iff, List.findSome?_eq_some_iff]
  constructor
  · rintro ⟨newer, table, older, listed, answered, before⟩
    have member := inside listed (.inr rfl)
    obtain ⟨record, found, responds, live, same⟩ :=
      ((wellFormed table member).answer_eq_value_iff (files table member)).mp answered
    refine ⟨record, newer, table, older, ⟨listed, ?_, found, responds⟩, live, same⟩
    intro other front
    have other_member := inside listed (.inl front)
    exact ((wellFormed other other_member).answer_eq_none_iff
      (files other other_member)).mp (before other front)
  · rintro ⟨record, newer, table, older, first, live, same⟩
    have member := inside first.listed (.inr rfl)
    refine ⟨newer, table, older, first.listed, ?_, ?_⟩
    · exact ((wellFormed table member).answer_eq_value_iff (files table member)).mpr
          ⟨record, first.found, first.responds, live, same⟩
    · intro other front
      have other_member := inside first.listed (.inl front)
      exact ((wellFormed other other_member).answer_eq_none_iff
        (files other other_member)).mpr (first.silent other front)

end

/-- Whatever tables become unreadable, are quarantined or are moved aside:
`get` and `get_record` return no version but the newest one exactly if no other
version comes first among those that can still be read. -/
theorem lookups_never_go_back_iff {config : StorageConfig} {intact dir : SstDir}
    {tables : List Table} {versions : VersionSet} {cf : String}
    (wellFormed : ∀ table ∈ tables, table.WellFormed config intact)
    (damaged : Damaged intact tables dir versions cf) (now : Nanos) (key : Bytes) :
    ((∀ value, (versions.get dir now cf key).1 = some value →
      NewestIs intact tables key value) ∧
      (∀ record, versions.getRecord dir cf key = .ok (some record) →
        newestVersion intact tables key = some record)) ↔
      NewestAnswers intact tables dir versions cf now key := by
  have kept : ∀ table ∈ versions.getTables cf, table.WellFormed config intact :=
    fun table member => wellFormed table (damaged.kept.subset member)
  have recorded : ∀ record, versions.getRecord dir cf key = .ok (some record) ↔
        ∃ newer table older,
          FirstToRecord intact dir versions cf key record newer table older := by
    intro record
    rw [getRecord,
      getRecordIn_eq_some_iff (fun table member => kept table (mem_reverse.mp member))
      (fun table member => damaged.files table (mem_reverse.mp member))]
    constructor
    · rintro ⟨newer, table, older, listed, passed, legible, found⟩
      exact ⟨newer, table, older, listed, passed, legible, found⟩
    · rintro ⟨newer, table, older, first⟩
      exact ⟨newer, table, older, first.listed, first.passed, first.legible, first.found⟩
  constructor
  · rintro ⟨values, records⟩
    refine ⟨?_, ?_, ?_⟩
    · intro value cached nonempty
      apply values value
      rw [get_of_cached cached, if_neg (by simpa using nonempty)]
    · intro uncached record newer table older first live
      exact values record.value ((get_eq_some_iff uncached kept
        damaged.files).mpr ⟨record, newer, table, older, first, live, rfl⟩)
    · intro record newer table older first
      exact records record ((recorded record).mpr ⟨newer, table, older, first⟩)
  · intro shown
    constructor
    · intro value returned
      cases cached : versions.kvCache[key]? with
      | some held =>
        rw [get_of_cached cached] at returned
        split at returned
        · cases returned
        · next filled =>
          rw [← Option.some.inj returned]
          exact shown.cached held cached (by simpa using filled)
      | none =>
        obtain ⟨record, newer, table, older, first, live, rfl⟩ :=
          (get_eq_some_iff cached kept damaged.files).mp returned
        exact shown.values cached record newer table older first live
    · intro record returned
      obtain ⟨newer, table, older, first⟩ := (recorded record).mp returned
      exact shown.records record newer table older first

def overwrittenFiles : SstDir :=
  ((∅ : SstDir).insert "flush_1.sst" (.table (singleRecord 1 [7] [1]))).insert
    "flush_2.sst" (.table (singleRecord 2 [7] [2]))

def overwrittenTables : List Table :=
  [.ofRecords EngineOptions.default.storage "flush_1.sst" (singleRecord 1 [7] [1]),
    .ofRecords EngineOptions.default.storage "flush_2.sst" (singleRecord 2 [7] [2])]

def overwrittenVersions : VersionSet :=
  { VersionSet.new true with
    tables := (∅ : NameMap (List Table)).insert "default" overwrittenTables }

theorem overwrittenTables_wellFormed : ∀ table ∈ overwrittenTables,
    table.WellFormed EngineOptions.default.storage overwrittenFiles := by
  have live : ∀ {now : Nanos} {value key : Bytes} {record : LogRecord},
      (singleRecord now [7] value)[key]? = some record → record.isDeleted = false := by
    intro now value key record found
    rw [singleRecord, ByteMap.getElem?_insert] at found
    split at found
    · cases found
      rfl
    · simp at found
  intro table member
  simp only [overwrittenTables, mem_cons, not_mem_nil, or_false] at member
  have files : overwrittenFiles["flush_1.sst"]? = some (.table (singleRecord 1 [7] [1])) ∧
      overwrittenFiles["flush_2.sst"]? = some (.table (singleRecord 2 [7] [2])) := by
    constructor
    · rw [overwrittenFiles, NameMap.getElem?_insert, if_neg (by decide),
        NameMap.getElem?_insert, if_pos rfl]
    · rw [overwrittenFiles, NameMap.getElem?_insert, if_pos rfl]
  rcases member with rfl | rfl
  · refine ⟨.inr (.inl ⟨_, _, files.1, rfl⟩), ?_⟩
    intro key record found deleted
    rw [live found] at deleted
    cases deleted
  · refine ⟨.inr (.inl ⟨_, _, files.2, rfl⟩), ?_⟩
    intro key record found deleted
    rw [live found] at deleted
    cases deleted

theorem SstDir.unreadable_insert (dir : SstDir) (name : String) :
    SstDir.Unreadable (dir.insert name .unfinished) name := by
  refine ⟨.invalidSstableFormat "file is shorter than header and footer", ?_⟩
  rw [openTable, NameMap.getElem?_insert, if_pos rfl]

theorem SstDir.readable {dir : SstDir} {name : String} {records : ByteMap LogRecord}
    (present : dir[name]? = some (.table records)) : ¬ dir.Unreadable name := by
  rintro ⟨error, opened⟩
  rw [openTable, present] at opened
  cases opened

theorem overwrittenFiles_damaged (name : String) :
    Damaged overwrittenFiles overwrittenTables
      (overwrittenFiles.insert name .unfinished) overwrittenVersions "default" := by
  refine ⟨List.Sublist.refl _, ?_⟩
  intro table _ path _
  rw [NameMap.getElem?_insert]
  by_cases here : name = path
  · subst here
    exact .inr (overwrittenFiles.unreadable_insert name)
  · left
    rw [if_neg here]

/-- While the newest version can be read, the loss of an older one does not
show. -/
theorem lookups_never_go_back_past_readable_version :
    let dir : SstDir := overwrittenFiles.insert "flush_1.sst" .unfinished
    (∀ value, (overwrittenVersions.get dir 3 "default" [7]).1 = some value →
        NewestIs overwrittenFiles overwrittenTables [7] value) ∧
      (∀ record, overwrittenVersions.getRecord dir "default" [7] =
          .ok (some record) →
        newestVersion overwrittenFiles overwrittenTables [7] =
          some record) := by
  intro dir
  apply (lookups_never_go_back_iff overwrittenTables_wellFormed
    (overwrittenFiles_damaged "flush_1.sst") 3 [7]).mpr
  have listed : (overwrittenVersions.getTables "default").reverse = overwrittenTables.reverse := rfl
  have newest : newestVersion overwrittenFiles overwrittenTables [7] =
      some (new 2 [7] [2]) := by decide +kernel
  have legible : ∀ table, overwrittenTables.reverse.head? = some table →
      table.Legible dir [] := by
    rintro table same path located
    cases same
    cases located
    exact ⟨by simp, SstDir.readable rfl⟩
  refine ⟨?_, ?_, ?_⟩
  · intro value cached
    cases cached
  · intro _ record newer table older first live
    have split_eq := first.listed.symm.trans listed
    cases newer with
    | nil =>
      obtain ⟨rfl, _⟩ := List.cons.inj split_eq
      have same := first.found
      have version : some record = some (new 2 [7] [2]) :=
        same.symm.trans (by decide +kernel)
      cases version
      exact ⟨_, newest, rfl, rfl⟩
    | cons front newer =>
      obtain ⟨rfl, _⟩ := List.cons.inj split_eq
      refine absurd ?_ (first.silent _ mem_cons_self (new 2 [7] [2]) (by decide +kernel))
      exact .inr (.inr ⟨rfl, legible _ rfl, .inr rfl⟩)
  · intro record newer table older first
    have split_eq := first.listed.symm.trans listed
    cases newer with
    | nil =>
      obtain ⟨rfl, _⟩ := List.cons.inj split_eq
      rw [← first.found]
      decide +kernel
    | cons front newer =>
      obtain ⟨rfl, _⟩ := List.cons.inj split_eq
      have absent := (first.passed _ mem_cons_self).1
      have present : ∀ table, overwrittenTables.reverse.head? = some table →
          table.version overwrittenFiles [7] ≠ none := by
        rintro table same
        cases same
        decide +kernel
      exact absurd absent (present _ rfl)

/-- The newest version becomes unreadable: `get_record` reports an error, `get`
returns the overwritten value. -/
theorem unreadable_table_revives_old_value :
    let dir : SstDir := overwrittenFiles.insert "flush_2.sst" .unfinished
    newestVersion overwrittenFiles overwrittenTables [7] =
        some (LogRecord.new 2 [7] [2]) ∧
      (overwrittenVersions.get dir 3 "default" [7]).1 = some [1] ∧
      ∃ error, overwrittenVersions.getRecord dir "default" [7] =
        .error error := by
  intro dir
  have unreadable : dir.Unreadable "flush_2.sst" := overwrittenFiles.unreadable_insert "flush_2.sst"
  refine ⟨by decide +kernel, ?_, ?_⟩
  · apply (@get_eq_some_iff EngineOptions.default.storage overwrittenFiles dir
      overwrittenVersions "default" 3 [7] rfl overwrittenTables_wellFormed
      (overwrittenFiles_damaged "flush_2.sst").files [1]).mpr
    refine ⟨new 1 [7] [1], [.ofRecords EngineOptions.default.storage "flush_2.sst"
        (singleRecord 2 [7] [2])], _, [], ⟨rfl, ?_, rfl, ?_⟩, rfl, rfl⟩
    · intro other member version _ responds
      rw [mem_singleton] at member
      subst member
      rcases responds with nowhere | ⟨value, held, _⟩ | ⟨_, legible, _⟩
      · cases nowhere
      · simp [Table.ofRecords] at held
      · exact (legible "flush_2.sst" rfl).2 unreadable
    · refine .inr (.inr ⟨rfl, ?_, .inr rfl⟩)
      rintro path located
      cases located
      exact ⟨by simp [overwrittenVersions, VersionSet.new], SstDir.readable rfl⟩
  · apply getRecordIn_of_illegible
    · intro legible
      exact (legible "flush_2.sst" rfl).2 unreadable
    · exact (Table.ofRecords_admits _ _ (Std.ExtTreeMap.mem_iff_isSome_getElem?.mpr rfl)).2

end ApexStore
