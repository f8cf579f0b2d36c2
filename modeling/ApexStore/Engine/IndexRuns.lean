import ApexStore.Engine.IndexKeys

/-!
# The secondary index over runs

An entry is never retracted: an overwrite adds the entry of the new value, and
a delete looks for the old value when it is gone.  Entries are built with
colons and taken apart at the last one, and they are searched in the default
family.  A query returns the documents with the value it is asked for as long
as none of this comes into play (`IndexOp.Proper`).
-/

namespace ApexStore

open VersionSet EngineCore List Option Clocked

variable {context : WriteContext} {clock : IndexClock} {key : String}
  {config : StorageConfig} {rows : List (Bytes × Bytes)} {state : Clocked}

/-! ## Searching -/

theorem Clocked.searchPrefix_first {clock : Nat → Nanos}
    (quiescent : state.core.Quiescent config clock "default" rows) (text : String)
    (limit : Nat) :
    ∃ cursor, state.searchPrefix clock text none limit =
      (.ok ((startingWith text rows).take limit, cursor),
        { core := (state.core.scanCf (clock state.reading) "default"
            (some (utf8 text)) (prefixEnd text) (some (limit + 1))).2
          reading := state.reading + 1 }) := by
  have scanned :=
    (quiescent.scanCf state.reading (some (utf8 text)) (prefixEnd text) (limit + 1)).1
  have located : Paging.Locates (startingWith text rows) utf8 none := by
    intro key named
    cases named
  have rest := results_eq_above quiescent.sorted located limit
  simp only [map_none, none_or, isSome_none, Bool.false_eq_true, if_false] at rest
  unfold searchPrefix scanCf
  simp only [map_none, none_or, isSome_none, Bool.false_eq_true, if_false, scanned, rest]
  rw [take_take, Nat.min_eq_left (Nat.le_succ limit)]
  exact ⟨_, rfl⟩

theorem EngineCore.searchSchema_eq {core : EngineCore} {now : Nanos}
    (quiescent : core.Quiescent config (fun _ => now) "default" rows) :
    core.searchSchema now =
      (.ok ((startingWith schemaPrefix rows).take 100),
        (core.scanCf now "default" (some (utf8 schemaPrefix))
          (prefixEnd schemaPrefix) (some (100 + 1))).2) := by
  obtain ⟨cursor, found⟩ := @Clocked.searchPrefix_first config rows
    ⟨core, 0⟩ _ quiescent schemaPrefix 100
  rw [searchSchema, found]

theorem dueEntries_single (field : String) (fields : String → Option String)
    (key : Bytes) :
    dueEntries [(schemaKey field, utf8 "1")] fields key =
      ((fields field).map (fun value =>
        (field, entryKey field value key))).toList := by
  have named : stripText schemaPrefix (lossyString (schemaKey field)) = some field := by
    rw [schemaKey, lossyString_utf8, stripText_append]
  rw [dueEntries]
  cases found : fields field <;> simp [named, found]

theorem dueEntries_eq_nil {fields : String → Option String}
    (none_set : ∀ field, fields field = none) (schema : List (Bytes × Bytes))
    (key : Bytes) :
    dueEntries schema fields key = [] := by
  rw [dueEntries, filterMap_eq_nil_iff]
  intro row _
  simp [none_set]

/-! ## Runs -/

/-- The calls that write documents. -/
inductive IndexOp where
  | put (context : WriteContext) (clock : IndexClock) (key : String) (value : Bytes)
  | delete (context : WriteContext) (clock : IndexClock) (key : String)

namespace IndexOp

def step (options : EngineOptions) (json : JsonReader) (cf : String)
    (core : EngineCore) : IndexOp → EngineCore
  | put context clock key value =>
    (core.putIndexed options json context clock cf (utf8 key) value).2
  | delete context clock key =>
    (core.deleteIndexed options json context clock cf (utf8 key)).2

/-- A key that is neither reserved for expiries nor for indexes. -/
def Outside (key : String) : Prop :=
  ¬ Internal (utf8 key) ∧ ttlPrefix.isPrefixOf (utf8 key) = false

/-- The index can follow: there is no entry of the key under another string
than the one it is given, and the entry that is due can be told apart, fits and
can be written. -/
structure Followed (options : EngineOptions) (json : JsonReader)
    (field : String) (core : EngineCore) (context : WriteContext)
    (clock : IndexClock) (key : String) (value : Bytes) : Prop where
  works : core.InsertWorks options context.flush "default"
    (putRecord options context "default" (utf8 key) value none) ((utf8 key).length + value.length)
  fresh : ∀ string, json.stringField value field ≠ some string →
    core.newestRecord "default" (entryKey field string (utf8 key)) = none
  colonless : ∀ string, json.stringField value field = some string →
    Colonless string ∧ Colonless key
  fits : ∀ string, json.stringField value field = some string →
    (entryKey field string (utf8 key)).length ≤ maxKeySize
  entry : ∀ string, json.stringField value field = some string →
    (core.putCf options context "default" (utf8 key) value
        none).2.InsertWorks options (clock.write field).flush "default"
      (putRecord options (clock.write field) "default" (entryKey field string (utf8 key)) [] none)
      ((entryKey field string (utf8 key)).length + 0)

/-- Calls after which the index still tells the truth. -/
def Proper (options : EngineOptions) (json : JsonReader) (field : String)
    (core : EngineCore) : IndexOp → Prop
  | put context clock key value =>
    Outside key ∧ (checkSizes (utf8 key) value = .ok () →
        Followed options json field core context clock key value)
  | delete context _ key =>
    Outside key ∧ core.InsertWorks options context.flush "default"
      (.tombstone context.inserted (utf8 key)) (utf8 key).length

end IndexOp

/-- The engine reads what was last written, and the index follows it. -/
def Indexed (options : EngineOptions) (json : JsonReader) (field : String)
    (core : EngineCore) : Prop :=
  ∃ last, Lasting options "default" core last ∧ IndexView json field last

section Steps

variable {options : EngineOptions} {json : JsonReader} {field : String}
  {core : EngineCore} {last : Bytes → Option LogRecord}

theorem startingWith_schema (lasting : Lasting options "default" core last)
    (schema : currentValue last (schemaKey field) = some (utf8 "1"))
    (only : ∀ key record, last key = some record →
      utf8 schemaPrefix <+: key → key = schemaKey field) :
    startingWith schemaPrefix (Lasting.rows core "default") =
      [(schemaKey field, utf8 "1")] := by
  have sorted : SortedEntries (startingWith schemaPrefix (Lasting.rows core "default")) :=
    (core.listing_sorted 0 "default" _).sublist filter_sublist
  apply sorted.eq_of_mem_iff (pairwise_singleton _ _)
  rintro ⟨key, value⟩
  rw [startingWith, mem_filter, lasting.mem_rows, mem_singleton, isPrefixOf_iff_prefix]
  constructor
  · rintro ⟨⟨_, read⟩, begins⟩
    obtain ⟨record, written, _⟩ := bind_eq_some_iff.mp read
    have here := only key record written begins
    subst here
    rw [← currentValue, schema] at read
    rw [Option.some.inj read]
  · rintro same
    cases same
    exact ⟨⟨(internal_of_schema (schemas_isPrefix field)).unreserved, schema⟩,
      schemas_isPrefix field⟩

theorem putRecord_kept (options : EngineOptions) (context : WriteContext) (cf : String)
    (key value : Bytes) :
    (putRecord options context cf key value none).kept = some value := by
  have fields := putRecord_fields options context cf key value none
  rw [LogRecord.kept, fields.2.2.2.1, fields.2.1]
  rfl

theorem updateIndexes_single (lasting : Lasting options "default" core last)
    (schema : currentValue last (schemaKey field) = some (utf8 "1"))
    (only : ∀ key record, last key = some record →
      utf8 schemaPrefix <+: key → key = schemaKey field)
    (permanent : options.defaultTtl = none) (clock : IndexClock) (key value : Bytes)
    (fits : ∀ string, json.stringField value field = some string →
      (entryKey field string key).length ≤ maxKeySize)
    (works : ∀ string, json.stringField value field = some string →
      core.InsertWorks options (clock.write field).flush "default"
        (putRecord options (clock.write field) "default"
          (entryKey field string key) [] none)
            ((entryKey field string key).length + 0)) :
    Lasting options "default"
      (core.updateIndexes options json clock "default" key value).2
      (match json.stringField value field with
        | none => last
        | some string => overwrite last (entryKey field string key)
            (putRecord options (clock.write field) "default"
              (entryKey field string key) [] none)) := by
  have searched := searchSchema_eq (lasting.quiescent (fun _ => clock.search))
  rw [startingWith_schema lasting schema only] at searched
  have scanned := lasting.scanCf clock.search (some (utf8 schemaPrefix))
    (prefixEnd schemaPrefix) (some (100 + 1))
  unfold updateIndexes
  cases document : json.fields value with
  | none =>
    have unset : json.stringField value field = none := by
      rw [JsonReader.stringField, document]
      rfl
    rw [unset]
    exact lasting
  | some fields =>
    have set : json.stringField value field = fields field := by
      rw [JsonReader.stringField, document]
      rfl
    rw [searched]
    dsimp only
    rw [take_of_length_le (by simp), dueEntries_single, scanned]
    cases found : fields field with
    | none =>
      rw [set, found]
      exact lasting
    | some string =>
      have entry := (lasting.put permanent
        (internal_of_entry (entries_isPrefix field string key)).unreserved
        (checkSizes_entry (fits string (set.trans found)))
        (works string (set.trans found))).2
      rw [set, found]
      simp only [map_some, toList_some, writeEntries]
      split
      · next error after failed =>
        rw [failed] at entry
        exact entry
      · next due after done =>
        rw [done] at entry
        exact entry

theorem overwrite_self (last : Bytes → Option LogRecord) (key : Bytes)
    (record : LogRecord) : overwrite last key record key = some record := if_pos rfl

theorem overwrite_of_ne (last : Bytes → Option LogRecord) {key other : Bytes}
    (record : LogRecord) (apart : other ≠ key) :
    overwrite last key record other = last other :=
  if_neg (Ne.symm apart)

namespace Indexed

theorem put (permanent : options.defaultTtl = none)
    (indexed : Indexed options json field core)
    {value : Bytes}
    (proper : (IndexOp.put context clock key value).Proper options json field core) :
    Indexed options json field (core.putIndexed options json context clock
      "default" (utf8 key) value).2 := by
  obtain ⟨last, lasting, view⟩ := indexed
  obtain ⟨⟨external, unreserved⟩, followed⟩ := proper
  cases sizes : checkSizes (utf8 key) value with
  | error error =>
    rw [putIndexed, putCf, sizes]
    exact ⟨last, lasting, view⟩
  | ok _ =>
    have followed := followed sizes
    obtain ⟨accepted, main⟩ := lasting.put permanent unreserved sizes followed.works
    have state : (core.putIndexed options json context clock "default" (utf8 key) value).2 =
        ((core.putCf options context "default" (utf8 key) value
          none).2.updateIndexes options json clock "default" (utf8 key) value).2 := by
      unfold putIndexed
      split
      · next error after failed =>
        rw [failed] at accepted
        cases accepted
      · next due after done => rw [done]
    have kept := putRecord_kept options context "default" (utf8 key) value
    have string_kept : (putRecord options context "default"
        (utf8 key) value none).kept.bind (json.stringField · field) =
          json.stringField value field := by
      rw [kept]
      rfl
    generalize putRecord options context "default" (utf8 key)
      value none = record at main kept string_kept
    -- the entries there are those of the last writes
    have fresh : ∀ string, json.stringField value field ≠ some string →
        last (entryKey field string (utf8 key)) = none := by
      intro string other
      rw [← lasting.newestRecord_eq (internal_of_entry
        (entries_isPrefix field string (utf8 key))).unreserved]
      exact followed.fresh string other
    have schema_apart : schemaKey field ≠ utf8 key := fun same =>
      external (same ▸ internal_of_schema (schemas_isPrefix field))
    have updated := updateIndexes_single main (by
        rw [currentValue, if_neg (Ne.symm schema_apart)]
        exact view.schema) (by
        intro other found written begins
        split at written
        · next same =>
          subst same
          exact absurd (internal_of_schema begins) external
        · rcases view.shapes other found written with here |
            ⟨string, owner, _, _, rfl, _⟩ | ⟨outside, _⟩
          · exact here
          · exact absurd begins
              (not_schema_of_entry (entries_isPrefix field string (utf8 owner)))
          · exact absurd (internal_of_schema begins) outside)
      permanent clock (utf8 key) value followed.fits followed.entry
    rw [state]
    refine ⟨_, updated, ?_⟩
    cases found : json.stringField value field with
    | none =>
      refine view.written external (if_pos rfl) ?_ ?_ ?_
      · intro other apart _
        exact if_neg (Ne.symm apart)
      · intro string set
        rw [string_kept, found] at set
        cases set
      · intro _ string _
        exact fresh string (by simp [found])
    | some string =>
      have entry_apart : entryKey field string (utf8 key) ≠ utf8 key :=
        fun same => external
          (same ▸ internal_of_entry (entries_isPrefix field string (utf8 key)))
      obtain ⟨string_colonless, key_colonless⟩ := followed.colonless string found
      have own : overwrite (fun other => if utf8 key = other then
          some record else last other) (entryKey field string (utf8 key))
          (putRecord options (clock.write field) "default"
            (entryKey field string (utf8 key)) [] none) (utf8 key) = some record := by
        rw [overwrite_of_ne _ _ (Ne.symm entry_apart)]
        exact if_pos rfl
      refine view.written external own ?_ ?_ ?_
      · intro other apart unset
        refine (overwrite_of_ne _ _ (unset string (string_kept.trans found))).trans ?_
        exact if_neg (Ne.symm apart)
      · intro other set
        rw [string_kept, found] at set
        cases set
        refine ⟨string_colonless, key_colonless, _, overwrite_self _ _ _, ?_⟩
        exact putRecord_kept _ _ _ _ _
      · intro _ other unset
        rw [string_kept] at unset
        exact fresh other unset

theorem delete (indexed : Indexed options json field core)
    (proper : (IndexOp.delete context clock key).Proper options json field core) :
    Indexed options json field (core.deleteIndexed options json context clock
      "default" (utf8 key)).2 := by
  obtain ⟨last, lasting, view⟩ := indexed
  obtain ⟨⟨external, unreserved⟩, works⟩ := proper
  have locked := lasting.deleteLocked unreserved works
  have gone : (if utf8 key = utf8 key then
      some (LogRecord.tombstone context.inserted (utf8 key))
      else last (utf8 key)).bind (·.kept) = none := by
    rw [if_pos rfl]
    rfl
  have view' := @IndexView.written json field last _ view key
    (.tombstone context.inserted (utf8 key)) external (overwrite_self last (utf8 key) _)
    (fun other apart _ => overwrite_of_ne last _ apart)
    (fun _ set => by cases set) (fun present => absurd rfl present)
  refine ⟨_, ?_, view'⟩
  unfold deleteIndexed
  split
  · next error after failed =>
    rw [failed] at locked
    exact locked
  · next due after done =>
    rw [done] at locked
    have answer := locked.getCf_eq unreserved context.read
    have read := locked.getCf context.read (.inr gone)
    rw [gone] at answer
    split
    · next value later found =>
      rw [found] at answer
      cases answer
    · next outcome later _ found =>
      rw [found] at read
      cases read
      rw [locked.getCf context.read (.inl (isPrefixOf_ttlKey _))]
      exact locked

theorem step (permanent : options.defaultTtl = none)
    (indexed : Indexed options json field core)
    {op : IndexOp} (proper : op.Proper options json field core) :
    Indexed options json field (op.step options json "default" core) := by
  cases op with
  | put context clock key value => exact indexed.put permanent proper
  | delete context clock key => exact indexed.delete proper

end Indexed

theorem Lasting.createIndex (permanent : options.defaultTtl = none) {due : Bool}
    {start : EngineCore}
    (created : EngineCore.empty.createIndex options json context clock
      "default" field = (.ok due, start))
    (works : EngineCore.empty.InsertWorks options context.flush "default"
      (putRecord options context "default" (schemaKey field)
        (utf8 "1") none) ((schemaKey field).length + (utf8 "1").length)) :
    Lasting options "default" start
      (overwrite (fun _ => none) (schemaKey field) (putRecord
        options context "default" (schemaKey field) (utf8 "1") none)) := by
  have unreserved := (internal_of_schema (schemas_isPrefix field)).unreserved
  unfold EngineCore.createIndex putIndexed at created
  split at created
  · cases created
  · next due after put =>
    obtain ⟨_, rfl⟩ := Prod.mk.inj created
    have sizes : checkSizes (schemaKey field) (utf8 "1") = .ok () := by
      cases checked : checkSizes (schemaKey field) (utf8 "1") with
      | error error =>
        rw [putCf, checked] at put
        cases put
      | ok _ => rfl
    have main := ((Lasting.empty options "default").put permanent unreserved sizes works).2
    rw [put] at main
    -- a number has no fields, so there is no entry to write
    unfold updateIndexes
    cases document : json.fields (utf8 "1") with
    | none => exact main
    | some fields =>
      have unset : ∀ name, fields name = none := by
        intro name
        have number := json.number name
        rwa [document] at number
      have searched := searchSchema_eq (main.quiescent (fun _ => clock.search))
      rw [searched]
      dsimp only
      rw [dueEntries_eq_nil unset, main.scanCf]
      exact main

end Steps

/-! ## Queries -/

/-- Lookups have been made; of other keys the tables tell what they told
before. -/
structure Reread (config : StorageConfig) (cf : String)
    (core after : EngineCore) (seen : List Bytes) : Prop where
  sound : StoreSound config after.store
  memory : ∀ key, after.memtableRecord cf key = core.memtableRecord cf key
  covering : ∀ key, after.coveringRangeTombstoneTs cf key =
    core.coveringRangeTombstoneTs cf key
  peek : ∀ now key, key ∉ seen → after.store.peek now cf key = core.store.peek now cf key

namespace Reread

variable {config : StorageConfig} {cf : String} {core after : EngineCore}
  {seen : List Bytes}

variable (reread : Reread config cf core after seen)
include reread

theorem readAll (now : Nanos) {keys : List Bytes} (inside : ∀ key ∈ keys, key ∈ seen) :
    Reread config cf core (after.readAll now cf keys) seen := by
  induction keys generalizing after with
  | nil => exact reread
  | cons read keys ih =>
    obtain ⟨first, others⟩ := forall_mem_cons.mp inside
    have step : Reread config cf core (after.readAll now cf [read]) seen := by
      refine ⟨reread.sound.get now cf read, reread.memory, reread.covering, ?_⟩
      intro later key unseen
      have apart : read ≠ key := fun same => unseen (same ▸ first)
      exact (after.store.peek_get_of_ne now later cf apart).trans
        (reread.peek later key unseen)
    have rest := ih step others
    rwa [readAll_append] at rest

theorem getCf (now : Nanos) (key : Bytes) :
    Reread config cf core (after.getCf now cf key).2 (key :: ttlKey key :: seen) := by
  obtain ⟨keys, only, _, reads⟩ := getCf_reads now cf key after
  have wider : Reread config cf core after (key :: ttlKey key :: seen) :=
    ⟨reread.sound, reread.memory, reread.covering, fun later other unseen =>
      reread.peek later other
        (fun member => unseen (mem_cons_of_mem _ (mem_cons_of_mem _ member)))⟩
  rw [reads]
  apply wider.readAll now
  intro read member
  rcases only read member with rfl | rfl <;> simp

theorem answer_eq (uncovered : ∀ key, core.coveringRangeTombstoneTs cf key = none)
    {key : Bytes}
    (unseen : key ∉ seen) (side_unseen : ttlKey key ∉ seen) (now : Nanos) :
    after.answer now cf key = core.answer now cf key := by
  rw [answer, answer, tableValue, tableValue, sideExpired, sideExpired,
    reread.memory, reread.covering, uncovered, reread.peek now key unseen,
    reread.peek now (ttlKey key) side_unseen]

end Reread

section Query

variable {options : EngineOptions} {json : JsonReader} {field : String}
  {core : EngineCore} {last : Bytes → Option LogRecord}

theorem fetchValues_eq (lasting : Lasting options "default" core last)
    (clock : Nat → Nanos) {keys seen : List Bytes} (distinct : keys.Nodup)
    (plain : ∀ key ∈ keys, ttlPrefix.isPrefixOf key = false)
    (sides : ∀ key ∈ keys, ∀ other ∈ keys, ttlKey key = ttlKey other → key = other)
    (unseen : ∀ key ∈ keys, key ∉ seen ∧ ttlKey key ∉ seen)
    {state : Clocked}
    (reread : Reread options.storage "default" core state.core seen) :
    (state.fetchValues clock "default" keys).1 =
      keys.filterMap (fun key => (currentValue last key).map (key, ·)) := by
  induction keys generalizing state seen with
  | nil => rfl
  | cons key keys ih =>
    obtain ⟨first, others⟩ := forall_mem_cons.mp unseen
    obtain ⟨key_plain, others_plain⟩ := forall_mem_cons.mp plain
    obtain ⟨apart, rest_distinct⟩ := nodup_cons.mp distinct
    have answer : (state.core.getCf (clock state.reading) "default"
        key).1 = .ok (currentValue last key) := by
      rw [getCf_eq reread.sound, reread.answer_eq
        lasting.decided.uncovered first.1 first.2, lasting.answer_eq key_plain]
      rfl
    have later := reread.getCf (clock state.reading) key
    have rest := fun state' : Clocked => @ih (key :: ttlKey key :: seen) rest_distinct others_plain
      (fun other member another member' => sides other
        (mem_cons_of_mem _ member) another (mem_cons_of_mem _ member'))
          (fun other member => by
        have other_plain := others_plain other member
        have other_side := isPrefixOf_ttlKey other
        obtain ⟨unseen_other, unseen_side⟩ := others other member
        simp only [mem_cons, not_or]
        refine ⟨⟨?_, ?_, unseen_other⟩, ?_, ?_, unseen_side⟩
        · rintro rfl
          exact apart member
        · rintro rfl
          cases other_plain
        · rintro rfl
          rw [key_plain] at other_side
          cases other_side
        · intro same
          have equal := sides other (mem_cons_of_mem _ member) key mem_cons_self same
          exact apart (equal ▸ member)) state'
    rw [Clocked.fetchValues, Clocked.getCf, filterMap_cons]
    dsimp only
    rw [answer]
    cases found : currentValue last key with
    | none => exact rest _ later
    | some value =>
      dsimp only [map_some]
      rw [rest _ later]

theorem mem_entries (lasting : Lasting options "default" core last)
    (view : IndexView json field last) (value : String) (row : Bytes × Bytes) :
    row ∈ startingWith (entryPrefix field value) (Lasting.rows core "default") ↔
      ∃ key, Colonless key ∧ row = (entryKey field value (utf8 key), []) ∧
        last (entryKey field value (utf8 key)) ≠ none := by
  obtain ⟨found, stored⟩ := row
  rw [startingWith, mem_filter, lasting.mem_rows, isPrefixOf_iff_prefix]
  constructor
  · rintro ⟨⟨_, read⟩, begins⟩
    obtain ⟨record, written, kept⟩ := bind_eq_some_iff.mp read
    have entry := (entryPrefix_isPrefix field value).trans begins
    rcases view.shapes found record written with rfl |
      ⟨string, key, string_colonless, key_colonless, rfl, empty⟩ | ⟨outside, _⟩
    · exact absurd (schemas_isPrefix field) (not_schema_of_entry entry)
    · obtain rfl := value_of_isPrefix string_colonless key_colonless begins
      rw [empty] at kept
      cases kept
      exact ⟨key, key_colonless, rfl, by simp [written]⟩
    · exact absurd (internal_of_entry entry) outside
  · rintro ⟨key, _, same, present⟩
    obtain ⟨rfl, rfl⟩ := Prod.mk.inj same
    have entry := entries_isPrefix field value (utf8 key)
    obtain ⟨record, written⟩ := ne_none_iff_exists'.mp present
    refine ⟨⟨(internal_of_entry entry).unreserved, ?_⟩,
      isPrefix_entryKey field value (utf8 key)⟩
    rw [written]
    rcases view.shapes _ record written with schema | ⟨_, _, _, _, _, empty⟩ | ⟨outside, _⟩
    · exact absurd (schema ▸ schemas_isPrefix field) (not_schema_of_entry entry)
    · exact empty
    · exact absurd (internal_of_entry entry) outside

theorem primaryKey_entry (colonless : Colonless key) (value : String) :
    (afterLastColon (lossyString (entryKey field value (utf8 key)))).map
      utf8 = some (utf8 key) := by
  rw [entryKey_text, lossyString_utf8, afterLastColon_entry colonless]
  rfl

section

variable (lasting : Lasting options "default" core last)
  (view : IndexView json field last)
include lasting view

theorem mem_primaryKeys (value : String) (found : Bytes) :
    found ∈ Clocked.primaryKeys (startingWith (entryPrefix field value)
        (Lasting.rows core "default")) ↔ ∃ key, Colonless key ∧ found = utf8 key ∧
        last (entryKey field value (utf8 key)) ≠ none := by
  rw [primaryKeys, mem_filterMap]
  constructor
  · rintro ⟨row, member, taken⟩
    obtain ⟨key, colonless, rfl, present⟩ := (mem_entries lasting view value row).mp member
    rw [primaryKey_entry colonless] at taken
    cases taken
    exact ⟨key, colonless, rfl, present⟩
  · rintro ⟨key, colonless, rfl, present⟩
    exact ⟨_, (mem_entries lasting view value _).mpr
      ⟨key, colonless, rfl, present⟩, primaryKey_entry colonless value⟩

theorem nodup_primaryKeys (value : String) :
    (Clocked.primaryKeys (startingWith (entryPrefix field value)
      (Lasting.rows core "default"))).Nodup := by
  have sorted : SortedEntries (startingWith (entryPrefix field value)
      (Lasting.rows core "default")) := (core.listing_sorted 0 "default" _).sublist filter_sublist
  rw [primaryKeys, List.Nodup, pairwise_filterMap]
  refine List.Pairwise.imp_of_mem ?_ sorted
  intro row other member member' less taken first taken' second same
  obtain ⟨key, colonless, rfl, _⟩ := (mem_entries lasting view value row).mp member
  obtain ⟨key', colonless', rfl, _⟩ := (mem_entries lasting view value other).mp member'
  rw [primaryKey_entry colonless] at first
  rw [primaryKey_entry colonless'] at second
  cases first
  cases second
  rw [same] at less
  exact lt_irrefl _ less

theorem query_of_view (whole : ',' ∉ field.toList) {value : String}
    (single : ',' ∉ value.toList)
    (clock : Nat → Nanos) {limit : Nat}
    (room : (Lasting.rows core "default").length ≤ limit) :
    ((⟨core, 0⟩ : Clocked).queryIndex clock json "default" field value limit).1 =
      .ok ((Clocked.primaryKeys (startingWith (entryPrefix field value)
        (Lasting.rows core "default"))).filterMap (fun key =>
          (currentValue last key).map (key, ·))) := by
  obtain ⟨cursor, searched⟩ := @Clocked.searchPrefix_first options.storage
    _ ⟨core, 0⟩ clock (lasting.quiescent clock) (entryPrefix field value) limit
  have all : (startingWith (entryPrefix field value) (Lasting.rows core "default")).take limit =
        startingWith (entryPrefix field value) (Lasting.rows core "default") :=
    take_of_length_le ((length_filter_le _ _).trans room)
  have scanned := lasting.scanCf (clock 0) (some (utf8 (entryPrefix field
    value))) (prefixEnd (entryPrefix field value)) (some (limit + 1))
  have texts : ∀ key ∈ primaryKeys (startingWith (entryPrefix field
      value) (Lasting.rows core "default")), ∃ text, Colonless text ∧ key = utf8 text := by
    intro key member
    obtain ⟨text, colonless, same, _⟩ := (mem_primaryKeys lasting view value key).mp member
    exact ⟨text, colonless, same⟩
  have fetched := @fetchValues_eq options _ last lasting clock
    (primaryKeys (startingWith (entryPrefix field value) (Lasting.rows core "default"))) []
    (nodup_primaryKeys lasting view value) (fun key member => by
      obtain ⟨text, colonless, rfl⟩ := texts key member
      exact colonless.external.2) (fun key member other member' same => by
      obtain ⟨text, _, rfl⟩ := texts key member
      obtain ⟨text', _, rfl⟩ := texts other member'
      rw [ttlKey, ttlKey, append_cancel_left_eq, fromUtf8Lossy_utf8,
        fromUtf8Lossy_utf8] at same
      exact same) (fun _ _ => ⟨not_mem_nil, not_mem_nil⟩)
    { core, reading := 0 + 1 }
    ⟨lasting.decided.sound.store, fun _ => rfl, fun _ => rfl, fun _ _ _ => rfl⟩
  rw [queryIndex, splitCommas_eq whole, splitCommas_eq single]
  dsimp only
  rw [searched]
  dsimp only
  rw [all, scanned, fetched]

end

theorem map_fst_withValues_sublist (value : Bytes → Option Bytes) (keys : List Bytes) :
    ((keys.filterMap (fun key => (value key).map (key, ·))).map
      (·.1)).Sublist keys := by
  induction keys with
  | nil => exact List.Sublist.slnil
  | cons key keys ih =>
    rw [filterMap_cons]
    cases value key with
    | none => exact ih.cons key
    | some found => exact ih.cons_cons key

theorem mem_matches (lasting : Lasting options "default" core last)
    (view : IndexView json field last) (value : String) (now : Nanos)
      (found document : Bytes) :
    (found, document) ∈ (Clocked.primaryKeys (startingWith (entryPrefix field
        value) (Lasting.rows core "default"))).filterMap (fun key =>
          (currentValue last key).map (key, ·)) ↔
      (core.getCf now "default" found).1 = .ok (some document) ∧
        json.stringField document field = some value := by
  rw [mem_filterMap]
  constructor
  · rintro ⟨key, member, read⟩
    obtain ⟨text, colonless, rfl, present⟩ :=
      (mem_primaryKeys lasting view value key).mp member
    obtain ⟨stored, current, same⟩ := map_eq_some_iff.mp read
    obtain ⟨rfl, rfl⟩ := Prod.mk.inj same
    obtain ⟨external, unreserved⟩ := colonless.external
    constructor
    · rw [lasting.getCf_eq unreserved]
      exact congrArg _ current
    · exact view.faithful text stored value external present current
  · rintro ⟨read, string⟩
    cases reserved : ttlPrefix.isPrefixOf found with
    | true =>
      rw [lasting.getCf_reserved reserved] at read
      cases read
    | false =>
      rw [lasting.getCf_eq reserved] at read
      have current : currentValue last found = some document := Except.ok.inj read
      obtain ⟨record, written, kept⟩ := bind_eq_some_iff.mp current
      rcases view.shapes found record written with rfl |
        ⟨_, _, _, _, rfl, empty⟩ | ⟨external, text, rfl⟩
      · -- the schema entry holds a number
        rw [view.schema] at current
        cases current
        rw [JsonReader.stringField, json.number] at string
        cases string
      · -- the index entries are empty
        rw [kept] at empty
        cases empty
        rw [JsonReader.stringField, json.empty] at string
        cases string
      · have present := view.indexed text document value external current string
        -- the entry was written for this key
        have colonless : Colonless text := by
          obtain ⟨entry, held⟩ := ne_none_iff_exists'.mp present
          have begins := entries_isPrefix field value (utf8 text)
          rcases view.shapes _ entry held with schema |
            ⟨string', owner, string_colonless, owner_colonless, same, _⟩ | ⟨outside, _⟩
          · exact absurd (schema ▸ schemas_isPrefix field) (not_schema_of_entry begins)
          · rw [← (entryKey_inj string_colonless owner_colonless same.symm).2]
            exact owner_colonless
          · exact absurd (internal_of_entry begins) outside
        refine ⟨utf8 text, (mem_primaryKeys lasting view value _).mpr
          ⟨text, colonless, rfl, present⟩, ?_⟩
        rw [current]
        rfl

end Query

/-- On an engine without a default TTL, an index on a field is created in the
default family.  After every run of puts and deletes the index can follow, a
query with enough room returns each key once whose document has the string
that is asked for, with the document. -/
theorem index_query_returns_matches (options : EngineOptions)
    (json : JsonReader) {field : String} (whole : ',' ∉ field.toList)
    (permanent : options.defaultTtl = none) (_ : options.storage.Legible)
    {context : WriteContext} {clock : IndexClock} {due : Bool} {start : EngineCore}
    (created : EngineCore.empty.createIndex options json context clock
      "default" field = (.ok due, start))
    (works : EngineCore.empty.InsertWorks options context.flush "default"
      (putRecord options context "default" (schemaKey field)
        (utf8 "1") none) ((schemaKey field).length + (utf8 "1").length))
    {ops : List IndexOp}
    (proper : Guarded (IndexOp.step options json "default")
      (IndexOp.Proper options json field) start ops)
    {value : String} (single : ',' ∉ value.toList) (readings : Nat → Nanos) :
    let core := ops.foldl (IndexOp.step options json "default") start
    ∃ room, ∀ limit, room ≤ limit → ∃ results after,
      (⟨core, 0⟩ : Clocked).queryIndex readings json "default" field value
        limit = (.ok results, after) ∧
      (results.map (·.1)).Nodup ∧
      ∀ now key document, (key, document) ∈ results ↔
        (core.getCf now "default" key).1 = .ok (some document) ∧
          json.stringField document field = some value := by
  intro core
  have indexed : Indexed options json field core :=
    proper.invariant (fun _ _ indexed allowed => indexed.step permanent
      allowed) ⟨_, Lasting.createIndex permanent created works,
      .created json (putRecord_kept _ _ _ _ _)⟩
  obtain ⟨last, lasting, view⟩ := indexed
  refine ⟨(Lasting.rows core "default").length, fun limit room => ?_⟩
  have answer := query_of_view lasting view whole single readings room
  refine ⟨_, _, Prod.ext answer rfl, ?_, ?_⟩
  · exact (map_fst_withValues_sublist _ _).nodup (nodup_primaryKeys lasting view value)
  · exact fun now key document => mem_matches lasting view value now key document

def citizenOf (city : String) : Bytes :=
  utf8 ("\x7b\"city\":\"" ++ city ++ "\"\x7d")

def twoCities : JsonReader where
  fields bytes :=
    if bytes = citizenOf "Rome" then
      some (fun field => if field = "city" then some "Rome" else none)
    else if bytes = citizenOf "Oslo" then
      some (fun field => if field = "city" then some "Oslo" else none)
    else none
  empty := by decide +kernel
  number := by
    intro field
    rw [if_neg (by decide +kernel), if_neg (by decide +kernel)]
    rfl

/-- An index clock on which all readings are the same. -/
def IndexClock.instant (now : Nanos) : IndexClock :=
  { search := now, write := fun _ => .ticking now }

def citiesIndexed : EngineCore :=
  (EngineCore.empty.createIndex .default twoCities (.ticking 1) (.instant 10) "default" "city").2

/-- A key and its document. -/
theorem index_query_finds_document :
    let ops := [IndexOp.put (.ticking 20) (.instant 30) "k"
      (citizenOf "Rome")]
    let core := ops.foldl (IndexOp.step .default twoCities "default")
      citiesIndexed
    ∃ room, ∀ limit, room ≤ limit → ∃ results after,
      (⟨core, 0⟩ : Clocked).queryIndex (fun _ => 100) twoCities "default"
        "city" "Rome" limit = (.ok results, after) ∧
      (results.map (·.1)).Nodup ∧
      ∀ now key document, (key, document) ∈ results ↔
        (core.getCf now "default" key).1 = .ok (some document) ∧
          twoCities.stringField document "city" = some "Rome" := by
  intro ops core
  have created : empty.createIndex .default twoCities (.ticking 1)
      (.instant 10) "default" "city" = (.ok false, citiesIndexed) :=
    Prod.ext (by decide +kernel) rfl
  have works : empty.InsertWorks .default (WriteContext.ticking 1).flush "default"
      (putRecord .default (.ticking 1) "default" (schemaKey "city") (utf8 "1") none)
      ((schemaKey "city").length + (utf8 "1").length) := .of_room (by decide +kernel)
  have lasting := Lasting.createIndex rfl created works
  have only : ∀ other, twoCities.stringField (citizenOf "Rome") "city" =
      some other → other = "Rome" := by
    intro other set
    exact (Option.some.inj set).symm
  have followed : IndexOp.Followed .default twoCities "city" citiesIndexed
      (.ticking 20) (.instant 30) "k" (citizenOf "Rome") := by
    refine ⟨.of_room (by decide +kernel), ?_, ?_, ?_, ?_⟩
    · intro other _
      have entry := entries_isPrefix "city" other (utf8 "k")
      rw [lasting.newestRecord_eq (internal_of_entry entry).unreserved]
      refine overwrite_of_ne _ _ (fun same => ?_)
      exact not_schema_of_entry entry (same ▸ schemas_isPrefix "city")
    · rintro other set
      rw [only other set, Colonless, Colonless]
      decide +kernel
    · rintro other set
      rw [only other set]
      decide +kernel
    · rintro other set
      rw [only other set]
      exact .of_room (by decide +kernel)
  have outside : Colonless "k" := by
    rw [Colonless]
    decide +kernel
  have proper : Guarded (IndexOp.step .default twoCities "default")
      (IndexOp.Proper .default twoCities "city") citiesIndexed ops :=
    ⟨⟨outside.external, fun _ => followed⟩, trivial⟩
  exact index_query_returns_matches .default twoCities (by decide +kernel) rfl
    (by decide) created works proper (by decide +kernel) (fun _ => 100)

/-- The document of a key is overwritten; the query for the old city still
returns the key, with the new document. -/
theorem index_query_returns_overwritten :
    let core := [IndexOp.put (.ticking 20) (.instant 30) "k"
        (citizenOf "Rome"), .put (.ticking 40) (.instant 50) "k"
        (citizenOf "Oslo")].foldl (IndexOp.step .default twoCities "default")
      citiesIndexed
    ((⟨core, 0⟩ : Clocked).queryIndex (fun _ => 100) twoCities "default"
        "city" "Rome" 10).1 = .ok [(utf8 "k", citizenOf "Oslo")] ∧
      (core.getCf 100 "default" (utf8 "k")).1 =
        .ok (some (citizenOf "Oslo")) ∧
      twoCities.stringField (citizenOf "Oslo") "city" = some "Oslo" := by decide +kernel

end ApexStore
