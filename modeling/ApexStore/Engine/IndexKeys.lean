import ApexStore.Engine.Indexes
import ApexStore.Engine.LastingWrites

/-!
# Index entries as keys

Entries are built with colons, `__idx:index:{field}:{value}:{key}`, and taken
apart at the last one.  Without colons in the value and in the key nothing is
lost, and entries, schema entries and the keys of users stay apart.
`IndexView` says that the entries among the last writes are those of the
documents, and `IndexView.written` that it stays so when a key is written
together with its entry.
-/

namespace ApexStore

open List

/-! ## Keys and colons -/

def Colonless (text : String) : Prop := ':' ∉ text.toList

theorem Colonless.bytes {text : String} (colonless : Colonless text) :
    (58 : UInt8) ∉ utf8 text :=
  fun member => colonless (mem_of_ascii member rfl (by decide))

def fieldPrefix (field : String) : String :=
  indexPrefix ++ "index:" ++ field ++ ":"

theorem entryPrefix_bytes (field value : String) : utf8 (entryPrefix field value) =
      utf8 (fieldPrefix field) ++ (utf8 value ++ [58]) := by
  rw [entryPrefix, utf8_append, utf8_append, append_assoc]
  rfl

theorem entryKey_bytes (field value key : String) : entryKey field value (utf8 key) =
      utf8 (fieldPrefix field) ++ (utf8 value ++ 58 :: utf8 key) := by
  rw [entryKey, entryPrefix_bytes, fromUtf8Lossy_utf8]
  simp

theorem entryKey_text (field value key : String) : entryKey field value (utf8 key) =
      utf8 (entryPrefix field value ++ key) := by
  rw [entryKey, fromUtf8Lossy_utf8, utf8_append]

variable {key : String}

theorem entryKey_inj {field value value' key' : String}
    (value_colonless : Colonless value) (key_colonless : Colonless key)
    (same : entryKey field value (utf8 key) = entryKey field value' (utf8 key')) :
    value = value' ∧ key = key' := by
  rw [entryKey_bytes, entryKey_bytes, append_cancel_left_eq,
    append_cons_inj_of_notMem value_colonless.bytes key_colonless.bytes] at same
  exact ⟨utf8_injective same.1, utf8_injective same.2.2⟩

theorem value_of_isPrefix {field value searched : String}
    (value_colonless : Colonless value) (key_colonless : Colonless key)
    (found : utf8 (entryPrefix field searched) <+: entryKey field value (utf8 key)) :
    value = searched := by
  obtain ⟨rest, whole⟩ := found
  rw [entryKey_bytes, entryPrefix_bytes, append_assoc,
    append_cancel_left_eq, append_assoc, singleton_append,
    eq_comm, append_cons_inj_of_notMem value_colonless.bytes key_colonless.bytes] at whole
  exact utf8_injective whole.1

theorem isPrefix_entryKey (field value : String) (key : Bytes) :
    utf8 (entryPrefix field value) <+:
      entryKey field value key := List.prefix_append _ _

theorem entryPrefix_isPrefix (field value : String) :
    utf8 (indexPrefix ++ "index:") <+: utf8 (entryPrefix field value) := by
  exact prefix_append _ _

theorem entries_isPrefix (field value : String) (key : Bytes) :
    utf8 (indexPrefix ++ "index:") <+: entryKey field value key :=
  (entryPrefix_isPrefix field value).trans (isPrefix_entryKey field value key)

theorem schemas_isPrefix (field : String) : utf8 schemaPrefix <+: schemaKey field := by
  exact prefix_append _ _

theorem not_schema_of_entry {key : Bytes}
    (entry : utf8 (indexPrefix ++ "index:") <+: key) :
    ¬ utf8 schemaPrefix <+: key := by
  intro schema
  have nested : utf8 (indexPrefix ++ "index:") <+: utf8 schemaPrefix :=
    prefix_of_prefix_length_le entry schema (by decide +kernel)
  revert nested
  decide +kernel

def Internal (key : Bytes) : Prop := utf8 indexPrefix <+: key

theorem internal_of_entry {key : Bytes}
    (entry : utf8 (indexPrefix ++ "index:") <+: key) : Internal key := by
  exact (prefix_append _ _).trans entry

theorem internal_of_schema {key : Bytes} (schema : utf8 schemaPrefix <+: key) :
    Internal key := by
  exact (prefix_append _ _).trans schema

theorem Internal.unreserved {key : Bytes} (internal : Internal key) :
    ttlPrefix.isPrefixOf key = false := by
  rw [Bool.eq_false_iff, ne_eq, isPrefixOf_iff_prefix]
  intro reserved
  have nested : ttlPrefix <+: utf8 indexPrefix :=
    prefix_of_prefix_length_le reserved internal (by decide +kernel)
  revert nested
  decide +kernel

theorem Colonless.external (colonless : Colonless key) :
    ¬ Internal (utf8 key) ∧ ttlPrefix.isPrefixOf (utf8 key) = false := by
  constructor
  · rintro internal
    refine colonless.bytes (internal.subset ?_)
    decide +kernel
  · rw [Bool.eq_false_iff, ne_eq, isPrefixOf_iff_prefix]
    intro reserved
    exact colonless.bytes (reserved.subset (by decide))

/-! ## Taking keys apart -/

theorem stripText_append (front rest : String) :
    stripText front (front ++ rest) = some rest := by
  rw [stripText, if_pos (by simp)]
  simp

theorem afterLastColon_entry (colonless : Colonless key) (field value : String) :
    afterLastColon (entryPrefix field value ++ key) = some key := by
  have ends : (entryPrefix field value ++ key).toList =
      (fieldPrefix field ++ value).toList ++ ':' :: key.toList := by
    rw [entryPrefix]
    simp [fieldPrefix]
  have tail : ((entryPrefix field value ++ key).toList.reverse.takeWhile
      (· ≠ ':')) = key.toList.reverse := by
    rw [ends, reverse_append, reverse_cons, append_assoc, takeWhile_append_of_pos]
    · simp
    · intro char member
      have other : char ≠ ':' := by
        rintro rfl
        exact colonless (mem_reverse.mp member)
      simpa using other
  rw [afterLastColon, if_pos (by rw [ends]; simp), tail]
  simp

theorem splitCommas_eq {text : String} (whole : ',' ∉ text.toList) :
    splitCommas text = [text] := by
  rw [splitCommas, splitOn_eq_singleton whole]
  simp

/-! ## What the last writes say of the index -/

def overwrite (last : Bytes → Option LogRecord) (key : Bytes)
    (record : LogRecord) (other : Bytes) : Option LogRecord :=
  if key = other then some record else last other

def currentValue (last : Bytes → Option LogRecord) (key : Bytes) : Option Bytes :=
  (last key).bind (·.kept)

/-- The schema entry is there, every document has the entry of its string, and
an entry is of the string its key has now. -/
structure IndexView (json : JsonReader) (field : String)
    (last : Bytes → Option LogRecord) : Prop where
  schema : currentValue last (schemaKey field) = some (utf8 "1")
  shapes : ∀ key record, last key = some record → key = schemaKey field ∨
    (∃ value owner, Colonless value ∧ Colonless owner ∧
      key = entryKey field value (utf8 owner) ∧ record.kept = some []) ∨
    ¬ Internal key ∧ ∃ text, key = utf8 text
  indexed : ∀ key document value, ¬ Internal (utf8 key) →
    currentValue last (utf8 key) = some document →
      json.stringField document field = some value →
    last (entryKey field value (utf8 key)) ≠ none
  faithful : ∀ key document value, ¬ Internal (utf8 key) →
    last (entryKey field value (utf8 key)) ≠ none →
      currentValue last (utf8 key) = some document →
    json.stringField document field = some value

namespace IndexView

variable {json : JsonReader} {field : String}
  {last later : Bytes → Option LogRecord}

theorem created (json : JsonReader) {field : String} {record : LogRecord}
    (kept : record.kept = some (utf8 "1")) : IndexView json field
      (overwrite (fun _ => none) (schemaKey field) record) := by
  have only : ∀ key, key ≠ schemaKey field →
      overwrite (fun _ => none) (schemaKey field) record key = none := by
    intro key other
    rw [overwrite, if_neg (Ne.symm other)]
  refine ⟨?_, ?_, ?_, ?_⟩
  · rw [currentValue, overwrite, if_pos rfl]
    exact kept
  · intro key other written
    left
    by_contra apart
    rw [only key apart] at written
    cases written
  · intro key document value external read _
    rw [currentValue, only] at read
    · cases read
    · intro same
      exact external (same ▸ internal_of_schema (schemas_isPrefix field))
  · intro key document value _ entry _
    refine absurd (only _ fun same => ?_) entry
    exact not_schema_of_entry (entries_isPrefix field value (utf8 key))
      (same ▸ schemas_isPrefix field)

theorem written (view : IndexView json field last) {key : String}
    {record : LogRecord} (external : ¬ Internal (utf8 key))
    (own : later (utf8 key) = some record) (others : ∀ other, other ≠ utf8 key →
      (∀ value, record.kept.bind (json.stringField · field) = some value →
        other ≠ entryKey field value (utf8 key)) → later other = last other)
          (entry : ∀ value,
      record.kept.bind (json.stringField · field) = some value → Colonless value ∧
        Colonless key ∧
        ∃ entry, later (entryKey field value (utf8 key)) = some entry ∧
          entry.kept = some [])
    (fresh : record.kept ≠ none → ∀ value,
      record.kept.bind (json.stringField · field) ≠ some value →
      last (entryKey field value (utf8 key)) = none) : IndexView json field later := by
  have entry_internal : ∀ value owner,
      Internal (entryKey field value (utf8 owner)) := fun value owner =>
    internal_of_entry (entries_isPrefix field value (utf8 owner))
  -- what belongs to other keys is as before
  have other_key : ∀ other, other ≠ key → ¬ Internal (utf8 other) →
      later (utf8 other) = last (utf8 other) := by
    intro other apart outside
    refine others _ (fun same => apart (utf8_injective same)) ?_
    intro value _ same
    exact outside (same ▸ entry_internal value key)
  have other_entry :
      ∀ value owner, (∀ set, record.kept.bind (json.stringField · field) = some set →
        ¬ (set = value ∧ key = owner)) → later (entryKey field value (utf8 owner)) =
        last (entryKey field value (utf8 owner)) := by
    intro value owner apart
    refine others _ (fun same => external (same ▸ entry_internal value owner)) ?_
    intro set found same
    obtain ⟨value_colonless, key_colonless, _⟩ := entry set found
    exact apart set found (entryKey_inj value_colonless key_colonless same.symm)
  refine ⟨?_, ?_, ?_, ?_⟩
  · rw [currentValue, others]
    · exact view.schema
    · intro same
      exact external (same ▸ internal_of_schema (schemas_isPrefix field))
    · intro value _ same
      exact not_schema_of_entry (entries_isPrefix field value (utf8 key))
        (same ▸ schemas_isPrefix field)
  · intro other found held
    by_cases here : other = utf8 key
    · exact .inr (.inr ⟨here ▸ external, key, here⟩)
    by_cases due : ∃ value, record.kept.bind (json.stringField · field) = some value ∧
          other = entryKey field value (utf8 key)
    · obtain ⟨value, set, rfl⟩ := due
      obtain ⟨value_colonless, key_colonless, written, here, kept⟩ := entry value set
      rw [here] at held
      cases held
      exact .inr (.inl ⟨value, key, value_colonless, key_colonless, rfl, kept⟩)
    · rw [others other here fun value set same => due ⟨value, set, same⟩] at held
      exact view.shapes other found held
  · intro other document value outside read string
    by_cases here : other = key
    · subst here
      rw [currentValue, own, Option.bind_some] at read
      obtain ⟨_, _, written, found, _⟩ := entry value (by
        rw [read]
        exact string)
      rw [found]
      exact Option.some_ne_none written
    · rw [currentValue, other_key other here outside] at read
      rw [other_entry value other (fun _ _ both => here both.2.symm)]
      exact view.indexed other document value outside read string
  · intro other document value outside present read
    by_cases here : other = key
    · subst here
      rw [currentValue, own, Option.bind_some] at read
      by_contra differs
      have unset : record.kept.bind (json.stringField · field) ≠ some value := by
        rw [read]
        exact differs
      rw [other_entry value other (fun set found both => unset (both.1 ▸ found))] at present
      exact present (fresh (by simp [read]) value unset)
    · rw [currentValue, other_key other here outside] at read
      rw [other_entry value other (fun _ _ both => here both.2.symm)] at present
      exact view.faithful other document value outside present read

end IndexView

end ApexStore
