import ApexStore.Engine.SearchPrefix

/-!
# Secondary indexes

An index on a field is a schema entry `__idx:__schema:index:{field}`.  A put
whose value is a JSON document writes an entry
`__idx:index:{field}:{value}:{key}` with an empty value for every indexed
string field, after the put itself and as a put of its own.  A query lists the
entries with a given field and value, takes what follows the last colon for
the key and looks it up.

Schema entries and index entries are written to the family of the put, but
searched in the default family.
-/

namespace ApexStore

/-- What the engine uses of `serde_json`: the string fields of a document. -/
structure JsonReader where
  fields : Bytes → Option (String → Option String)
  /-- No bytes are no document. -/
  empty : fields [] = none
  /-- A number has no fields. -/
  number : ∀ field, (fields (utf8 "1")).bind (· field) = none

/-- The string under a field of a value that is a JSON document. -/
def JsonReader.stringField (json : JsonReader) (value : Bytes) (field : String) :
    Option String :=
  (json.fields value).bind (· field)

def indexPrefix : String := "__idx:"

def schemaPrefix : String := indexPrefix ++ "__schema:index:"

def schemaKey (field : String) : Bytes := utf8 (schemaPrefix ++ field)

/-- The beginning of all index entries for a field and a value. -/
def entryPrefix (field value : String) : String :=
  indexPrefix ++ "index:" ++ field ++ ":" ++ value ++ ":"

def entryKey (field value : String) (key : Bytes) : Bytes :=
  utf8 (entryPrefix field value) ++ fromUtf8Lossy key

/-- `str::strip_prefix`. -/
def stripText (front text : String) : Option String :=
  if front.toList.isPrefixOf text.toList then
    some (String.ofList (text.toList.drop front.toList.length))
  else none

def afterLastColon (text : String) : Option String :=
  if ':' ∈ text.toList then
    some (String.ofList (text.toList.reverse.takeWhile (· ≠ ':')).reverse)
  else none

/-- `str::split` at the commas. -/
def splitCommas (text : String) : List String :=
  (text.toList.splitOn ',').map String.ofList

/-- The clock readings of the maintenance of the indexes: that of the search
for the schema entries, and those of the writes by the field. -/
structure IndexClock where
  search : Nanos
  write : String → WriteContext

/-- The entries that are due for a document under a key, given the rows of the
schema. -/
def dueEntries (schema : List (Bytes × Bytes)) (fields : String → Option String)
    (key : Bytes) :
    List (String × Bytes) :=
  schema.filterMap (fun row =>
    (stripText schemaPrefix (lossyString row.1)).bind (fun field =>
      (fields field).map (fun value => (field, entryKey field value key))))

namespace EngineCore

/-- `search_prefix` for the schema entries. -/
def searchSchema (now : Nanos) (core : EngineCore) :
    Except LsmError (List (Bytes × Bytes)) × EngineCore :=
  match (⟨core, 0⟩ : Clocked).searchPrefix (fun _ => now) schemaPrefix none
      100 with
  | (.error error, state) => (.error error, state.core)
  | (.ok (rows, _), state) => (.ok rows, state.core)

/-- The loop of `update_indexes`; a failure ends it.  The value of an entry is
no document, so the puts lead to no further entries. -/
def writeEntries (options : EngineOptions) (clock : IndexClock) (cf : String) :
    List (String × Bytes) → EngineCore → Except LsmError Unit × EngineCore
  | [], core => (.ok (), core)
  | (field, entry) :: rest, core =>
    match core.putCf options (clock.write field) cf entry [] none with
    | (.error error, core) => (.error error, core)
    | (.ok _, core) => writeEntries options clock cf rest core

theorem checkSizes_entry {entry : Bytes} (fits : entry.length ≤ maxKeySize) :
    checkSizes entry [] = .ok () := by
  rw [checkSizes, if_neg (Nat.not_lt.mpr fits), if_neg (by simp)]

def updateIndexes (options : EngineOptions) (json : JsonReader)
    (clock : IndexClock) (cf : String) (key value : Bytes)
    (core : EngineCore) : Except LsmError Unit × EngineCore :=
  match json.fields value with
  | none => (.ok (), core)
  | some fields =>
    match core.searchSchema clock.search with
    | (.error error, core) => (.error error, core)
    | (.ok schema, core) =>
      writeEntries options clock cf (dueEntries schema fields key) core

/-- The loop of `remove_indexes`. -/
def deleteEntries (options : EngineOptions) (clock : IndexClock) (cf : String) :
    List (String × Bytes) → EngineCore → Except LsmError Unit × EngineCore
  | [], core => (.ok (), core)
  | (field, entry) :: rest, core =>
    match core.deleteCf options (clock.write field) cf entry with
    | (.error error, core) => (.error error, core)
    | (.ok _, core) => deleteEntries options clock cf rest core

/-- Unlike `update_indexes`, it searches before it looks at the value. -/
def removeIndexes (options : EngineOptions) (json : JsonReader)
    (clock : IndexClock) (cf : String) (key oldValue : Bytes)
    (core : EngineCore) : Except LsmError Unit × EngineCore :=
  match core.searchSchema clock.search with
  | (.error error, core) => (.error error, core)
  | (.ok schema, core) =>
    match json.fields oldValue with
    | none => (.ok (), core)
    | some fields =>
      deleteEntries options clock cf (dueEntries schema fields key) core

/-- `put_cf` with the maintenance of the indexes, whose failure is only
logged. -/
def putIndexed (options : EngineOptions) (json : JsonReader)
    (context : WriteContext) (clock : IndexClock) (cf : String)
    (key value : Bytes) (core : EngineCore) : Except LsmError Bool × EngineCore :=
  match core.putCf options context cf key value none with
  | (.error error, core) => (.error error, core)
  | (.ok due, core) =>
    (.ok due, (core.updateIndexes options json clock cf key value).2)

/-- `delete_cf` with the maintenance of the indexes: the old value is looked
for when the key has been deleted already. -/
def deleteIndexed (options : EngineOptions) (json : JsonReader)
    (context : WriteContext) (clock : IndexClock) (cf : String) (key : Bytes)
    (core : EngineCore) : Except LsmError Bool × EngineCore :=
  match core.deleteLocked options context cf key with
  | (.error error, core) => (.error error, core)
  | (.ok due, core) =>
    match core.getCf context.read cf key with
    | (.ok (some oldValue), core) =>
      (.ok due, (core.removeIndexes options json clock cf key oldValue).2)
    | (_, core) => (.ok due, (core.getCf context.read cf (ttlKey key)).2)

/-- `create_index`; the value `1` of the entry is a document without
fields. -/
def createIndex (options : EngineOptions) (json : JsonReader)
    (context : WriteContext) (clock : IndexClock) (cf field : String)
    (core : EngineCore) : Except LsmError Bool × EngineCore :=
  core.putIndexed options json context clock cf (schemaKey field) (utf8 "1")

end EngineCore

namespace Clocked

def getCf (clock : Nat → Nanos) (cf : String) (key : Bytes)
    (state : Clocked) : Except LsmError (Option Bytes) × Clocked :=
  let (result, core) := state.core.getCf (clock state.reading) cf key
  (result, { core, reading := state.reading + 1 })

/-- The loop that fetches the values of the keys found; a key that cannot be
read is left out. -/
def fetchValues (clock : Nat → Nanos) (cf : String) :
    List Bytes → Clocked → List (Bytes × Bytes) × Clocked
  | [], state => ([], state)
  | key :: keys, state =>
    match state.getCf clock cf key with
    | (.ok (some value), state) =>
      let (output, state) := fetchValues clock cf keys state
      ((key, value) :: output, state)
    | (_, state) => fetchValues clock cf keys state

def primaryKeys (rows : List (Bytes × Bytes)) : List Bytes :=
  rows.filterMap (fun row => (afterLastColon (lossyString row.1)).map utf8)

/-- The loop of a query over several fields: candidates are checked against
the other fields until there are enough. -/
def filterCandidates (clock : Nat → Nanos) (json : JsonReader) (cf : String)
    (others : List (String × String)) (limit : Nat) :
    List Bytes → List (Bytes × Bytes) → Clocked → List (Bytes × Bytes) × Clocked
  | [], output, state => (output, state)
  | key :: keys, output, state =>
    let (output, state) :=
      match state.getCf clock cf key with
      | (.ok (some value), state) =>
        let matching := (json.fields value).any
          (fun (fields : String → Option String) =>
            others.all (fun other => fields other.1 == some other.2))
        (if matching then output ++ [(key, value)] else output, state)
      | (_, state) => (output, state)
    if limit ≤ output.length then (output, state)
    else filterCandidates clock json cf others limit keys output state

/-- `fields` and `values` are separated by commas. -/
def queryIndex (clock : Nat → Nanos) (json : JsonReader)
    (cf fields values : String) (limit : Nat) (state : Clocked) :
    Except LsmError (List (Bytes × Bytes)) × Clocked :=
  match splitCommas fields, splitCommas values with
  | [field], [value] =>
    match state.searchPrefix clock (entryPrefix field value) none limit with
    | (.error error, state) => (.error error, state)
    | (.ok (rows, _), state) =>
      let (output, state) := fetchValues clock cf (primaryKeys rows) state
      (.ok output, state)
  | field :: otherFields, value :: otherValues =>
    if otherFields.length ≠ otherValues.length then
      (.error (.invalidArgument "fields and values must have the same non-empty length"), state)
    else
      match state.searchPrefix clock (entryPrefix field value) none
          10000 with
      | (.error error, state) => (.error error, state)
      | (.ok (rows, _), state) =>
        let (output, state) := filterCandidates clock json cf
          (otherFields.zip otherValues) limit (primaryKeys rows) [] state
        (.ok output, state)
  | _, _ =>
    (.error (.invalidArgument "fields and values must have the same non-empty length"), state)

end Clocked

end ApexStore
