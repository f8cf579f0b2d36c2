import ApexStore.Engine.TableVersions

/-!
# Lookups without the cache

What `get` returns for a key that is not cached is a function of the tables,
`VersionSet.lookup`: the first table, newest first, that answers decides.  The
quarantine list grows during a search, but only by files that could not be
read anyway, so it has no influence on later answers.
-/

namespace ApexStore

open VersionSet LogRecord

variable {versions : VersionSet} {path : String} {key : Bytes}

def SstDir.Unreadable (dir : SstDir) (path : String) : Prop :=
  ∃ error, dir.openTable path = .error error

/-- Two quarantine lists that differ only in unreadable files. -/
def SameReadable (dir : SstDir) (first second : List String) : Prop :=
  ∀ path, ¬ dir.Unreadable path → (path ∈ first ↔ path ∈ second)

theorem SameReadable.refl (dir : SstDir) (quarantined : List String) :
    SameReadable dir quarantined quarantined :=
  fun _ _ => Iff.rfl

variable {dir : SstDir}

theorem SameReadable.trans {first second third : List String}
    (left : SameReadable dir first second)
    (right : SameReadable dir second third) : SameReadable dir first third :=
  fun path readable => (left path readable).trans (right path readable)

theorem SameReadable.cons (unreadable : dir.Unreadable path)
    (quarantined : List String) :
    SameReadable dir quarantined (path :: quarantined) := by
  intro other readable
  have apart : other ≠ path := by
    rintro rfl
    exact readable unreadable
  simp [apart]

/-- What a record decides about its key: that it is missing, its value, or,
once it has expired, nothing. -/
def LogRecord.decides (now : Nanos) (record : LogRecord) : Option (Option Bytes) :=
  if record.isDeleted then some none
  else if record.isExpiredAt now then none
  else some (some record.value)

/-- What a lookup gathers from one turn of its loop. -/
def Probe.answer : Probe → Option (Option Bytes)
  | .miss => none
  | .deleted => some none
  | .found value => some (some value)
  | .unreadable _ => none

namespace Table

/-- What the file of a table decides about a key. -/
def fileAnswer (dir : SstDir) (hasBlockCache : Bool)
    (quarantined : List String) (now : Nanos) (key : Bytes) (table : Table) :
    Option (Option Bytes) :=
  if table.path.any (quarantined.contains ·) || !hasBlockCache then none
  else (table.fileRecord dir key).bind (LogRecord.decides now)

def answer (dir : SstDir) (hasBlockCache : Bool) (quarantined : List String)
    (now : Nanos) (key : Bytes) (table : Table) : Option (Option Bytes) :=
  if !table.admits key then none
  else
    match table.data[key]? with
    | some value =>
      if value.isEmpty then
        if table.path.isNone then some none
        else table.fileAnswer dir hasBlockCache quarantined now key
      else some (some value)
    | none => table.fileAnswer dir hasBlockCache quarantined now key

variable {dir dir' : SstDir} {hasBlockCache : Bool} {now now' : Nanos}
  {quarantined quarantined' : List String} {table : Table} {key : Bytes}

theorem probeFile_answer :
    (table.probeFile dir hasBlockCache quarantined now key).answer =
      table.fileAnswer dir hasBlockCache quarantined now key := by
  cases located : table.path with
  | none => simp [probeFile, fileAnswer, fileRecord, located, Probe.answer]
  | some path =>
    by_cases isolated : path ∈ quarantined
    · simp [probeFile, fileAnswer, located, isolated, Probe.answer]
    cases hasBlockCache with
    | false => simp [probeFile, fileAnswer, located, Probe.answer]
    | true =>
      have reached : table.fileAnswer dir true quarantined now key =
          (dir.get path key).toOption.join.bind (decides now) := by
        simp [fileAnswer, fileRecord, located, isolated]
      rw [reached]
      cases read : dir.get path key with
      | error error =>
        simp [probeFile, located, isolated, read, Probe.answer, Except.toOption]
      | ok found =>
        cases found with
        | none =>
          simp [probeFile, located, read, Probe.answer, Except.toOption]
        | some record =>
          cases deleted : record.isDeleted <;> cases expired : record.isExpiredAt now <;>
            simp [probeFile, located, isolated, read, Probe.answer,
              Except.toOption, decides, deleted, expired]

theorem probe_answer : (table.probe dir hasBlockCache quarantined now key).answer =
      table.answer dir hasBlockCache quarantined now key := by
  cases admitted : table.admits key with
  | false => simp [probe, answer, admitted, Probe.answer]
  | true =>
    cases held : table.data[key]? with
    | none => simp [probe, answer, admitted, held, probeFile_answer]
    | some value =>
      cases empty : value.isEmpty with
      | false =>
        simp only [probe, answer, admitted, held, empty]
        rfl
      | true =>
        cases located : table.path with
        | none =>
          simp only [probe, answer, admitted, held, empty, located]
          rfl
        | some path =>
          simp [probe, answer, admitted, held, empty, located, probeFile_answer]

theorem probe_unreadable
    (probed : table.probe dir hasBlockCache quarantined now key = .unreadable path) :
    dir.Unreadable path := by
  have of_file : ∀ {path : String}, table.probeFile dir hasBlockCache quarantined now key =
        .unreadable path → dir.Unreadable path := by
    intro path failed
    unfold probeFile at failed
    repeat' split at failed
    all_goals cases failed
    next error read =>
      unfold SstDir.get at read
      split at read
      · cases read
      · next error opened => exact ⟨error, opened⟩
  unfold probe at probed
  repeat' split at probed
  all_goals first | cases probed | exact of_file probed

theorem answer_congr (same : SameReadable dir quarantined quarantined') :
    table.answer dir hasBlockCache quarantined' now key =
      table.answer dir hasBlockCache quarantined now key := by
  have of_file : table.fileAnswer dir hasBlockCache quarantined' now key =
      table.fileAnswer dir hasBlockCache quarantined now key := by
    cases located : table.path with
    | none => simp [fileAnswer, located]
    | some path =>
      by_cases unreadable : dir.Unreadable path
      · obtain ⟨error, opened⟩ := unreadable
        have nothing : table.fileRecord dir key = none := by
          simp [fileRecord, located, SstDir.get, opened, Except.toOption]
        simp [fileAnswer, nothing]
      · simp [fileAnswer, located, same path unreadable]
  rw [answer, answer, of_file]

theorem answer_congr_dir
    (same : ∀ path, table.path = some path → dir'[path]? = dir[path]?) :
    table.answer dir' hasBlockCache quarantined now key =
      table.answer dir hasBlockCache quarantined now key := by
  rw [answer, answer, fileAnswer, fileAnswer, fileRecord_congr same]

/-- The live versions of a key in the file of a table have not expired. -/
def Unexpired (dir : SstDir) (now : Nanos) (key : Bytes) (table : Table) : Prop :=
  ∀ record, table.fileRecord dir key = some record →
    record.isDeleted = false → record.isExpiredAt now = false

theorem answer_congr_now (unexpired : table.Unexpired dir now key)
    (unexpired' : table.Unexpired dir now' key) :
    table.answer dir hasBlockCache quarantined now' key =
      table.answer dir hasBlockCache quarantined now key := by
  have decided : (table.fileRecord dir key).bind (decides now') =
      (table.fileRecord dir key).bind (decides now) := by
    cases found : table.fileRecord dir key with
    | none => rfl
    | some record =>
      cases deleted : record.isDeleted with
      | true => simp [decides, deleted]
      | false =>
        simp [decides, unexpired record found deleted, unexpired' record found deleted]
  rw [answer, answer, fileAnswer, fileAnswer, decided]

/-- The file of a table has no live version of the key with an empty value. -/
def NoEmptyValue (dir : SstDir) (key : Bytes) (table : Table) : Prop :=
  ∀ record, table.fileRecord dir key = some record → record.isDeleted = false →
    record.value ≠ []

theorem answer_ne_nil (nonempty : table.NoEmptyValue dir key) {value : Bytes}
    (answered : table.answer dir hasBlockCache quarantined now key =
      some (some value)) : value ≠ [] := by
  have of_file : table.fileAnswer dir hasBlockCache quarantined now key =
      some (some value) → value ≠ [] := by
    intro decided
    unfold fileAnswer at decided
    split at decided
    · cases decided
    · obtain ⟨record, found, decides⟩ := Option.bind_eq_some_iff.mp decided
      unfold LogRecord.decides at decides
      split at decides
      · cases decides
      · next live =>
        split at decides
        · cases decides
        · cases decides
          exact nonempty record found (Bool.eq_false_iff.mpr live)
  unfold answer at answered
  split at answered
  · cases answered
  split at answered
  · split at answered
    · split at answered
      · cases answered
      · exact of_file answered
    · next held =>
      cases answered
      simpa using held
  · exact of_file answered

end Table

/-- A search returns what the first table that answers says, and quarantines
nothing that could be read. -/
theorem search_eq (dir : SstDir) (hasBlockCache : Bool) (now : Nanos)
    (key : Bytes) (tables : List Table) (quarantined : List String) :
    (search dir hasBlockCache now key tables quarantined).1 = (tables.findSome?
          (Table.answer dir hasBlockCache quarantined now key)).join ∧
            SameReadable dir quarantined
        (search dir hasBlockCache now key tables quarantined).2 := by
  induction tables generalizing quarantined with
  | nil => exact ⟨rfl, SameReadable.refl dir quarantined⟩
  | cons table tables ih =>
    have answered : _ = table.answer dir hasBlockCache quarantined now key :=
      Table.probe_answer
    rw [search, List.findSome?_cons, ← answered]
    cases probed : table.probe dir hasBlockCache quarantined now key with
    | miss => exact ih quarantined
    | deleted | found value => exact ⟨rfl, SameReadable.refl dir quarantined⟩
    | unreadable path =>
      have grown := SameReadable.cons (Table.probe_unreadable probed) quarantined
      obtain ⟨result, same⟩ := ih (path :: quarantined)
      refine ⟨?_, grown.trans same⟩
      rw [result]
      congr 1
      apply findSome?_congr
      intro other _
      exact Table.answer_congr grown

namespace VersionSet

/-- What the tables of a family say about a key. -/
def lookup (versions : VersionSet) (dir : SstDir) (now : Nanos) (cf : String)
    (key : Bytes) : Option Bytes :=
  ((versions.getTables cf).reverse.findSome?
    (Table.answer dir versions.hasBlockCache versions.quarantined now key)).join

variable {versions : VersionSet} {key : Bytes}

variable {value : Bytes} {now : Nanos}

theorem get_of_cached (cached : versions.kvCache[key]? = some value) (dir : SstDir)
    (now : Nanos) (cf : String) : versions.get dir now cf key =
      (if value.isEmpty then none else some value, versions) := by
  rw [VersionSet.get, cached]

theorem get_of_not_cached (uncached : versions.kvCache[key]? = none)
    (dir : SstDir) (now : Nanos) (cf : String) :
    ∃ quarantined, SameReadable dir versions.quarantined quarantined ∧
      versions.get dir now cf key =
        (versions.lookup dir now cf key,
          { versions with
            quarantined
            kvCache :=
              match versions.lookup dir now cf key with
              | some value => versions.kvCache.insert key value
              | none => versions.kvCache }) := by
  have searched := search_eq dir versions.hasBlockCache now key
    (versions.getTables cf).reverse versions.quarantined
  refine ⟨_, searched.2, ?_⟩
  rw [VersionSet.get, uncached]
  rw [getUncached, lookup, ← searched.1]
  dsimp only
  split
  · next found => simp [found, putCached]
  · next found => simp [found]

theorem lookup_get (dir : SstDir) (versions : VersionSet) (now now' : Nanos)
    (cf other : String)
    (key other_key : Bytes) :
    (versions.get dir now cf key).2.lookup dir now' other other_key =
      versions.lookup dir now' other other_key := by
  cases cached : versions.kvCache[key]? with
  | some value => rw [get_of_cached cached]
  | none =>
    obtain ⟨quarantined, same, result⟩ := get_of_not_cached cached dir now cf
    rw [result]
    simp only [lookup]
    congr 1
    apply findSome?_congr
    intro table _
    exact Table.answer_congr same

theorem getTables_get (dir : SstDir) (versions : VersionSet) (now : Nanos)
    (cf other : String)
    (key : Bytes) :
    (versions.get dir now cf key).2.getTables other = versions.getTables other := by
  cases cached : versions.kvCache[key]? with
  | some value => rw [get_of_cached cached]
  | none =>
    obtain ⟨quarantined, same, result⟩ := get_of_not_cached cached dir now cf
    rw [result]
    rfl

variable {dir : SstDir} {cf : String}

theorem lookup_congr_now {now' : Nanos}
    (unexpired : ∀ table ∈ versions.getTables cf, table.Unexpired dir now key)
    (unexpired' : ∀ table ∈ versions.getTables cf, table.Unexpired dir now' key) :
    versions.lookup dir now' cf key = versions.lookup dir now cf key := by
  rw [lookup]
  congr 1
  apply findSome?_congr
  intro table member
  have listed := List.mem_reverse.mp member
  exact Table.answer_congr_now (unexpired table listed) (unexpired' table listed)

theorem lookup_congr_dir {dir' : SstDir}
    (same : ∀ table ∈ versions.getTables cf, ∀ path,
      table.path = some path → dir'[path]? = dir[path]?) (now : Nanos) (key : Bytes) :
    versions.lookup dir' now cf key = versions.lookup dir now cf key := by
  rw [lookup]
  congr 1
  apply findSome?_congr
  intro table member
  exact Table.answer_congr_dir (same table (List.mem_reverse.mp member))

theorem lookup_ne_nil
    (nonempty : ∀ table ∈ versions.getTables cf, table.NoEmptyValue dir key)
    (found : versions.lookup dir now cf key = some value) : value ≠ [] := by
  obtain ⟨table, member, answered⟩ :=
    List.exists_of_findSome?_eq_some (Option.join_eq_some_iff.mp found)
  exact Table.answer_ne_nil (nonempty table (List.mem_reverse.mp member)) answered

end VersionSet

end ApexStore
