import ApexStore.Engine.FamilyRestart

/-!
# What the files of a directory show

A restart takes every file it finds for a table and searches them in the
order of their names, so what it shows depends only on the directory
(`SstDir.filedValue`).  `SstDir.Shows` relates two directories that a restart
cannot tell apart; a new file with values that are found anyway and the
deletion of a file whose versions are shadowed keep it.
-/

namespace ApexStore

open VersionSet EngineCore List

namespace SstDir

def filedValue (dir : SstDir) (key : Bytes) : Option Bytes :=
  (dir.filed key).bind (fun record =>
    if record.isDeleted then none else some record.value)

/-- The file that decides what is found for a key. -/
structure Last (dir : SstDir) (key : Bytes) (name : String) (record : LogRecord) :
    Prop where
  held : ∃ records, dir[name]? = some (.table records) ∧ records[key]? = some record
  last : ∀ other records found, dir[other]? = some (.table records) →
    records[key]? = some found → other ≤ name

variable {dir after : SstDir} {key : Bytes} {record : LogRecord}

variable {name path : String}

theorem versionIn_eq_some {file : SstFile} : versionIn key (name, file) = some record ↔
      ∃ records, file = .table records ∧ records[key]? = some record := by
  cases file with
  | table records | unfinished => simp [versionIn]

theorem filed_eq_some_iff :
    dir.filed key = some record ↔ ∃ name, dir.Last key name record := by
  rw [filed, findSome?_reverse_of_ranked Prod.fst
    (dir.toList_sorted.imp (fun before _ _ => before))]
  constructor
  · rintro ⟨⟨name, file⟩, listed, found, last⟩
    obtain ⟨records, rfl, held⟩ := versionIn_eq_some.mp found
    refine ⟨name, ⟨records, (NameMap.mem_toList _ _ _).mp listed, held⟩, ?_⟩
    intro other contents version present holds
    apply last (other, .table contents) ((NameMap.mem_toList _ _ _).mpr present)
    rw [versionIn_eq_some.mpr ⟨contents, rfl, holds⟩]
    rfl
  · rintro ⟨name, ⟨records, present, held⟩, last⟩
    refine ⟨(name, .table records), (NameMap.mem_toList _ _ _).mpr present, held, ?_⟩
    rintro ⟨other, file⟩ listed holds
    obtain ⟨version, found⟩ := Option.isSome_iff_exists.mp holds
    obtain ⟨contents, rfl, there⟩ := versionIn_eq_some.mp found
    exact last other contents version ((NameMap.mem_toList _ _ _).mp listed) there

theorem filed_eq_none_iff :
    dir.filed key = none ↔ ∀ (name : String) (records : ByteMap LogRecord),
        dir[name]? = some (.table records) → records[key]? = none := by
  rw [filed, List.findSome?_eq_none_iff]
  constructor
  · intro nowhere name records present
    exact nowhere (name, .table records)
      (mem_reverse.mpr ((NameMap.mem_toList _ _ _).mpr present))
  · rintro nowhere ⟨name, file⟩ listed
    cases file with
    | unfinished => rfl
    | table records =>
      exact nowhere name records ((NameMap.mem_toList _ _ _).mp (mem_reverse.mp listed))

def Permanent (dir : SstDir) : Prop :=
  ∀ (name : String) (records : ByteMap LogRecord), dir[name]? = some (.table records) →
    ∀ (key : Bytes) (record : LogRecord), records[key]? = some record →
      record.expiresAt = none

theorem Permanent.filed (permanent : dir.Permanent)
    (found : dir.filed key = some record) : record.expiresAt = none := by
  obtain ⟨name, last⟩ := filed_eq_some_iff.mp found
  obtain ⟨records, present, held⟩ := last.held
  exact permanent name records present key record held

theorem permanent_iff_checked : dir.Permanent ↔ dir.toList.all (fun file =>
      match file.2 with
      | .table records => records.toList.all (·.2.expiresAt.isNone)
      | .unfinished => true) = true := by
  rw [all_eq_true]
  constructor
  · rintro permanent ⟨name, file⟩ listed
    have present := (NameMap.mem_toList _ _ _).mp listed
    cases file with
    | unfinished => rfl
    | table records =>
      rw [all_eq_true]
      rintro ⟨key, record⟩ member
      have held := (ByteMap.mem_toList _ _ _).mp member
      simp [permanent name records present key record held]
  · intro checked name records present key record held
    have in_file := checked (name, .table records) ((NameMap.mem_toList _ _ _).mpr present)
    have in_records :=
      all_eq_true.mp in_file (key, record) ((ByteMap.mem_toList _ _ _).mpr held)
    exact Option.isNone_iff_eq_none.mp in_records

def Bare (dir : SstDir) : Prop :=
  ∀ (name : String) (records : ByteMap LogRecord), dir[name]? = some (.table records) →
    ∀ (key : Bytes) (record : LogRecord), records[key]? = some record →
      record.isDeleted = true → record.value = []

/-- A restart on the second directory shows what one on the first shows, and
finds no further file that is incomplete. -/
structure Shows (dir after : SstDir) : Prop where
  filed : ∀ key, after.filedValue key = dir.filedValue key
  permanent : dir.Permanent → after.Permanent
  bare : dir.Bare → after.Bare
  complete : ∀ name : String, after[name]? = some .unfinished → dir[name]? = some .unfinished

theorem Shows.refl (dir : SstDir) :
    dir.Shows dir := ⟨fun _ => rfl, id, id, fun _ => id⟩

theorem Shows.trans {last : SstDir} (first : dir.Shows after)
    (second : after.Shows last) : dir.Shows last :=
  ⟨fun key => (second.filed key).trans (first.filed key),
    second.permanent ∘ first.permanent, second.bare ∘ first.bare,
    fun name => first.complete name ∘ second.complete name⟩

theorem Shows.grown {records : ByteMap LogRecord} (unused : dir[name]? = none)
    (others : ∀ other, other ≠ name → after[other]? = dir[other]?)
    (written : after[name]? = some (.table records))
    (live : ∀ (key : Bytes) (record : LogRecord), records[key]? = some record →
      record.isDeleted = false ∧ record.expiresAt = none)
    (current : ∀ (key : Bytes) (record : LogRecord), records[key]? = some record →
      dir.filedValue key = some record.value) : dir.Shows after := by
  -- an old file is where it was, the new one is the only other
  have cases_of : ∀ {other : String} {contents : ByteMap LogRecord},
      after[other]? = some (.table contents) → (other = name ∧ contents = records) ∨
        dir[other]? = some (.table contents) := by
    intro other contents present
    by_cases here : other = name
    · subst here
      rw [written] at present
      cases present
      exact .inl ⟨rfl, rfl⟩
    · rw [others other here] at present
      exact .inr present
  have stays : ∀ {other : String} {contents : ByteMap LogRecord},
      dir[other]? = some (.table contents) → after[other]? = some (.table contents) := by
    intro other contents present
    rw [others other ?_, present]
    rintro rfl
    rw [unused] at present
    cases present
  refine ⟨?_, ?_, ?_, ?_⟩
  · intro key
    cases found : after.filed key with
    | none =>
      have nowhere := filed_eq_none_iff.mp found
      have before : dir.filed key = none :=
        filed_eq_none_iff.mpr (fun other contents present =>
          nowhere other contents (stays present))
      rw [filedValue, filedValue, found, before]
    | some record =>
      obtain ⟨other, last⟩ := filed_eq_some_iff.mp found
      obtain ⟨contents, present, held⟩ := last.held
      rcases cases_of present with ⟨rfl, rfl⟩ | old
      · rw [current key record held, filedValue, found]
        simp [(live key record held).1]
      · have before : dir.filed key = some record :=
          filed_eq_some_iff.mpr ⟨other, ⟨contents, old, held⟩,
            fun third inside version there =>
              last.last third inside version (stays there)⟩
        rw [filedValue, filedValue, found, before]
  · intro permanent other contents present key record held
    rcases cases_of present with ⟨rfl, rfl⟩ | old
    · exact (live key record held).2
    · exact permanent other contents old key record held
  · intro bare other contents present key record held deleted
    rcases cases_of present with ⟨rfl, rfl⟩ | old
    · rw [(live key record held).1] at deleted
      cases deleted
    · exact bare other contents old key record held deleted
  · intro other incomplete
    rw [← others other ?_]
    · exact incomplete
    · rintro rfl
      rw [written] at incomplete
      cases incomplete

/-- The file can go: each of its versions is shadowed by one in a file with a
later name, or is a deletion of a key that no other file has. -/
def Expendable (dir : SstDir) (path : String) : Prop :=
  ∀ records : ByteMap LogRecord, dir[path]? = some (.table records) →
    ∀ (key : Bytes) (record : LogRecord), records[key]? = some record →
      (∃ (other : String) (contents : ByteMap LogRecord), path < other ∧
        dir[other]? = some (.table contents) ∧ contents[key]? ≠ none) ∨
          (record.isDeleted = true ∧
        ∀ (other : String) (contents : ByteMap LogRecord), other ≠ path →
          dir[other]? = some (.table contents) → contents[key]? = none)

theorem Shows.erase (expendable : dir.Expendable path) :
    dir.Shows (dir.erase path) := by
  have erased : ∀ other : String, (dir.erase path)[other]? =
      if path = other then none else dir[other]? := by
    intro other
    simp [Std.ExtTreeMap.getElem?_erase]
  have stays : ∀ {other : String} {file : SstFile},
      (dir.erase path)[other]? = some file → dir[other]? = some file := by
    intro other file present
    rw [erased] at present
    split at present
    · cases present
    · exact present
  refine ⟨?_, ?_, ?_, fun name => stays⟩
  · intro key
    cases found : dir.filed key with
    | none =>
      have nowhere := filed_eq_none_iff.mp found
      have after : SstDir.filed (dir.erase path) key = none :=
        filed_eq_none_iff.mpr (fun other contents present =>
          nowhere other contents (stays present))
      rw [filedValue, filedValue, found, after]
    | some record =>
      obtain ⟨name, last⟩ := filed_eq_some_iff.mp found
      obtain ⟨records, present, held⟩ := last.held
      by_cases here : path = name
      · subst here
        rcases expendable records present key record held with
          ⟨other, contents, behind, there, holds⟩ | ⟨deleted, nowhere⟩
        · obtain ⟨version, is_there⟩ := Option.ne_none_iff_exists'.mp holds
          exact absurd behind (not_lt.mpr (last.last other contents version there is_there))
        · have after : SstDir.filed (dir.erase path) key = none := by
            apply filed_eq_none_iff.mpr
            intro other contents is_there
            rw [erased] at is_there
            split at is_there
            · cases is_there
            · next differ =>
              exact nowhere other contents (Ne.symm differ) is_there
          rw [filedValue, filedValue, found, after]
          simp [deleted]
      · have after : SstDir.filed (dir.erase path) key = some record := by
          refine filed_eq_some_iff.mpr ⟨name, ⟨records, ?_, held⟩, ?_⟩
          · rw [erased, if_neg here, present]
          · intro other contents version is_there
            exact last.last other contents version (stays is_there)
        rw [filedValue, filedValue, found, after]
  · exact fun permanent name records present =>
      permanent name records (stays present)
  · exact fun bare name records present =>
      bare name records (stays present)

/-- Every key of the file is in a file with a later name. -/
def shadowed (dir : SstDir) (path : String) : Bool :=
  match dir[path]? with
  | some (.table records) => records.toList.all (fun held =>
    dir.toList.any (fun entry =>
      decide (path < entry.1) && (versionIn held.1 entry).isSome))
  | _ => true

theorem Expendable.of_shadowed (shadowed : dir.shadowed path = true) :
    dir.Expendable path := by
  intro records present key record held
  rw [SstDir.shadowed, present] at shadowed
  obtain ⟨⟨other, file⟩, listed, behind⟩ := any_eq_true.mp
    (all_eq_true.mp shadowed _ ((ByteMap.mem_toList _ _ _).mpr held))
  rw [Bool.and_eq_true, decide_eq_true_eq] at behind
  obtain ⟨version, found⟩ := Option.isSome_iff_exists.mp behind.2
  obtain ⟨contents, rfl, there⟩ := versionIn_eq_some.mp found
  refine .inl ⟨other, contents, behind.1, (NameMap.mem_toList _ _ _).mp listed, ?_⟩
  rw [there]
  exact Option.some_ne_none _

theorem Shows.removeFiles {paths : List String}
    (expendable : ∀ earlier path later, paths = earlier ++ path :: later →
      (removeFiles dir earlier).Expendable path) :
    dir.Shows (removeFiles dir paths) := by
  induction paths generalizing dir with
  | nil => exact .refl dir
  | cons path paths ih =>
    have first : dir.Expendable path := expendable [] path paths rfl
    refine (Shows.erase first).trans (ih ?_)
    intro earlier other later split
    exact expendable (path :: earlier) other later (by rw [split]; rfl)

end SstDir

/-! ## Two restarts -/

namespace EngineCore.Reopened

variable {options : EngineOptions} {first second before after : EngineCore}

variable (reopened : Reopened options first before)
include reopened

theorem lookup_filed (permanent : first.store.dir.Permanent) (now : Nanos)
    (key : Bytes) :
    before.store.versions.lookup before.store.dir now "default" key =
      first.store.dir.filedValue key := by
  have newest : (before.newestEntry "default" key).map (·.2) =
      first.store.dir.filed key := reopened.newest_filed key
  rw [lookup_of_unexpired reopened.sound.store, newest]
  · rfl
  · intro table record found
    rw [found] at newest
    rw [LogRecord.isExpiredAt, permanent.filed newest.symm]

theorem lookup_eq (reopened' : Reopened options second after)
    (permanent : first.store.dir.Permanent)
    (shows : first.store.dir.Shows second.store.dir)
    (now : Nanos) (cf : String) (key : Bytes) :
    after.store.versions.lookup after.store.dir now cf key =
      before.store.versions.lookup before.store.dir now cf key := by
  by_cases here : cf = "default"
  · subst here
    rw [reopened.lookup_filed permanent,
      reopened'.lookup_filed (shows.permanent permanent), shows.filed]
  · rw [lookup_of_absent reopened.sound.store now (reopened.newestEntry_other here key),
      lookup_of_absent reopened'.sound.store now (reopened'.newestEntry_other here key)]

theorem answer_eq (reopened' : Reopened options second after)
    (logs : second.logs = first.logs)
    (points : ∀ cf, loggedRanges (first.logRecords cf) cf = [])
    (permanent : first.store.dir.Permanent)
    (shows : first.store.dir.Shows second.store.dir)
    (now : Nanos) (cf : String) (key : Bytes) :
    after.answer now cf key = before.answer now cf key := by
  have log : ∀ cf, second.log cf = first.log cf := by
    intro cf
    rw [EngineCore.log, EngineCore.log, logs]
  have records : second.logRecords cf = first.logRecords cf := by
    rw [logRecords, logRecords, log]
  have uncovered := reopened.uncovered (points cf) key
  have uncovered' := reopened'.uncovered (by rw [records, points]) key
  have found := reopened.lookup_eq reopened' permanent shows now cf
  have memory : after.memtableRecord cf key = before.memtableRecord cf key := by
    rw [reopened.records, reopened'.records, loggedRecord, loggedRecord, records]
  rw [answer, answer, memory, sideExpired, sideExpired,
    tableValue, tableValue, uncovered, uncovered']
  simp only [TableState.peek, reopened.cache, reopened'.cache, found]

end EngineCore.Reopened

end ApexStore
