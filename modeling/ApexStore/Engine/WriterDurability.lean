import ApexStore.Engine.Writers

/-!
# Concurrent writers and flushes

A flush clears the log of its family.  The record of a writer that is then
between its append and its insert is lost, since it reaches the memtable only
afterwards.  Without such writers every record whose call has returned is in
the log or in a table, or a later one of the same key is
(`returned_writes_are_durable`).
-/

namespace ApexStore

open EngineCore VersionSet List

variable {core : EngineCore} {mem : MemTable} {key : Bytes} {ok : Bool}

/-- The condition on a flush that writes: the name of its file is new, the
builder accepts all records and can write their lengths, none of them has
expired, and no writer of the family is between its append and its insert. -/
structure FlushKeepsWrites (options : EngineOptions) (clock : FlushClock)
    (cf : String) (system : WriterSystem) (mem : MemTable) : Prop where
  unused : system.core.store.dir[flushName clock.now]? = none
  flushable : Flushable options.storage clock mem.data
  legible : ∀ entry ∈ combinedEntries clock mem.data,
    SstableBuilder.legible entry.1 entry.2 = true
  lasting : ∀ (key : Bytes) (record : LogRecord),
    mem.data[key]? = some record → record.isExpiredAt clock.now = false
  alone : ∀ writer ∈ system.writers, writer.phase = .appended → writer.call.family ≠ cf

/-- The same for every flush, whether it writes or not. -/
def FlushLosesNothing (options : EngineOptions) (clock : FlushClock) (cf : String)
    (system : WriterSystem) : Prop :=
  cf ≠ "" ∧ ∀ mem, (system.core.memtablesOf cf).getLast? = some mem →
    mem.data.isEmpty = false → FlushKeepsWrites options clock cf system mem

/-- The condition on the steps of puts, deletes and flushes; no write starts a
compaction. -/
def WriterStep.KeepsWrites (options : EngineOptions)
    (system : WriterSystem) : WriterStep → Prop
  | .start call => call.target ≠ none ∧ call.family ≠ ""
  | .append _ => True
  | .insert index =>
    ∀ call record clock, system.writers[index]? = some { call, phase := .appended } →
      call.stored options = some record → call.flushClock = some clock →
      system.core.Calm options call.family call.size ∧
        let core := system.core.insertMemtable call.family record call.size
        (options.writeBufferLimit ≤ core.bytesOf call.family →
          FlushLosesNothing options clock call.family
            (system.update index { call, phase := .returned 0 true } core))
  | .flush clock cf => FlushLosesNothing options clock cf system
  | _ => False

/-- The record of a returned call, or that of a call to the same key that
returned later, is in the log or in a table of the family. -/
def WriterSystem.Durable (options : EngineOptions) (system : WriterSystem)
    (cf : String) (key : Bytes) (place : Nat) : Prop :=
  ∃ call place' ok record, ({ call, phase := .returned place' ok } : Writer) ∈
    system.writers ∧
    call.family = cf ∧ call.target = some key ∧ place ≤ place' ∧
      call.stored options = some record ∧
    (call.entry options ∈ system.core.log cf ∨
      ∃ table ∈ system.core.store.versions.getTables cf,
        table.version system.core.store.dir key = some record)

/-- What keeps a returned call durable: its record or a later one is in a
table, or it is in the memtable and in the log. -/
def WriterSystem.Safe (options : EngineOptions) (system : WriterSystem)
    (cf : String) (key : Bytes) (place : Nat) : Prop :=
  ∃ call place' ok record, ({ call, phase := .returned place' ok } : Writer) ∈
    system.writers ∧
    call.family = cf ∧ call.target = some key ∧ place ≤ place' ∧
      call.stored options = some record ∧
    ((call.entry options ∈ system.core.log cf ∧
      system.core.memtableRecord cf key = some record) ∨
      ∃ table ∈ system.core.store.versions.getTables cf,
        table.version system.core.store.dir key = some record)

structure WriterSystem.Kept (options : EngineOptions) (system : WriterSystem) :
    Prop where
  single : ∀ cf, (system.core.memtablesOf cf).length ≤ 1
  files : ∀ cf, ∀ table ∈ system.core.store.versions.getTables cf,
    ∀ path, table.path = some path → system.core.store.dir[path]? ≠ none
  named : ∀ writer ∈ system.writers, writer.call.family ≠ "" ∧ writer.call.target ≠ none
  appended : ∀ call, ({ call, phase := .appended } : Writer) ∈ system.writers →
    call.entry options ∈ system.core.log call.family
  places : ∀ call place ok, ({ call, phase := .returned place ok } : Writer) ∈
    system.writers →
    place < system.writers.countP (·.hasReturned)
  safe : ∀ call key place ok, ({ call, phase := .returned place ok } : Writer) ∈
    system.writers →
    call.target = some key → system.Safe options call.family key place

theorem EngineCore.logName_ne {first second : String} (apart : first ≠ second)
    (named : first ≠ "") (named' : second ≠ "") : logName first ≠ logName second := by
  simpa [logName, named, named'] using apart

theorem EngineCore.memtableRecord_of_single {cf : String}
    (single : (core.memtablesOf cf).length ≤ 1)
    (last : (core.memtablesOf cf).getLast? = some mem)
    (key : Bytes) :
    core.memtablesOf cf = [mem] ∧ core.memtableRecord cf key = mem.data[key]? := by
  have memtables : core.memtablesOf cf = [mem] := by
    match found : core.memtablesOf cf, single with
    | [], _ => simp [found] at last
    | [only], _ =>
      rw [found] at last
      cases last
      rfl
  refine ⟨memtables, ?_⟩
  simp [memtableRecord, memtables]

namespace WriterSystem.Kept

variable {options : EngineOptions} {system : WriterSystem}

theorem durable (kept : system.Kept options) {call : WriteCall} {place : Nat}
    (member : ({ call, phase := .returned place ok } : Writer) ∈ system.writers)
    (point : call.target = some key) : system.Durable options call.family key place := by
  obtain ⟨later, place', ok', record, listed, family, target, order, stores,
    held⟩ := kept.safe call key place ok member point
  exact ⟨later, place', ok', record, listed, family, target, order, stores,
    held.imp And.left id⟩

end WriterSystem.Kept

namespace WriterSystem

variable {options : EngineOptions} {system after : WriterSystem}

variable {cf : String} {place : Nat} {writer : Writer}

theorem Safe.mono (safe : system.Safe options cf key place)
    (writers : ∀ call place ok, ({ call, phase := .returned place ok } : Writer) ∈
      system.writers →
      ({ call, phase := .returned place ok } : Writer) ∈ after.writers)
    (held : ∀ (call : WriteCall) record, call.family = cf →
      call.stored options = some record →
      call.entry options ∈ system.core.log cf →
        system.core.memtableRecord cf key = some record →
      (call.entry options ∈ after.core.log cf ∧
        after.core.memtableRecord cf key = some record) ∨
        ∃ table ∈ after.core.store.versions.getTables cf,
          table.version after.core.store.dir key = some record)
    (tables : ∀ table ∈ system.core.store.versions.getTables cf,
      ∀ record, table.version system.core.store.dir key = some record →
      ∃ table ∈ after.core.store.versions.getTables cf,
        table.version after.core.store.dir key = some record) :
    after.Safe options cf key place := by
  obtain ⟨call, place', ok, record, listed, family, target, order, stores, found⟩ := safe
  refine ⟨call, place', ok, record, writers call place' ok listed, family,
    target, order, stores, ?_⟩
  rcases found with ⟨logged, stored⟩ | ⟨table, member, version⟩
  · exact held call record family stores logged stored
  · exact .inr (tables table member record version)

/-- A change of the engine that keeps the memtables, the logs and the
tables. -/
theorem Kept.of_core (kept : system.Kept options) (core : EngineCore)
    (memtables : ∀ cf, core.memtablesOf cf = system.core.memtablesOf cf)
    (logs : ∀ cf, core.log cf = system.core.log cf)
    (store : core.store = system.core.store) :
    Kept options { system with core } := by
  refine ⟨?_, ?_, kept.named, ?_, kept.places, ?_⟩
  · exact fun cf => by rw [memtables]; exact kept.single cf
  · exact fun cf => by rw [store]; exact kept.files cf
  · exact fun call member => by rw [logs]; exact kept.appended call member
  · intro call key place ok member point
    refine (kept.safe call key place ok member point).mono (fun _ _ _ listed => listed) ?_ ?_
    · intro other record _ _ logged stored
      rw [logs, memtableRecord, memtables]
      exact .inl ⟨logged, stored⟩
    · intro table listed record version
      rw [store]
      exact ⟨table, listed, version⟩

variable {call : WriteCall} {index : Nat}

theorem Kept.start (kept : system.Kept options) (point : call.target ≠ none)
    (named : call.family ≠ "") : (system.step options (.start call)).Kept options := by
  rw [step]
  split
  · have opened := kept.of_core (system.core.walHandle call.family)
      (fun _ => rfl) (fun cf => log_walHandle system.core call.family cf) rfl
    refine ⟨opened.single, opened.files, ?_, ?_, ?_, ?_⟩
    · intro writer member
      rcases mem_append.mp member with old | new
      · exact kept.named writer old
      · rw [mem_singleton.mp new]
        exact ⟨named, point⟩
    · intro other member
      apply opened.appended
      simpa using member
    · intro other place ok member
      have old : ({ call := other, phase := .returned place ok } : Writer) ∈
          system.writers := by simpa using member
      have bound := kept.places other place ok old
      simpa [Writer.hasReturned] using bound
    · intro other key place ok member target
      have old : ({ call := other, phase := .returned place ok } : Writer) ∈
          system.writers := by simpa using member
      apply (opened.safe other key place ok old target).mono
      · exact fun _ _ _ listed => mem_append_left _ listed
      · exact fun _ _ _ _ logged stored => .inl ⟨logged, stored⟩
      · exact fun table listed _ version => ⟨table, listed, version⟩
  · exact kept

section

variable (at_index : system.writers[index]? = some writer)
  (before : writer.hasReturned = false)
include at_index before

theorem countP_update (next : Writer) (core : EngineCore) :
    (system.update index next core).writers.countP (·.hasReturned) =
      system.writers.countP (·.hasReturned) + if next.hasReturned then 1 else 0 := by
  obtain ⟨bound, same⟩ := List.getElem?_eq_some_iff.mp at_index
  rw [update, countP_set bound, same, before]
  simp

theorem mem_update_of_returned {next : Writer} (core : EngineCore)
    (member : ({ call, phase := .returned place ok } : Writer) ∈ system.writers) :
    ({ call, phase := .returned place ok } : Writer) ∈
      (system.update index next core).writers := by
  apply mem_set_of_ne member
  rw [at_index]
  rintro same
  cases same
  cases before

end

variable (kept : system.Kept options)
include kept

theorem Kept.append (index : Nat) :
    (system.step options (.append index)).Kept options := by
  rw [step]
  split
  · next call at_index =>
    have log : ∀ cf entry, entry ∈ system.core.log cf → entry ∈
        (system.core.writeRecord call.family (call.entry options)).log
          cf := by
      intro cf entry member
      rw [log_writeRecord]
      split
      · next same =>
        rw [log, same]
        exact mem_append_left _ member
      · exact member
    have named := kept.named _ (mem_of_getElem? at_index)
    refine ⟨kept.single, kept.files, ?_, ?_, ?_, ?_⟩
    · intro writer member
      rcases mem_or_eq_of_mem_set member with old | rfl
      · exact kept.named writer old
      · exact named
    · intro other member
      rcases mem_or_eq_of_mem_set member with old | new
      · exact log _ _ (kept.appended other old)
      · cases new
        change _ ∈ (system.core.writeRecord call.family _).log call.family
        rw [log_writeRecord, if_pos rfl]
        exact mem_append_right _ (mem_singleton_self _)
    · intro other place ok member
      rw [countP_update at_index rfl]
      rcases mem_or_eq_of_mem_set member with old | new
      · exact kept.places other place ok old
      · cases new
    · intro other key place ok member target
      rcases mem_or_eq_of_mem_set member with old | new
      · apply (kept.safe other key place ok old target).mono
        · exact fun _ _ _ => mem_update_of_returned at_index rfl _
        · exact fun _ _ _ _ logged stored => .inl ⟨log _ _ logged, stored⟩
        · exact fun table listed _ version => ⟨table, listed, version⟩
      · cases new
  · exact kept

theorem Kept.insertMemtable
    (at_index : system.writers[index]? = some { call, phase := .appended })
    {record : LogRecord} (stores : call.stored options = some record) {count : Nat}
    (counted : count = system.writers.countP (·.hasReturned)) (ok : Bool) :
    (system.update index { call, phase := .returned count ok }
      (system.core.insertMemtable call.family record call.size)).Kept options := by
  have listed := mem_of_getElem? at_index
  have total := countP_update at_index rfl
    { call, phase := .returned count ok }
      (system.core.insertMemtable call.family record call.size)
  have logged := kept.appended call listed
  have named := kept.named _ listed
  obtain ⟨key, point⟩ := Option.ne_none_iff_exists'.mp named.2
  have own : record.key = key := by
    obtain ⟨stored, stores', own⟩ := WriteCall.stored_point options point
    rw [stores] at stores'
    cases stores'
    exact own
  have inserted : (system.core.insertMemtable call.family record
      call.size).memtableRecord call.family key = some record := by
    rw [memtableRecord_insertMemtable, if_pos ⟨rfl, own⟩]
  refine ⟨?_, kept.files, ?_, ?_, ?_, ?_⟩
  · intro cf
    change ((system.core.updateMemtable call.family _).memtablesOf cf).length ≤ 1
    rw [memtablesOf_updateMemtable]
    split
    · rw [MemTable.length_updateLast (kept.single _)]
    · exact kept.single cf
  · intro writer member
    rcases mem_or_eq_of_mem_set member with old | rfl
    · exact kept.named writer old
    · exact named
  · intro other member
    rcases mem_or_eq_of_mem_set member with old | new
    · exact kept.appended other old
    · cases new
  · intro other place ok' member
    rw [total]
    rcases mem_or_eq_of_mem_set member with old | new
    · exact Nat.lt_succ_of_lt (kept.places other place ok' old)
    · cases new
      rw [counted]
      exact Nat.lt_succ_self _
  · intro other target place ok' member at_target
    -- the new record stands in for all earlier ones of its key
    have latest : place ≤ count → other.family = call.family → target = key →
        (system.update index { call, phase := .returned count ok }
          (system.core.insertMemtable call.family record call.size)).Safe
            options other.family target place := by
      rintro order family rfl
      rw [family]
      exact ⟨call, _, ok, record, mem_set (List.getElem?_eq_some_iff.mp at_index).1 _,
        rfl, point,
        order, stores, .inl ⟨logged, inserted⟩⟩
    rcases mem_or_eq_of_mem_set member with old | new
    · by_cases same : other.family = call.family ∧ target = key
      · exact latest (counted ▸ (kept.places other place ok' old).le) same.1 same.2
      · apply (kept.safe other target place ok' old at_target).mono
        · exact fun _ _ _ => mem_update_of_returned at_index rfl _
        · intro later held _ _ in_log in_memory
          refine .inl ⟨in_log, ?_⟩
          refine (memtableRecord_insertMemtable _ _ _ _ _ _).trans ?_
          rw [if_neg, in_memory]
          rintro ⟨family, at_key⟩
          exact same ⟨family.symm, at_key.symm.trans own⟩
        · exact fun table member _ version => ⟨table, member, version⟩
    · cases new
      rw [point] at at_target
      exact latest le_rfl rfl (Option.some.inj at_target).symm

theorem Kept.installTable {clock : FlushClock} (named : cf ≠ "")
    (last : (system.core.memtablesOf cf).getLast? = some mem)
    (keeps : FlushKeepsWrites options clock cf system mem)
      (frame : Frame cf system.core core)
    (memtables : core.memtablesOf cf = (system.core.memtablesOf cf).dropLast)
      (store : core.store =
      { versions := system.core.store.versions.addTable cf
          (.withContents options.storage (flushName clock.now)
            (ByteMap.insertAll ∅ (combinedEntries clock mem.data)) 0)
        dir := system.core.store.dir.insert (flushName clock.now)
          (.table (ByteMap.insertAll ∅ (combinedEntries clock mem.data))) }) :
    Kept options { system with core } := by
  let contents := ByteMap.insertAll ∅ (combinedEntries clock mem.data)
  let flushed := Table.withContents options.storage (flushName clock.now) contents 0
  have dir : ∀ name, name ≠ flushName clock.now →
      core.store.dir[name]? = system.core.store.dir[name]? := by
    intro name other
    rw [store]
    dsimp only
    rw [NameMap.getElem?_insert, if_neg other.symm]
  have file : core.store.dir[flushName clock.now]? = some (.table contents) := by
    rw [store]
    dsimp only
    rw [NameMap.getElem?_insert, if_pos rfl]
  have versions : ∀ other, ∀ table ∈ system.core.store.versions.getTables other, ∀ key,
      table.version core.store.dir key = table.version system.core.store.dir key := by
    intro other table member key
    apply Table.version_congr
    intro path located
    apply dir
    rintro rfl
    exact kept.files other table member _ located keeps.unused
  have tables : core.store.versions.getTables cf =
      system.core.store.versions.getTables cf ++ [flushed] := by
    rw [store]
    exact getTables_addTable _ _ _
  refine ⟨?_, ?_, kept.named, ?_, kept.places, ?_⟩
  · intro other
    by_cases same : other = cf
    · subst same
      rw [memtables, length_dropLast]
      exact (Nat.sub_le _ _).trans (kept.single other)
    · exact (frame.memtables other same).symm ▸ kept.single other
  · intro other table member path located
    by_cases own : path = flushName clock.now
    · rw [own, file]
      exact Option.some_ne_none _
    · rw [dir path own]
      by_cases same : other = cf
      · subst same
        rw [tables] at member
        rcases mem_append.mp member with old | new
        · exact kept.files other table old path located
        · rw [mem_singleton.mp new] at located
          cases located
          exact absurd rfl own
      · rw [frame.tables other same] at member
        exact kept.files other table member path located
  · intro call member
    have apart := keeps.alone _ member rfl
    have logs := frame.logs call.family (logName_ne apart (kept.named _ member).1 named)
    dsimp only
    rw [logs]
    exact kept.appended call member
  · intro call key place ok member point
    refine (kept.safe call key place ok member point).mono (fun _ _ _ listed => listed) ?_ ?_
    · intro later record _ _ in_log in_memory
      by_cases same : call.family = cf
      · right
        rw [same] at in_memory ⊢
        refine ⟨flushed, ?_, ?_⟩
        · dsimp only
          rw [tables]
          exact mem_append_right _ (mem_singleton_self _)
        have held := (memtableRecord_of_single (kept.single cf) last key).2
        rw [in_memory] at held
        rw [Table.version_of_path rfl, Table.fileRecord_of_table rfl file]
        apply (ByteMap.getElem?_insertAll_empty keeps.flushable.sorted _ _).mpr
        exact mem_combinedEntries.mpr (.inl ⟨held.symm, keeps.lasting key record held.symm⟩)
      · left
        rw [frame.logs call.family (logName_ne same (kept.named _ member).1 named),
          memtableRecord,
          frame.memtables call.family same]
        exact ⟨in_log, in_memory⟩
    · intro table listed record version
      refine ⟨table, ?_, (versions _ table listed key).trans version⟩
      by_cases same : call.family = cf
      · rw [same] at listed ⊢
        rw [tables]
        exact mem_append_left _ listed
      · dsimp only
        rw [frame.tables call.family same]
        exact listed

theorem Kept.flush (clock : FlushClock) (cf : String)
    (safe : FlushLosesNothing options clock cf system) :
    Kept options
      { system with
        core := (system.core.flushMemtableImpl options clock cf).2 } := by
  obtain ⟨named, writes⟩ := safe
  have outcome := flushMemtableImpl_outcome options clock cf system.core
  have frame := frame_flushMemtableImpl options clock cf system.core
  generalize system.core.flushMemtableImpl options clock cf = result at outcome frame ⊢
  cases outcome with
  | idle _ => exact kept
  | synced _ _ _ =>
    exact kept.of_core _ (fun _ => rfl) (fun other => log_walHandle _ _ other) rfl
  | failed mem last nonempty error dir fails =>
    have flushed := (writes mem last nonempty).flushable.flushTable system.core.store.dir
    rw [flushed] at fails
    cases fails
  | uncounted mem last nonempty table dir done missing error
  | written mem last nonempty table dir done due =>
    have keeps := writes mem last nonempty
    rw [keeps.flushable.flushTable] at done
    cases done
    exact kept.installTable named last keeps frame
      ((memtablesOf_popMemtable _ cf cf).trans (if_pos rfl)) rfl

theorem Kept.insert (keeps : (WriterStep.insert index).KeepsWrites options system) :
    (system.step options (.insert index)).Kept options := by
  rw [step]
  split
  · next call at_index =>
    obtain ⟨key, point⟩ :=
      Option.ne_none_iff_exists'.mp (kept.named _ (mem_of_getElem? at_index)).2
    obtain ⟨record, stores, _⟩ := WriteCall.stored_point options point
    obtain ⟨clock, clocked, inserts⟩ := WriteCall.insert_point stores
    rw [inserts, insertRecord]
    dsimp only
    have inserted := kept.insertMemtable at_index stores rfl
    split
    · next full =>
      have safe := (keeps call record clock at_index stores clocked).2 full
      refine Kept.flush (inserted _) clock call.family ?_
      refine ⟨safe.1, fun mem last nonempty => ?_⟩
      obtain ⟨unused, flushable, legible, lasting, alone⟩ := safe.2 mem last nonempty
      refine ⟨unused, flushable, legible, lasting, ?_⟩
      intro writer member waits
      refine alone writer (mem_set_of_mem_set member ?_) waits
      rintro rfl
      cases waits
    · exact inserted true
  · exact kept

theorem Kept.step {step : WriterStep} (keeps : step.KeepsWrites options system) :
    (system.step options step).Kept options := by
  cases step with
  | start call => exact kept.start keeps.1 keeps.2
  | append index => exact kept.append index
  | insert index => exact kept.insert keeps
  | flush clock cf => exact kept.flush clock cf keeps
  | setBatch | deleteBatch | commit => cases keeps

end WriterSystem

/-- Whatever the interleaving, every record whose call has returned `Ok`, or a
later one of the same key, is in the log or in a table, if at every flush that
writes no other writer of the family is between its append and its insert, no
record has expired, the builder accepts the records and can write their
lengths, and the name of the file is new. -/
theorem returned_writes_are_durable {options : EngineOptions}
    {steps : List WriterStep}
    (run : Guarded (WriterSystem.step options)
      (WriterStep.KeepsWrites options) { core := .empty, writers := [] }
      steps) :
    let reached := steps.foldl (WriterSystem.step options)
      { core := .empty, writers := [] }
    ∀ call key place,
      ({ call, phase := .returned place true } : Writer) ∈ reached.writers →
      call.target = some key →
      reached.Durable options call.family key place := by
  intro reached call key place member point
  have initial : WriterSystem.Kept options
      { core := .empty, writers := [] } := by
    refine ⟨?_, ?_, by simp, by simp, by simp, by simp⟩
    · intro cf
      simp [memtablesOf, empty]
    · intro cf table listed
      simp [empty, TableState.empty, VersionSet.new, getTables] at listed
  have kept : reached.Kept options :=
    run.invariant (fun system _ held keeps => held.step keeps) initial
  exact kept.durable member point

/-- A put, a flush of it, and a second put that begins to be written only
afterwards. -/
theorem returned_write_is_durable_after_flush :
    let options := EngineOptions.default
    let first := WriteCall.put (.instant 1) "default" [1] [10] none
    let second := WriteCall.put (.instant 3) "default" [2] [20] none
    let steps := [WriterStep.start first, .append 0, .start second, .insert 0,
      .flush { now := 2, stamp := fun _ => 2 } "default", .append 1]
    let reached := steps.foldl (WriterSystem.step options)
      { core := .empty, writers := [] }
    reached.Durable options "default" [1] 0 := by
  intro options first second steps reached
  let record := putRecord options (.instant 1) "default" [1] [10] none
  let before := (steps.take 3).foldl (WriterSystem.step options)
    { core := .empty, writers := [] }
  have inserted : before.step options (.insert 0) = before.update 0
      { call := first, phase := .returned 0 true }
      (before.core.insertMemtable "default" record 2) := by
    rfl
  have memtables : (before.core.insertMemtable "default" record 2).memtablesOf "default" =
        [{ data := (∅ : ByteMap LogRecord).insert [1] record
           rangeTombstones := [] }] := by
    refine (memtablesOf_updateMemtable before.core "default" "default" _).trans ?_
    rw [if_pos rfl]
    rfl
  have run : Guarded (WriterSystem.step options)
      (WriterStep.KeepsWrites options) { core := .empty, writers := [] }
      steps := by
    refine ⟨⟨by simp [first, WriteCall.target], by decide⟩, trivial,
      ⟨by simp [second, WriteCall.target], by decide⟩, ?_, ?_⟩
    · intro call stored clock at_zero stores _
      cases at_zero
      cases stores
      exact ⟨fun full => absurd full (by decide +kernel),
        fun full => absurd full (by decide +kernel)⟩
    · change Guarded _ _ (before.step options (.insert 0)) _
      rw [inserted]
      refine ⟨⟨by decide, ?_⟩, trivial, trivial⟩
      intro mem last _
      rw [WriterSystem.update, memtables] at last
      cases last
      have flushable : Flushable options.storage { now := 2, stamp := fun _ => 2 }
          ((∅ : ByteMap LogRecord).insert [1] record) :=
        flushable_single _ rfl (by decide +kernel)
      refine ⟨by decide +kernel, flushable, fun entry member =>
        SstableBuilder.legible_of_entryFits (by decide) (flushable.fits entry member),
          ?_, ?_⟩
      · intro key stored held
        change ((∅ : ByteMap LogRecord).insert [1] record)[key]? = some stored at held
        rw [ByteMap.getElem?_insert] at held
        split at held
        · cases held
          rfl
        · simp at held
      · intro writer member waits
        have writers : writer ∈ [ ({ call := first, phase := .returned 0 true } : Writer),
            { call := second, phase := .opened }] := member
        simp only [mem_cons, not_mem_nil, or_false] at writers
        rcases writers with rfl | rfl <;> cases waits
  apply returned_writes_are_durable run first [1] 0 _ rfl
  have last : reached = ((before.step options (.insert 0)).step options
      (.flush { now := 2, stamp := fun _ => 2 } "default")).step options (.append 1) := rfl
  change _ ∈ reached.writers
  rw [last, inserted]
  exact mem_cons_self

/-- Writer 0 has appended its record when writer 1 runs to its end and the
memtable is flushed.  The flush clears the log, and writer 0 returns with its
record in the memtable alone. -/
theorem flush_loses_concurrent_write :
    let options := EngineOptions.default
    let lost := WriteCall.put (.instant 1) "default" [1] [10] none
    let steps := [WriterStep.start lost, .append 0,
      .start (.put (.instant 2) "default" [2] [20] none), .append 1, .insert 1,
      .flush { now := 3, stamp := fun _ => 3 } "default", .insert 0]
    let reached := steps.foldl (WriterSystem.step options)
      { core := .empty, writers := [] }
    ({ call := lost, phase := .returned 1 true } : Writer) ∈ reached.writers ∧
      ¬ reached.Durable options "default" [1] 1 := by
  intro options lost steps reached
  constructor
  · let flushed := (steps.take 6).foldl (WriterSystem.step options)
      { core := .empty, writers := [] }
    have waiting : flushed.writers[0]? = some { call := lost, phase := .appended } := rfl
    have ok : (lost.insert options flushed.core).1.isOk = true := by decide +kernel
    have last : reached = flushed.step options (.insert 0) := rfl
    rw [last, WriterSystem.step_insert waiting, ok]
    exact mem_set (List.getElem?_eq_some_iff.mp waiting).1 _
  · rintro ⟨call, place, ok, record, _, _, _, _, _, held⟩
    have log : reached.core.log "default" = [] := by decide +kernel
    have tables : (reached.core.store.versions.getTables "default").all
        (fun table => (table.version reached.core.store.dir [1]).isNone) =
          true := by decide +kernel
    rcases held with logged | ⟨table, member, version⟩
    · rw [log] at logged
      cases logged
    · have missing := all_eq_true.mp tables table member
      rw [version] at missing
      cases missing

end ApexStore
