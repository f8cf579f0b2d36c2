import ApexStore.Engine.Restart

/-!
# Concurrent writers

A put, a delete and a range delete take the lock twice: to get the log's
handle and to change the memory of the engine.  In between they append to the
log without it.  Flushes, batches and commits keep the lock all the time.
-/

namespace ApexStore

open EngineCore LogRecord

inductive WriteCall where
  | put (context : WriteContext) (cf : String) (key value : Bytes) (ttl : Option Nanos)
  | delete (context : WriteContext) (cf : String) (key : Bytes)
  | deleteRange (timestamp logged : Nanos) (nonce : Nonce) (cf : String) (start stop : Bytes)

namespace WriteCall

variable (options : EngineOptions)

def family : WriteCall → String
  | put _ cf _ _ _ => cf
  | delete _ cf _ => cf
  | deleteRange _ _ _ cf _ _ => cf

def target : WriteCall → Option Bytes
  | put _ _ key _ _ => some key
  | delete _ _ key => some key
  | deleteRange .. => none

def range : WriteCall → Option RangeTombstone
  | deleteRange timestamp _ _ _ start stop =>
    some { startKey := start, endKey := stop, timestamp }
  | _ => none

/-- The sizes are checked before anything else happens. -/
def accepted : WriteCall → Bool
  | put _ _ key value _ => (checkSizes key value).isOk
  | _ => true

def entry : WriteCall → WalEntry
  | put context cf key value ttl =>
    { nonce := context.nonce
      record := putRecord options context cf key value ttl }
  | delete context cf key =>
    { nonce := context.nonce
      record :=
        { tombstone context.created key with
          columnFamily := some cf } }
  | deleteRange _ logged nonce cf start stop =>
    { nonce
      record :=
        { rangeTombstone logged start stop with
          columnFamily := some cf } }

/-- The record a point write puts into the memtable. -/
def stored : WriteCall → Option LogRecord
  | put context cf key value ttl =>
    some (putRecord options context cf key value ttl)
  | delete context _ key => some (tombstone context.inserted key)
  | deleteRange .. => none

/-- By how much the write adds to the size of the memtable. -/
def size : WriteCall → Nat
  | put _ _ key value _ => key.length + value.length
  | delete _ _ key => key.length
  | deleteRange .. => 0

/-- The clock readings of the flush a point write may end with. -/
def flushClock : WriteCall → Option FlushClock
  | put context _ _ _ _ => some context.flush
  | delete context _ _ => some context.flush
  | deleteRange .. => none

def insert : WriteCall → EngineCore → Except LsmError Bool × EngineCore
  | put context cf key value ttl, core =>
    core.insertRecord options context.flush cf
      (putRecord options context cf key value ttl)
      (key.length + value.length)
  | delete context cf key, core =>
    core.insertRecord options context.flush cf
      (tombstone context.inserted key) key.length
  | deleteRange timestamp _ _ cf start stop, core =>
    (.ok false, core.insertRange cf
      { startKey := start, endKey := stop, timestamp })

end WriteCall

/-- The identity of the record of a put: the TTL changes nothing but the
expiry. -/
theorem EngineCore.putRecord_fields (options : EngineOptions)
    (context : WriteContext) (cf : String) (key value : Bytes) (ttl : Option Nanos) :
    let record := putRecord options context cf key value ttl
    record.key = key ∧ record.value = value ∧
      record.timestamp = context.created ∧ record.isDeleted = false ∧
      record.columnFamily = some cf ∧ record.isRangeTombstone = false := by
  intro record
  simp only [record, putRecord]
  cases ttl with
  | some ttl => exact ⟨rfl, rfl, rfl, rfl, rfl, rfl⟩
  | none =>
    cases options.defaultTtl with
    | none | some defaultTtl => exact ⟨rfl, rfl, rfl, rfl, rfl, rfl⟩

namespace WriteCall

theorem entry_family (options : EngineOptions) (call : WriteCall) :
    (call.entry options).record.family = call.family := by
  cases call with
  | put context cf key value ttl =>
    have fields := putRecord_fields options context cf key value ttl
    simp [entry, LogRecord.family, fields.2.2.2.2.1, family]
  | delete => rfl
  | deleteRange => rfl

variable {call : WriteCall}

variable {key : Bytes}

theorem entry_point (options : EngineOptions) (point : call.target = some key) :
    (call.entry options).record.isRangeTombstone = false ∧
      (call.entry options).record.pointKey = (call.family, key) := by
  have family := entry_family options call
  cases call with
  | put context cf key' value ttl =>
    cases point
    have fields := putRecord_fields options context cf key value ttl
    exact ⟨fields.2.2.2.2.2, Prod.ext family fields.1⟩
  | delete context cf key' =>
    cases point
    exact ⟨rfl, rfl⟩
  | deleteRange => cases point

theorem stored_point (options : EngineOptions) (point : call.target = some key) :
    ∃ record, call.stored options = some record ∧ record.key = key := by
  cases call with
  | put context cf key' value ttl =>
    cases point
    exact ⟨_, rfl, (putRecord_fields options context cf key value ttl).1⟩
  | delete context cf key' =>
    cases point
    exact ⟨_, rfl, rfl⟩
  | deleteRange => cases point

theorem insert_point {options : EngineOptions} {record : LogRecord}
    (stores : call.stored options = some record) :
    ∃ clock, call.flushClock = some clock ∧ ∀ core,
      call.insert options core =
        core.insertRecord options clock call.family record call.size := by
  cases call with
  | put context cf key value ttl | delete context cf key =>
    cases stores
    exact ⟨context.flush, rfl, fun _ => rfl⟩
  | deleteRange => cases stores

theorem exists_range (no_point : call.target = none) :
    ∃ range, call.range = some range ∧ ∀ options core, call.insert options core =
        (.ok false, core.insertRange call.family range) := by
  cases call with
  | put | delete => cases no_point
  | deleteRange timestamp logged nonce cf start stop =>
    exact ⟨_, rfl, fun _ _ => rfl⟩

theorem frame_insert (options : EngineOptions) (call : WriteCall) (core : EngineCore) :
    EngineCore.Frame call.family core (call.insert options core).2 := by
  cases point : call.target with
  | some key =>
    obtain ⟨record, stores, _⟩ := stored_point options point
    obtain ⟨clock, _, inserts⟩ := insert_point stores
    rw [inserts]
    exact frame_insertRecord options clock call.family record call.size core
  | none =>
    obtain ⟨range, _, inserts⟩ := exists_range point
    rw [inserts]
    exact (frame_addRange core call.family range).trans
      (frame_updateMemtable _ call.family _)

end WriteCall

inductive WriterPhase where
  /-- Has the handle of the log. -/
  | opened
  /-- The record is in the log. -/
  | appended
  /-- The call has returned, as the `place`-th one. -/
  | returned (place : Nat) (ok : Bool)

structure Writer where
  call : WriteCall
  phase : WriterPhase

structure WriterSystem where
  core : EngineCore
  writers : List Writer

/-- The atomic steps. -/
inductive WriterStep where
  | start (call : WriteCall)
  | append (index : Nat)
  | insert (index : Nat)
  | flush (clock : FlushClock) (cf : String)
  | setBatch (clock : FlushClock) (cf : String) (items : List (BatchStamp × Bytes × Bytes))
  | deleteBatch (clock : FlushClock) (cf : String) (keys : List (BatchStamp × Bytes))
  | commit (context : CommitContext) (txn : Transaction)

def Writer.hasReturned (writer : Writer) : Bool :=
  match writer.phase with
  | .returned _ _ => true
  | _ => false

variable {α : Type} {index : Nat}

theorem mem_set_of_ne {items : List α} {item replacement : α} (member : item ∈ items)
    (other : items[index]? ≠ some item) : item ∈ items.set index replacement := by
  obtain ⟨place, at_place⟩ := List.mem_iff_getElem?.mp member
  apply List.mem_iff_getElem?.mpr
  refine ⟨place, ?_⟩
  rw [List.getElem?_set_ne, at_place]
  rintro rfl
  exact other at_place

theorem mem_set_of_mem_set {items : List α} {item replacement other : α}
    (member : item ∈ items.set index replacement) (apart : item ≠ replacement) :
    item ∈ items.set index other := by
  obtain ⟨place, at_place⟩ := List.mem_iff_getElem?.mp member
  apply List.mem_iff_getElem?.mpr
  refine ⟨place, ?_⟩
  by_cases here : index = place
  · subst here
    rw [List.getElem?_set] at at_place
    split at at_place
    · split at at_place
      · cases at_place
        exact absurd rfl apart
      · cases at_place
    · next elsewhere => exact absurd rfl elsewhere
  · rw [List.getElem?_set_ne here] at at_place ⊢
    exact at_place

namespace WriterSystem

def update (system : WriterSystem) (index : Nat) (writer : Writer)
    (core : EngineCore) : WriterSystem :=
  { core, writers := system.writers.set index writer }

def step (options : EngineOptions) (system : WriterSystem) : WriterStep → WriterSystem
  | .start call =>
    if call.accepted then
      { core := system.core.walHandle call.family
        writers := system.writers ++ [{ call, phase := .opened }] }
    else system
  | .append index =>
    match system.writers[index]? with
    | some { call, phase := .opened } =>
      system.update index { call, phase := .appended }
        (system.core.writeRecord call.family (call.entry options))
    | _ => system
  | .insert index =>
    match system.writers[index]? with
    | some { call, phase := .appended } =>
      let (result, core) := call.insert options system.core
      let place := system.writers.countP (·.hasReturned)
      system.update index
        { call, phase := .returned place result.isOk } core
    | _ => system
  | .flush clock cf =>
    { system with core := (system.core.flushMemtableImpl options clock cf).2 }
  | .setBatch clock cf items =>
    { system with core := (system.core.setBatchCf options clock cf items).2 }
  | .deleteBatch clock cf keys =>
    { system with core := (system.core.deleteBatchCf options clock cf keys).2 }
  | .commit context txn =>
    { system with core := (txn.commit options context system.core).2.2 }

theorem step_insert {options : EngineOptions} {system : WriterSystem}
    {index : Nat} {call : WriteCall}
    (at_index : system.writers[index]? = some { call, phase := .appended }) :
    system.step options (.insert index) = system.update index
        { call, phase := .returned (system.writers.countP (·.hasReturned))
            (call.insert options system.core).1.isOk }
        (call.insert options system.core).2 := by
  rw [step, at_index]

end WriterSystem

/-! ## The calls as a whole -/

namespace EngineCore

variable (options : EngineOptions) (core : EngineCore)

/-- A call by itself: its two steps after the handle of the log is there. -/
def runCall (call : WriteCall) : Except LsmError Bool × EngineCore :=
  call.insert options
    ((core.walHandle call.family).writeRecord call.family (call.entry options))

theorem putCf_eq_runCall (context : WriteContext) (cf : String)
    (key value : Bytes) (ttl : Option Nanos)
    (accepted : checkSizes key value = .ok ()) :
    core.putCf options context cf key value ttl =
      core.runCall options (.put context cf key value ttl) := by
  rw [putCf, accepted]
  rfl

theorem deleteRangeCf_eq_runCall (timestamp logged : Nanos) (nonce : Nonce)
    (cf : String) (start stop : Bytes) :
    core.deleteRangeCf timestamp logged nonce cf start stop =
      (core.runCall options
        (.deleteRange timestamp logged nonce cf start stop)).2 := rfl

theorem deleteCf_eq_runCall (context : WriteContext) (cf : String) (key : Bytes) :
    let call := WriteCall.delete context cf key
    ∃ keys, (core.deleteCf options context cf key).2 =
      (core.runCall options call).2.readAll context.read cf keys := by
  intro call
  have ran : ∃ result after, core.runCall options call = (result, after) := ⟨_, _, rfl⟩
  obtain ⟨result, after, ran⟩ := ran
  have inserted : ((core.walHandle cf).writeRecord cf
      (call.entry options)).insertRecord options context.flush cf
        (tombstone context.inserted key) key.length = (result, after) := ran
  unfold deleteCf
  dsimp only
  have entry : call.entry options = (⟨context.nonce,
      { tombstone context.created key with
        columnFamily := some cf }⟩ : WalEntry) := rfl
  rw [← entry, inserted, ran]
  cases result with
  | error error => exact ⟨[], rfl⟩
  | ok due =>
    dsimp only
    obtain ⟨keys, _, _, first⟩ := getCf_reads context.read cf key after
    generalize after.getCf context.read cf key = found at first ⊢
    obtain ⟨answer, read⟩ := found
    obtain ⟨more, _, _, second⟩ := getCf_reads context.read cf (ttlKey key) read
    dsimp only at first
    rw [first, readAll_append] at second
    split
    · next same =>
      cases same
      exact ⟨keys, first⟩
    · next same =>
      cases same
      exact ⟨keys ++ more, by rw [first]; exact second⟩

end EngineCore

end ApexStore
