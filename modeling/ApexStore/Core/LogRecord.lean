import ApexStore.Library.ByteOrder

/-!
# Log records, range tombstones and errors

`LogRecord` is the unit stored in the write-ahead log, the memtable and the
SSTables.  Clock readings are explicit arguments: wherever the source calls
`SystemTime::now()`, the model takes the reading (nanoseconds since the epoch).
-/

namespace ApexStore

/-- The errors of `infra::error::LsmError` raised by the modelled code. -/
inductive LsmError where
  | invalidArgument (message : String)
  | invalidSstableFormat (message : String)
  | corruptedData (message : String)
  | compactionFailed (message : String)
  | codec
  | encryptionKeyRequired
  | encryptionAuthenticationFailed
  | legacyEncryptionMigrationRequired
  | io
  deriving DecidableEq, Repr

theorem exists_of_isOk {α β : Type*} {result : Except LsmError α × β}
    (works : result.1.isOk = true) : ∃ value state, result = (.ok value, state) := by
  obtain ⟨outcome, state⟩ := result
  cases outcome with
  | error error => cases works
  | ok value => exact ⟨value, state, rfl⟩

/-- A `u128` number of nanoseconds: a clock reading or a duration. -/
abbrev Nanos := Fin (2 ^ 128)

instance nanosNeZero : NeZero (2 ^ 128 : Nat) := inferInstance

/-- `u128::saturating_add`. -/
def Nanos.saturatingAdd (left right : Nanos) : Nanos :=
  ⟨min (left.val + right.val) (2 ^ 128 - 1), by omega⟩

structure LogRecord where
  key : Bytes
  value : Bytes
  timestamp : Nanos
  isDeleted : Bool
  columnFamily : Option String
  /-- Nanosecond instant from which the key counts as absent. -/
  expiresAt : Option Nanos
  rangeStart : Option Bytes
  rangeEnd : Option Bytes
  deriving DecidableEq, Repr

namespace LogRecord

def new (now : Nanos) (key value : Bytes) : LogRecord :=
  { key, value, timestamp := now, isDeleted := false, columnFamily := none
    expiresAt := none, rangeStart := none, rangeEnd := none }

def tombstone (now : Nanos) (key : Bytes) : LogRecord :=
  { key, value := [], timestamp := now, isDeleted := true, columnFamily := none
    expiresAt := none, rangeStart := none, rangeEnd := none }

def newWithTtl (now : Nanos) (key value : Bytes) (ttl : Nanos) : LogRecord :=
  { key, value, timestamp := now, isDeleted := false, columnFamily := none
    expiresAt := some (now.saturatingAdd ttl), rangeStart := none
    rangeEnd := none }

/-- The record logged for a range deletion of `[start, stop)`. -/
def rangeTombstone (now : Nanos) (start stop : Bytes) : LogRecord :=
  { key := start, value := [], timestamp := now, isDeleted := true
    columnFamily := none, expiresAt := none, rangeStart := some start
    rangeEnd := some stop }

def isExpiredAt (record : LogRecord) (now : Nanos) : Bool :=
  match record.expiresAt with
  | some expiry => decide (expiry ≤ now)
  | none => false

def isRangeTombstone (record : LogRecord) : Bool :=
  record.rangeStart.isSome && record.rangeEnd.isSome

/-- The family a replayed record belongs to: `"default"` when none is named. -/
def family (record : LogRecord) : String :=
  record.columnFamily.getD "default"

variable {record : LogRecord}

theorem isExpiredAt_of_none {now : Nanos} (permanent : record.expiresAt = none) :
    record.isExpiredAt now = false := by
  simp [isExpiredAt, permanent]

theorem isExpiredAt_mono {earlier later : Nanos} (order : earlier ≤ later)
    (expired : record.isExpiredAt earlier = true) :
    record.isExpiredAt later = true := by
  unfold isExpiredAt at expired ⊢
  cases expiry : record.expiresAt with
  | none => simp [expiry] at expired
  | some instant =>
    simp only [expiry, decide_eq_true_eq] at expired ⊢
    exact expired.trans order

end LogRecord

/-- A range of deleted keys `[startKey, endKey)`. -/
structure RangeTombstone where
  startKey : Bytes
  endKey : Bytes
  timestamp : Nanos
  deriving DecidableEq, Repr

def RangeTombstone.covers (range : RangeTombstone) (key : Bytes) : Bool :=
  decide (range.startKey ≤ key) && decide (key < range.endKey)

/-- Timestamp of the newest range tombstone of a list that covers `key`. -/
def maxCovering (ranges : List RangeTombstone) (key : Bytes) : Option Nanos :=
  ((ranges.filter (·.covers key)).map (·.timestamp)).max?

end ApexStore
