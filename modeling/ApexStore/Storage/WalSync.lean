import ApexStore.Library.Runs

/-!
# Batched fsync

`write_record` calls fsync every `sync_interval` times, `write_batch` and
`sync` do so each time.  A record is exposed if its call has returned `Ok` and
no fsync has succeeded since.  `batch_count` bounds the exposed records unless
`write_record` resets it for an fsync that then fails.
-/

namespace ApexStore

/-- How a call ends: `Ok` after an fsync, `Ok` without one, or `Err`. -/
inductive SyncOutcome where
  | synced
  | buffered
  | failed

namespace WriteAheadLog

/-- What `write_record` does to `batch_count`; `fsync` says if `sync_all` works. -/
def recordCount (interval : Nat) (fsync : Bool) (count : Nat) : SyncOutcome × Nat :=
  if interval ≤ count + 1 then
    -- reset before the fsync, whatever comes of it
    (if fsync then .synced else .failed, 0)
  else (.buffered, count + 1)

/-- What `sync` does to it. -/
def syncCount (fsync : Bool) (count : Nat) : SyncOutcome × Nat :=
  if fsync then (.synced, 0) else (.failed, count)

/-- What `write_batch` does to it. -/
def batchCount {Record : Type} (records : List Record) (fsync : Bool) (count : Nat) :
    SyncOutcome × Nat :=
  if records.isEmpty then (.buffered, count) else syncCount fsync count

end WriteAheadLog

/-- `batch_count` and the exposed records. -/
structure SyncWindow (Record : Type) where
  count : Nat
  exposed : List Record

inductive SyncCall (Record : Type) where
  | writeRecord (record : Record) (fsync : Bool)
  | writeBatch (records : List Record) (fsync : Bool)
  | sync (fsync : Bool)

namespace SyncWindow

variable {Record : Type} {interval : Nat} {window : SyncWindow Record}

def new : SyncWindow Record := { count := 0, exposed := [] }

/-- The window after a call that had these records to write. -/
def after (window : SyncWindow Record) (records : List Record) :
    SyncOutcome × Nat → SyncWindow Record
  | (.synced, count) => { count, exposed := [] }
  | (.buffered, count) => { count, exposed := window.exposed ++ records }
  | (.failed, count) => { count, exposed := window.exposed }

/-- A call holds the lock of the file from its first write to its fsync. -/
def step (interval : Nat) (window : SyncWindow Record) :
    SyncCall Record → SyncWindow Record
  | .writeRecord record fsync =>
    window.after [record] (WriteAheadLog.recordCount interval fsync window.count)
  | .writeBatch records fsync =>
    window.after records (WriteAheadLog.batchCount records fsync window.count)
  | .sync fsync => window.after [] (WriteAheadLog.syncCount fsync window.count)

/-- If the fsync that is due in a `write_record` fails, nothing is exposed. -/
def KeepsCount (interval : Nat) (window : SyncWindow Record) : SyncCall Record → Prop
  | .writeRecord _ false => interval ≤ window.count + 1 → window.exposed = []
  | _ => True

/-- The count bounds the exposed records, and the interval the count. -/
structure Bounded (interval : Nat) (window : SyncWindow Record) : Prop where
  counted : window.exposed.length ≤ window.count
  below : window.count < interval

theorem Bounded.synced (positive : 1 ≤ interval) :
    Bounded interval ({ count := 0, exposed := [] } : SyncWindow Record) where
  counted := Nat.le_refl 0
  below := positive

theorem Bounded.sync (positive : 1 ≤ interval) (bounded : window.Bounded interval)
    (records : List Record) (fsync : Bool) :
    (window.after records
      (WriteAheadLog.syncCount fsync window.count)).Bounded interval := by
  cases fsync with
  | true => exact .synced positive
  | false => exact ⟨bounded.counted, bounded.below⟩

theorem Bounded.step (positive : 1 ≤ interval) (bounded : window.Bounded interval)
    {call : SyncCall Record} (keeps : window.KeepsCount interval call) :
    (window.step interval call).Bounded interval := by
  cases call with
  | sync fsync => exact bounded.sync positive [] fsync
  | writeBatch records fsync =>
    rw [SyncWindow.step, WriteAheadLog.batchCount]
    split
    · next empty =>
      rw [List.isEmpty_iff.mp empty, after, List.append_nil]
      exact bounded
    · exact bounded.sync positive records fsync
  | writeRecord record fsync =>
    rw [SyncWindow.step, WriteAheadLog.recordCount]
    split
    · next due =>
      cases fsync with
      | true => exact .synced positive
      | false =>
        have nothing : window.exposed = [] := keeps due
        rw [if_neg Bool.false_ne_true, after, nothing]
        exact .synced positive
    · next early =>
      refine ⟨?_, Nat.lt_of_not_le early⟩
      rw [after, List.length_append]
      exact Nat.add_le_add_right bounded.counted 1

/-- Fewer records than the interval are exposed wherever a run gets in which no
due fsync of a `write_record` fails while records are exposed. -/
theorem durability_window_is_bounded (positive : 1 ≤ interval)
    {calls : List (SyncCall Record)}
    (run : Guarded (step interval) (KeepsCount interval) new calls) :
    (calls.foldl (step interval) new).exposed.length < interval := by
  have bounded := Guarded.invariant
    (fun _ _ (bounded : Bounded interval _) keeps => bounded.step positive keeps) run
    (.synced positive)
  exact Nat.lt_of_le_of_lt bounded.counted bounded.below

/-- A batch fails while two records are exposed. -/
theorem durability_window_with_failed_batch :
    let calls : List (SyncCall Nat) := [.writeRecord 1 true, .writeRecord 2 true,
      .writeBatch [3] false, .writeRecord 4 true]
    (calls.foldl (step 4) new).exposed.length < 4 :=
  durability_window_is_bounded (by decide) ⟨trivial, trivial, trivial, trivial, trivial⟩

/-- The fsync for the second record fails: its call returns `Err`, but the
first record stays exposed while the count starts again. -/
theorem failed_fsync_widens_window :
    let calls : List (SyncCall Nat) := [.writeRecord 1 true, .writeRecord 2 false,
      .writeRecord 3 true]
    ¬ (calls.foldl (step 2) new).exposed.length < 2 := by decide

end SyncWindow

end ApexStore
