import ApexStore.Engine.Transaction

/-!
# Reads of a transaction

`Transaction::get_cf` looks into the write buffer and, for a key that is not
in it, goes through the memtables, the tables and the TTL entry in code of its
own.  It answers what the engine answers, and leaves the engine in the same
state (`transaction_reads_refine_engine_reads`).
-/

namespace ApexStore

open VersionSet EngineCore Option

namespace Transaction

def buffered (txn : Transaction) (cf : String) (key : Bytes) : Option TxnWrite :=
  txn.writes[cf]?.bind (·[key]?)

def rollback (_ : Transaction) : Transaction := { writes := ∅ }

/-- The loop over the memtables, newest first; `none` when no memtable has the
key. -/
def searchMemtables (covering : Option Nanos) (now : Nanos) (key : Bytes) :
    List MemTable → Option (Option Bytes)
  | [] => none
  | mem :: older =>
    match mem.data[key]? with
    | none => searchMemtables covering now key older
    | some record =>
      if covering.any (fun timestamp =>
          decide (timestamp > record.timestamp)) then some none
      else if record.isDeleted then some none
      else if record.isExpiredAt now then some none
      else some (some record.value)

/-- The lookup of a key that is in no memtable. -/
def searchTables (covering : Option Nanos) (now : Nanos) (cf : String)
    (key : Bytes) (store : TableState) : Except LsmError (Option Bytes) × TableState :=
  match covering with
  | none =>
    let (value, versions) := store.versions.get store.dir now cf key
    (.ok value, { store with versions })
  | some tombstone =>
    (match store.versions.getRecord store.dir cf key with
      | .error error => .error error
      | .ok none => .ok none
      | .ok (some record) =>
        .ok (if !record.isDeleted && !record.isExpiredAt now &&
            decide (record.timestamp ≥ tombstone) then some record.value
          else none),
      store)

/-- The expiry under the TTL key of a value found in a table; an entry of
another length than 16 is no expiry. -/
def checkSideTable (now : Nanos) (cf : String) (key value : Bytes)
    (store : TableState) : Option Bytes × TableState :=
  let (ttlValue, versions) := store.versions.get store.dir now cf (ttlKey key)
  let result :=
    match ttlValue with
    | some bytes =>
      if bytes.length = 16 then
        if now.val ≥ leNat bytes then none else some value
      else some value
    | none => some value
  (result, { store with versions })

def getCf (now : Nanos) (cf : String) (key : Bytes) (txn : Transaction)
    (core : EngineCore) : Except LsmError (Option Bytes) × EngineCore :=
  match txn.buffered cf key with
  | some write =>
    (.ok (if write.isDeleted then none else some write.value), core)
  | none =>
    let covering := core.coveringRangeTombstoneTs cf key
    match searchMemtables covering now key
        (core.memtablesOf cf).reverse with
    | some answer => (.ok answer, core)
    | none =>
      match searchTables covering now cf key core.store with
      | (.error error, store) => (.error error, { core with store })
      | (.ok none, store) => (.ok none, { core with store })
      | (.ok (some value), store) =>
        let (result, store) := checkSideTable now cf key value store
        (.ok result, { core with store })

/-! ## The buffer -/

theorem buffered_begin (cf : String) (key : Bytes) : begin.buffered cf key = none := by
  simp [buffered, begin]

theorem buffered_buffer (txn : Transaction) (cf other : String) (key target : Bytes)
    (write : TxnWrite) : (txn.buffer cf key write).buffered other target =
      if cf = other ∧ key = target then some write else txn.buffered other target := by
  rw [buffered, buffer, NameMap.getElem?_insert]
  by_cases family : cf = other
  · subst family
    rw [if_pos rfl, bind_some, ByteMap.getElem?_insert]
    by_cases here : key = target
    · rw [if_pos here, if_pos ⟨rfl, here⟩]
    · rw [if_neg here, if_neg (fun same => here same.2), buffered]
      cases txn.writes[cf]? with
      | none => simp
      | some entries => rfl
  · rw [if_neg family, if_neg (fun same => family same.1), buffered]

theorem buffered_commit (options : EngineOptions) (context : CommitContext)
    (txn : Transaction) (core : EngineCore) (cf : String) (key : Bytes) :
    (txn.commit options context core).2.1.buffered cf key = none := by
  unfold commit
  split
  · next empty =>
    have unwritten : txn.writes = ∅ := Std.ExtTreeMap.isEmpty_iff.mp empty
    rw [buffered, unwritten, Std.ExtTreeMap.getElem?_empty, bind_none]
  · exact buffered_begin cf key

/-! ## The copy of the engine's search -/

theorem searchMemtables_eq (covering : Option Nanos) (now : Nanos)
    (key : Bytes) (memtables : List MemTable) :
    searchMemtables covering now key memtables =
      (memtables.findSome? (·.data[key]?)).map
        (EngineCore.memtableAnswer covering now) := by
  induction memtables with
  | nil => rfl
  | cons mem older ih =>
    rw [searchMemtables, List.findSome?_cons]
    cases mem.data[key]? with
    | none => exact ih
    | some record =>
      dsimp only
      rw [map_some, memtableAnswer]
      split
      · rfl
      split
      · rfl
      split
      · rfl
      · rfl

theorem searchTables_eq (covering : Option Nanos) (now : Nanos)
    (cf : String) (key : Bytes) (store : TableState) :
    searchTables covering now cf key store =
      EngineCore.lookupTables covering now cf key store := by
  cases covering with
  | none => rfl
  | some tombstone =>
    rw [searchTables, lookupTables]
    cases store.versions.getRecord store.dir cf key with
    | error error => rfl
    | ok found =>
      cases found with
      | none => rfl
      | some record =>
        dsimp only
        rw [filter_some]
        split
        · rfl
        · rfl

theorem checkSideTable_eq (now : Nanos) (cf : String) (key value : Bytes)
    (store : TableState) :
    checkSideTable now cf key value store =
      EngineCore.checkTtl now cf key value store := by
  rw [checkSideTable, checkTtl]
  generalize store.versions.get store.dir now cf (ttlKey key) = result
  obtain ⟨ttlValue, versions⟩ := result
  cases ttlValue with
  | none => rfl
  | some bytes =>
    by_cases width : bytes.length = 16
    · by_cases expired : leNat bytes ≤ now.val
      · simp [width]
      · simp [width]
    · simp [width]

variable {txn : Transaction} {cf : String} {key : Bytes}

theorem getCf_of_unbuffered (free : txn.buffered cf key = none) (now : Nanos)
    (core : EngineCore) :
    txn.getCf now cf key core = core.getCf now cf key := by
  rw [getCf, free, EngineCore.getCf]
  dsimp only
  rw [searchMemtables_eq, ← memtableRecord]
  cases core.memtableRecord cf key with
  | some record => rfl
  | none =>
    dsimp only [map_none]
    rw [searchTables_eq]
    generalize lookupTables _ now cf key core.store = result
    obtain ⟨outcome, store⟩ := result
    cases outcome with
    | error error => rfl
    | ok found =>
      cases found with
      | none => rfl
      | some value =>
        dsimp only
        rw [checkSideTable_eq]

theorem getCf_of_buffered {write : TxnWrite} (held : txn.buffered cf key = some write)
    (now : Nanos) (core : EngineCore) : txn.getCf now cf key core =
      (.ok (if write.isDeleted then none else some write.value), core) := by
  rw [getCf, held]

end Transaction

/-- The calls that change a transaction. -/
inductive TxnCall where
  | put (cf : String) (key value : Bytes)
  | delete (cf : String) (key : Bytes)
  | rollback
  | commit (options : EngineOptions) (context : CommitContext) (core : EngineCore)

namespace TxnCall

def step (txn : Transaction) : TxnCall → Transaction
  | put cf key value => txn.putCf cf key value
  | delete cf key => txn.deleteCf cf key
  | rollback => txn.rollback
  | commit options context core => (txn.commit options context core).2.1

/-- The last value given to a key, `none` in it for a deletion; nothing if the
key was not written since the last commit or rollback. -/
def note (cf : String) (key : Bytes) (last : Option (Option Bytes)) :
    TxnCall → Option (Option Bytes)
  | put family target value =>
    if family = cf ∧ target = key then some (some value) else last
  | delete family target =>
    if family = cf ∧ target = key then some none else last
  | rollback => none
  | commit _ _ _ => none

def told (write : TxnWrite) : Option Bytes :=
  if write.isDeleted then none else some write.value

theorem buffered_step (txn : Transaction) (call : TxnCall) (cf : String)
    (key : Bytes) :
    ((call.step txn).buffered cf key).map told =
      call.note cf key ((txn.buffered cf key).map told) := by
  cases call with
  | put family target value =>
    rw [step, Transaction.putCf, Transaction.buffered_buffer, note]
    split
    · rfl
    · rfl
  | delete family target =>
    rw [step, Transaction.deleteCf, Transaction.buffered_buffer, note]
    split
    · rfl
    · rfl
  | rollback =>
    exact congrArg (Option.map told) (Transaction.buffered_begin cf key)
  | commit options context core =>
    rw [step, note, Transaction.buffered_commit, map_none]

theorem buffered_run (calls : List TxnCall) (cf : String) (key : Bytes) :
    ((calls.foldl step .begin).buffered cf key).map told =
      calls.foldl (note cf key) none := by
  induction calls using List.reverseRecOn with
  | nil => simp [Transaction.buffered_begin]
  | append_singleton calls call ih =>
    rw [List.foldl_concat, List.foldl_concat, buffered_step, ih]

end TxnCall

/-- A transaction answers with the last value it was given for a key, and for
any other key it answers and changes what the engine does. -/
theorem transaction_reads_refine_engine_reads (calls : List TxnCall)
    (now : Nanos) (cf : String) (key : Bytes) (core : EngineCore) :
    (calls.foldl TxnCall.step .begin).getCf now cf key core =
      match calls.foldl (TxnCall.note cf key) none with
      | none => core.getCf now cf key
      | some last => (.ok last, core) := by
  rw [← TxnCall.buffered_run]
  cases held : (calls.foldl TxnCall.step .begin).buffered cf key with
  | none => exact Transaction.getCf_of_unbuffered held now core
  | some write => exact Transaction.getCf_of_buffered held now core

end ApexStore
