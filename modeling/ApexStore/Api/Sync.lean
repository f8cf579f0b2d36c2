import ApexStore.Engine.FamilyRestart
import ApexStore.Engine.LastingWrites
import ApexStore.Engine.MemtableHistory
import ApexStore.Engine.TextKeys
import ApexStore.Infra.Crdt

/-!
# Sync

`SyncManager::apply_change` stores a change if its timestamp is above that of
the entry the CRDT engine has for the key, and then merges it.  The timestamps
are in memory only.  Of two changes with the same timestamp the one that comes
first is kept, so servers converge just if no two changes of a key tie for the
highest timestamp (`sync_converges_iff`), and a server that has been restarted
takes whatever comes first (`synced_key_never_goes_back`).

`Storage` says what a sync manager needs of the storage under it.  The engine
is such a storage as long as its writes work (`Follows.applyAll`), and it gives
the values back after a restart as long as its flushes are found again.
-/

namespace ApexStore

open List

structure SyncChange where
  key : String
  value : String
  timestamp : Nat
  deviceId : String
  deriving DecidableEq, Repr

namespace SyncChange

/-- `change.key.starts_with("__")`. -/
def isReserved (change : SyncChange) : Bool :=
  reservedPrefix.isPrefixOf (utf8 change.key)

def offer (change : SyncChange) : Stamped :=
  (utf8 change.value, change.timestamp)

/-- What the changes that are not refused offer to a key. -/
def offersTo (key : Bytes) (changes : List SyncChange) : List Stamped :=
  (changes.filter fun change =>
    !change.isReserved && utf8 change.key == key).map offer

theorem mem_offersTo {key : Bytes} {changes : List SyncChange}
    {offered : Stamped} : offered ∈ offersTo key changes ↔ ∃ change ∈ changes,
      change.isReserved = false ∧ utf8 change.key = key ∧ change.offer = offered := by
  simp [offersTo, and_assoc]

end SyncChange

/-- The storage under the sync manager: what it says it has stored is found
again. -/
structure Storage (σ : Type) where
  put : Bytes → Bytes → σ → Except LsmError Unit × σ
  get : σ → Bytes → Option Bytes
  get_put : ∀ {key value state after}, put key value state = (.ok (), after) →
    ∀ other, get after other =
      if key = other then some value else get state other

def Storage.ofMap : Storage (ByteMap Bytes) where
  put key value entries := (.ok (), entries.insert key value)
  get entries key := entries[key]?
  get_put := by
    intro key value entries after stored other
    cases stored
    exact ByteMap.getElem?_insert entries key other value

/-- The sync manager and the storage it writes to. -/
structure SyncServer (σ : Type) where
  store : σ
  crdt : CrdtEngine

namespace SyncServer

variable {σ : Type}

/-- `SyncManager::new` over existing storage. -/
def start (store : σ) : SyncServer σ := { store, crdt := .new }

/-- The manager has an entry of the key that is at least as new. -/
def isStale (server : SyncServer σ) (change : SyncChange) : Bool :=
  (server.crdt.getState (utf8 change.key)).any
    (fun entry => decide (change.timestamp ≤ entry.2))

/-- `apply_change` over a `put_cf`. -/
def applyChange (put : Bytes → Bytes → σ → Except LsmError Unit × σ)
    (change : SyncChange) (server : SyncServer σ) :
    Except LsmError Unit × SyncServer σ :=
  if change.isReserved then
    (.error (.invalidArgument "reserved sync key"), server)
  else if server.isStale change then (.ok (), server)
  else
    match put (utf8 change.key) (utf8 change.value) server.store with
    | (.error error, store) => (.error error, { server with store })
    | (.ok (), store) =>
      let crdt := server.crdt.merge (utf8 change.key) (utf8 change.value)
        change.timestamp
      (.ok (), { store, crdt })

def applyAll (put : Bytes → Bytes → σ → Except LsmError Unit × σ)
    (server : SyncServer σ) (changes : List SyncChange) : SyncServer σ :=
  changes.foldl (fun server change => (server.applyChange put change).2) server

/-- What `apply_change` can do. -/
inductive Outcome (put : Bytes → Bytes → σ → Except LsmError Unit × σ)
    (change : SyncChange)
      (server : SyncServer σ) : Except LsmError Unit × SyncServer σ → Prop
  | refused (reserved : change.isReserved = true) : Outcome put change server
        (.error (.invalidArgument "reserved sync key"), server)
  | stale (plain : change.isReserved = false) (older : server.isStale change = true) :
      Outcome put change server (.ok (), server)
  | failed (plain : change.isReserved = false)
      (newer : server.isStale change = false) (error : LsmError) (store : σ)
      (written : put (utf8 change.key) (utf8 change.value) server.store =
        (.error error, store)) :
      Outcome put change server (.error error, { server with store })
  | stored (plain : change.isReserved = false) (newer : server.isStale change = false)
    (store : σ)
      (written : put (utf8 change.key) (utf8 change.value) server.store =
        (.ok (), store)) :
      Outcome put change server (.ok (), ⟨store, server.crdt.merge (utf8 change.key)
          (utf8 change.value) change.timestamp⟩)

theorem applyChange_outcome (put : Bytes → Bytes → σ → Except LsmError Unit × σ)
    (change : SyncChange) (server : SyncServer σ) :
    Outcome put change server (server.applyChange put change) := by
  unfold applyChange
  by_cases reserved : change.isReserved = true
  · rw [if_pos reserved]
    exact .refused reserved
  · rw [if_neg reserved]
    have plain : change.isReserved = false := Bool.eq_false_iff.mpr reserved
    by_cases older : server.isStale change = true
    · rw [if_pos older]
      exact .stale plain older
    · rw [if_neg older]
      have newer : server.isStale change = false := Bool.eq_false_iff.mpr older
      cases written : put (utf8 change.key) (utf8 change.value) server.store with
      | mk result store =>
        cases result with
        | error error => exact .failed plain newer error store written
        | ok done => exact .stored plain newer store written

variable {change : SyncChange} {server : SyncServer σ}

theorem merge_of_stale (older : server.isStale change = true) :
    LastWriter.merge (server.crdt.getState (utf8 change.key)) change.offer =
      server.crdt.getState (utf8 change.key) := by
  unfold isStale at older
  cases held : server.crdt.getState (utf8 change.key) with
  | none => simp [held] at older
  | some entry =>
    rw [held] at older
    have below : change.timestamp ≤ entry.2 := by simpa using older
    exact if_pos below

theorem merge_of_newer (newer : server.isStale change = false) :
    LastWriter.merge (server.crdt.getState (utf8 change.key)) change.offer =
      some change.offer := by
  unfold isStale at newer
  cases held : server.crdt.getState (utf8 change.key) with
  | none => rfl
  | some entry =>
    rw [held] at newer
    have above : ¬ change.timestamp ≤ entry.2 := by simpa using newer
    exact if_neg above

/-! ## Convergence -/

section Convergence

variable {storage : Storage σ} {changes : List SyncChange}

/-- What is stored is what the CRDT engine says, and otherwise what was there
at the start. -/
def Mirrors (storage : Storage σ) (initial : σ) (server : SyncServer σ) : Prop :=
  ∀ key, storage.get server.store key =
    ((server.crdt.getState key).map (·.1)).or (storage.get initial key)

theorem mirrors_start (storage : Storage σ) (initial : σ) :
    Mirrors storage initial (start initial) := by
  intro key
  simp [start]

theorem mirrors_stored {initial : σ} (mirrors : Mirrors storage initial server)
    (newer : server.isStale change = false) {store : σ}
    (written : storage.put (utf8 change.key) (utf8 change.value) server.store =
      (.ok (), store)) :
    Mirrors storage initial
      ⟨store, server.crdt.merge (utf8 change.key) (utf8 change.value)
        change.timestamp⟩ := by
  intro key
  rw [CrdtEngine.getState_merge, storage.get_put written]
  by_cases here : utf8 change.key = key
  · rw [if_pos here, if_pos here]
    have won := merge_of_newer newer
    rw [SyncChange.offer] at won
    rw [won]
    rfl
  · rw [if_neg here, if_neg here]
    exact mirrors key

def Writable (storage : Storage σ) (change : SyncChange) : Prop :=
  ∀ state, (storage.put (utf8 change.key) (utf8 change.value) state).1 = .ok ()

theorem getState_applyChange (writable : Writable storage change) (key : Bytes) :
    (server.applyChange storage.put change).2.crdt.getState key =
      (SyncChange.offersTo key [change]).foldl LastWriter.merge
        (server.crdt.getState key) := by
  have outcome := applyChange_outcome storage.put change server
  generalize server.applyChange storage.put change = result at outcome ⊢
  cases outcome with
  | refused reserved => simp [SyncChange.offersTo, reserved]
  | stale plain older =>
    by_cases here : utf8 change.key = key
    · subst here
      simp [SyncChange.offersTo, plain, merge_of_stale older]
    · simp [SyncChange.offersTo, here]
  | failed plain newer error store written =>
    have succeeded := writable server.store
    rw [written] at succeeded
    cases succeeded
  | stored plain newer store written =>
    rw [CrdtEngine.getState_merge]
    by_cases here : utf8 change.key = key
    · subst here
      simp [SyncChange.offersTo, plain, SyncChange.offer]
    · simp [SyncChange.offersTo, here]

theorem getState_applyAll (writable : ∀ change ∈ changes, Writable storage change)
    (server : SyncServer σ) (key : Bytes) :
    (server.applyAll storage.put changes).crdt.getState key =
      (SyncChange.offersTo key changes).foldl LastWriter.merge
        (server.crdt.getState key) := by
  induction changes generalizing server with
  | nil => rfl
  | cons change changes ih =>
    have first := writable change mem_cons_self
    have rest : ∀ other ∈ changes, Writable storage other := fun other inside =>
      writable other (mem_cons_of_mem _ inside)
    have split : SyncChange.offersTo key (change :: changes) = SyncChange.offersTo key [change] ++
          SyncChange.offersTo key changes := by
      rw [SyncChange.offersTo, ← singleton_append, filter_append, map_append]
      rfl
    rw [split, foldl_append, ← getState_applyChange first]
    exact ih rest _

theorem mirrors_applyChange {initial : σ} (mirrors : Mirrors storage initial server)
    (writable : Writable storage change) :
    Mirrors storage initial (server.applyChange storage.put change).2 := by
  have outcome := applyChange_outcome storage.put change server
  generalize server.applyChange storage.put change = result at outcome ⊢
  cases outcome with
  | refused _ | stale _ _ => exact mirrors
  | failed plain newer error store written =>
    have succeeded := writable server.store
    rw [written] at succeeded
    cases succeeded
  | stored plain newer store written =>
    exact mirrors_stored mirrors newer written

theorem mirrors_applyAll (writable : ∀ change ∈ changes, Writable storage change)
    {initial : σ} (mirrors : Mirrors storage initial server) :
    Mirrors storage initial (server.applyAll storage.put changes) := by
  induction changes generalizing server with
  | nil => exact mirrors
  | cons change changes ih =>
    apply ih
    · exact fun other inside =>
        writable other (mem_cons_of_mem _ inside)
    · exact mirrors_applyChange mirrors (writable change mem_cons_self)

/-- Two servers that start with the same stored values and apply the changes,
each in its own order and any number of times. -/
def Converges (storage : Storage σ) (changes : List SyncChange) : Prop :=
  ∀ (store other : σ), (∀ key, storage.get store key = storage.get other key) →
    ∀ first second : List SyncChange, (∀ change, change ∈ first ↔ change ∈ changes) →
      (∀ change, change ∈ second ↔ change ∈ changes) →
      let left := (start store).applyAll storage.put first
      let right := (start other).applyAll storage.put second
      (∀ key, storage.get left.store key = storage.get right.store key) ∧
        left.crdt = right.crdt

/-- Changes of a key that have the highest timestamp for it have the same
value. -/
def TiesAgree (changes : List SyncChange) : Prop :=
  ∀ change ∈ changes, ∀ other ∈ changes, change.isReserved = false →
    change.key = other.key → change.timestamp = other.timestamp →
    (∀ third ∈ changes, third.key = change.key → third.timestamp ≤ change.timestamp) →
    change.value = other.value

theorem tiesAgree_offersTo (agree : TiesAgree changes) (key : Bytes) :
    LastWriter.TiesAgree (SyncChange.offersTo key changes) := by
  intro offered member offered' member' tie highest
  obtain ⟨change, inside, plain, here, rfl⟩ := SyncChange.mem_offersTo.mp member
  obtain ⟨other, inside', plain', here', rfl⟩ := SyncChange.mem_offersTo.mp member'
  have same_key : change.key = other.key := utf8_injective (here.trans here'.symm)
  have same_value := agree change inside other inside' plain same_key tie ?_
  · exact Prod.ext (congrArg utf8 same_value) tie
  · intro third inside'' same
    apply highest third.offer
    refine SyncChange.mem_offersTo.mpr ⟨third, inside'', ?_, ?_, rfl⟩
    · rw [SyncChange.isReserved, same]
      exact plain
    · rw [same]
      exact here

theorem mem_offersTo_congr {first : List SyncChange}
    (same : ∀ change, change ∈ first ↔ change ∈ changes) (key : Bytes)
    (offered : Stamped) :
    offered ∈ SyncChange.offersTo key first ↔
      offered ∈ SyncChange.offersTo key changes := by
  simp only [SyncChange.mem_offersTo, same]

section

variable (writable : ∀ change ∈ changes, Writable storage change)
include writable

theorem getState_start_applyAll (store : σ) (key : Bytes) :
    ((start store).applyAll storage.put changes).crdt.getState key =
      LastWriter.settle (SyncChange.offersTo key changes) := by
  rw [getState_applyAll writable]
  simp [start, LastWriter.settle]

theorem get_applyAll (store : σ) (key : Bytes) :
    storage.get ((start store).applyAll storage.put changes).store key =
      ((LastWriter.settle (SyncChange.offersTo key changes)).map (·.1)).or
        (storage.get store key) := by
  rw [mirrors_applyAll writable (mirrors_start storage store) key,
    getState_start_applyAll writable]

theorem converges_of_tiesAgree (agree : TiesAgree changes) :
    Converges storage changes := by
  intro store other alike first second same same'
  have writable_first : ∀ change ∈ first, Writable storage change :=
    fun change inside => writable change ((same change).mp inside)
  have writable_second : ∀ change ∈ second, Writable storage change :=
    fun change inside => writable change ((same' change).mp inside)
  have settled : ∀ key, LastWriter.settle (SyncChange.offersTo key first) =
      LastWriter.settle (SyncChange.offersTo key second) := fun key =>
    LastWriter.settle_eq_of_tiesAgree (tiesAgree_offersTo agree key)
      (mem_offersTo_congr same key) (mem_offersTo_congr same' key)
  constructor
  · intro key
    rw [get_applyAll writable_first, get_applyAll writable_second, settled key, alike key]
  · apply CrdtEngine.ext
    intro key
    rw [getState_start_applyAll writable_first,
      getState_start_applyAll writable_second, settled key]

end

theorem settle_offersTo_cons (plain : change.isReserved = false)
    (highest : ∀ third ∈ changes, third.key = change.key →
      third.timestamp ≤ change.timestamp) :
    LastWriter.settle (SyncChange.offersTo (utf8 change.key) (change :: changes)) =
      some change.offer := by
  have first : SyncChange.offersTo (utf8 change.key) (change :: changes) =
      change.offer :: SyncChange.offersTo (utf8 change.key) changes := by
    simp [SyncChange.offersTo, plain]
  rw [first]
  apply LastWriter.settle_cons_of_highest
  intro offered member
  obtain ⟨third, inside, _, here, rfl⟩ := SyncChange.mem_offersTo.mp member
  exact highest third inside (utf8_injective here)

theorem tiesAgree_of_converges (writable : ∀ change ∈ changes, Writable storage change)
    (store : σ) (converges : Converges storage changes) : TiesAgree changes := by
  intro change inside other inside' plain same_key tie highest
  have covers : ∀ repeated ∈ changes, ∀ third, third ∈ repeated :: changes ↔
      third ∈ changes := by
    intro repeated member third
    simp only [mem_cons, or_iff_right_iff_imp]
    intro same
    exact same ▸ member
  have writable_cons : ∀ repeated ∈ changes, ∀ third ∈ repeated :: changes,
      Writable storage third := fun repeated member third within =>
    writable third ((covers repeated member third).mp within)
  have plain' : other.isReserved = false := by
    rw [SyncChange.isReserved, ← same_key]
    exact plain
  have highest' : ∀ third ∈ changes, third.key = other.key →
      third.timestamp ≤ other.timestamp := by
    intro third member same
    rw [← tie]
    exact highest third member (same.trans same_key.symm)
  -- one server gets the one change first, the other server the other one
  obtain ⟨stored, _⟩ := converges store store (fun _ => rfl)
    (change :: changes) (other :: changes) (covers change inside) (covers other inside')
  have same_value := stored (utf8 change.key)
  rw [get_applyAll (writable_cons change inside), get_applyAll (writable_cons other inside'),
    settle_offersTo_cons plain highest, same_key,
    settle_offersTo_cons plain' highest'] at same_value
  exact utf8_injective (Option.some.inj same_value)

/-- Servers that apply the same changes agree in the end exactly if no two
changes of a key with the highest timestamp differ. -/
theorem sync_converges_iff (storage : Storage σ) (store : σ)
    (changes : List SyncChange)
    (writable : ∀ change ∈ changes, Writable storage change) :
    Converges storage changes ↔ TiesAgree changes :=
  ⟨tiesAgree_of_converges writable store, converges_of_tiesAgree writable⟩

end Convergence

theorem sync_converges_without_ties :
    let changes : List SyncChange := [⟨"a", "x", 1, "one"⟩, ⟨"a", "y", 2, "two"⟩]
    (∀ change ∈ changes, Writable .ofMap change) ∧
      (Converges .ofMap changes ↔ TiesAgree changes) := by
  have writable : ∀ change : SyncChange, Writable .ofMap change := fun _ _ => rfl
  exact ⟨fun change _ => writable change, sync_converges_iff .ofMap ∅ _
    (fun change _ => writable change)⟩

/-- Two devices write at the same time: each server keeps what it has heard
first. -/
theorem sync_diverges_on_tie :
    ¬ Converges .ofMap [⟨"a", "x", 1, "one"⟩, ⟨"a", "y", 1, "two"⟩] := by
  intro converges
  obtain ⟨stored, _⟩ := converges ∅ ∅ (fun _ => rfl) [⟨"a", "x", 1, "one"⟩, ⟨"a", "y", 1, "two"⟩]
    [⟨"a", "y", 1, "two"⟩, ⟨"a", "x", 1, "one"⟩]
    (fun _ => Iff.rfl) (fun change => by simp [or_comm])
  have same := stored (utf8 "a")
  revert same
  decide +kernel

end SyncServer

/-! ## Restarts over a storage that keeps everything -/

/-- What happens to a server. -/
inductive SyncEvent where
  | push (change : SyncChange)
  | restart

/-- A server with the changes it has accepted since it was set up. -/
structure SyncHistory (σ : Type) where
  server : SyncServer σ
  accepted : List SyncChange

namespace SyncHistory

variable {σ : Type}

def start (store : σ) : SyncHistory σ := ⟨.start store, []⟩

/-- `apply_change`, and the change is noted if it is not refused. -/
def push (put : Bytes → Bytes → σ → Except LsmError Unit × σ) (change : SyncChange)
    (history : SyncHistory σ) : SyncHistory σ :=
  match history.server.applyChange put change with
  | (.ok (), server) => ⟨server, change :: history.accepted⟩
  | (.error _, server) => { history with server }

/-- A restart keeps the storage; the sync manager is a new one. -/
def step (storage : Storage σ) (history : SyncHistory σ) : SyncEvent → SyncHistory σ
  | .push change => history.push storage.put change
  | .restart => { history with server := .start history.server.store }

variable (storage : Storage σ) (history : SyncHistory σ)

/-- The change is the newest that was accepted for its key, and stored. -/
structure Current (winner : SyncChange) : Prop where
  accepted : winner ∈ history.accepted
  newest : ∀ other ∈ history.accepted, other.key = winner.key →
    other.timestamp ≤ winner.timestamp
  stored : storage.get history.server.store (utf8 winner.key) = some (utf8 winner.value)

/-- Every key has the value of an accepted change with the highest
timestamp. -/
def UpToDate : Prop :=
  ∀ change ∈ history.accepted, ∃ winner, history.Current storage winner ∧
    winner.key = change.key

/-- The first change of a key after a restart is not older than one that was
accepted before, and a write that fails leaves the stored values as they
are. -/
def InOrder : SyncEvent → Prop
  | .restart => True
  | .push change =>
    (history.server.crdt.getState (utf8 change.key) = none →
      ∀ other ∈ history.accepted, other.key = change.key →
        other.timestamp ≤ change.timestamp) ∧
    ∀ error store, storage.put (utf8 change.key) (utf8 change.value)
        history.server.store = (.error error, store) →
      ∀ key, storage.get store key = storage.get history.server.store key

/-- The sync manager's entries are those of the newest changes. -/
structure Consistent : Prop where
  upToDate : history.UpToDate storage
  entries : ∀ key entry, history.server.crdt.getState (utf8 key) = some entry →
    ∃ winner, history.Current storage winner ∧ winner.key = key ∧ winner.offer = entry

theorem consistent_start (store : σ) : (start store).Consistent storage := by
  constructor
  · intro change accepted
    simp [start] at accepted
  · intro key entry held
    simp [start, SyncServer.start] at held

variable {storage history}

variable {winner change : SyncChange} {server : SyncServer σ}

theorem Current.of_get (current : history.Current storage winner)
    (same : storage.get server.store (utf8 winner.key) =
      storage.get history.server.store (utf8 winner.key)) :
    (SyncHistory.mk server history.accepted).Current storage winner :=
  ⟨current.accepted, current.newest, same.trans current.stored⟩

theorem Current.cons (current : history.Current storage winner)
    (below : change.key = winner.key → change.timestamp ≤ winner.timestamp)
    (same : storage.get server.store (utf8 winner.key) =
      storage.get history.server.store (utf8 winner.key)) :
    (SyncHistory.mk server (change :: history.accepted)).Current storage winner := by
  refine ⟨mem_cons_of_mem _ current.accepted, ?_, same.trans current.stored⟩
  intro other inside same_key
  rcases mem_cons.mp inside with rfl | earlier
  · exact below same_key
  · exact current.newest other earlier same_key

section

variable (consistent : history.Consistent storage)
include consistent

theorem Consistent.of_get (same_crdt : server.crdt = history.server.crdt)
    (same : ∀ key, storage.get server.store key =
      storage.get history.server.store key) :
    (SyncHistory.mk server history.accepted).Consistent storage := by
  constructor
  · intro change accepted
    obtain ⟨winner, current, here⟩ := consistent.upToDate change accepted
    exact ⟨winner, current.of_get (same _), here⟩
  · intro key entry held
    have before : history.server.crdt.getState (utf8 key) = some entry := by
      rw [← same_crdt]
      exact held
    obtain ⟨winner, current, here, offered⟩ := consistent.entries key entry before
    exact ⟨winner, current.of_get (same _), here, offered⟩

theorem Consistent.restart : (history.step storage .restart).Consistent storage := by
  constructor
  · intro change accepted
    obtain ⟨winner, current, here⟩ := consistent.upToDate change accepted
    exact ⟨winner, current.of_get rfl, here⟩
  · intro key entry held
    simp [step, SyncServer.start] at held

theorem Consistent.stale (older : history.server.isStale change = true) :
    (SyncHistory.mk history.server
      (change :: history.accepted)).Consistent storage := by
  obtain ⟨entry, held, below⟩ : ∃ entry,
      history.server.crdt.getState (utf8 change.key) = some entry ∧
        change.timestamp ≤ entry.2 := by
    simpa [SyncServer.isStale, Option.any_eq_true] using older
  obtain ⟨winner, current, here, offered⟩ := consistent.entries change.key entry held
  have below_winner : change.timestamp ≤ winner.timestamp := by
    rw [← offered] at below
    exact below
  -- the entry of the key is a winner that is not older than the change
  have kept : ∀ other, history.Current storage other → (SyncHistory.mk history.server
        (change :: history.accepted)).Current storage other := by
    intro other current'
    refine current'.cons ?_ rfl
    intro same_key
    have above := current'.newest winner current.accepted (here.trans same_key)
    exact le_trans below_winner above
  constructor
  · intro accepted inside
    rcases mem_cons.mp inside with rfl | earlier
    · exact ⟨winner, kept winner current, here⟩
    · obtain ⟨other, current', here'⟩ := consistent.upToDate accepted earlier
      exact ⟨other, kept other current', here'⟩
  · intro key entry' held'
    obtain ⟨other, current', rest⟩ := consistent.entries key entry' held'
    exact ⟨other, kept other current', rest⟩

theorem Consistent.stored (newer : history.server.isStale change = false)
    (ordered : history.server.crdt.getState (utf8 change.key) = none →
      ∀ other ∈ history.accepted, other.key = change.key →
        other.timestamp ≤ change.timestamp)
    {store : σ} (written : storage.put (utf8 change.key) (utf8 change.value)
      history.server.store = (.ok (), store)) :
    (SyncHistory.mk ⟨store, history.server.crdt.merge (utf8 change.key)
      (utf8 change.value) change.timestamp⟩
        (change :: history.accepted)).Consistent storage := by
  let after := SyncHistory.mk ⟨store, history.server.crdt.merge (utf8 change.key)
    (utf8 change.value) change.timestamp⟩ (change :: history.accepted)
  have above : ∀ other ∈ history.accepted, other.key = change.key →
      other.timestamp ≤ change.timestamp := by
    intro other inside same_key
    cases held : history.server.crdt.getState (utf8 change.key) with
    | none => exact ordered held other inside same_key
    | some entry =>
      obtain ⟨winner, current, here, offered⟩ := consistent.entries change.key entry held
      have below := current.newest other inside (same_key.trans here.symm)
      have later : winner.timestamp < change.timestamp := by
        have later : entry.2 < change.timestamp := by
          simpa [SyncServer.isStale, held] using newer
        rw [← offered] at later
        exact later
      omega
  have won : after.Current storage change := by
    refine ⟨mem_cons_self, ?_, ?_⟩
    · intro other inside same_key
      rcases mem_cons.mp inside with rfl | earlier
      · exact le_refl _
      · exact above other earlier same_key
    · change storage.get store _ = _
      rw [storage.get_put written, if_pos rfl]
  have kept : ∀ other, history.Current storage other → other.key ≠ change.key →
      after.Current storage other := by
    intro other current apart
    refine current.cons (fun same_key => absurd same_key.symm apart) ?_
    rw [storage.get_put written, if_neg]
    exact fun same => apart (utf8_injective same).symm
  constructor
  · intro accepted inside
    by_cases here : accepted.key = change.key
    · exact ⟨change, won, here.symm⟩
    · have earlier : accepted ∈ history.accepted := by
        rcases mem_cons.mp inside with rfl | earlier
        · exact absurd rfl here
        · exact earlier
      obtain ⟨other, current, same⟩ := consistent.upToDate accepted earlier
      exact ⟨other, kept other current (same ▸ here), same⟩
  · intro key entry held
    rw [CrdtEngine.getState_merge] at held
    by_cases here : change.key = key
    · subst here
      rw [if_pos rfl] at held
      have offered := SyncServer.merge_of_newer newer
      rw [SyncChange.offer] at offered
      rw [offered] at held
      exact ⟨change, won, rfl, Option.some.inj held⟩
    · rw [if_neg (fun same => here (utf8_injective same))] at held
      obtain ⟨other, current, same, offered⟩ := consistent.entries key entry held
      have apart : other.key ≠ change.key := by
        rw [same]
        exact fun equal => here equal.symm
      exact ⟨other, kept other current apart, same, offered⟩

theorem Consistent.step {event : SyncEvent} (ordered : history.InOrder storage event) :
    (history.step storage event).Consistent storage := by
  cases event with
  | restart => exact consistent.restart
  | push change =>
    obtain ⟨ordered, harmless⟩ := ordered
    have outcome := SyncServer.applyChange_outcome storage.put change history.server
    rw [SyncHistory.step, SyncHistory.push]
    generalize history.server.applyChange storage.put change = result at outcome ⊢
    cases outcome with
    | refused _ => exact consistent.of_get rfl (fun _ => rfl)
    | stale _ older => exact consistent.stale older
    | failed _ _ error store written =>
      exact consistent.of_get rfl (harmless error store written)
    | stored _ newer store written =>
      exact consistent.stored newer ordered written

end

end SyncHistory

/-! ## The engine as the storage -/

namespace SyncServer

/-- The `put_cf` of an engine, where it does not matter whether the write
filled the memtable. -/
def enginePut (options : EngineOptions) (context : WriteContext) (cf : String)
    (key value : Bytes) (core : EngineCore) : Except LsmError Unit × EngineCore :=
  let (result, core) := core.putCf options context cf key value none
  (result.map fun _ => (), core)

def Follows (options : EngineOptions) (cf : String) (core : EngineCore)
    (entries : ByteMap Bytes) : Prop :=
  ∃ last, Lasting options cf core last ∧ ∀ key, ttlPrefix.isPrefixOf key = false →
      (last key).bind (·.kept) = entries[key]?

variable {options : EngineOptions} {cf : String}

variable {core : EngineCore} {entries : ByteMap Bytes} {key : Bytes}
  {context : WriteContext}

theorem Follows.getCf (follows : Follows options cf core entries)
    (plain : ttlPrefix.isPrefixOf key = false) (now : Nanos) :
    (core.getCf now cf key).1 = .ok entries[key]? := by
  obtain ⟨last, lasting, same⟩ := follows
  rw [lasting.getCf_eq plain, same key plain]

/-- A write that works: the engine says so, and goes on reading like the
map. -/
theorem Follows.enginePut (follows : Follows options cf core entries)
    (permanent : options.defaultTtl = none) {value : Bytes}
    (plain : ttlPrefix.isPrefixOf key = false)
    (fits : EngineCore.checkSizes key value = .ok ())
    (works : core.InsertWorks options context.flush cf
      (EngineCore.putRecord options context cf key value none)
        (key.length + value.length)) :
    ∃ after, SyncServer.enginePut options context cf key value core = (.ok (), after) ∧
      Follows options cf after (entries.insert key value) := by
  obtain ⟨last, lasting, same⟩ := follows
  obtain ⟨accepted, lasting'⟩ := lasting.put permanent plain fits works
  have fields := EngineCore.putRecord_fields options context cf key value none
  unfold SyncServer.enginePut
  generalize core.putCf options context cf key value none = result at accepted lasting' ⊢
  obtain ⟨outcome, after⟩ := result
  cases outcome with
  | error error => cases accepted
  | ok full =>
    refine ⟨after, rfl, _, lasting', ?_⟩
    intro other plain'
    rw [ByteMap.getElem?_insert]
    by_cases here : key = other
    · subst here
      rw [if_pos rfl, if_pos rfl, Option.bind_some, LogRecord.kept, fields.2.2.2.1,
        fields.2.1]
      rfl
    · rw [if_neg here, if_neg here]
      exact same other plain'

/-- A server over the engine does what a server over the map does, as long as
the engine's writes work. -/
theorem Follows.applyChange {server : SyncServer EngineCore}
    {mirror : SyncServer (ByteMap Bytes)}
    (follows : Follows options cf server.store mirror.store)
    (same : server.crdt = mirror.crdt)
    (permanent : options.defaultTtl = none) {change : SyncChange}
    (fits : EngineCore.checkSizes (utf8 change.key) (utf8 change.value) = .ok ())
    (works : server.store.InsertWorks options context.flush cf
      (EngineCore.putRecord options context cf (utf8 change.key)
        (utf8 change.value) none)
      ((utf8 change.key).length + (utf8 change.value).length)) :
    let left := server.applyChange (SyncServer.enginePut options context cf)
      change
    let right := mirror.applyChange Storage.ofMap.put change
    left.1 = right.1 ∧ left.2.crdt = right.2.crdt ∧
      Follows options cf left.2.store right.2.store := by
  have stale : mirror.isStale change = server.isStale change := by
    rw [isStale, isStale, same]
  have outcome := applyChange_outcome (SyncServer.enginePut options context cf) change server
  generalize server.applyChange (SyncServer.enginePut options context cf) change =
    left at outcome
  cases outcome with
  | refused reserved =>
    rw [SyncServer.applyChange, if_pos reserved]
    exact ⟨rfl, same, follows⟩
  | stale plain older =>
    rw [SyncServer.applyChange, if_neg (by simp [plain]), if_pos (stale.trans older)]
    exact ⟨rfl, same, follows⟩
  | failed plain newer error store written =>
    obtain ⟨after, done, _⟩ :=
      follows.enginePut permanent (ttlPrefix_of_reserved plain) fits works
    rw [done] at written
    cases written
  | stored plain newer store written =>
    obtain ⟨after, done, follows'⟩ := follows.enginePut permanent
      (ttlPrefix_of_reserved plain) fits works
    rw [done] at written
    cases written
    rw [SyncServer.applyChange, if_neg (by simp [plain]), if_neg (by simp [stale, newer])]
    refine ⟨rfl, ?_, follows'⟩
    change server.crdt.merge _ _ _ = mirror.crdt.merge _ _ _
    rw [same]

/-- So it does over a run of changes. -/
theorem Follows.applyAll {server : SyncServer EngineCore}
    {mirror : SyncServer (ByteMap Bytes)}
    (follows : Follows options cf server.store mirror.store)
    (same : server.crdt = mirror.crdt)
    (permanent : options.defaultTtl = none) {calls : List (WriteContext × SyncChange)}
    (works : Guarded (fun (server : SyncServer EngineCore) call =>
        (server.applyChange (SyncServer.enginePut options call.1 cf) call.2).2)
      (fun server call =>
        EngineCore.checkSizes (utf8 call.2.key) (utf8 call.2.value) = .ok () ∧
        server.store.InsertWorks options call.1.flush cf
          (EngineCore.putRecord options call.1 cf (utf8 call.2.key)
            (utf8 call.2.value) none)
          ((utf8 call.2.key).length + (utf8 call.2.value).length)) server calls) :
    let left := calls.foldl (fun (server : SyncServer EngineCore) call =>
      (server.applyChange (SyncServer.enginePut options call.1 cf) call.2).2) server
    let right := mirror.applyAll Storage.ofMap.put (calls.map (·.2))
    left.crdt = right.crdt ∧ Follows options cf left.store right.store := by
  induction calls generalizing server mirror with
  | nil => exact ⟨same, follows⟩
  | cons call calls ih =>
    obtain ⟨⟨fits, first⟩, rest⟩ := works
    obtain ⟨_, crdt, store⟩ := follows.applyChange same permanent fits first
    exact ih store crdt rest

end SyncServer

/-! ## Restarts of the engine -/

theorem LogRecord.kept_of_outcome {first second : Option LogRecord}
    (same : first.map LogRecord.outcome = second.map LogRecord.outcome) :
    first.bind (·.kept) = second.bind (·.kept) := by
  cases first with
  | none =>
    rw [Option.map_eq_none_iff.mp same.symm]
  | some record =>
    obtain ⟨other, rfl, outcome⟩ := Option.map_eq_some_iff.mp same.symm
    simp only [LogRecord.outcome, Prod.mk.injEq] at outcome
    simp [LogRecord.kept, outcome]

section Reopened

variable {options : EngineOptions} {core after : EngineCore}
  {last : Bytes → Option LogRecord}
  (lasting : Lasting options "default" core last)
  (restorable : Restorable options core)
  (reopened : EngineCore.Reopened options core after)
include lasting restorable reopened

theorem Lasting.outcome_reopened {key : Bytes}
    (plain : ttlPrefix.isPrefixOf key = false) :
    (after.newestRecord "default" key).map LogRecord.outcome =
      (last key).map LogRecord.outcome := by
  have memory := restorable.memory "default" key
  rw [← reopened.records] at memory
  rw [EngineCore.newestRecord]
  cases held : core.memtableRecord "default" key with
  | some record =>
    rw [held, Option.map_some] at memory
    obtain ⟨other, found, outcome⟩ := Option.map_eq_some_iff.mp memory.symm
    rw [found, (lasting.decided.memory key record held).2, Option.some_or, Option.map_some,
      Option.map_some, outcome]
  | none =>
    rw [held, Option.map_none] at memory
    rw [Option.map_eq_none_iff.mp memory.symm, Option.none_or,
      reopened.newest restorable.order, lasting.newestEntry_eq plain held]

theorem Lasting.reopen :
    Lasting options "default" after (after.newestRecord "default") := by
  have sideless : ∀ key, ttlPrefix.isPrefixOf key = true →
      after.newestEntry "default" key = none := by
    intro key reserved
    have same := reopened.newest restorable.order key
    rw [lasting.sideless key reserved] at same
    exact Option.map_eq_none_iff.mp same
  have memory : ∀ key record, after.memtableRecord "default" key = some record →
      ttlPrefix.isPrefixOf key = false := by
    intro key record held
    have before := restorable.memory "default" key
    rw [← reopened.records, held] at before
    obtain ⟨other, found, _⟩ := Option.map_eq_some_iff.mp before
    exact (lasting.decided.memory key other found).1
  have permanent : ∀ key record, after.newestRecord "default" key = some record →
      record.expiresAt = none := by
    intro key record newest
    cases reserved : ttlPrefix.isPrefixOf key with
    | true =>
      rcases EngineCore.newestRecord_cases newest with held | ⟨table, found⟩
      · rw [memory key record held] at reserved
        cases reserved
      · rw [sideless key reserved] at found
        cases found
    | false =>
      have outcome := lasting.outcome_reopened restorable reopened reserved
      rw [newest] at outcome
      obtain ⟨other, written, same⟩ := Option.map_eq_some_iff.mp outcome.symm
      simp only [LogRecord.outcome, Prod.mk.injEq] at same
      rw [← same.2.2]
      exact lasting.permanent key other written
  refine ⟨⟨reopened.sound, reopened.uncovered (restorable.no_ranges "default"), ?_, ?_, ?_, ?_⟩,
    permanent, sideless, ?_⟩
  · intro key record held
    refine ⟨memory key record held, ?_⟩
    rw [EngineCore.newestRecord, held]
    rfl
  · intro key table record reserved found
    rw [sideless key reserved] at found
    cases found
  · intro key value cached
    simp [reopened.cache] at cached
  · intro key plain missing
    have newest : after.newestRecord "default" key =
        (after.newestEntry "default" key).map (·.2) := by
      rw [EngineCore.newestRecord, missing]
      rfl
    rw [newest]
    cases found : after.newestEntry "default" key with
    | none => exact found
    | some entry =>
      refine .inr ⟨entry.1, found, fun _ => ?_⟩
      rw [found] at newest
      rw [sideless _ (isPrefixOf_ttlKey key), permanent key entry.2 newest]
      rfl
  · intro key
    simp [reopened.cache]

end Reopened

variable {options : EngineOptions} {core after : EngineCore} {entries : ByteMap Bytes}

theorem SyncServer.Follows.reopen (follows : Follows options "default" core entries)
    (restorable : Restorable options core)
    (reopened : EngineCore.Reopened options core after) :
    Follows options "default" after entries := by
  obtain ⟨last, lasting, same⟩ := follows
  refine ⟨_, lasting.reopen restorable reopened, fun key plain => ?_⟩
  rw [← same key plain]
  exact LogRecord.kept_of_outcome (lasting.outcome_reopened restorable reopened plain)

theorem FamilyWrite.Kept.works {context : WriteContext} {cf : String}
    {key value : Bytes} {ttl : Option Nanos}
    (kept : (FamilyWrite.put context cf key value ttl).Kept options core) :
    core.InsertWorks options context.flush cf
      (EngineCore.putRecord options context cf key value ttl)
        (key.length + value.length) :=
  ⟨kept.2.calm, fun full => ⟨(kept.2.flush full).fresh, fun mem last filled =>
    ((kept.2.flush full).written mem last filled).2.1⟩⟩

/-- What happens to a server over the engine. -/
inductive ServerStep where
  | push (context : WriteContext) (change : SyncChange)
  | restart (found : List String)

def ServerStep.event : ServerStep → SyncEvent
  | push _ change => .push change
  | restart _ => .restart

namespace SyncHistory

/-- A restart opens the directory of the engine again. -/
def serve (options : EngineOptions) (history : SyncHistory EngineCore) :
    ServerStep → SyncHistory EngineCore
  | .push context change =>
    history.push (SyncServer.enginePut options context "default") change
  | .restart found =>
    match history.server.store.newGeneric options found with
    | .ok core => { history with server := .start core }
    | .error _ => history

/-- The engine takes the write, and a flush it makes is found again; a restart
can read the logs. -/
def Works (options : EngineOptions) (history : SyncHistory EngineCore) :
    ServerStep → Prop
  | .push context change =>
    EngineCore.checkSizes (utf8 change.key) (utf8 change.value) = .ok () ∧
      (FamilyWrite.put context "default" (utf8 change.key) (utf8 change.value) none).Kept
        options history.server.store
  | .restart found =>
    history.server.store.LogsReadable options ∧ history.server.store.Lists found

/-- The first change of a key after a restart is not older than one that was
accepted before. -/
def Continues (history : SyncHistory EngineCore) : ServerStep → Prop
  | .push _ change =>
    history.server.crdt.getState (utf8 change.key) = none →
      ∀ other ∈ history.accepted, other.key = change.key →
        other.timestamp ≤ change.timestamp
  | .restart _ => True

/-- Every key shows the value of an accepted change with the highest
timestamp. -/
def ShowsNewest (history : SyncHistory EngineCore) : Prop :=
  ∀ change ∈ history.accepted, ∃ winner ∈ history.accepted, winner.key = change.key ∧
    (∀ other ∈ history.accepted, other.key = winner.key →
      other.timestamp ≤ winner.timestamp) ∧
    ∀ now, (history.server.store.getCf now "default" (utf8 winner.key)).1 =
      .ok (some (utf8 winner.value))

/-- The engine goes along with a storage that keeps everything. -/
structure Simulates (options : EngineOptions) (history : SyncHistory EngineCore)
    (mirror : SyncHistory (ByteMap Bytes)) : Prop where
  follows : SyncServer.Follows options "default" history.server.store mirror.server.store
  restorable : Restorable options history.server.store
  crdt : history.server.crdt = mirror.server.crdt
  accepted : history.accepted = mirror.accepted
  plain : ∀ change ∈ history.accepted, change.isReserved = false

namespace Simulates

variable {history : SyncHistory EngineCore} {mirror : SyncHistory (ByteMap Bytes)}

theorem start (options : EngineOptions) :
    Simulates options (.start .empty) (.start ∅) :=
  ⟨⟨_, .empty options "default", fun _ _ => rfl⟩, .empty options, rfl, rfl, nofun⟩

variable (simulates : Simulates options history mirror)
include simulates

theorem push (permanent : options.defaultTtl = none) {context : WriteContext}
    {change : SyncChange} (works : history.Works options (.push context change)) :
    Simulates options (history.serve options (.push context change))
      (mirror.step .ofMap (.push change)) := by
  obtain ⟨fits, kept⟩ := works
  have written : Restorable options (SyncServer.enginePut options context "default"
      (utf8 change.key) (utf8 change.value) history.server.store).2 :=
    simulates.restorable.put kept
  have outcome := SyncServer.applyChange_outcome
    (SyncServer.enginePut options context "default") change history.server
  obtain ⟨result, crdt, follows⟩ :=
    simulates.follows.applyChange simulates.crdt permanent fits kept.works
  rw [serve, step, SyncHistory.push, SyncHistory.push]
  generalize history.server.applyChange _ change = left at outcome result crdt follows ⊢
  generalize mirror.server.applyChange Storage.ofMap.put change =
    right at result crdt follows ⊢
  obtain ⟨rightResult, rightServer⟩ := right
  have accepted : change.isReserved = false →
      ∀ other ∈ change :: history.accepted, other.isReserved = false :=
    fun plain => forall_mem_cons.mpr ⟨plain, simulates.plain⟩
  cases outcome with
  | refused _ =>
    subst result
    exact ⟨follows, simulates.restorable, crdt, simulates.accepted, simulates.plain⟩
  | stale plain _ =>
    subst result
    exact ⟨follows, simulates.restorable, crdt, congrArg _ simulates.accepted,
      accepted plain⟩
  | failed _ _ error store failed =>
    subst result
    rw [failed] at written
    exact ⟨follows, written, crdt, simulates.accepted, simulates.plain⟩
  | stored plain _ store stored =>
    subst result
    rw [stored] at written
    exact ⟨follows, written, crdt, congrArg _ simulates.accepted, accepted plain⟩

theorem restart {found : List String}
    (works : history.Works options (.restart found)) :
    Simulates options (history.serve options (.restart found))
      (mirror.step .ofMap .restart) := by
  obtain ⟨readable, lists⟩ := works
  obtain ⟨core, opened, reopened⟩ := EngineCore.newGeneric_ok simulates.restorable.sound
    readable simulates.restorable.logsApart lists
  rw [serve, opened]
  exact ⟨simulates.follows.reopen simulates.restorable reopened,
    simulates.restorable.reopen reopened, rfl, simulates.accepted, simulates.plain⟩

theorem step (permanent : options.defaultTtl = none) {next : ServerStep}
    (works : history.Works options next) :
    Simulates options (history.serve options next)
      (mirror.step .ofMap next.event) := by
  cases next with
  | push context change => exact simulates.push permanent works
  | restart found => exact simulates.restart works

theorem inOrder {next : ServerStep} (continues : history.Continues next) :
    mirror.InOrder .ofMap next.event := by
  cases next with
  | restart found => trivial
  | push context change =>
    rw [Continues, simulates.crdt, simulates.accepted] at continues
    exact ⟨continues, nofun⟩

theorem showsNewest (upToDate : mirror.UpToDate .ofMap) : history.ShowsNewest := by
  intro change accepted
  rw [simulates.accepted] at accepted
  obtain ⟨winner, current, same⟩ := upToDate change accepted
  have inside := current.accepted
  rw [← simulates.accepted] at inside
  refine ⟨winner, inside, same, ?_, fun now => ?_⟩
  · rw [simulates.accepted]
    exact current.newest
  · rw [simulates.follows.getCf (ttlPrefix_of_reserved (simulates.plain winner inside))]
    exact congrArg Except.ok current.stored

end Simulates

/-- Over every run of pushes and restarts in which the engine's writes and
restarts work and no change comes first after a restart that is older than one
that was accepted before, every key shows the newest accepted change. -/
theorem synced_key_never_goes_back {options : EngineOptions}
    (permanent : options.defaultTtl = none) {steps : List ServerStep}
    (run : Guarded (serve options)
      (fun history next => history.Works options next ∧ history.Continues next)
      (.start .empty) steps) :
    (steps.foldl (serve options) (.start .empty)).ShowsNewest := by
  have kept : ∃ mirror, Simulates options (steps.foldl (serve options) (.start .empty)) mirror ∧
      mirror.Consistent .ofMap := by
    refine @Guarded.invariant _ _ _ _ _ _
      (fun history => ∃ mirror, Simulates options history mirror ∧ mirror.Consistent .ofMap)
      ?_ run ⟨_, .start options, consistent_start .ofMap ∅⟩
    rintro history next ⟨mirror, simulates, consistent⟩ ⟨works, continues⟩
    exact ⟨_, simulates.step permanent works, consistent.step (simulates.inOrder continues)⟩
  obtain ⟨mirror, simulates, consistent⟩ := kept
  exact simulates.showsNewest consistent.upToDate

/-! ### A restart between two changes -/

/-- A server that has stored its first change. -/
def stored (change : SyncChange) : SyncHistory EngineCore :=
  (start .empty).serve .default (.push (.ticking 1) change)

/-- The same server after a restart: the write is in the memtable again. -/
def restarted (change : SyncChange) : SyncHistory EngineCore :=
  let core := (stored change).server.store
  { stored change with
    server := .start { core.onDisk.replayLogs ["default"] with store := core.store.shutdown } }

theorem serve_restart {change : SyncChange}
    (readable : (stored change).server.store.LogsReadable .default)
    (apart : (stored change).server.store.LogsApart)
    (unfiled : discoverSstablesFromDisk EngineOptions.default.storage
        (stored change).server.store.store.shutdown =
      .ok (stored change).server.store.store.shutdown) :
    (stored change).serve .default (.restart []) = restarted change := by
  rw [serve, EngineCore.newGeneric_eq readable apart [] unfiled]
  rfl

theorem Works.of_room {history : SyncHistory EngineCore} {context : WriteContext}
    {change : SyncChange}
    (fits : EngineCore.checkSizes (utf8 change.key) (utf8 change.value) = .ok ())
    (room : history.server.store.bytesOf "default" +
      ((utf8 change.key).length + (utf8 change.value).length) <
        options.writeBufferLimit) :
    history.Works options (.push context change) :=
  ⟨fits, by decide, .of_room room⟩

/-- A newer change after the restart replaces the stored one, and then a late
one is turned down. -/
theorem newer_change_replaces_after_restart :
    let steps : List ServerStep :=
      [.push (.ticking 1) ⟨"a", "old", 5, "one"⟩, .restart [],
        .push (.ticking 11) ⟨"a", "new", 10, "two"⟩,
        .push (.ticking 21) ⟨"a", "late", 7, "one"⟩]
    (steps.foldl (serve .default) (.start .empty)).ShowsNewest := by
  intro steps
  let first : SyncChange := ⟨"a", "old", 5, "one"⟩
  have again : (stored first).serve .default (.restart []) = restarted first :=
    serve_restart (.of_logs (by decide +kernel)) (.of_logs (by decide +kernel)) rfl
  apply synced_key_never_goes_back rfl
  refine ⟨⟨.of_room (by decide +kernel) (by decide +kernel), fun _ => nofun⟩,
    ⟨⟨.of_logs (by decide +kernel), .of_logs (by decide +kernel)⟩, trivial⟩, ?_⟩
  change Guarded _ _ ((stored first).serve .default (.restart [])) _
  rw [again]
  exact ⟨⟨.of_room (by decide +kernel) (by decide +kernel), fun _ => by decide +kernel⟩,
    ⟨.of_room (by decide +kernel) (by decide +kernel),
      fun missing => absurd missing (by decide +kernel)⟩, trivial⟩

/-- A change that arrives late, after a restart, replaces a newer one. -/
theorem older_change_replaces_after_restart :
    let steps : List ServerStep :=
      [.push (.ticking 1) ⟨"a", "new", 10, "one"⟩, .restart [],
        .push (.ticking 11) ⟨"a", "old", 5, "two"⟩]
    let history := steps.foldl (serve .default) (.start .empty)
    history.accepted = [⟨"a", "old", 5, "two"⟩, ⟨"a", "new", 10, "one"⟩] ∧
      (history.server.store.getCf 50 "default" (utf8 "a")).1 = .ok (some (utf8 "old")) ∧
      ¬ history.ShowsNewest := by
  intro steps history
  let first : SyncChange := ⟨"a", "new", 10, "one"⟩
  have again : (stored first).serve .default (.restart []) = restarted first :=
    serve_restart (.of_logs (by decide +kernel)) (.of_logs (by decide +kernel)) rfl
  have final : history = (restarted first).serve .default
      (.push (.ticking 11) ⟨"a", "old", 5, "two"⟩) := by
    rw [← again]
    rfl
  have accepted : history.accepted = [⟨"a", "old", 5, "two"⟩, ⟨"a", "new", 10, "one"⟩] := by
    rw [final]
    decide +kernel
  have read : (history.server.store.getCf 50 "default" (utf8 "a")).1 =
      .ok (some (utf8 "old")) := by
    rw [final]
    decide +kernel
  refine ⟨accepted, read, fun newest => ?_⟩
  obtain ⟨winner, inside, same, above, shown⟩ := newest first (by simp [accepted, first])
  have highest := above first (by simp [accepted, first]) same.symm
  rw [accepted, mem_cons, mem_singleton] at inside
  rcases inside with rfl | rfl
  · exact absurd highest (by decide)
  · exact absurd (read.symm.trans (shown 50)) (by decide +kernel)

end SyncHistory

end ApexStore
