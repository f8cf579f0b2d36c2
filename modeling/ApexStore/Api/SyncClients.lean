import ApexStore.Api.Sync
import ApexStore.Api.TokenStore

/-!
# Sync clients

A connection has a task that forwards broadcasts and handles the pushes of its
client.  The ack of a push carries the changes above the timestamp the client
names, and a timestamp to name the next time: the largest one of the client's
own push.  Changes of other clients below it are not sent again, so a client
relies on the broadcasts for them, and misses those that go out while it is
away (`sync_misses_no_change`).
-/

namespace ApexStore

open SyncServer List

/-- `get_changes_since`. -/
def CrdtEngine.changesSince (crdt : CrdtEngine) (since : Nat) : List SyncChange :=
  (crdt.getAllEntries.filter fun entry => decide (since < entry.2.2)).map
    fun entry =>
      { key := lossyString entry.1, value := lossyString entry.2.1,
        timestamp := entry.2.2, deviceId := "server" }

/-- A push a task is busy with. -/
structure PushTask where
  changes : List SyncChange
  lastAck : Nat
  /-- The changes that are still to be applied. -/
  rest : List SyncChange
  /-- A change that was merged and is to be broadcast. -/
  merged : Option SyncChange
  deriving DecidableEq

/-- The timestamp of the ack: the largest one of the push. -/
def PushTask.ackTimestamp (task : PushTask) : Nat :=
  (task.changes.map (·.timestamp)).max?.getD task.lastAck

/-- A connection: the channel of its broadcasts and the push its task is busy
with. -/
structure Connection where
  queue : List SyncChange
  task : Option PushTask
  deriving DecidableEq

/-- What a client has: the last ack timestamp it got, and every change it was
sent or pushed itself. -/
structure SyncClient where
  lastAck : Nat
  held : List SyncChange

structure SyncNetwork (σ ι : Type) where
  server : SyncServer σ
  connections : ι → Option Connection
  clients : ι → SyncClient

/-- What can happen next. -/
inductive NetworkEvent (ι : Type) where
  | connect (client : ι)
  | disconnect (client : ι)
  | push (client : ι) (changes : List SyncChange)
  | applyNext (client : ι)
  | broadcast (client : ι)
  | ack (client : ι) (received : Bool)
  | deliver (client : ι)

/-- Which keys the clients may read and write, reserved ones apart. -/
abbrev SyncPolicy (ι : Type) := ι → Permission → String → Bool

def SyncPolicy.permits {ι : Type} (policy : SyncPolicy ι) (client : ι)
    (permission : Permission) (key : String) : Bool :=
  !reservedPrefix.isPrefixOf (utf8 key) && policy client permission key

namespace SyncNetwork

variable {σ ι : Type}

/-- `SyncManager::broadcast`: the change goes into every channel. -/
def broadcastAll (network : SyncNetwork σ ι) (change : SyncChange) : SyncNetwork σ ι :=
  let connections := fun client => (network.connections client).map
    fun connection => { connection with queue := connection.queue ++ [change] }
  { network with connections }

section Steps

variable [DecidableEq ι]

def start (store : σ) : SyncNetwork σ ι :=
  { server := .start store, connections := fun _ => none
    clients := fun _ => ⟨0, []⟩ }

def setConnection (network : SyncNetwork σ ι) (client : ι)
    (connection : Option Connection) : SyncNetwork σ ι :=
  { network with
    connections := Function.update network.connections client connection }

def store (network : SyncNetwork σ ι) (client : ι) (changes : List SyncChange) :
    SyncNetwork σ ι :=
  let before := network.clients client
  let after := { before with held := changes ++ before.held }
  { network with clients := Function.update network.clients client after }

/-- The client is to name this timestamp in its next push. -/
def setAck (network : SyncNetwork σ ι) (client : ι) (timestamp : Nat) :
    SyncNetwork σ ι :=
  let after := { network.clients client with lastAck := timestamp }
  { network with clients := Function.update network.clients client after }

variable (put : Bytes → Bytes → σ → Except LsmError Unit × σ)
  (policy : SyncPolicy ι)

/-- The next change of a push.  Where it is refused or cannot be stored the
client gets an error and the task is over. -/
def applyNext (network : SyncNetwork σ ι) (client : ι)
    (connection : Connection) (task : PushTask) (change : SyncChange)
    (rest : List SyncChange) : SyncNetwork σ ι :=
  if !policy.permits client .write change.key then
    network.setConnection client (some { connection with task := none })
  else
    match network.server.applyChange put change with
    | (.error _, server) =>
      { network with server }.setConnection client (some { connection with task := none })
    | (.ok (), server) =>
      let merged := if network.server.isStale change then none
        else some change
      { network with server }.setConnection client
        (some { connection with task := some { task with rest, merged } })

/-- One step of the clients, the tasks or the network between them.  Events
that are not possible change nothing. -/
def step (network : SyncNetwork σ ι) : NetworkEvent ι → SyncNetwork σ ι
  | .connect client =>
    match network.connections client with
    | none => network.setConnection client (some ⟨[], none⟩)
    | some _ => network
  | .disconnect client =>
    match network.connections client with
    | some ⟨_, none⟩ => network.setConnection client none
    | _ => network
  | .push client changes =>
    match network.connections client with
    | some ⟨queue, none⟩ =>
      let network := network.store client changes
      -- the whole push is checked before its first change is applied
      if changes.any fun change =>
          !policy.permits client .write change.key then network
      else
        network.setConnection client (some
          { queue
            task := some
              { changes, lastAck := (network.clients client).lastAck
                rest := changes, merged := none } })
    | _ => network
  | .applyNext client =>
    match network.connections client with
    | some ⟨queue, some ⟨changes, lastAck, change :: rest, none⟩⟩ =>
      let task : PushTask := ⟨changes, lastAck, change :: rest, none⟩
      network.applyNext put policy client ⟨queue, some task⟩ task change rest
    | _ => network
  | .broadcast client =>
    match network.connections client with
    | some ⟨queue, some ⟨changes, lastAck, rest, some change⟩⟩ =>
      let network := network.setConnection client
        (some ⟨queue, some ⟨changes, lastAck, rest, none⟩⟩)
      network.broadcastAll change
    | _ => network
  | .ack client received =>
    match network.connections client with
    | some ⟨queue, some ⟨changes, lastAck, [], none⟩⟩ =>
      let task : PushTask := ⟨changes, lastAck, [], none⟩
      let pending := (network.server.crdt.changesSince lastAck).filter
        fun change => policy.permits client .read change.key
      if received then
        let network := network.store client pending
        let network := network.setAck client task.ackTimestamp
        network.setConnection client (some ⟨queue, none⟩)
      else network.setConnection client none
    | _ => network
  | .deliver client =>
    match network.connections client with
    | some ⟨change :: queue, none⟩ =>
      let network := network.setConnection client (some ⟨queue, none⟩)
      if policy.permits client .read change.key then
        network.store client [change]
      else network
    | _ => network

end Steps

/-! ## What a client may rely on -/

variable (policy : SyncPolicy ι)

def Holds (network : SyncNetwork σ ι) (client : ι) (change : SyncChange) : Prop :=
  ∃ other ∈ (network.clients client).held, other.key = change.key ∧
    other.offer = change.offer

/-- After an ack: the client has the winner of every key it may read. -/
def Covered (network : SyncNetwork σ ι) (client : ι) : Prop :=
  ∀ key entry, network.server.crdt.getState (utf8 key) = some entry →
    policy.permits client .read key = true → ∃ change ∈ (network.clients client).held,
      change.key = key ∧ change.offer = entry

def Queued (network : SyncNetwork σ ι) (client : ι) (change : SyncChange) : Prop :=
  ∃ connection, network.connections client = some connection ∧ change ∈ connection.queue

/-- The change was merged by the pusher's task, which has not broadcast it
yet. -/
def MergedBy (network : SyncNetwork σ ι) (pusher : ι) (change : SyncChange) : Prop :=
  ∃ connection task, network.connections pusher = some connection ∧
    connection.task = some task ∧ task.merged = some change

def InTransit (network : SyncNetwork σ ι) (client : ι) (change : SyncChange) : Prop :=
  network.Queued client change ∨ ∃ pusher, network.MergedBy pusher change

/-- No ack will send the change, which the client may read and does not
have. -/
def Missed (network : SyncNetwork σ ι) (client : ι) (change : SyncChange) : Prop :=
  policy.permits client .read change.key = true ∧
    network.server.crdt.getState (utf8 change.key) = some change.offer ∧
    ¬ network.Holds client change ∧ change.timestamp ≤ (network.clients client).lastAck

/-- Changes that no ack will send are broadcast while the client is there,
and have been delivered before its next ack and before it leaves. -/
def Timely (network : SyncNetwork σ ι) : NetworkEvent ι → Prop
  | .broadcast pusher => ∀ change, network.MergedBy pusher change →
      ∀ client, network.connections client = none →
        ¬ network.Missed policy client change
  | .ack client true => ∀ change, network.InTransit client change →
      ¬ network.Missed policy client change
  | .ack client false => ∀ change, network.Queued client change →
      ¬ network.Missed policy client change
  | .disconnect client => ∀ change, network.Queued client change →
      ¬ network.Missed policy client change
  | _ => True

/-- Every winner a client may read is held, will be in its next ack, or is on
its way. -/
structure Tracking (network : SyncNetwork σ ι) : Prop where
  tracked : ∀ client (change : SyncChange),
    network.server.crdt.getState (utf8 change.key) = some change.offer →
    policy.permits client .read change.key = true → network.Holds client change ∨
      (network.clients client).lastAck < change.timestamp ∨
      ∃ other, network.InTransit client other ∧ other.key = change.key ∧
        other.offer = change.offer
  textual : ∀ key entry, network.server.crdt.getState key = some entry →
    ∃ text, entry.1 = utf8 text
  acked : ∀ client connection task, network.connections client = some connection →
    connection.task = some task → task.lastAck = (network.clients client).lastAck

variable {policy}

theorem tracking_start (store : σ) :
    (start store : SyncNetwork σ ι).Tracking policy := by
  refine ⟨?_, ?_, ?_⟩
  · intro client change wins
    simp [start, SyncServer.start] at wins
  · intro key entry held
    simp [start, SyncServer.start] at held
  · intro client connection task connected
    simp [start] at connected

variable {network next : SyncNetwork σ ι}

theorem Holds.congr {client : ι} {change other : SyncChange}
    (holds : network.Holds client change) (key : change.key = other.key)
    (offer : change.offer = other.offer) : network.Holds client other := by
  obtain ⟨third, inside, same_key, same_offer⟩ := holds
  exact ⟨third, inside, same_key.trans key, same_offer.trans offer⟩

/-- Nothing is merged and nothing is acked: it is enough that no change on its
way gets lost. -/
theorem Tracking.advance (tracking : network.Tracking policy)
    (same_crdt : next.server.crdt = network.server.crdt)
    (kept : ∀ client change, change ∈ (network.clients client).held →
      change ∈ (next.clients client).held) (same_ack : ∀ client,
      (next.clients client).lastAck = (network.clients client).lastAck)
        (transit : ∀ client change,
      policy.permits client .read change.key = true →
      network.server.crdt.getState (utf8 change.key) = some change.offer →
      network.InTransit client change → next.Holds client change ∨
        (network.clients client).lastAck < change.timestamp ∨
          next.InTransit client change)
    (acked : ∀ client connection task, next.connections client = some connection →
      connection.task = some task → task.lastAck = (network.clients client).lastAck) :
    next.Tracking policy := by
  refine ⟨?_, ?_, ?_⟩
  · intro client change wins readable
    rw [same_crdt] at wins
    rw [same_ack]
    rcases tracking.tracked client change wins readable with
      ⟨other, inside, same⟩ | later | ⟨other, way, same_key, same_offer⟩
    · exact .inl ⟨other, kept client other inside, same⟩
    · exact .inr (.inl later)
    · rcases transit client other (by rwa [same_key])
        (by rwa [same_key, same_offer]) way with holds | later | way'
      · exact .inl (holds.congr same_key same_offer)
      · have same_stamp : other.timestamp = change.timestamp := congrArg Prod.snd same_offer
        exact .inr (.inl (same_stamp ▸ later))
      · exact .inr (.inr ⟨other, way', same_key, same_offer⟩)
  · intro key entry held
    rw [same_crdt] at held
    exact tracking.textual key entry held
  · intro client connection task connected busy
    rw [same_ack]
    exact acked client connection task connected busy

theorem held_or_later {client : ι} {change : SyncChange}
    (found : ¬ network.Missed policy client change)
    (readable : policy.permits client .read change.key = true)
    (wins : network.server.crdt.getState (utf8 change.key) = some change.offer) :
    network.Holds client change ∨
      (network.clients client).lastAck < change.timestamp := by
  by_cases holds : network.Holds client change
  · exact .inl holds
  · refine .inr ?_
    by_contra above
    exact found ⟨readable, wins, holds, by omega⟩

/-! ## Every step keeps track -/

variable {client other pusher : ι} {change : SyncChange}

theorem Queued.broadcastAll (queued : network.Queued other change)
    (sent : SyncChange) : (network.broadcastAll sent).Queued other change := by
  obtain ⟨before, connected, waiting⟩ := queued
  refine ⟨{ before with queue := before.queue ++ [sent] }, ?_, mem_append_left _ waiting⟩
  simp [SyncNetwork.broadcastAll, connected]

theorem MergedBy.broadcastAll (merged : network.MergedBy pusher change)
    (sent : SyncChange) :
    (network.broadcastAll sent).MergedBy pusher change := by
  obtain ⟨before, task, connected, busy, waiting⟩ := merged
  refine ⟨{ before with queue := before.queue ++ [sent] }, task, ?_, busy, waiting⟩
  simp [SyncNetwork.broadcastAll, connected]

theorem queued_broadcastAll (before : Connection)
    (connected : network.connections other = some before)
    (sent : SyncChange) : (network.broadcastAll sent).Queued other sent := by
  refine ⟨{ before with queue := before.queue ++ [sent] }, ?_, by simp⟩
  simp [SyncNetwork.broadcastAll, connected]

variable [DecidableEq ι] {connection : Option Connection}

theorem Queued.setConnection (queued : network.Queued other change)
    (same : other = client → ∀ before,
      network.connections client = some before → change ∈ before.queue →
      ∃ after, connection = some after ∧ change ∈ after.queue) :
    (network.setConnection client connection).Queued other change := by
  obtain ⟨before, connected, waiting⟩ := queued
  by_cases here : other = client
  · subst here
    obtain ⟨after, replaced, waiting'⟩ := same rfl before connected waiting
    exact ⟨after, by simp [SyncNetwork.setConnection, replaced], waiting'⟩
  · exact ⟨before, by simp [SyncNetwork.setConnection, here, connected], waiting⟩

theorem MergedBy.setConnection (merged : network.MergedBy pusher change)
    (same : pusher = client → ∀ before task,
      network.connections client = some before → before.task = some task →
      task.merged = some change → ∃ after task, connection = some after ∧
        after.task = some task ∧ task.merged = some change) :
    (network.setConnection client connection).MergedBy pusher change := by
  obtain ⟨before, task, connected, busy, waiting⟩ := merged
  by_cases here : pusher = client
  · subst here
    obtain ⟨after, task', replaced, busy', waiting'⟩ :=
      same rfl before task connected busy waiting
    exact ⟨after, task', by simp [SyncNetwork.setConnection, replaced], busy', waiting'⟩
  · exact ⟨before, task, by simp [SyncNetwork.setConnection, here, connected], busy, waiting⟩

variable {before : Connection} {changes queue : List SyncChange}

/-- A connection whose task has nothing merged can be replaced by one with the
same queue. -/
theorem InTransit.setConnection {after : Connection}
    (transit : network.InTransit other change)
    (found : network.connections client = some before)
    (nothing : ∀ task, before.task = some task → task.merged = none)
    (queue : ∀ waiting ∈ before.queue, waiting ∈ after.queue) :
    (network.setConnection client (some after)).InTransit other change := by
  rcases transit with queued | ⟨pusher, merged⟩
  · refine .inl (queued.setConnection ?_)
    intro _ connection same waiting
    cases found.symm.trans same
    exact ⟨after, rfl, queue change waiting⟩
  · refine .inr ⟨pusher, merged.setConnection ?_⟩
    intro _ connection task same busy waiting
    cases found.symm.trans same
    rw [nothing task busy] at waiting
    cases waiting

theorem Tracking.acked_setConnection (tracking : network.Tracking policy)
    (own : ∀ after task, connection = some after → after.task = some task →
      task.lastAck = (network.clients client).lastAck) : ∀ other after task,
      (network.setConnection client connection).connections other =
        some after → after.task = some task →
          task.lastAck = (network.clients other).lastAck := by
  intro other after task connected busy
  by_cases here : other = client
  · subst here
    simp only [SyncNetwork.setConnection, Function.update_self] at connected
    exact own after task connected busy
  · simp only [SyncNetwork.setConnection, ne_eq, here, not_false_eq_true,
      Function.update_of_ne] at connected
    exact tracking.acked other after task connected busy

theorem held_store (held : change ∈ (network.clients other).held) :
    change ∈ ((network.store client changes).clients other).held := by
  by_cases here : other = client
  · subst here
    simp [store, held]
  · simp [store, here, held]

theorem stored (inside : change ∈ changes) :
    change ∈ ((network.store client changes).clients client).held := by
  simp [store, inside]

@[simp] theorem lastAck_store (changes : List SyncChange) :
    ((network.store client changes).clients other).lastAck =
      (network.clients other).lastAck := by
  by_cases here : other = client
  · subst here
    simp [store]
  · simp [store, here]

variable {put : Bytes → Bytes → σ → Except LsmError Unit × σ}

section

variable (tracking : network.Tracking policy)
include tracking

theorem Tracking.connect (client : ι) :
    (network.step put policy (.connect client)).Tracking policy := by
  rw [step]
  split
  · next found =>
    refine tracking.advance rfl (fun _ _ held => held) (fun _ => rfl) ?_
      (tracking.acked_setConnection ?_)
    rotate_left
    · intro after task same busy
      cases same
      cases busy
    intro other change _ _ transit
    refine .inr (.inr ?_)
    rcases transit with queued | ⟨pusher, merged⟩
    · refine .inl (queued.setConnection ?_)
      intro _ before same
      cases found.symm.trans same
    · refine .inr ⟨pusher, merged.setConnection ?_⟩
      intro _ before task same
      cases found.symm.trans same
  · exact tracking

theorem Tracking.remove (found : network.connections client = some before)
    (nothing : ∀ task, before.task = some task → task.merged = none)
    (timely : ∀ change, network.Queued client change →
      ¬ network.Missed policy client change) :
    (network.setConnection client none).Tracking policy := by
  refine tracking.advance rfl (fun _ _ held => held) (fun _ => rfl) ?_
    (tracking.acked_setConnection (by simp))
  intro other change readable wins transit
  rcases transit with queued | ⟨pusher, merged⟩
  · by_cases here : other = client
    · subst here
      rcases held_or_later (timely change queued) readable wins with holds | later
      · exact .inl holds
      · exact .inr (.inl later)
    · refine .inr (.inr (.inl (queued.setConnection ?_)))
      exact fun same => absurd same here
  · refine .inr (.inr (.inr ⟨pusher, merged.setConnection ?_⟩))
    intro _ connection task same busy waiting
    cases found.symm.trans same
    rw [nothing task busy] at waiting
    cases waiting

theorem Tracking.disconnect (timely : network.Timely policy (.disconnect client)) :
    (network.step put policy (.disconnect client)).Tracking policy := by
  rw [step]
  split
  · next found => exact tracking.remove found (by simp) timely
  · exact tracking

theorem Tracking.push (client : ι) (changes : List SyncChange) :
    (network.step put policy (.push client changes)).Tracking policy := by
  have stored : (network.store client changes).Tracking policy := by
    refine tracking.advance rfl (fun _ _ => held_store) (fun _ => by simp) ?_ tracking.acked
    exact fun _ _ _ _ transit => .inr (.inr transit)
  rw [step]
  split
  · next queue found =>
    split
    · exact stored
    · refine stored.advance rfl (fun _ _ held => held) (fun _ => rfl) ?_
        (stored.acked_setConnection ?_)
      · intro other change _ _ transit
        exact .inr (.inr (transit.setConnection found (by simp) (fun _ waiting => waiting)))
      · intro after task same busy
        cases same
        cases busy
        rfl
  · exact tracking

theorem Tracking.replaceTask (found : network.connections client = some before)
    (nothing : ∀ task, before.task = some task → task.merged = none)
    (after : Connection)
    (queue : after.queue = before.queue) (lastAck : ∀ task, after.task = some task →
      task.lastAck = (network.clients client).lastAck) {server : SyncServer σ}
    (same_crdt : server.crdt = network.server.crdt) :
    ({ network with server }.setConnection client (some after)).Tracking policy := by
  refine tracking.advance same_crdt (fun _ _ held => held) (fun _ => rfl) ?_
    (tracking.acked_setConnection ?_)
  · intro other change _ _ transit
    refine .inr (.inr ?_)
    have replaced := transit.setConnection found nothing
      (by simp [queue] : ∀ waiting ∈ before.queue, waiting ∈ after.queue)
    exact replaced
  · intro connection task same busy
    cases same
    exact lastAck task busy

theorem Tracking.merged {task : PushTask}
    (found : network.connections client = some ⟨queue, some task⟩)
    (nothing : task.merged = none) {change : SyncChange}
    (newer : network.server.isStale change = false) (rest : List SyncChange)
    (store : σ) :
    ({ network with server := ⟨store, network.server.crdt.merge
        (utf8 change.key) (utf8 change.value) change.timestamp⟩
      }.setConnection client
        (some ⟨queue, some { task with rest, merged := some change }⟩)).Tracking
      policy := by
  have won := merge_of_newer newer
  rw [SyncChange.offer] at won
  have way : ∀ other, (SyncNetwork.setConnection { network with
      server := ⟨store, network.server.crdt.merge (utf8 change.key)
        (utf8 change.value) change.timestamp⟩ } client
        (some ⟨queue, some { task with rest, merged := some change }⟩)).InTransit
      other change := by
    intro other
    exact .inr ⟨client, ⟨queue, _⟩, { task with rest, merged := some change },
      by simp [setConnection], rfl, rfl⟩
  refine ⟨?_, ?_, tracking.acked_setConnection ?_⟩
  · intro other winner wins readable
    change (network.server.crdt.merge _ _ _).getState _ = _ at wins
    rw [CrdtEngine.getState_merge] at wins
    by_cases here : change.key = winner.key
    · rw [if_pos (congrArg utf8 here), won] at wins
      exact .inr (.inr ⟨change, way other, here, Option.some.inj wins⟩)
    · rw [if_neg (fun same => here (utf8_injective same))] at wins
      rcases tracking.tracked other winner wins readable with holds | later |
        ⟨third, transit, same⟩
      · exact .inl holds
      · exact .inr (.inl later)
      · refine .inr (.inr ⟨third, ?_, same⟩)
        refine transit.setConnection found ?_ (fun _ waiting => waiting)
        intro other busy
        cases busy
        exact nothing
  · intro key entry held
    change (network.server.crdt.merge _ _ _).getState _ = _ at held
    rw [CrdtEngine.getState_merge] at held
    split at held
    · rw [won] at held
      cases held
      exact ⟨change.value, rfl⟩
    · exact tracking.textual key entry held
  · intro after other same busy
    cases same
    cases busy
    exact tracking.acked client _ task found rfl

theorem Tracking.applyNext (client : ι) :
    (network.step put policy (.applyNext client)).Tracking policy := by
  rw [step]
  split
  · next queue changes lastAck change rest found =>
    have acked : lastAck = (network.clients client).lastAck :=
      tracking.acked client _ _ found rfl
    have nothing : ∀ task, (Connection.mk queue
        (some ⟨changes, lastAck, change :: rest, none⟩)).task = some task →
        task.merged = none := by
      intro task busy
      cases busy
      rfl
    have ended : ∀ server : SyncServer σ, server.crdt = network.server.crdt →
        (SyncNetwork.setConnection { network with server } client
          (some ⟨queue, none⟩)).Tracking policy := fun server same_crdt =>
      tracking.replaceTask found nothing ⟨queue, none⟩ rfl (by simp) same_crdt
    unfold SyncNetwork.applyNext
    split
    · exact ended network.server rfl
    · have outcome := applyChange_outcome put change network.server
      generalize network.server.applyChange put change = result at outcome ⊢
      cases outcome with
      | refused _ => exact ended network.server rfl
      | failed _ _ error store _ => exact ended _ rfl
      | stale _ older =>
        rw [older]
        refine tracking.replaceTask found nothing
          ⟨queue, some ⟨changes, lastAck, rest, none⟩⟩ rfl ?_ rfl
        intro task busy
        cases busy
        exact acked
      | stored _ newer store _ =>
        rw [newer]
        exact tracking.merged found rfl newer rest store
  · exact tracking

theorem Tracking.broadcast (timely : network.Timely policy (.broadcast client)) :
    (network.step put policy (.broadcast client)).Tracking policy := by
  rw [step]
  split
  · next queue changes lastAck rest change found =>
    have own : network.MergedBy client change := ⟨_, _, found, rfl, rfl⟩
    have acked : lastAck = (network.clients client).lastAck :=
      tracking.acked client _ _ found rfl
    refine tracking.advance rfl (fun _ _ held => held) (fun _ => rfl) ?_ ?_
    · intro other winner readable wins transit
      rcases transit with queued | ⟨pusher, merged⟩
      · refine .inr (.inr (.inl (Queued.broadcastAll ?_ change)))
        apply queued.setConnection
        intro _ before same waiting
        cases found.symm.trans same
        exact ⟨_, rfl, waiting⟩
      · by_cases here : pusher = client
        · -- the change that is broadcast now
          obtain ⟨before, task, connected, busy, waiting⟩ := merged
          rw [here] at connected
          cases found.symm.trans connected
          cases busy
          cases waiting
          cases there : network.connections other with
          | none =>
            rcases held_or_later
              (timely change own other there) readable wins with holds | later
            · exact .inl holds
            · exact .inr (.inl later)
          | some before =>
            refine .inr (.inr (.inl ?_))
            by_cases self : other = client
            · subst self
              exact queued_broadcastAll ⟨queue, some ⟨changes, lastAck, rest, none⟩⟩
                (by simp [setConnection]) change
            · exact queued_broadcastAll before (by simp [setConnection, self, there]) change
        · refine .inr (.inr (.inr ⟨pusher, MergedBy.broadcastAll ?_ change⟩))
          exact merged.setConnection (fun same => absurd same here)
    · intro other after task connected busy
      obtain ⟨before, connected', rfl⟩ : ∃ before,
          (network.setConnection client (some ⟨queue, some
            ⟨changes, lastAck, rest, none⟩⟩)).connections other = some before ∧
          { before with queue := before.queue ++ [change] } = after := by
        simpa [broadcastAll] using connected
      refine tracking.acked_setConnection ?_ other before task connected' busy
      intro after task same busy
      cases same
      cases busy
      exact acked
  · exact tracking

theorem Tracking.deliver (client : ι) :
    (network.step put policy (.deliver client)).Tracking policy := by
  rw [step]
  split
  · next change queue found =>
    -- what a client may not read is dropped
    have transit :
        ∀ other (winner : SyncChange), policy.permits other .read winner.key = true →
        network.InTransit other winner →
        (network.setConnection client (some ⟨queue, none⟩)).InTransit other winner ∨
          other = client ∧ winner = change := by
      intro other winner readable transit
      rcases transit with queued | ⟨pusher, merged⟩
      · by_cases here : other = client ∧ winner = change
        · exact .inr here
        · refine .inl (.inl (queued.setConnection ?_))
          intro same before connected waiting
          cases found.symm.trans connected
          refine ⟨_, rfl, ?_⟩
          rcases mem_cons.mp waiting with first | later
          · exact absurd ⟨same, first⟩ here
          · exact later
      · refine .inl (.inr ⟨pusher, merged.setConnection ?_⟩)
        intro _ before task connected busy
        cases found.symm.trans connected
        cases busy
    have idle : ∀ after task, some (Connection.mk queue none) = some after →
        after.task = some task → task.lastAck = (network.clients client).lastAck := by
      intro after task same busy
      cases same
      cases busy
    split
    · refine tracking.advance rfl (fun _ _ => held_store)
        (fun _ => by rw [lastAck_store]; rfl) ?_
        (tracking.acked_setConnection idle)
      intro other winner readable _ way
      rcases transit other winner readable way with way | ⟨rfl, rfl⟩
      · exact .inr (.inr way)
      · exact .inl ⟨winner, stored (by simp), rfl, rfl⟩
    · next hidden =>
      refine tracking.advance rfl (fun _ _ held => held) (fun _ => rfl) ?_
        (tracking.acked_setConnection idle)
      intro other winner readable _ way
      rcases transit other winner readable way with way | ⟨rfl, rfl⟩
      · exact .inr (.inr way)
      · exact absurd readable hidden
  · exact tracking

/-! ## Acks -/

end

theorem mem_changesSince {crdt : CrdtEngine} {change : SyncChange}
    (wins : crdt.getState (utf8 change.key) = some change.offer) {since : Nat}
    (later : since < change.timestamp) :
    { change with deviceId := "server" } ∈ crdt.changesSince since := by
  refine mem_map.mpr ⟨(utf8 change.key, change.offer), ?_, ?_⟩
  · refine mem_filter.mpr ⟨?_, decide_eq_true later⟩
    exact (ByteMap.mem_toList crdt _ _).mpr wins
  · simp [SyncChange.offer, lossyString_utf8]

variable {winner : SyncChange} {lastAck : Nat}

/-- An ack that is received and no change on its way that the client needs:
the client has all winners. -/
theorem Tracking.holds_after_ack (tracking : network.Tracking policy)
    (timely : network.Timely policy (.ack client true))
    (wins : network.server.crdt.getState (utf8 winner.key) = some winner.offer)
    (readable : policy.permits client .read winner.key = true) :
    (network.store client ((network.server.crdt.changesSince
      (network.clients client).lastAck).filter fun change =>
        policy.permits client .read change.key)).Holds client winner := by
  have found : network.Holds client winner ∨
      (network.clients client).lastAck < winner.timestamp := by
    rcases tracking.tracked client winner wins readable with
      holds | later | ⟨other, way, same_key, same_offer⟩
    · exact .inl holds
    · exact .inr later
    · rcases held_or_later (timely other way) (by rwa [same_key])
        (by rwa [same_key, same_offer]) with holds | later
      · exact .inl (holds.congr same_key same_offer)
      · have same_stamp : other.timestamp = winner.timestamp := congrArg Prod.snd same_offer
        exact .inr (same_stamp ▸ later)
  rcases found with ⟨other, inside, same⟩ | later
  · exact ⟨other, held_store inside, same⟩
  · refine ⟨{ winner with deviceId := "server" }, stored ?_, rfl, rfl⟩
    exact mem_filter.mpr ⟨mem_changesSince wins later, readable⟩

/-- The client's push is through, and its ack is next. -/
def AckReady (network : SyncNetwork σ ι) (client : ι) : Prop :=
  ∃ queue changes lastAck,
    network.connections client = some ⟨queue, some ⟨changes, lastAck, [], none⟩⟩

theorem step_ack (found : network.connections client =
      some ⟨queue, some ⟨changes, lastAck, [], none⟩⟩) :
    network.step put policy (.ack client true) =
      ((network.store client
        ((network.server.crdt.changesSince lastAck).filter fun change =>
            policy.permits client .read change.key)).setAck client
        (PushTask.ackTimestamp ⟨changes, lastAck, [], none⟩)).setConnection
          client (some ⟨queue, none⟩) := by
  rw [step, found]
  rfl

theorem holds_setAck (holds : network.Holds client winner) (timestamp : Nat)
    (connection : Option Connection) :
    ((network.setAck client timestamp).setConnection client
      connection).Holds client winner := by
  obtain ⟨other, inside, same⟩ := holds
  exact ⟨other, by simpa [setAck, setConnection] using inside, same⟩

theorem clients_setAck (apart : other ≠ client) (sent : List SyncChange)
    (timestamp : Nat) (connection : Option Connection) :
    (((network.store client sent).setAck client timestamp).setConnection client
      connection).clients other = network.clients other := by
  simp [setAck, setConnection, store, apart]

theorem Tracking.ack_received (tracking : network.Tracking policy)
    (timely : network.Timely policy (.ack client true))
    (found : network.connections client =
      some ⟨queue, some ⟨changes, lastAck, [], none⟩⟩) :
    (network.step put policy (.ack client true)).Tracking policy := by
  have acked : lastAck = (network.clients client).lastAck :=
    tracking.acked client _ _ found rfl
  rw [step_ack found, acked]
  refine ⟨?_, tracking.textual, ?_⟩
  · intro other winner wins readable
    by_cases here : other = client
    · subst here
      exact .inl (holds_setAck (tracking.holds_after_ack timely wins readable) _ _)
    · have untouched := @clients_setAck _ _ network client other _ here
      rcases tracking.tracked other winner wins readable with holds | later |
        ⟨third, way, same⟩
      · refine .inl ?_
        rw [Holds, untouched]
        exact holds
      · refine .inr (.inl ?_)
        rw [untouched]
        exact later
      · refine .inr (.inr ⟨third, ?_, same⟩)
        have replaced : (network.setConnection client
            (some ⟨queue, none⟩)).InTransit other third := by
          refine way.setConnection found ?_ (fun _ waiting => waiting)
          intro task busy
          cases busy
          rfl
        exact replaced
  · intro other after task connected busy
    by_cases here : other = client
    · subst here
      simp only [setConnection, Function.update_self, Option.some.injEq] at connected
      rw [← connected] at busy
      cases busy
    · rw [clients_setAck here]
      simp only [setConnection, ne_eq, here, not_false_eq_true,
        Function.update_of_ne] at connected
      exact tracking.acked other after task connected busy

theorem Tracking.ack (tracking : network.Tracking policy) {received : Bool}
    (timely : network.Timely policy (.ack client received)) :
    (network.step put policy (.ack client received)).Tracking policy := by
  by_cases ready : network.AckReady client
  · obtain ⟨queue, changes, lastAck, found⟩ := ready
    cases received with
    | true => exact tracking.ack_received timely found
    | false =>
      rw [step, found]
      refine tracking.remove found ?_ timely
      intro task busy
      cases busy
      rfl
  · rw [step]
    split
    · next queue changes lastAck found =>
      exact absurd ⟨queue, changes, lastAck, found⟩ ready
    · exact tracking

theorem Tracking.step (tracking : network.Tracking policy) {event : NetworkEvent ι}
    (timely : network.Timely policy event) :
    (network.step put policy event).Tracking policy := by
  cases event with
  | connect client => exact tracking.connect client
  | disconnect client => exact tracking.disconnect timely
  | push client changes => exact tracking.push client changes
  | applyNext client => exact tracking.applyNext client
  | broadcast client => exact tracking.broadcast timely
  | ack client received => exact tracking.ack timely
  | deliver client => exact tracking.deliver client

/-- As long as the changes that no ack will send reach the clients in time, a
client that gets an ack has the winner of every key it may read. -/
theorem sync_misses_no_change (put : Bytes → Bytes → σ → Except LsmError Unit × σ)
    (policy : SyncPolicy ι) (store : σ) (events : List (NetworkEvent ι)) (client : ι)
    (run : Guarded (SyncNetwork.step put policy) (Timely policy)
      (SyncNetwork.start store) (events ++ [.ack client true]))
    (ready : (events.foldl (SyncNetwork.step put policy)
      (SyncNetwork.start store)).AckReady client) :
    ((events ++ [NetworkEvent.ack client true]).foldl
      (SyncNetwork.step put policy)
        (SyncNetwork.start store)).Covered policy client := by
  have tracking : (events.foldl (SyncNetwork.step put policy)
      (SyncNetwork.start store)).Tracking policy :=
    run.front.invariant (fun _ _ tracking timely => tracking.step timely)
      (tracking_start store)
  have timely := run.of_append.1
  rw [foldl_append, foldl_cons]
  generalize events.foldl (SyncNetwork.step put policy)
    (SyncNetwork.start store) = network at tracking timely ready ⊢
  obtain ⟨queue, changes, lastAck, found⟩ := ready
  have acked : lastAck = (network.clients client).lastAck :=
    tracking.acked client _ _ found rfl
  intro key entry held readable
  rw [step_ack found, acked] at held ⊢
  obtain ⟨text, same⟩ := tracking.textual (utf8 key) entry held
  -- the entry as a change
  let winner : SyncChange := ⟨key, text, entry.2, "server"⟩
  have offer : winner.offer = entry := Prod.ext same.symm rfl
  have wins : network.server.crdt.getState (utf8 winner.key) = some winner.offer := by
    rw [offer]
    exact held
  obtain ⟨change, inside, same_key, same_offer⟩ :=
    holds_setAck (tracking.holds_after_ack timely wins readable) _ _
  exact ⟨change, inside, same_key, same_offer.trans offer⟩

/-! ## A change that is missed -/

def openPolicy : SyncPolicy Bool := fun _ _ _ => true

/-- A client connects and pushes a change, which is applied. -/
def pushOne (client : Bool) (change : SyncChange) : List (NetworkEvent Bool) :=
  [.connect client, .push client [change], .applyNext client, .broadcast client]

/-- The ack of one client brings it the change that another one has pushed
while it was away. -/
theorem sync_covers_late_client :
    let start : SyncNetwork (ByteMap Bytes) Bool := .start ∅
    let step := SyncNetwork.step Storage.ofMap.put openPolicy
    let events := pushOne true ⟨"b", "y", 7, "two"⟩ ++ pushOne false ⟨"a", "x", 5, "one"⟩
    Guarded step (Timely openPolicy) start (events ++ [.ack false true]) ∧
      (events.foldl step start).AckReady false ∧
      ((events ++ [NetworkEvent.ack false true]).foldl step start).Covered
        openPolicy false := by
  intro start step events
  -- nobody has got an ack, so that no change of the run is missed
  have unacked : ∀ count ∈ [3, 7, 8], ∀ client,
      (((events.take count).foldl step start).clients client).lastAck = 0 := by
    decide +kernel
  have merged : ((events.take 3).foldl step start).connections true =
      some ⟨[], some ⟨[⟨"b", "y", 7, "two"⟩], 0, [], some ⟨"b", "y", 7, "two"⟩⟩⟩ := by
    decide +kernel
  have merged' : ((events.take 7).foldl step start).connections false =
      some ⟨[], some ⟨[⟨"a", "x", 5, "one"⟩], 0, [], some ⟨"a", "x", 5, "one"⟩⟩⟩ := by
    decide +kernel
  have queued : (events.foldl step start).connections false =
      some ⟨[⟨"a", "x", 5, "one"⟩], some ⟨[⟨"a", "x", 5, "one"⟩], 0, [], none⟩⟩ := by
    decide +kernel
  have idle : ∀ pusher connection, (events.foldl step start).connections pusher =
      some connection → ∀ task, connection.task = some task → task.merged = none := by
    decide +kernel
  have run : Guarded step (Timely openPolicy) start (events ++ [.ack false true]) := by
    refine ⟨trivial, trivial, trivial, ?_, trivial, trivial, trivial, ?_, ?_, trivial⟩
    · rintro change ⟨connection, task, connected, busy, only⟩ client _ missed
      cases merged.symm.trans connected
      cases busy
      cases only
      cases missed.2.2.2.trans_eq (unacked 3 (by decide) client)
    · rintro change ⟨connection, task, connected, busy, only⟩ client _ missed
      cases merged'.symm.trans connected
      cases busy
      cases only
      cases missed.2.2.2.trans_eq (unacked 7 (by decide) client)
    · rintro change (⟨connection, connected, waiting⟩ |
        ⟨pusher, connection, task, connected, busy, only⟩) missed
      · cases queued.symm.trans connected
        cases mem_singleton.mp waiting
        cases missed.2.2.2.trans_eq (unacked 8 (by decide) false)
      · cases (idle pusher connection connected task busy).symm.trans only
  have ready : (events.foldl step start).AckReady false := ⟨_, _, _, queued⟩
  exact ⟨run, ready,
    sync_misses_no_change Storage.ofMap.put openPolicy ∅ events false run ready⟩

/-- A change with a lower timestamp comes in while a client is away: the
client never gets it. -/
theorem sync_misses_change_of_absent_client :
    let start : SyncNetwork (ByteMap Bytes) Bool := .start ∅
    let step := SyncNetwork.step Storage.ofMap.put openPolicy
    let events := pushOne false ⟨"a", "x", 100, "one"⟩ ++
      [.ack false true, .deliver false, .disconnect false] ++
      pushOne true ⟨"b", "y", 50, "two"⟩ ++ [.ack true true] ++
      pushOne false ⟨"a", "z", 101, "one"⟩
    (events.foldl step start).AckReady false ∧
      ¬ ((events ++ [NetworkEvent.ack false true]).foldl step start).Covered
        openPolicy false := by
  intro start step events
  have ready : (events.foldl step start).connections false =
      some ⟨[⟨"a", "z", 101, "one"⟩], some ⟨[⟨"a", "z", 101, "one"⟩], 100, [], none⟩⟩ := by
    decide +kernel
  refine ⟨⟨_, _, _, ready⟩, ?_⟩
  intro covered
  obtain ⟨change, inside, same_key, _⟩ := covered "b" (utf8 "y", 50)
    (by decide +kernel) (by decide +kernel)
  have others : ∀ change ∈ (((events ++ [NetworkEvent.ack false true]).foldl
      step start).clients false).held, change.key ≠ "b" := by decide +kernel
  exact others change inside same_key

end SyncNetwork

end ApexStore
