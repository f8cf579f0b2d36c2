import ApexStore.Engine.CrashCut

/-!
# Replication

A primary hands the records of its writes to a task that collects them and, at
every tick, posts what it has to each replica.  A frame that a replica does not
acknowledge is not sent again, and a transaction hands nothing over: a replica
has a front part of the history only as long as neither shows
(`replica_has_front_of_history`).
-/

namespace ApexStore

open List

/-- A mutation of the primary that has been acknowledged. -/
inductive Mutation where
  | write (call : WriteCall)
  | batch (call : BatchCall)

namespace Mutation

variable (options : EngineOptions)

/-- The records of the mutation, in the order in which they are logged. -/
def records : Mutation → List LogRecord
  | write call => [(call.entry options).record]
  | batch call => call.entries.map (·.record)

/-- What is handed to `ship_records`: `Transaction::commit` does not call
it. -/
def shipped : Mutation → List LogRecord
  | batch (.commit _ _) => []
  | mutation => mutation.records options

end Mutation

/-- What the task knows of a replica, with what the replica has
acknowledged. -/
structure ReplicaState where
  consecutiveFailures : Nat
  acknowledged : List LogRecord

/-- The primary: its history, the channel of the task, and the task. -/
structure ReplicationState (ι : Type) where
  history : List Mutation
  channel : List (List LogRecord)
  batch : List LogRecord
  sequence : Nat
  replicas : ι → ReplicaState

/-- A write, the task taking records from the channel, or its tick: whether
the frame can be serialised, and which replicas acknowledge it. -/
inductive ReplicationEvent (ι : Type) where
  | mutate (mutation : Mutation)
  | receive
  | tick (serialised : Bool) (delivered : ι → Bool)

namespace ReplicaState

def post (frame : List LogRecord) (delivered : Bool) (replica : ReplicaState) :
    ReplicaState :=
  if delivered then ⟨0, replica.acknowledged ++ frame⟩
  else { replica with
    consecutiveFailures := replica.consecutiveFailures + 1 }

end ReplicaState

namespace ReplicationState

variable {ι : Type}

def start : ReplicationState ι := ⟨[], [], [], 0, fun _ => ⟨0, []⟩⟩

variable (options : EngineOptions)

def step (state : ReplicationState ι) : ReplicationEvent ι → ReplicationState ι
  | .mutate mutation =>
    let channel := match mutation.shipped options with
      | [] => state.channel
      | records => state.channel ++ [records]
    { state with history := state.history ++ [mutation], channel }
  | .receive =>
    match state.channel with
    | [] => state
    | records :: channel =>
      { state with batch := state.batch ++ records, channel }
  | .tick serialised delivered =>
    if state.batch.isEmpty then state
    else
      -- the batch is gone whatever becomes of the frame
      let next := { state with batch := [], sequence := state.sequence + 1 }
      if serialised then
        { next with replicas := fun replica =>
            (state.replicas replica).post state.batch (delivered replica) }
      else next

def records (state : ReplicationState ι) : List LogRecord :=
  state.history.flatMap (·.records options)

def Replicates (replica : ι) (state : ReplicationState ι) : Prop :=
  (state.replicas replica).acknowledged <+: state.records options

/-- Every mutation so far has handed over its records. -/
def Shipped (state : ReplicationState ι) : Prop :=
  ∀ mutation ∈ state.history, mutation.shipped options = mutation.records options

/-- Nothing is handed over after a transaction that wrote something, and no
frame arrives after one that was lost. -/
def Unbroken (replica : ι) (state : ReplicationState ι) : ReplicationEvent ι → Prop
  | .mutate mutation => mutation.shipped options ≠ [] → state.Shipped options
  | .receive => True
  | .tick serialised delivered =>
    state.batch ≠ [] → serialised = true ∧ (delivered replica = true →
        (state.replicas replica).consecutiveFailures = 0)

/-- What the replica has, what the task has and what is in the channel stand
in the order of the history, as far as they are there. -/
structure Ordered (replica : ι) (state : ReplicationState ι) : Prop where
  complete : (state.replicas replica).consecutiveFailures = 0 →
    (state.replicas replica).acknowledged ++ state.batch ++
      state.channel.flatten <+: state.records options
  whole : (state.replicas replica).consecutiveFailures = 0 → state.Shipped options →
    (state.replicas replica).acknowledged ++ state.batch ++
      state.channel.flatten = state.records options
  front : state.Replicates options replica

variable {options} {replica : ι} {state : ReplicationState ι}

theorem shipped_eq_or_nil (mutation : Mutation) :
    mutation.shipped options = mutation.records options ∨
      mutation.shipped options = [] := by
  cases mutation with
  | write call => exact .inl rfl
  | batch call =>
    cases call with
    | commit stamps txn => exact .inr rfl
    | setBatch cf items | deleteBatch cf keys => exact .inl rfl

theorem flatten_channel (records : List LogRecord) (channel : List (List LogRecord)) :
    (match records with
      | [] => channel
      | records => channel ++ [records]).flatten =
      channel.flatten ++ records := by
  cases records <;> simp

theorem records_mutate (mutation : Mutation) :
    (state.step options (.mutate mutation)).records options =
      state.records options ++ mutation.records options := by
  simp [step, records]

section

variable (ordered : state.Ordered options replica)
include ordered

theorem Ordered.mutate {mutation : Mutation}
    (unbroken : state.Unbroken options replica (.mutate mutation)) :
    (state.step options (.mutate mutation)).Ordered options replica := by
  have extended : state.records options <+:
      (state.step options (.mutate mutation)).records options := by
    rw [records_mutate]
    exact prefix_append _ _
  refine ⟨?_, ?_, ordered.front.trans extended⟩
  · intro working
    rw [records_mutate]
    simp only [step, flatten_channel, ← append_assoc]
    rcases shipped_eq_or_nil mutation with same | nothing
    · by_cases empty : mutation.shipped options = []
      · rw [empty, append_nil]
        exact (ordered.complete working).trans (prefix_append _ _)
      · rw [ordered.whole working (unbroken empty), same]
    · rw [nothing, append_nil]
      exact (ordered.complete working).trans (prefix_append _ _)
  · intro working shipped
    have earlier : state.Shipped options := fun other inside =>
      shipped other (mem_append_left _ inside)
    have own := shipped mutation (by simp [step])
    rw [records_mutate]
    simp only [step, flatten_channel, ← append_assoc]
    rw [ordered.whole working earlier, own]

theorem Ordered.receive :
    (state.step options .receive).Ordered options replica := by
  rw [step]
  split
  · exact ordered
  · next records channel found =>
    have same : (state.replicas replica).acknowledged ++
        (state.batch ++ records) ++ channel.flatten =
        (state.replicas replica).acknowledged ++ state.batch ++ state.channel.flatten := by
      simp [found]
    refine ⟨?_, ?_, ordered.front⟩
    · intro working
      rw [same]
      exact ordered.complete working
    · intro working shipped
      rw [same]
      exact ordered.whole working shipped

theorem Ordered.tick {serialised : Bool} {delivered : ι → Bool}
    (unbroken : state.Unbroken options replica (.tick serialised delivered)) :
    (state.step options (.tick serialised delivered)).Ordered options replica := by
  rw [step]
  split
  · exact ordered
  · next nonempty =>
    obtain ⟨done, lossless⟩ := unbroken (by simpa using nonempty)
    rw [done, if_pos rfl]
    cases arrived : delivered replica with
    | false =>
      refine ⟨?_, ?_, ?_⟩
      · intro working
        simp [ReplicaState.post, arrived] at working
      · intro working
        simp [ReplicaState.post, arrived] at working
      · simpa [Replicates, ReplicaState.post, arrived, records] using ordered.front
    | true =>
      have working := lossless arrived
      have complete := ordered.complete working
      refine ⟨?_, ?_, ?_⟩
      · intro _
        simpa [ReplicaState.post, arrived, records] using complete
      · intro _ shipped
        simpa [ReplicaState.post, arrived, records] using ordered.whole working shipped
      · have front : (state.replicas replica).acknowledged ++ state.batch <+:
            state.records options := (prefix_append _ _).trans complete
        simpa [Replicates, ReplicaState.post, arrived, records] using front

end

/-- As long as no frame arrives after one that was lost, and nothing is handed
over after a transaction, what a replica has acknowledged is a front part of
the primary's history. -/
theorem replica_has_front_of_history (options : EngineOptions) (replica : ι)
    (events : List (ReplicationEvent ι))
    (run : Guarded (ReplicationState.step options) (Unbroken options replica)
      ReplicationState.start events) : (events.foldl (ReplicationState.step options)
      ReplicationState.start).Replicates options replica := by
  have ordered : (events.foldl (ReplicationState.step options)
      ReplicationState.start).Ordered options replica := by
    refine run.invariant (fun state event ordered unbroken => ?_)
      ⟨fun _ => nil_prefix, fun _ _ => rfl, nil_prefix⟩
    cases event with
    | mutate mutation => exact ordered.mutate unbroken
    | receive => exact ordered.receive
    | tick serialised delivered => exact ordered.tick unbroken
  exact ordered.front

def onePut (key : UInt8) : ReplicationEvent Unit :=
  .mutate (.write (.put (.instant 1) "default" [key] [1] none))

/-- The frame of the first put arrives, that of the second one is lost. -/
theorem replica_has_first_put :
    let events := [onePut 7, .receive, .tick true (fun _ => true), onePut 8,
      .receive, .tick true (fun _ => false)]
    Guarded (ReplicationState.step .default) (Unbroken .default ())
        ReplicationState.start events ∧
      (events.foldl (ReplicationState.step .default)
        ReplicationState.start).Replicates .default () := by
  intro events
  have run : Guarded (ReplicationState.step .default) (Unbroken .default ())
      ReplicationState.start events := by
    refine ⟨?_, trivial, fun _ => ⟨rfl, fun _ => rfl⟩, ?_, trivial,
      fun _ => ⟨rfl, nofun⟩, trivial⟩
    · intro _ mutation inside
      cases inside
    · intro _ mutation inside
      cases mem_singleton.mp inside
      rfl
  exact ⟨run, replica_has_front_of_history .default () events run⟩

/-- A frame is lost and the next one arrives; and a put arrives after a
transaction that was never handed over. -/
theorem replica_skips_records :
    let lossy := [onePut 7, .receive, .tick true (fun _ => false), onePut 8,
      .receive, .tick true (fun _ => true)]
    let commit := Transaction.begin.putCf "default" [7] [1]
    let transacted : List (ReplicationEvent Unit) :=
      [.mutate (.batch (.commit (fun _ _ => ⟨1, 1, 0⟩) commit)), onePut 8,
        .receive, .tick true (fun _ => true)]
    ∀ events ∈ [lossy, transacted],
      ¬ (events.foldl (ReplicationState.step .default)
        ReplicationState.start).Replicates .default () := by
  intro lossy commit transacted events either
  have lost : ¬ (lossy.foldl (ReplicationState.step .default)
      ReplicationState.start).Replicates .default () := by
    unfold Replicates
    decide +kernel
  have unshipped : ¬ (transacted.foldl (ReplicationState.step .default)
      ReplicationState.start).Replicates .default () := by
    unfold Replicates
    decide +kernel
  rw [mem_cons, mem_singleton] at either
  rcases either with rfl | rfl
  · exact lost
  · exact unshipped

end ReplicationState

end ApexStore
