import ApexStore.Engine.UncachedReads

/-!
# Transactions side by side

A transaction holds a write buffer and a handle on the shared engine, and
nothing of the state it began in: its reads see what the others have committed
since, and its commit overwrites it.

The sessions below keep a history of what every party did, and with each
transaction the engine as it was when the transaction began.
`transactions_are_isolated` says when the reads of every transaction show that
state and no update is lost: when nobody else has written to a key that a
transaction reads or commits.
-/

namespace ApexStore

open VersionSet EngineCore List

/-! ## Sessions -/

structure Session where
  txn : Transaction
  began : Nanos
  /-- The engine when the transaction began. -/
  snapshot : EngineCore
  ended : Bool

inductive SessionEvent where
  | began (id : Nat)
  /-- A read of a key that is not in the write buffer. -/
  | got (id : Nat) (cf : String) (key : Bytes) (result : Except LsmError (Option Bytes))
  /-- A write to the buffer. -/
  | wrote (id : Nat) (cf : String) (key : Bytes)
  | committed (id : Nat) (txn : Transaction)
  | failed (id : Nat) (txn : Transaction)
  /-- A call to the engine. -/
  | called (op : EngineOp)

/-- The engine with its transactions, which are numbered as they begin. -/
structure Sessions where
  core : EngineCore
  sessions : List Session
  history : List SessionEvent

namespace Sessions

def start (core : EngineCore) : Sessions :=
  { core, sessions := [], history := [] }

def running (state : Sessions) (id : Nat) : Option Session :=
  state.sessions[id]?.filter (fun session => !session.ended)

def update (state : Sessions) (id : Nat) (session : Session) : Sessions :=
  { state with sessions := state.sessions.set id session }

def note (state : Sessions) (event : SessionEvent) : Sessions :=
  { state with history := state.history ++ [event] }

end Sessions

inductive SessionStep where
  | begin (now : Nanos)
  | get (id : Nat) (now : Nanos) (cf : String) (key : Bytes)
  | put (id : Nat) (cf : String) (key value : Bytes)
  | delete (id : Nat) (cf : String) (key : Bytes)
  | commit (id : Nat) (context : CommitContext)
  | call (op : EngineOp)

/-- One step of one party; a step of a transaction that is not running does
nothing. -/
def SessionStep.step (options : EngineOptions) (state : Sessions) :
    SessionStep → Sessions
  | begin now =>
    { state with
      sessions := state.sessions ++
        [{ txn := .begin, began := now, snapshot := state.core
           ended := false }]
      history := state.history ++ [.began state.sessions.length] }
  | get id now cf key =>
    match state.running id with
    | none => state
    | some session =>
      let (result, core) := session.txn.getCf now cf key state.core
      match session.txn.buffered cf key with
      | some _ => { state with core }
      | none => ({ state with core }).note (.got id cf key result)
  | put id cf key value =>
    match state.running id with
    | none => state
    | some session =>
      (state.update id { session with
        txn := session.txn.putCf cf key value }).note (.wrote id cf key)
  | delete id cf key =>
    match state.running id with
    | none => state
    | some session =>
      (state.update id { session with
        txn := session.txn.deleteCf cf key }).note (.wrote id cf key)
  | commit id context =>
    match state.running id with
    | none => state
    | some session =>
      let (result, txn, core) :=
        session.txn.commit options context state.core
      (({ state with core }).update id
        { session with txn, ended := true }).note (match result with
          | .ok _ => .committed id session.txn
          | .error _ => .failed id session.txn)
  | call op =>
    ({ state with core := op.step options state.core }).note (.called op)

/-! ## Isolation -/

/-- A transaction has read a key and then written it. -/
def ReadThenWritten (history : List SessionEvent) (id : Nat) (cf : String)
    (key : Bytes) : Prop :=
  ∃ result, [SessionEvent.got id cf key result, .wrote id cf key].Sublist history

/-- Two transactions have read a key, written it and committed it, and the one
that committed later did not see what the other wrote. -/
def LostUpdate (history : List SessionEvent) : Prop :=
  ∃ before between after first second cf key txn txn', first ≠ second ∧
    history = before ++ .committed first txn :: between ++ .committed second txn' :: after ∧
    ReadThenWritten before first cf key ∧ ReadThenWritten (before ++ between) second cf key ∧
    ∀ result, .got second cf key result ∉ between

/-- Every read shows what was committed when the transaction began, and no
update is lost. -/
structure Isolated (state : Sessions) : Prop where
  reads : ∀ id cf key result, .got id cf key result ∈ state.history →
    ∀ session, state.sessions[id]? = some session →
      result = (session.snapshot.getCf session.began cf key).1
  updates : ¬ LostUpdate state.history

/-- A party other than a transaction has written to a key. -/
def SessionEvent.Writes (id : Nat) (cf : String) (key : Bytes) : SessionEvent → Prop
  | committed other txn | failed other txn =>
    other ≠ id ∧ txn.buffered cf key ≠ none
  | called op => op.Touches cf key
  | _ => False

def Overwritten (history : List SessionEvent) (id : Nat) (cf : String) (key : Bytes) :
    Prop :=
  ∃ before after event, history = before ++ .began id :: after ∧
    event ∈ after ∧ event.Writes id cf key

/-- What isolation takes, step by step: nobody else has written to a key that
a transaction reads or commits, the cache holds nothing else than the tables,
and a value that is read does not expire.  Calls to the engine and commits
change no other read. -/
def SessionStep.Separate (options : EngineOptions) (state : Sessions) :
    SessionStep → Prop
  | begin _ | put _ _ _ _ | delete _ _ _ => True
  | get id now cf key => ∀ session, state.running id = some session →
      session.txn.buffered cf key = none → ¬ Overwritten state.history id cf key ∧
        state.core.Coherent now cf key ∧
          session.snapshot.Coherent session.began cf key ∧
        session.snapshot.NeverExpires cf key
  | commit id context => ∀ session, state.running id = some session →
      CommitQuiet options context session.txn state.core ∧
        ∀ cf key, session.txn.buffered cf key ≠ none →
          ¬ Overwritten state.history id cf key
  | call op => op.Orderly options state.core ∧ op.Quiet options state.core

/-! ## Histories -/

/-- The last element of a list is the one a split is made at, or lies behind
it. -/
theorem split_concat {Item : Type} {items before after : List Item}
    {last item : Item} (same : items ++ [last] = before ++ item :: after) :
    (before = items ∧ item = last ∧ after = []) ∨
      ∃ rest, after = rest ++ [last] ∧ items = before ++ item :: rest := by
  rcases eq_nil_or_concat after with rfl | ⟨rest, other, rfl⟩
  · obtain ⟨front, back⟩ := append_inj' same rfl
    exact .inl ⟨front.symm, (singleton_inj.mp back).symm, rfl⟩
  · rw [concat_eq_append, ← cons_append, ← append_assoc] at same
    obtain ⟨front, back⟩ := append_inj' same rfl
    rw [singleton_inj.mp back]
    exact .inr ⟨rest, concat_eq_append, front⟩

section Histories

variable {history : List SessionEvent} {id : Nat} {cf : String} {key : Bytes}

theorem Overwritten.concat (overwritten : Overwritten history id cf key)
    (event : SessionEvent) : Overwritten (history ++ [event]) id cf key := by
  obtain ⟨before, after, writer, rfl, member, writes⟩ := overwritten
  refine ⟨before, after ++ [event], writer, ?_, mem_append_left _ member, writes⟩
  rw [append_assoc, cons_append]

theorem overwritten_of_began (begun : .began id ∈ history) {event : SessionEvent}
    (writes : event.Writes id cf key) :
    Overwritten (history ++ [event]) id cf key := by
  obtain ⟨before, after, rfl⟩ := append_of_mem begun
  refine ⟨before, after ++ [event], event, ?_, mem_concat_self, writes⟩
  rw [append_assoc, cons_append]

end Histories

/-- The transaction an event comes from, once it has begun. -/
def SessionEvent.actor : SessionEvent → Option Nat
  | got id _ _ _ | wrote id _ _ | committed id _ | failed id _ => some id
  | began _ | called _ => none

/-! ## The invariant -/

/-- What holds after separate steps. -/
structure Separated (options : EngineOptions) (state : Sessions) : Prop where
  core : EngineSound options state.core
  snapshots : ∀ session ∈ state.sessions, EngineSound options session.snapshot
  begun : ∀ id < state.sessions.length, .began id ∈ state.history
  known : ∀ event ∈ state.history, ∀ id, event.actor = some id → id < state.sessions.length
  acted : ∀ before event after, state.history = before ++ event :: after →
    ∀ id, event.actor = some id → .began id ∈ before
  buffers : ∀ id session, state.running id = some session → ∀ cf key,
    .wrote id cf key ∈ state.history → session.txn.buffered cf key ≠ none
  commits : ∀ before id txn after, state.history = before ++ .committed id txn ::
    after → ∀ cf key,
    .wrote id cf key ∈ before → txn.buffered cf key ≠ none
  /-- A key that nobody else has written to since a transaction began reads as
  it did then. -/
  steady : ∀ id session, state.running id = some session → ∀ cf key,
    ¬ Overwritten state.history id cf key → Steady cf key session.snapshot state.core
  isolated : Isolated state

namespace Separated

variable {options : EngineOptions} {state : Sessions}

variable {core : EngineCore} {event : SessionEvent}

theorem start (sound : EngineSound options core) :
    Separated options (.start core) where
  core := sound
  snapshots _ member := by cases member
  begun id below := by cases below
  known _ member := by cases member
  acted before event after split := by
    cases before with
    | nil | cons _ _ => cases split
  buffers id session running := by
    simp [Sessions.running, Sessions.start] at running
  commits before id txn after split := by
    cases before with
    | nil | cons _ _ => cases split
  steady id session running := by
    simp [Sessions.running, Sessions.start] at running
  isolated := by
    constructor
    · intro id cf key result member
      cases member
    · rintro ⟨before, between, after, _, _, _, _, _, _, _, split, _⟩
      cases before with
      | nil | cons _ _ => cases split

variable {id : Nat} {session : Session}

theorem running_iff : state.running id = some session ↔
      state.sessions[id]? = some session ∧ session.ended = false := by
  rw [Sessions.running]
  simp

theorem no_lost_update (separated : Separated options state)
    (running : state.running id = some session)
    (free : ∀ cf key, session.txn.buffered cf key ≠ none →
      ¬ Overwritten state.history id cf key) :
    ¬ LostUpdate (state.history ++ [.committed id session.txn]) := by
  rintro ⟨before, between, after, first, second, cf, key, txn, txn', apart,
    split, early, late, unseen⟩
  rcases split_concat split with ⟨front, same, _⟩ | ⟨rest, _, whole⟩
  · cases same
    obtain ⟨_, early⟩ := early
    obtain ⟨result, late⟩ := late
    have read : .got id cf key result ∈ before := by
      rcases mem_append.mp (late.subset mem_cons_self) with here | there
      · exact here
      · exact absurd there (unseen result)
    -- it began before it read the key, and the other commit came after that
    obtain ⟨earlier, later, rfl⟩ := append_of_mem read
    have begun : .began id ∈ earlier := by
      apply separated.acted earlier (.got id cf key result)
        (later ++ .committed first txn :: between) ?_ id rfl
      rw [← front]
      simp
    obtain ⟨past, since, rfl⟩ := append_of_mem begun
    have taken : txn.buffered cf key ≠ none := by
      apply separated.commits _ first txn between front.symm cf key
      exact early.subset (mem_cons_of_mem _ mem_cons_self)
    have own : session.txn.buffered cf key ≠ none := by
      apply separated.buffers id session running cf key
      rw [← front]
      have member := late.subset (mem_cons_of_mem _ mem_cons_self)
      rcases mem_append.mp member with here | there
      · exact mem_append_left _ here
      · exact mem_append_right _ (mem_cons_of_mem _ there)
    apply free cf key own
    refine ⟨past, since ++ .got id cf key result :: later ++
      .committed first txn :: between, .committed first txn, ?_, ?_, apart, taken⟩
    · rw [← front]
      simp
    · simp
  · exact separated.isolated.updates ⟨before, between, rest, first, second, cf,
      key, txn, txn', apart, whole, early, late, unseen⟩

/-- How a session goes on after an event. -/
structure GoesOn (event : SessionEvent) (id : Nat) (old later : Session) : Prop where
  snapshot : later.snapshot = old.snapshot
  began : later.began = old.began
  ongoing : later.ended = false → old.ended = false
  buffers : later.ended = false → ∀ cf key,
    old.txn.buffered cf key ≠ none ∨ event = .wrote id cf key →
      later.txn.buffered cf key ≠ none

theorem extend (separated : Separated options state) {sessions : List Session}
    (sound : EngineSound options core)
    (grows : state.sessions.length ≤ sessions.length)
    (same : ∀ (id : Nat) (session : Session), sessions[id]? = some session →
      (∃ old, state.sessions[id]? = some old ∧ GoesOn event id old session) ∨
        id = state.sessions.length ∧ event = .began id ∧ session.snapshot = core)
    (steady : ∀ (id : Nat) (session : Session), sessions[id]? = some session →
      session.ended = false → ∀ cf key, ¬ event.Writes id cf key →
        Steady cf key state.core core)
    (actor : ∀ id, event.actor = some id → id < state.sessions.length)
    (read : ∀ id cf key result, event = .got id cf key result →
      ∀ session, state.sessions[id]? = some session →
        result = (session.snapshot.getCf session.began cf key).1)
    (commit : ∀ id txn, event = .committed id txn →
      ∃ session, state.running id = some session ∧ session.txn = txn ∧
        ∀ cf key, txn.buffered cf key ≠ none → ¬ Overwritten state.history id cf key) :
    Separated options { core, sessions, history := state.history ++ [event] } := by
  -- the new session has done nothing yet
  have idle : ∀ other ∈ state.history ++ [event], ∀ id,
      id = state.sessions.length → other.actor ≠ some id := by
    intro other member id new acts
    apply Nat.lt_irrefl id
    nth_rewrite 2 [new]
    rcases mem_append.mp member with old | last
    · exact separated.known other old id acts
    · rw [mem_singleton.mp last] at acts
      exact actor id acts
  constructor
  · exact sound
  · intro session member
    obtain ⟨id, listed⟩ := mem_iff_getElem?.mp member
    rcases same id session listed with ⟨old, found, goesOn⟩ | ⟨_, _, snapshot⟩
    · rw [goesOn.snapshot]
      exact separated.snapshots old (mem_of_getElem? found)
    · rw [snapshot]
      exact sound
  · intro id below
    rcases same id _ (List.getElem?_eq_getElem below) with ⟨old, found, _⟩ | ⟨_, begins, _⟩
    · obtain ⟨known, _⟩ := List.getElem?_eq_some_iff.mp found
      exact mem_append_left _ (separated.begun id known)
    · rw [begins]
      exact mem_concat_self
  · intro other member id acts
    apply Nat.lt_of_lt_of_le _ grows
    rcases mem_append.mp member with old | new
    · exact separated.known other old id acts
    · rw [mem_singleton.mp new] at acts
      exact actor id acts
  · intro before other after split id acts
    rcases split_concat split with ⟨rfl, rfl, _⟩ | ⟨rest, _, whole⟩
    · exact separated.begun id (actor id acts)
    · exact separated.acted before other rest whole id acts
  · intro id session running cf key member
    obtain ⟨listed, active⟩ := running_iff.mp running
    rcases same id session listed with ⟨old, found, goesOn⟩ | ⟨new, _⟩
    · apply goesOn.buffers active
      rcases mem_append.mp member with earlier | last
      · exact .inl (separated.buffers id old (running_iff.mpr
          ⟨found, goesOn.ongoing active⟩) cf key earlier)
      · exact .inr (mem_singleton.mp last).symm
    · exact absurd rfl (idle _ member id new)
  · intro before id txn after split cf key member
    rcases split_concat split with ⟨rfl, same, _⟩ | ⟨rest, _, whole⟩
    · obtain ⟨session, running, rfl, _⟩ := commit id txn same.symm
      exact separated.buffers id session running cf key member
    · exact separated.commits before id txn rest whole cf key member
  · intro id session running cf key free
    obtain ⟨listed, active⟩ := running_iff.mp running
    rcases same id session listed with ⟨old, found, goesOn⟩ | ⟨_, _, snapshot⟩
    · obtain ⟨below, _⟩ := List.getElem?_eq_some_iff.mp found
      rw [goesOn.snapshot]
      exact (separated.steady id old (running_iff.mpr ⟨found, goesOn.ongoing active⟩) cf key
        (fun overwritten => free (overwritten.concat event))).trans
          (steady id session listed active cf key (fun writes => free
            (overwritten_of_began (separated.begun id below) writes)))
    · rw [snapshot]
      exact .refl cf key core
  · constructor
    · intro id cf key result member session listed
      rcases same id session listed with ⟨old, found, goesOn⟩ | ⟨new, _⟩
      · rw [goesOn.snapshot, goesOn.began]
        rcases mem_append.mp member with earlier | last
        · exact separated.isolated.reads id cf key result earlier old found
        · exact read id cf key result (mem_singleton.mp last).symm old found
      · exact absurd rfl (idle _ member id new)
    · intro lost
      obtain ⟨before, between, after, first, second, cf, key, txn, txn', apart,
        split, early, late, unseen⟩ := lost
      rcases split_concat split with ⟨front, same, _⟩ | ⟨rest, _, whole⟩
      · obtain ⟨session, running, rfl, free⟩ := commit second txn' same.symm
        apply separated.no_lost_update running free
        exact ⟨before, between, [], first, second, cf, key, txn, session.txn,
          apart, by rw [front], early, late, unseen⟩
      · exact separated.isolated.updates ⟨before, between, rest, first, second,
          cf, key, txn, txn', apart, whole, early, late, unseen⟩

/-! ## The steps -/

theorem GoesOn.refl (quiet : ∀ cf key, event ≠ .wrote id cf key) :
    GoesOn event id session session := by
  refine ⟨rfl, rfl, fun ongoing => ongoing, ?_⟩
  rintro _ cf key (held | wrote)
  · exact held
  · exact absurd wrote (quiet cf key)

theorem changed_sessions {changed : Session} {other : Nat} {later : Session}
    (listed : state.sessions[id]? = some session)
    (found : (state.sessions.set id changed)[other]? = some later)
    (goesOn : GoesOn event id session changed)
    (own : ∀ other cf key, event = .wrote other cf key → other = id) :
    ∃ old, state.sessions[other]? = some old ∧ GoesOn event other old later := by
  obtain ⟨below, _⟩ := List.getElem?_eq_some_iff.mp listed
  rw [List.getElem?_set] at found
  by_cases here : id = other
  · subst here
    rw [if_pos rfl, if_pos below] at found
    cases found
    exact ⟨session, listed, goesOn⟩
  · rw [if_neg here] at found
    exact ⟨later, found, .refl (fun cf key wrote =>
      here (own other cf key wrote).symm)⟩

variable (separated : Separated options state)
include separated

theorem begin (now : Nanos) :
    Separated options (SessionStep.step options state (.begin now)) := by
  refine separated.extend separated.core (by simp) ?_ ?_ nofun nofun nofun
  · intro id session found
    rcases Nat.lt_or_ge id state.sessions.length with old | new
    · rw [List.getElem?_append_left old] at found
      exact .inl ⟨session, found, .refl (fun _ _ => nofun)⟩
    · rw [List.getElem?_append_right new, List.getElem?_singleton] at found
      split at found
      · next last =>
        cases found
        have here : id = state.sessions.length := by omega
        exact .inr ⟨here, by rw [here], rfl⟩
      · cases found
  · intro _ _ _ _ cf key _
    exact .refl cf key state.core

theorem get {now : Nanos} {cf : String} {key : Bytes}
    (separate : (SessionStep.get id now cf key).Separate options state) :
    Separated options
      (SessionStep.step options state (.get id now cf key)) := by
  rw [SessionStep.step]
  cases running : state.running id with
  | none => exact separated
  | some session =>
    dsimp only
    cases held : session.txn.buffered cf key with
    | some write =>
      rw [Transaction.getCf_of_buffered held]
      exact separated
    | none =>
      obtain ⟨free, coherent, began, lasting⟩ := separate session running held
      obtain ⟨listed, _⟩ := running_iff.mp running
      obtain ⟨below, _⟩ := List.getElem?_eq_some_iff.mp listed
      have snapshot := separated.snapshots session (mem_of_getElem? listed)
      rw [Transaction.getCf_of_unbuffered held]
      refine separated.extend (separated.core.getCf now cf key) le_rfl ?_ ?_ ?_ ?_ nofun
      · intro id session listed
        exact .inl ⟨session, listed, .refl (fun _ _ => nofun)⟩
      · intro _ _ _ _ family target _
        exact .getCf separated.core now cf family key target
      · intro other acts
        cases acts
        exact below
      · intro other family target result same other_session found
        cases same
        rw [listed] at found
        cases found
        rw [getCf_eq separated.core.store, getCf_eq snapshot.store,
          ← answer_uncached coherent,
          ← answer_uncached began, separated.steady id session running cf key free now,
          answer_of_lasting snapshot lasting now session.began]

theorem buffer (running : state.running id = some session) (cf : String)
    (key : Bytes) (write : TxnWrite) :
    Separated options ((state.update id { session with
      txn := session.txn.buffer cf key write }).note (.wrote id cf key)) := by
  obtain ⟨listed, ongoing⟩ := running_iff.mp running
  obtain ⟨below, _⟩ := List.getElem?_eq_some_iff.mp listed
  refine separated.extend separated.core (length_set ..).ge ?_ ?_ ?_ nofun nofun
  · intro other later found
    refine .inl (changed_sessions listed found ⟨rfl, rfl, fun _ => ongoing, ?_⟩ ?_)
    · intro _ family target held
      rw [Transaction.buffered_buffer]
      split
      · exact Option.some_ne_none write
      · next apart =>
        rcases held with held | wrote
        · exact held
        · cases wrote
          exact absurd ⟨rfl, rfl⟩ apart
    · intro other family target wrote
      cases wrote
      rfl
  · intro _ _ _ _ family target _
    exact .refl family target state.core
  · intro other acts
    cases acts
    exact below

theorem commit {context : CommitContext}
    (separate : (SessionStep.commit id context).Separate options state) :
    Separated options
      (SessionStep.step options state (.commit id context)) := by
  rw [SessionStep.step]
  cases running : state.running id with
  | none => exact separated
  | some session =>
    obtain ⟨quiet, free⟩ := separate session running
    obtain ⟨done, steady⟩ := commit_of_quiet quiet
    obtain ⟨listed, _⟩ := running_iff.mp running
    obtain ⟨below, _⟩ := List.getElem?_eq_some_iff.mp listed
    have whole := separated.core.commit context session.txn
    dsimp only
    rw [done]
    refine separated.extend whole (length_set ..).ge ?_ ?_ ?_ nofun ?_
    · intro other later found
      exact .inl (changed_sessions listed found ⟨rfl, rfl, nofun, nofun⟩
        (fun _ _ _ => nofun))
    · intro other later found ongoing cf key unwritten
      have apart : id ≠ other := by
        rintro rfl
        rw [Sessions.update, List.getElem?_set, if_pos rfl, if_pos below] at found
        cases found
        cases ongoing
      apply steady cf key
      by_contra held
      exact unwritten ⟨apart, held⟩
    · intro other acts
      cases acts
      exact below
    · intro other txn same
      cases same
      exact ⟨session, running, rfl, free⟩

theorem call {op : EngineOp}
    (separate : (SessionStep.call op).Separate options state) :
    Separated options (SessionStep.step options state (.call op)) := by
  obtain ⟨orderly, quiet⟩ := separate
  refine separated.extend (separated.core.step orderly) le_rfl ?_ ?_ nofun nofun nofun
  · intro id session listed
    exact .inl ⟨session, listed, .refl (fun _ _ => nofun)⟩
  · intro _ _ _ _ cf key free
    exact EngineOp.steady_step separated.core orderly quiet free

end Separated

variable {state : Sessions} {id : Nat} {cf : String} {key : Bytes}

theorem Separated.step {options : EngineOptions} (separated : Separated options state)
    {step : SessionStep} (separate : step.Separate options state) :
    Separated options (step.step options state) := by
  cases step with
  | begin now => exact separated.begin now
  | get id now cf key => exact separated.get separate
  | put id cf key value | delete id cf key =>
    rw [SessionStep.step]
    cases running : state.running id with
    | none => exact separated
    | some session => exact separated.buffer running cf key _
  | commit id context => exact separated.commit separate
  | call op => exact separated.call separate

end ApexStore
