import ApexStore.Library.Retain
import ApexStore.Library.ByteOrder

/-!
# REST transactions

`TransactionManager` holds open transactions under random identifiers, each
for its owner and for a limited time.  Every call first drops the expired
ones.  What a call answers is what the history of the earlier calls says
(`recorded`): the last transaction begun under the identifier, with the
changes staged since, unless it was taken.
-/

namespace ApexStore

open List

/-- Who a transaction belongs to. -/
inductive Owner where
  | token (id : String)
  | anonymous
  deriving DecidableEq, Repr

inductive TransactionError where
  | notFound
  | capacity
  | identifier
  deriving DecidableEq, Repr

structure ActiveTransaction (τ : Type) where
  owner : Owner
  createdAt : Nat
  transaction : τ
  deriving DecidableEq, Repr

structure TransactionLimits where
  lifetime : Nat
  maxPerOwner : Nat
  maxTotal : Nat

/-- Five minutes, 32 transactions for each owner and 1024 in all. -/
def TransactionLimits.default : TransactionLimits :=
  { lifetime := 300 * 10 ^ 9, maxPerOwner := 32, maxTotal := 1024 }

/-- The open transactions by their identifiers. -/
abbrev Transactions (Id τ : Type) := AList (fun _ : Id => ActiveTransaction τ)

namespace Transactions

variable {Id τ α : Type} [DecidableEq Id] (limits : TransactionLimits)
  (parse : String → Option Id)

/-- The transaction is younger than its lifetime. -/
def isOpen (now : Nat) (entry : ActiveTransaction τ) : Bool :=
  decide (now - entry.createdAt < limits.lifetime)

def prune (now : Nat) (entries : Transactions Id τ) : Transactions Id τ :=
  entries.retain fun _ entry => isOpen limits now entry

def countOf (owner : Owner) (entries : Transactions Id τ) : Nat :=
  entries.entries.countP fun entry => decide (entry.2.owner = owner)

/-- The first identifier drawn that is not in use, unless the randomness
fails before. -/
def drawId (entries : Transactions Id τ) :
    List (Option Id) → Except TransactionError Id
  | [] => .error .identifier
  | none :: _ => .error .identifier
  | some id :: draws =>
    if id ∈ entries then drawId entries draws else .ok id

/-- `begin`.  There are eight attempts to draw an identifier. -/
def beginTransaction (owner : Owner) (now : Nat) (draws : Fin 8 → Option Id)
    (fresh : τ) (entries : Transactions Id τ) :
    Except TransactionError Id × Transactions Id τ :=
  let entries := entries.prune limits now
  if limits.lifetime = 0 ∨ limits.maxTotal ≤ entries.entries.length ∨
      limits.maxPerOwner ≤ entries.countOf owner then
    (.error .capacity, entries)
  else
    match entries.drawId (List.ofFn draws) with
    | .error error => (.error error, entries)
    | .ok id =>
      (.ok id, entries.insert id
        { owner, createdAt := now, transaction := fresh })

def find (id : String) (owner : Owner) (entries : Transactions Id τ) :
    Option (Id × ActiveTransaction τ) :=
  (parse id).bind fun id =>
    ((entries.lookup id).filter fun entry => decide (entry.owner = owner)).map
      fun entry => (id, entry)

def withTransaction (id : String) (owner : Owner) (now : Nat)
    (change : τ → α × τ) (entries : Transactions Id τ) :
    Except TransactionError α × Transactions Id τ :=
  let entries := entries.prune limits now
  match entries.find parse id owner with
  | none => (.error .notFound, entries)
  | some (id, entry) =>
    let (result, transaction) := change entry.transaction
    (.ok result, entries.mapEntries fun other entry =>
      if other = id then { entry with transaction } else entry)

def take (id : String) (owner : Owner) (now : Nat) (entries : Transactions Id τ) :
    Except TransactionError τ × Transactions Id τ :=
  let entries := entries.prune limits now
  match entries.find parse id owner with
  | none => (.error .notFound, entries)
  | some (id, entry) => (.ok entry.transaction, entries.erase id)

end Transactions

/-! ## Calls -/

inductive TransactionCall (Id τ α : Type) where
  | beginTransaction (owner : Owner) (now : Nat) (draws : Fin 8 → Option Id) (fresh : τ)
  | withTransaction (id : String) (owner : Owner) (now : Nat) (change : τ → α × τ)
  | take (id : String) (owner : Owner) (now : Nat)

inductive TransactionResponse (Id τ α : Type) where
  | began (result : Except TransactionError Id)
  | staged (result : Except TransactionError α)
  | taken (result : Except TransactionError τ)

namespace TransactionCall

variable {Id τ α : Type}

def owner : TransactionCall Id τ α → Owner
  | beginTransaction owner _ _ _ => owner
  | withTransaction _ owner _ _ => owner
  | take _ owner _ => owner

def now : TransactionCall Id τ α → Nat
  | beginTransaction _ now _ _ => now
  | withTransaction _ _ now _ => now
  | take _ _ now => now

variable [DecidableEq Id] (limits : TransactionLimits)
  (parse : String → Option Id)

def perform (entries : Transactions Id τ) :
    TransactionCall Id τ α → TransactionResponse Id τ α × Transactions Id τ
  | beginTransaction owner now draws fresh =>
    let (result, entries) :=
      entries.beginTransaction limits owner now draws fresh
    (.began result, entries)
  | withTransaction id owner now change =>
    let (result, entries) :=
      entries.withTransaction limits parse id owner now change
    (.staged result, entries)
  | take id owner now =>
    let (result, entries) := entries.take limits parse id owner now
    (.taken result, entries)

end TransactionCall

/-- The manager with its calls and what they returned, the last one first. -/
structure TransactionLog (Id τ α : Type) where
  entries : Transactions Id τ
  history : List (TransactionCall Id τ α × TransactionResponse Id τ α)

namespace TransactionLog

variable {Id τ α : Type} [DecidableEq Id] (limits : TransactionLimits)
  (parse : String → Option Id)

def empty : TransactionLog Id τ α := ⟨∅, []⟩

def step (log : TransactionLog Id τ α) (call : TransactionCall Id τ α) :
    TransactionLog Id τ α :=
  let (response, entries) := call.perform limits parse log.entries
  ⟨entries, (call, response) :: log.history⟩

/-- What the history says of an identifier: the last transaction begun under
it, with the changes staged since in their order, unless it was taken. -/
def recorded (id : Id) : List (TransactionCall Id τ α × TransactionResponse Id τ α) →
      Option (ActiveTransaction τ)
  | [] => none
  | (.beginTransaction owner now _ fresh, .began (.ok drawn)) :: history =>
    if drawn = id then
      some { owner, createdAt := now, transaction := fresh }
    else recorded id history
  | (.withTransaction text _ _ change, .staged (.ok _)) :: history =>
    if parse text = some id then
      (recorded id history).map fun entry =>
        { entry with transaction := (change entry.transaction).2 }
    else recorded id history
  | (.take text _ _, .taken (.ok _)) :: history =>
    if parse text = some id then none else recorded id history
  | _ :: history => recorded id history

def last (log : TransactionLog Id τ α) : Nat :=
  (log.history.head?.map (·.1.now)).getD 0

/-- The transaction that is there for an owner who asks for it now. -/
def openFor (history : List (TransactionCall Id τ α × TransactionResponse Id τ α))
    (text : String) (owner : Owner) (now : Nat) : Option (Id × ActiveTransaction τ) :=
  (parse text).bind fun id =>
    ((recorded parse id history).filter fun entry =>
      Transactions.isOpen limits now entry && decide (entry.owner = owner)).map
        fun entry => (id, entry)

end TransactionLog

/-! ## What a call does -/

namespace TransactionCall

variable {Id τ α : Type} [DecidableEq Id] (limits : TransactionLimits)
  (parse : String → Option Id) (entries : Transactions Id τ)

/-- What a call can do, after the expired transactions are gone. -/
inductive Outcome : TransactionCall Id τ α →
    TransactionResponse Id τ α × Transactions Id τ → Prop
  | refused (owner now draws fresh error) :
    Outcome (beginTransaction owner now draws fresh)
        (.began (.error error), entries.prune limits now)
  | begun (owner now draws fresh id) (lives : limits.lifetime ≠ 0)
      (room : (entries.prune limits now).entries.length < limits.maxTotal)
      (share : (entries.prune limits now).countOf owner < limits.maxPerOwner)
      (unused : id ∉ entries.prune limits now) : Outcome
        (beginTransaction owner now draws fresh)
        (.began (.ok id), (entries.prune limits now).insert id
          { owner, createdAt := now, transaction := fresh })
  | unstaged (text owner now change)
      (unknown : (entries.prune limits now).find parse text owner = none) :
      Outcome (withTransaction text owner now change)
        (.staged (.error .notFound), entries.prune limits now)
  | staged (text owner now change id entry)
      (found : (entries.prune limits now).find parse text owner = some (id, entry)) :
      Outcome (withTransaction text owner now change)
        (.staged (.ok (change entry.transaction).1),
          (entries.prune limits now).mapEntries fun other held =>
            if other = id then
              { held with transaction := (change entry.transaction).2 }
            else held)
  | untaken (text owner now)
    (unknown : (entries.prune limits now).find parse text owner = none) :
      Outcome (take text owner now) (.taken (.error .notFound), entries.prune limits now)
  | taken (text owner now id entry)
    (found : (entries.prune limits now).find parse text owner =
        some (id, entry)) : Outcome (take text owner now)
        (.taken (.ok entry.transaction), (entries.prune limits now).erase id)

omit limits parse in
theorem drawId_unused {draws : List (Option Id)} {id : Id}
    (drawn : entries.drawId draws = .ok id) : id ∉ entries := by
  induction draws with
  | nil => cases drawn
  | cons draw draws ih =>
    cases draw with
    | none => cases drawn
    | some first =>
      rw [Transactions.drawId] at drawn
      split at drawn
      · exact ih drawn
      · next unused =>
        cases drawn
        exact unused

theorem perform_outcome (call : TransactionCall Id τ α) :
    Outcome limits parse entries call (call.perform limits parse entries) := by
  cases call with
  | beginTransaction owner now draws fresh =>
    rw [perform, Transactions.beginTransaction]
    dsimp only
    split
    · exact .refused owner now draws fresh _
    · next free =>
      cases drawn : (entries.prune limits now).drawId (List.ofFn draws) with
      | error error => exact .refused owner now draws fresh error
      | ok id =>
        have unused := drawId_unused _ drawn
        push Not at free
        exact .begun owner now draws fresh id free.1 free.2.1 free.2.2 unused
  | withTransaction text owner now change =>
    rw [perform, Transactions.withTransaction]
    cases found : (entries.prune limits now).find parse text owner with
    | none => exact .unstaged text owner now change found
    | some held => exact .staged text owner now change held.1 held.2 found
  | take text owner now =>
    rw [perform, Transactions.take]
    cases found : (entries.prune limits now).find parse text owner with
    | none => exact .untaken text owner now found
    | some held => exact .taken text owner now held.1 held.2 found

end TransactionCall

/-! ## The limits -/

namespace Transactions

variable {Id τ α : Type} [DecidableEq Id] {limits : TransactionLimits}
  {entries : Transactions Id τ}

omit [DecidableEq Id] in
/-- No more transactions than allowed, in all and for each owner. -/
structure Within (limits : TransactionLimits) (entries : Transactions Id τ) :
    Prop where
  total : entries.entries.length ≤ limits.maxTotal
  perOwner : ∀ owner, entries.countOf owner ≤ limits.maxPerOwner

omit [DecidableEq Id] in
theorem Within.of_sublist (within : entries.Within limits)
    {fewer : Transactions Id τ}
    (sublist : List.Sublist fewer.entries entries.entries) :
    fewer.Within limits := ⟨sublist.length_le.trans within.total, fun owner =>
    (sublist.countP_le).trans (within.perOwner owner)⟩

omit [DecidableEq Id] in
theorem Within.prune (within : entries.Within limits) (now : Nat) :
    (entries.prune limits now).Within limits := within.of_sublist List.filter_sublist

variable {id : Id}

theorem Within.insert (within : entries.Within limits) (entry : ActiveTransaction τ)
    (unused : id ∉ entries) (room : entries.entries.length < limits.maxTotal)
    (share : entries.countOf entry.owner < limits.maxPerOwner) :
    Within limits (entries.insert id entry) := by
  have added : (entries.insert id entry).entries =
      ⟨id, entry⟩ :: entries.entries := AList.entries_insert_of_notMem unused
  refine ⟨?_, ?_⟩
  · rw [added]
    exact room
  · intro owner
    rw [countOf, added]
    by_cases own : entry.owner = owner
    · subst own
      simpa [countOf] using share
    · simpa [own, countOf] using within.perOwner owner

omit [DecidableEq Id] in
theorem Within.mapEntries (within : entries.Within limits)
    (change : Id → ActiveTransaction τ → ActiveTransaction τ)
    (same : ∀ id entry, (change id entry).owner = entry.owner) :
    Within limits (entries.mapEntries change) := by
  refine ⟨?_, ?_⟩
  · simpa [AList.mapEntries] using within.total
  · intro owner
    have count : countOf owner (entries.mapEntries change) = entries.countOf owner := by
      simp [countOf, AList.mapEntries, countP_map, Function.comp_def, same]
    rw [count]
    exact within.perOwner owner

theorem Within.perform (within : entries.Within limits) (parse : String → Option Id)
    (call : TransactionCall Id τ α) :
    (call.perform limits parse entries).2.Within limits := by
  have outcome := call.perform_outcome limits parse entries
  generalize call.perform limits parse entries = result at outcome ⊢
  cases outcome with
  | refused _ now _ _ _ => exact within.prune now
  | begun owner now draws fresh id lives room share unused =>
    exact (within.prune now).insert ⟨owner, now, fresh⟩ unused room share
  | unstaged _ _ now _ _ => exact within.prune now
  | staged text owner now change id entry found =>
    dsimp only
    refine (within.prune now).mapEntries _ ?_
    intro other held
    split <;> rfl
  | untaken _ _ now _ => exact within.prune now
  | taken text owner now id entry found =>
    exact (within.prune now).of_sublist (kerase_sublist id _)

/-! ## The other owners -/

theorem lookup_prune (now : Nat) (id : Id) : (entries.prune limits now).lookup id =
      (entries.lookup id).filter
        (isOpen limits now) := AList.lookup_retain _ entries id

theorem find_eq_some {parse : String → Option Id} {text : String} {owner : Owner}
    {entry : ActiveTransaction τ}
    (found : entries.find parse text owner = some (id, entry)) :
    parse text = some id ∧ entries.lookup id = some entry ∧ entry.owner = owner := by
  unfold find at found
  cases parsed : parse text with
  | none => simp [parsed] at found
  | some drawn =>
    simp only [parsed, Option.bind_some, Option.map_eq_some_iff,
      Option.filter_eq_some_iff, decide_eq_true_eq] at found
    obtain ⟨held, ⟨there, own⟩, rfl, rfl⟩ := found
    exact ⟨rfl, there, own⟩

theorem lookup_perform_of_other (parse : String → Option Id)
    (call : TransactionCall Id τ α)
    {entry : ActiveTransaction τ} (held : entries.lookup id = some entry)
    (other : entry.owner ≠ call.owner) (young : isOpen limits call.now entry = true) :
    (call.perform limits parse entries).2.lookup id = some entry := by
  have pruned : (entries.prune limits call.now).lookup id = some entry := by
    rw [lookup_prune, held, Option.filter_some, if_pos young]
  have outcome := call.perform_outcome limits parse entries
  generalize call.perform limits parse entries = result at outcome ⊢
  cases outcome with
  | refused _ _ _ _ _ => exact pruned
  | begun owner now draws fresh drawn _ _ _ unused =>
    have apart : id ≠ drawn := by
      rintro rfl
      rw [← AList.lookup_eq_none] at unused
      cases unused.symm.trans pruned
    rw [AList.lookup_insert_ne apart]
    exact pruned
  | unstaged _ _ _ _ _ => exact pruned
  | staged text owner now change own mine found =>
    have apart : id ≠ own := by
      rintro rfl
      obtain ⟨_, there, same⟩ := find_eq_some found
      cases there.symm.trans pruned
      exact other same
    rw [AList.lookup_mapEntries]
    change (Transactions.prune limits now entries).lookup id = some entry at pruned
    rw [pruned, Option.map_some, if_neg apart]
  | untaken _ _ _ _ => exact pruned
  | taken text owner now own mine found =>
    have apart : id ≠ own := by
      rintro rfl
      obtain ⟨_, there, same⟩ := find_eq_some found
      cases there.symm.trans pruned
      exact other same
    rw [AList.lookup_erase_ne apart]
    exact pruned

/-- The transactions of all but one owner with other contents. -/
def disguise (owner : Owner) (content : Id → τ → τ)
    (entries : Transactions Id τ) : Transactions Id τ :=
  entries.mapEntries fun id entry =>
    if entry.owner = owner then entry
    else { entry with transaction := content id entry.transaction }

variable {owner : Owner} {content : Id → τ → τ}

omit [DecidableEq Id] in
theorem prune_disguise (now : Nat) :
    (entries.disguise owner content).prune limits now =
      (entries.prune limits now).disguise owner content := by
  apply AList.ext
  simp only [prune, disguise, AList.retain, AList.mapEntries, filter_map]
  congr 1
  apply filter_congr
  intro entry _
  simp only [Function.comp_apply, isOpen]
  split <;> rfl

omit [DecidableEq Id] in
theorem countOf_disguise (other : Owner) :
    (entries.disguise owner content).countOf other =
      entries.countOf other := by
  simp only [countOf, disguise, AList.mapEntries, countP_map]
  apply countP_congr
  intro entry _
  simp only [Function.comp_apply]
  split <;> simp

theorem mem_disguise (id : Id) :
    id ∈ entries.disguise owner content ↔ id ∈ entries := by
  rw [← AList.lookup_isSome, ← AList.lookup_isSome, disguise,
    AList.lookup_mapEntries, Option.isSome_map]

theorem drawId_disguise (draws : List (Option Id)) :
    (entries.disguise owner content).drawId draws = entries.drawId draws := by
  induction draws with
  | nil => rfl
  | cons draw draws ih =>
    cases draw with
    | none => rfl
    | some id => simp only [drawId, mem_disguise, ih]

theorem find_disguise (parse : String → Option Id) (text : String) :
    (entries.disguise owner content).find parse text owner =
      entries.find parse text owner := by
  unfold find
  cases parse text with
  | none => rfl
  | some id =>
    rw [Option.bind_some, Option.bind_some, disguise, AList.lookup_mapEntries]
    cases entries.lookup id with
    | none => rfl
    | some entry =>
      by_cases own : entry.owner = owner <;> simp [own, Option.filter_some]

theorem perform_disguise (limits : TransactionLimits)
    (parse : String → Option Id) (call : TransactionCall Id τ α)
    (content : Id → τ → τ) :
    (call.perform limits parse (entries.disguise call.owner content)).1 =
      (call.perform limits parse entries).1 := by
  cases call with
  | beginTransaction owner now draws fresh =>
    have size : ((entries.prune limits now).disguise owner content).entries.length =
        (entries.prune limits now).entries.length := by
      simp [disguise, AList.mapEntries]
    simp only [TransactionCall.perform, TransactionCall.owner,
      beginTransaction, prune_disguise, countOf_disguise, drawId_disguise, size]
    split
    · rfl
    · cases (entries.prune limits now).drawId (List.ofFn draws) <;> rfl
  | withTransaction text owner now change =>
    simp only [TransactionCall.perform, TransactionCall.owner,
      withTransaction, prune_disguise, find_disguise]
    cases (entries.prune limits now).find parse text owner <;> rfl
  | take text owner now =>
    simp only [TransactionCall.perform, TransactionCall.owner, take, prune_disguise,
      find_disguise]
    cases (entries.prune limits now).find parse text owner <;> rfl

end Transactions

/-! ## The history -/

namespace TransactionLog

variable {Id τ α : Type} [DecidableEq Id] {limits : TransactionLimits}
  {parse : String → Option Id} {log : TransactionLog Id τ α}

open Transactions

/-- The manager holds the recorded transactions that are still open. -/
def Faithful (limits : TransactionLimits) (parse : String → Option Id)
    (log : TransactionLog Id τ α) : Prop :=
  ∀ id, log.entries.lookup id =
    (recorded parse id log.history).filter (isOpen limits log.last)

variable {now : Nat}

theorem isOpen_of_later {entry : ActiveTransaction τ} {earlier : Nat}
    (later : earlier ≤ now)
    (young : isOpen limits now entry = true) : isOpen limits earlier entry = true := by
  simp only [isOpen, decide_eq_true_eq] at young ⊢
  omega

section

variable (faithful : log.Faithful limits parse)
include faithful

theorem Faithful.lookup_prune (later : log.last ≤ now) (id : Id) :
    (log.entries.prune limits now).lookup id =
      (recorded parse id log.history).filter (isOpen limits now) := by
  rw [Transactions.lookup_prune, faithful id, Option.filter_filter]
  congr 1
  funext entry
  by_cases young : isOpen limits now entry = true
  · simp [isOpen_of_later later young]
  · simp [young]

theorem Faithful.find (later : log.last ≤ now) (text : String) (owner : Owner) :
    (log.entries.prune limits now).find parse text owner =
      openFor limits parse log.history text owner now := by
  unfold Transactions.find openFor
  congr 1
  funext id
  rw [faithful.lookup_prune later, Option.filter_filter]

theorem Faithful.step {call : TransactionCall Id τ α} (later : log.last ≤ call.now) :
    (log.step limits parse call).Faithful limits parse := by
  have pruned := faithful.lookup_prune later
  have outcome := call.perform_outcome limits parse log.entries
  rw [TransactionLog.step]
  generalize call.perform limits parse log.entries = result at outcome ⊢
  intro id
  cases outcome with
  | refused _ _ _ _ _ => exact pruned id
  | begun owner now draws fresh drawn lives _ _ _ =>
    simp only [recorded, last, List.head?_cons, Option.map_some, TransactionCall.now]
    by_cases here : drawn = id
    · subst here
      rw [AList.lookup_insert, if_pos rfl, Option.filter_some, if_pos]
      simpa [isOpen] using Nat.pos_of_ne_zero lives
    · rw [AList.lookup_insert_ne (Ne.symm here), if_neg here]
      exact pruned id
  | unstaged _ _ _ _ _ => exact pruned id
  | staged text owner now change own entry found =>
    obtain ⟨parsed, there, _⟩ := find_eq_some found
    simp only [recorded, last, List.head?_cons, Option.map_some, parsed, Option.some.injEq]
    rw [AList.lookup_mapEntries]
    by_cases here : own = id
    · subst here
      have held := (pruned own).symm.trans there
      rw [Option.filter_eq_some_iff] at held
      obtain ⟨record, young⟩ := held
      rw [if_pos rfl, there, record, Option.map_some, Option.map_some,
        if_pos rfl, Option.filter_some]
      exact (if_pos young).symm
    · rw [if_neg here]
      have unchanged : ∀ held : ActiveTransaction τ, (if id = own then
            { held with transaction := (change entry.transaction).2 }
          else held) = held := fun held => if_neg (Ne.symm here)
      simp only [unchanged, Option.map_id']
      exact pruned id
  | untaken _ _ _ _ => exact pruned id
  | taken text owner now own entry found =>
    obtain ⟨parsed, _, _⟩ := find_eq_some found
    simp only [recorded, last, List.head?_cons, Option.map_some, TransactionCall.now,
      parsed, Option.some.injEq]
    by_cases here : own = id
    · subst here
      rw [if_pos rfl, AList.lookup_erase]
      rfl
    · rw [if_neg here, AList.lookup_erase_ne (Ne.symm here)]
      exact pruned id

end

theorem faithful_empty : (empty : TransactionLog Id τ α).Faithful limits parse := by
  intro id
  rfl

theorem faithful_foldl (calls : List (TransactionCall Id τ α))
    (faithful : log.Faithful limits parse)
    (later : ∀ call ∈ calls, log.last ≤ call.now)
    (ordered : (calls.map (·.now)).Pairwise (· ≤ ·)) :
    (calls.foldl (TransactionLog.step limits parse) log).Faithful limits parse := by
  induction calls generalizing log with
  | nil => exact faithful
  | cons call calls ih =>
    rw [map_cons, pairwise_cons] at ordered
    apply ih (faithful.step (later call mem_cons_self)) _ ordered.2
    intro other inside
    exact ordered.1 other.now (mem_map_of_mem inside)

theorem within_foldl (calls : List (TransactionCall Id τ α))
    (within : log.entries.Within limits) :
    (calls.foldl (TransactionLog.step limits parse) log).entries.Within limits := by
  induction calls generalizing log with
  | nil => exact within
  | cons call calls ih => exact ih (within.perform parse call)

/-- The answers to those who ask for a transaction are those of the history. -/
structure Answers (limits : TransactionLimits) (parse : String → Option Id)
    (log : TransactionLog Id τ α) : Prop where
  take : ∀ text owner now, log.last ≤ now →
    (log.entries.take limits parse text owner now).1 =
      match openFor limits parse log.history text owner now with
      | none => .error .notFound
      | some (_, entry) => .ok entry.transaction
  withTransaction : ∀ text owner now (change : τ → α × τ), log.last ≤ now →
    (log.entries.withTransaction limits parse text owner now change).1 =
      match openFor limits parse log.history text owner now with
      | none => .error .notFound
      | some (_, entry) => .ok (change entry.transaction).1

theorem Faithful.answers (faithful : log.Faithful limits parse) :
    log.Answers limits parse := by
  constructor
  · intro text owner now later
    rw [Transactions.take, faithful.find later]
    cases openFor limits parse log.history text owner now <;> rfl
  · intro text owner now change later
    rw [Transactions.withTransaction, faithful.find later]
    cases openFor limits parse log.history text owner now <;> rfl

/-- A call of one owner neither changes nor reads what others have open. -/
structure Isolated (limits : TransactionLimits) (parse : String → Option Id)
    (entries : Transactions Id τ) (call : TransactionCall Id τ α) : Prop where
  unchanged : ∀ id entry, entries.lookup id = some entry →
    entry.owner ≠ call.owner → isOpen limits call.now entry = true →
    (call.perform limits parse entries).2.lookup id = some entry
  unread : ∀ content, (call.perform limits parse (entries.disguise call.owner content)).1 =
      (call.perform limits parse entries).1

/-- The call began a transaction under the identifier. -/
def Begins (id : Id) : TransactionCall Id τ α × TransactionResponse Id τ α → Prop
  | (.beginTransaction _ _ _ _, .began (.ok drawn)) => drawn = id
  | _ => False

variable {id : Id}

theorem recorded_append_eq_none
    {newer older : List (TransactionCall Id τ α × TransactionResponse Id τ α)}
    (gone : recorded parse id older = none)
    (unbegun : ∀ entry ∈ newer, ¬ Begins id entry) :
    recorded parse id (newer ++ older) = none := by
  induction newer with
  | nil => exact gone
  | cons entry newer ih =>
    have rest := ih fun other inside =>
      unbegun other (mem_cons_of_mem _ inside)
    have first := unbegun entry mem_cons_self
    rw [cons_append]
    unfold recorded
    split
    · cases ‹_ :: _ = []›
    · next same =>
      cases same
      exact (if_neg first).trans rest
    · next same =>
      cases same
      rw [rest]
      split <;> rfl
    · next same =>
      cases same
      rw [rest]
      split <;> rfl
    · next same =>
      cases same
      exact rest

/-- What is asked of the manager in a state it has reached. -/
structure Safe (limits : TransactionLimits) (parse : String → Option Id)
    (log : TransactionLog Id τ α) : Prop where
  within : log.entries.Within limits
  answers : log.Answers limits parse
  /-- What was taken cannot be taken again. -/
  once : ∀ newer older text owner now transaction id, log.history =
      newer ++ (.take text owner now, .taken (.ok transaction)) :: older →
    parse text = some id → (∀ entry ∈ newer, ¬ Begins id entry) →
    ∀ text' owner' now', parse text' = some id → log.last ≤ now' →
      (log.entries.take limits parse text' owner' now').1 = .error .notFound
  isolated : ∀ call : TransactionCall Id τ α, Isolated limits parse log.entries call

theorem Answers.once (answers : log.Answers limits parse)
    {newer older : List (TransactionCall Id τ α × TransactionResponse Id τ α)}
    {text : String} {owner : Owner} {transaction : τ} (history : log.history =
      newer ++ (.take text owner now, .taken (.ok transaction)) :: older)
    (parsed : parse text = some id) (unbegun : ∀ entry ∈ newer, ¬ Begins id entry)
    {text' : String}
    {owner' : Owner} {now' : Nat} (parsed' : parse text' = some id)
    (later : log.last ≤ now') :
    (log.entries.take limits parse text' owner' now').1 = .error .notFound := by
  have gone : recorded parse id ((TransactionCall.take text owner now,
      TransactionResponse.taken (.ok transaction)) :: older) = none := by
    simp [recorded, parsed]
  have nothing : recorded parse id log.history = none := by
    rw [history]
    exact recorded_append_eq_none gone unbegun
  rw [answers.take text' owner' now' later]
  simp [openFor, parsed', nothing]

/-- The transaction manager keeps its limits, answers what the history of the
calls says, and keeps the owners apart. -/
theorem transaction_manager_is_safe (limits : TransactionLimits)
    (parse : String → Option Id)
    (calls : List (TransactionCall Id τ α))
    (ordered : (calls.map (·.now)).Pairwise (· ≤ ·)) :
    (calls.foldl
      (TransactionLog.step limits parse) TransactionLog.empty).Safe limits parse := by
  have within : Within limits (∅ : Transactions Id τ) :=
    ⟨Nat.zero_le _, fun _ => Nat.zero_le _⟩
  have faithful : (calls.foldl (TransactionLog.step limits parse)
      TransactionLog.empty).Faithful limits parse :=
    faithful_foldl calls faithful_empty (fun _ _ => Nat.zero_le _) ordered
  have answers := faithful.answers
  refine ⟨within_foldl calls within, answers, ?_, ?_⟩
  · intro newer older text owner now transaction id history parsed unbegun
      text' owner' now' parsed' later
    exact answers.once history parsed unbegun parsed' later
  · intro call
    exact ⟨fun _ _ => lookup_perform_of_other parse call, perform_disguise limits parse call⟩

/-- Two owners with a transaction each; one of them tries both. -/
theorem transaction_manager_serves_two_owners :
    let calls : List (TransactionCall Nat (List Nat) Unit) :=
      [.beginTransaction .anonymous 0 (fun _ => some 7) [],
        .beginTransaction (.token "t") 1 (fun _ => some 8) [],
        .withTransaction "7" .anonymous 2 (fun staged => ((), staged ++ [3])),
        .withTransaction "8" .anonymous 2 (fun staged => ((), staged ++ [4])),
        .take "8" (.token "t") 3, .take "7" .anonymous 3, .take "7" .anonymous 4]
    (calls.map (·.now)).Pairwise (· ≤ ·) ∧
      (calls.foldl (TransactionLog.step .default String.toNat?)
        TransactionLog.empty).Safe .default String.toNat? := by
  intro calls
  have ordered : (calls.map (·.now)).Pairwise (· ≤ ·) := by
    simp [calls, TransactionCall.now]
  exact ⟨ordered, transaction_manager_is_safe .default String.toNat? calls ordered⟩

end TransactionLog

end ApexStore
