import Mathlib

/-!
# The rate limiter

Accepted requests are kept per address, and per address and route, in queues
that lose their front once it is a window old.  The addresses are spread over
shards; a shard that has not been swept for a window drops the addresses whose
queue is empty.  All this computes a count over the accepted requests of the
last window (`rate_limiter_is_sliding_window`).
-/

namespace ApexStore

open List

def rateWindow : Nat := 60 * 10 ^ 9

/-- The instant lies less than a window before the other. -/
def inWindow (now instant : Nat) : Bool := decide (now - instant < rateWindow)

/-- `prune_timestamps`: the front goes as long as it is too old. -/
def pruneTimestamps (now : Nat) (timestamps : List Nat) : List Nat :=
  timestamps.dropWhile fun timestamp => !inWindow now timestamp

/-- What is kept for an address. -/
structure IpTrack where
  timestamps : List Nat
  endpointTimestamps : String → Option (List Nat)

def IpTrack.new : IpTrack := ⟨[], fun _ => none⟩

def IpTrack.prune (now : Nat) (track : IpTrack) : IpTrack where
  timestamps := pruneTimestamps now track.timestamps
  endpointTimestamps route :=
    ((track.endpointTimestamps route).map (pruneTimestamps now)).filter
      (fun timestamps => !timestamps.isEmpty)

structure RateLimitShard (Address : Type) where
  requests : Address → Option IpTrack
  lastCleanup : Nat

def RateLimitShard.prune {Address : Type} (now : Nat)
    (shard : RateLimitShard Address) : RateLimitShard Address where
  requests peer :=
    ((shard.requests peer).map (·.prune now)).filter (fun track => !track.timestamps.isEmpty)
  lastCleanup := now

/-- The limits; zero disables one. -/
structure RateLimits where
  maxRequestsPerMinute : Nat
  endpointLimits : String → Option Nat

def RateLimits.endpointLimit (limits : RateLimits) (endpoint : Option String) : Nat :=
  (endpoint.bind limits.endpointLimits).getD 0

abbrev RateLimiterState (Address : Type) := Fin 16 → RateLimitShard Address

namespace RateLimiterState

variable {Address : Type} [DecidableEq Address]

def new (created : Fin 16 → Nat) : RateLimiterState Address :=
  fun index => ⟨fun _ => none, created index⟩

/-- What the limits say to a track that was pruned, and the track with the
request if it is accepted. -/
def accept (limits : RateLimits) (endpoint : Option String) (now : Nat)
    (track : IpTrack) : Bool × IpTrack :=
  if 0 < limits.maxRequestsPerMinute ∧
      limits.maxRequestsPerMinute ≤ track.timestamps.length then
    (true, track)
  else
    match endpoint with
    | none => (false, { track with timestamps := track.timestamps ++ [now] })
    | some route =>
      let held := track.endpointTimestamps route
      if 0 < limits.endpointLimit endpoint ∧
          held.any (fun timestamps =>
            decide (limits.endpointLimit endpoint ≤ timestamps.length)) then
        (true, track)
      else
        (false,
          { timestamps := track.timestamps ++ [now]
            endpointTimestamps := Function.update track.endpointTimestamps
              route (some (held.getD [] ++ [now])) })

/-- `is_rate_limited_with_clock`. -/
def isRateLimited (limits : RateLimits) (shardFor : Address → Fin 16)
    (peer : Address) (endpoint : Option String) (now : Nat)
    (state : RateLimiterState Address) : Bool × RateLimiterState Address :=
  if limits.maxRequestsPerMinute = 0 ∧ limits.endpointLimit endpoint = 0 then
    (false, state)
  else
    let shard := state (shardFor peer)
    let shard := if rateWindow ≤ now - shard.lastCleanup then shard.prune now
      else shard
    let track := ((shard.requests peer).getD .new).prune now
    let (limited, track) := accept limits endpoint now track
    let requests := Function.update shard.requests peer (some track)
    (limited, Function.update state (shardFor peer) { shard with requests })

end RateLimiterState

/-! ## What the limiter is for -/

structure RateRequest (Address : Type) where
  peer : Address
  endpoint : Option String
  time : Nat

namespace RateLimits

variable {Address : Type} [DecidableEq Address]

/-- Fewer of the accepted requests of the last window than the limits
allow. -/
def Admits (limits : RateLimits) (accepted : List (RateRequest Address))
    (request : RateRequest Address) : Prop :=
  (limits.maxRequestsPerMinute = 0 ∨
    accepted.countP (fun earlier => decide (earlier.peer = request.peer) &&
      inWindow request.time earlier.time) < limits.maxRequestsPerMinute) ∧
  (limits.endpointLimit request.endpoint = 0 ∨
    accepted.countP (fun earlier => decide (earlier.peer = request.peer) &&
      decide (earlier.endpoint = request.endpoint) && inWindow request.time earlier.time) <
        limits.endpointLimit request.endpoint)

/-- The request is looked at: one of its limits is enabled. -/
def counts (limits : RateLimits) (request : RateRequest Address) : Bool :=
  !(decide (limits.maxRequestsPerMinute = 0) && decide
    (limits.endpointLimit request.endpoint = 0))

/-- The times of the accepted requests of an address that were looked at. -/
def timesOf (limits : RateLimits) (accepted : List (RateRequest Address))
    (peer : Address) : List Nat :=
  (accepted.filter fun earlier =>
    decide (earlier.peer = peer) && limits.counts earlier).map (·.time)

def routeTimesOf (limits : RateLimits) (accepted : List (RateRequest Address))
    (peer : Address) (route : String) : List Nat :=
  (accepted.filter fun earlier => decide (earlier.peer = peer) &&
    limits.counts earlier && decide (earlier.endpoint = some route)).map (·.time)

end RateLimits

/-- The limiter with the requests it has accepted. -/
structure RateLog (Address : Type) where
  state : RateLimiterState Address
  accepted : List (RateRequest Address)

namespace RateLog

variable {Address : Type} [DecidableEq Address]

def start (created : Fin 16 → Nat) : RateLog Address := ⟨.new created, []⟩

def step (limits : RateLimits) (shardFor : Address → Fin 16)
    (log : RateLog Address) (request : RateRequest Address) : RateLog Address :=
  let (limited, state) := log.state.isRateLimited limits shardFor request.peer
    request.endpoint request.time
  ⟨state, if limited then log.accepted else log.accepted ++ [request]⟩

end RateLog

/-! ## Queues -/

variable {now : Nat}

variable {instant cutoff : Nat}

theorem inWindow_of_later {later : Nat} (recent : inWindow now instant = true)
    (order : instant ≤ later) : inWindow now later = true := by
  simp only [inWindow, decide_eq_true_eq] at recent ⊢
  omega

theorem inWindow_of_earlier (recent : inWindow now instant = true)
    (earlier : cutoff ≤ now) :
    inWindow cutoff instant = true := by
  simp only [inWindow, decide_eq_true_eq] at recent ⊢
  omega

theorem inWindow_self (now : Nat) : inWindow now now = true := by
  simp [inWindow, rateWindow]

theorem pruneTimestamps_eq_filter (now : Nat) {timestamps : List Nat}
    (sorted : timestamps.Pairwise (· ≤ ·)) :
    pruneTimestamps now timestamps = timestamps.filter (inWindow now) := by
  induction timestamps with
  | nil => rfl
  | cons first rest ih =>
    rw [pairwise_cons] at sorted
    by_cases recent : inWindow now first = true
    · have all_recent : ∀ later ∈ first :: rest, inWindow now later = true := by
        intro later inside
        rcases mem_cons.mp inside with rfl | after
        · exact recent
        · exact inWindow_of_later recent (sorted.1 later after)
      rw [pruneTimestamps, dropWhile_cons_of_neg (by simp [recent]),
        filter_eq_self.mpr all_recent]
    · rw [pruneTimestamps, dropWhile_cons_of_pos (by simp [recent]),
        filter_cons_of_neg recent]
      exact ih sorted.2

theorem filter_inWindow_filter (earlier : cutoff ≤ now) (times : List Nat) :
    (times.filter (inWindow cutoff)).filter (inWindow now) =
      times.filter (inWindow now) := by
  rw [filter_filter]
  apply filter_congr
  intro instant _
  by_cases recent : inWindow now instant = true
  · simp [inWindow_of_earlier recent earlier]
  · simp [recent]

namespace IpTrack

/-- The track has the requests of the window before the cutoff. -/
structure Follows (track : IpTrack) (times : List Nat)
    (routeTimes : String → List Nat) (cutoff : Nat) : Prop where
  timestamps : track.timestamps = times.filter (inWindow cutoff)
  routes : ∀ route, (track.endpointTimestamps route).getD [] =
    (routeTimes route).filter (inWindow cutoff)

variable {track : IpTrack} {times : List Nat} {routeTimes : String → List Nat}
  {cutoff now : Nat}

theorem getD_prune (now : Nat) (held : Option (List Nat)) :
    (((held.map (pruneTimestamps now)).filter
      (fun timestamps => !timestamps.isEmpty)).getD []) =
        pruneTimestamps now (held.getD []) := by
  cases held with
  | none => rfl
  | some timestamps =>
    cases pruned : pruneTimestamps now timestamps with
    | nil | cons first rest => simp [pruned, Option.filter_some]

theorem Follows.prune (follows : track.Follows times routeTimes cutoff)
    (sorted : times.Pairwise (· ≤ ·))
    (route_sorted : ∀ route, (routeTimes route).Pairwise (· ≤ ·))
    (earlier : cutoff ≤ now) : (track.prune now).Follows times routeTimes now := by
  constructor
  · rw [IpTrack.prune, follows.timestamps, pruneTimestamps_eq_filter now (sorted.filter _),
      filter_inWindow_filter earlier]
  · intro route
    rw [IpTrack.prune, getD_prune, follows.routes,
      pruneTimestamps_eq_filter now ((route_sorted route).filter _),
        filter_inWindow_filter earlier]

theorem Follows.new_of_empty (follows : track.Follows times routeTimes cutoff)
    (empty : track.timestamps = [])
    (within : ∀ route, ∀ instant ∈ routeTimes route, instant ∈ times) :
    new.Follows times routeTimes cutoff := by
  have nothing : ∀ instant ∈ times, inWindow cutoff instant = false := by
    have none_left := follows.timestamps.symm.trans empty
    rw [filter_eq_nil_iff] at none_left
    intro instant inside
    simpa using none_left instant inside
  constructor
  · exact empty.symm.trans follows.timestamps
  · intro route
    have none_left : (routeTimes route).filter (inWindow cutoff) = [] := by
      rw [filter_eq_nil_iff]
      intro instant inside
      simp [nothing instant (within route instant inside)]
    rw [none_left]
    rfl

end IpTrack

/-! ## The accepted requests -/

namespace RateLimits

variable {Address : Type} [DecidableEq Address] {limits : RateLimits}
  {accepted : List (RateRequest Address)}

section

variable (sorted : (accepted.map (·.time)).Pairwise (· ≤ ·)) (peer : Address)
include sorted peer

theorem timesOf_sorted : (limits.timesOf accepted peer).Pairwise (· ≤ ·) :=
  sorted.sublist (filter_sublist.map _)

theorem routeTimesOf_sorted (route : String) :
    (limits.routeTimesOf accepted peer route).Pairwise (· ≤ ·) :=
  sorted.sublist (filter_sublist.map _)

end

variable {route : String}

theorem mem_timesOf_of_route {peer : Address} {instant : Nat}
    (inside : instant ∈ limits.routeTimesOf accepted peer route) :
    instant ∈ limits.timesOf accepted peer := by
  simp only [routeTimesOf, timesOf, mem_map, mem_filter, Bool.and_eq_true] at inside ⊢
  obtain ⟨request, ⟨member, passes, _⟩, same⟩ := inside
  exact ⟨request, ⟨member, passes⟩, same⟩

theorem length_timesOf (enabled : 0 < limits.maxRequestsPerMinute) (peer : Address)
    (now : Nat) :
    ((limits.timesOf accepted peer).filter (inWindow now)).length =
      accepted.countP fun earlier =>
        decide (earlier.peer = peer) && inWindow now earlier.time := by
  have counted : ∀ earlier : RateRequest Address, limits.counts earlier = true := by
    intro earlier
    have nonzero : limits.maxRequestsPerMinute ≠ 0 := by omega
    simp [counts, nonzero]
  rw [timesOf, filter_map, length_map, filter_filter, countP_eq_length_filter]
  congr 1
  apply filter_congr
  intro earlier _
  simp [counted, Bool.and_comm]

theorem length_routeTimesOf {endpoint : Option String} (here : endpoint = some route)
    (enabled : 0 < limits.endpointLimit endpoint) (peer : Address) (now : Nat) :
    ((limits.routeTimesOf accepted peer route).filter (inWindow now)).length =
      accepted.countP fun earlier => decide (earlier.peer = peer) &&
        decide (earlier.endpoint = endpoint) && inWindow now earlier.time := by
  rw [routeTimesOf, filter_map, length_map, filter_filter, countP_eq_length_filter]
  congr 1
  apply filter_congr
  intro earlier _
  by_cases same : earlier.endpoint = endpoint
  · have counted : limits.counts earlier = true := by
      have nonzero : limits.endpointLimit earlier.endpoint ≠ 0 := by
        rw [same]
        omega
      simp [counts, nonzero]
    simp [counted, here, Bool.and_comm]
  · have other : earlier.endpoint ≠ some route := here ▸ same
    simp [same, other]

theorem timesOf_append (request : RateRequest Address) (peer : Address) :
    limits.timesOf (accepted ++ [request]) peer = limits.timesOf accepted peer ++
        if request.peer = peer ∧
          limits.counts request = true then [request.time] else [] := by
  rw [timesOf, timesOf]
  by_cases here : request.peer = peer <;>
    by_cases counted : limits.counts request = true <;> simp [here, counted]

theorem routeTimesOf_append (request : RateRequest Address) (peer : Address)
    (route : String) :
    limits.routeTimesOf (accepted ++ [request]) peer route =
      limits.routeTimesOf accepted peer route ++
        if request.peer = peer ∧ limits.counts request = true ∧
          request.endpoint = some route then [request.time] else [] := by
  rw [routeTimesOf, routeTimesOf]
  by_cases here : request.peer = peer <;> by_cases counted : limits.counts request = true <;>
      by_cases there : request.endpoint = some route <;> simp [here, counted, there]

end RateLimits

namespace RateLimiterState

variable {Address : Type} [DecidableEq Address] {limits : RateLimits}
  {accepted : List (RateRequest Address)} {request : RateRequest Address}
  {track : IpTrack}

theorem any_length_iff {limit : Nat} (enabled : 0 < limit) (held : Option (List Nat)) :
    held.any (fun timestamps => decide (limit ≤ timestamps.length)) = true ↔
      limit ≤ (held.getD []).length := by
  cases held with
  | none =>
    simp only [Option.any_none, Bool.false_eq_true, Option.getD_none, length_nil, false_iff]
    omega
  | some timestamps => simp

section

variable
  (follows : track.Follows (limits.timesOf accepted request.peer)
    (limits.routeTimesOf accepted request.peer) request.time)
include follows

theorem accept_iff : (accept limits request.endpoint request.time track).1 = false ↔
      limits.Admits accepted request := by
  have globally : (0 < limits.maxRequestsPerMinute ∧
      limits.maxRequestsPerMinute ≤ track.timestamps.length) ↔
        ¬ (limits.maxRequestsPerMinute = 0 ∨
        accepted.countP (fun earlier => decide (earlier.peer = request.peer) &&
          inWindow request.time earlier.time) < limits.maxRequestsPerMinute) := by
    by_cases enabled : 0 < limits.maxRequestsPerMinute
    · rw [follows.timestamps, RateLimits.length_timesOf enabled]
      omega
    · omega
  unfold accept RateLimits.Admits
  by_cases full : 0 < limits.maxRequestsPerMinute ∧
      limits.maxRequestsPerMinute ≤ track.timestamps.length
  · have refused := globally.mp full
    simp [full, refused]
  · have room := not_not.mp (fun refused => full (globally.mpr refused))
    rw [if_neg full, and_iff_right room]
    cases here : request.endpoint with
    | none => simp [RateLimits.endpointLimit]
    | some route =>
      have routed : (0 < limits.endpointLimit (some route) ∧
          (track.endpointTimestamps route).any (fun timestamps =>
            decide (limits.endpointLimit (some route) ≤ timestamps.length)) = true) ↔
          ¬ (limits.endpointLimit (some route) = 0 ∨ accepted.countP (fun earlier =>
              decide (earlier.peer = request.peer) &&
              decide (earlier.endpoint = some route) &&
              inWindow request.time earlier.time) < limits.endpointLimit (some route)) := by
        by_cases enabled : 0 < limits.endpointLimit (some route)
        · rw [any_length_iff enabled, follows.routes,
            RateLimits.length_routeTimesOf rfl enabled]
          omega
        · omega
      dsimp only
      split
      · next busy =>
        have refused := routed.mp busy
        simp only [Bool.true_eq_false, false_iff]
        exact refused
      · next free =>
        have allowed := not_not.mp (fun refused =>
          free (routed.mpr refused))
        simp only [true_iff]
        exact allowed

theorem accept_follows (counted : limits.counts request = true)
    (allowed : (accept limits request.endpoint request.time track).1 = false) :
    (accept limits request.endpoint request.time track).2.Follows
      (limits.timesOf (accepted ++ [request]) request.peer)
      (limits.routeTimesOf (accepted ++ [request]) request.peer) request.time := by
  have grown : track.timestamps ++ [request.time] =
      (limits.timesOf (accepted ++ [request]) request.peer).filter
        (inWindow request.time) := by
    rw [RateLimits.timesOf_append, if_pos ⟨rfl, counted⟩, filter_append,
      ← follows.timestamps]
    simp [inWindow_self]
  unfold accept at allowed ⊢
  split at allowed
  · cases allowed
  · next room =>
    rw [if_neg room]
    cases here : request.endpoint with
    | none =>
      refine ⟨grown, ?_⟩
      intro other
      rw [RateLimits.routeTimesOf_append, if_neg (by simp [here]), append_nil]
      exact follows.routes other
    | some route =>
      rw [here] at allowed
      dsimp only at allowed ⊢
      split at allowed
      · cases allowed
      · next free =>
        rw [if_neg free]
        refine ⟨grown, ?_⟩
        intro other
        rw [RateLimits.routeTimesOf_append]
        by_cases same : other = route
        · subst same
          rw [if_pos ⟨rfl, counted, here⟩, filter_append, ← follows.routes]
          simp [inWindow_self]
        · have apart : ¬ (request.peer = request.peer ∧ limits.counts request = true ∧
              request.endpoint = some other) := by
            rw [here]
            rintro ⟨_, _, equal⟩
            exact same (Option.some.inj equal).symm
          rw [if_neg apart, append_nil, ← follows.routes]
          simp [Function.update_of_ne same]

end

variable {now : Nat} {shardFor : Address → Fin 16}

theorem accept_refused {endpoint : Option String}
    (refused : (accept limits endpoint now track).1 = true) :
    (accept limits endpoint now track).2 = track := by
  unfold accept at refused ⊢
  split at refused
  · next full => rw [if_pos full]
  · next room =>
    rw [if_neg room]
    cases endpoint with
    | none => cases refused
    | some route =>
      dsimp only at refused ⊢
      split at refused
      · next busy => rw [if_pos busy]
      · cases refused

def trackOf (state : RateLimiterState Address) (shardFor : Address → Fin 16)
    (peer : Address) : IpTrack :=
  ((state (shardFor peer)).requests peer).getD .new

/-- The shard of an address as a request finds it: swept if that is due. -/
def sweptShard (state : RateLimiterState Address) (index : Fin 16)
    (now : Nat) : RateLimitShard Address :=
  if rateWindow ≤ now - (state index).lastCleanup then (state index).prune now
  else state index

omit [DecidableEq Address] in
theorem swept_follows {state : RateLimiterState Address} {peer : Address}
    {cutoff : Nat} {times : List Nat} {routeTimes : String → List Nat}
    (follows : (state.trackOf shardFor peer).Follows times routeTimes cutoff)
    (sorted : times.Pairwise (· ≤ ·))
    (route_sorted : ∀ route, (routeTimes route).Pairwise (· ≤ ·))
    (within : ∀ route, ∀ instant ∈ routeTimes route, instant ∈ times)
    (earlier : cutoff ≤ now) :
    ∃ cutoff' ≤ now, (((state.sweptShard (shardFor peer) now).requests peer).getD
        .new).Follows times routeTimes cutoff' := by
  unfold sweptShard
  split
  · unfold RateLimitShard.prune
    unfold trackOf at follows
    dsimp only
    cases held : (state (shardFor peer)).requests peer with
    | none =>
      rw [held] at follows
      exact ⟨cutoff, earlier, follows⟩
    | some track =>
      rw [held] at follows
      have pruned := IpTrack.Follows.prune follows sorted route_sorted earlier
      refine ⟨now, le_refl _, ?_⟩
      cases kept : (track.prune now).timestamps with
      | nil =>
        have gone := pruned.new_of_empty kept within
        simpa [Option.filter_some, kept] using gone
      | cons first rest => simpa [Option.filter_some, kept] using pruned
  · exact ⟨cutoff, earlier, follows⟩

theorem isRateLimited_of_counts (counted : limits.counts request = true)
    (state : RateLimiterState Address) :
    state.isRateLimited limits shardFor request.peer request.endpoint request.time =
      let shard := state.sweptShard (shardFor request.peer) request.time
      let result := accept limits request.endpoint request.time
        (((shard.requests request.peer).getD .new).prune request.time)
      (result.1, Function.update state (shardFor request.peer)
        ⟨Function.update shard.requests request.peer (some result.2),
          shard.lastCleanup⟩) := by
  have enabled : ¬ (limits.maxRequestsPerMinute = 0 ∧
      limits.endpointLimit request.endpoint = 0) := by
    intro disabled
    simp [RateLimits.counts, disabled] at counted
  rw [isRateLimited, if_neg enabled]
  rfl

theorem trackOf_update (state : RateLimiterState Address)
    (shardFor : Address → Fin 16) (own : Address) (now : Nat)
    (track : IpTrack) (lastCleanup : Nat) (peer : Address) :
    let shard := state.sweptShard (shardFor own) now
    trackOf (Function.update state (shardFor own)
        ⟨Function.update shard.requests own (some track), lastCleanup⟩) shardFor peer =
      if peer = own then track
      else if shardFor peer = shardFor own then
        (shard.requests peer).getD .new
      else state.trackOf shardFor peer := by
  intro shard
  unfold trackOf
  by_cases same : shardFor peer = shardFor own
  · by_cases here : peer = own
    · subst here
      simp
    · simp [same, here]
  · have apart : peer ≠ own := fun equal => same (congrArg shardFor equal)
    simp [same, apart]

end RateLimiterState

namespace RateLog

open RateLimiterState

variable {Address : Type} [DecidableEq Address] {limits : RateLimits}
  {shardFor : Address → Fin 16} {log : RateLog Address}
  {request : RateRequest Address} {last : Nat}

/-- The queues hold, for every address, the accepted requests of a window that
ends not after the last request. -/
structure Tracking (limits : RateLimits) (shardFor : Address → Fin 16)
    (last : Nat) (log : RateLog Address) : Prop where
  sorted : (log.accepted.map (·.time)).Pairwise (· ≤ ·)
  bounded : ∀ earlier ∈ log.accepted, earlier.time ≤ last
  follows : ∀ peer, ∃ cutoff ≤ last, (log.state.trackOf shardFor peer).Follows
      (limits.timesOf log.accepted peer) (limits.routeTimesOf log.accepted peer) cutoff

theorem tracking_start (created : Fin 16 → Nat) :
    (start created : RateLog Address).Tracking limits shardFor 0 := by
  refine ⟨List.Pairwise.nil, by simp [start], ?_⟩
  intro peer
  exact ⟨0, le_refl _, rfl, fun _ => rfl⟩

section

variable (tracking : log.Tracking limits shardFor last)
include tracking

theorem Tracking.swept {now : Nat} (later : last ≤ now) (peer : Address) :
    ∃ cutoff ≤ now, (((log.state.sweptShard (shardFor peer) now).requests
      peer).getD .new).Follows (limits.timesOf log.accepted peer)
        (limits.routeTimesOf log.accepted peer) cutoff := by
  obtain ⟨cutoff, earlier, follows⟩ := tracking.follows peer
  exact swept_follows follows (RateLimits.timesOf_sorted tracking.sorted peer)
    (RateLimits.routeTimesOf_sorted tracking.sorted peer)
    (fun _ _ => RateLimits.mem_timesOf_of_route) (earlier.trans later)

theorem Tracking.pruned (later : last ≤ request.time) :
    ((((log.state.sweptShard (shardFor request.peer)
      request.time).requests request.peer).getD .new).prune
        request.time).Follows (limits.timesOf log.accepted request.peer)
          (limits.routeTimesOf log.accepted request.peer) request.time := by
  obtain ⟨cutoff, earlier, follows⟩ := tracking.swept later request.peer
  exact follows.prune (RateLimits.timesOf_sorted tracking.sorted _)
    (RateLimits.routeTimesOf_sorted tracking.sorted _) earlier

theorem Tracking.decision (later : last ≤ request.time) :
    (log.state.isRateLimited limits shardFor request.peer request.endpoint request.time).1 = false ↔
      limits.Admits log.accepted request := by
  by_cases counted : limits.counts request = true
  · rw [isRateLimited_of_counts counted]
    exact accept_iff (tracking.pruned later)
  · have disabled : limits.maxRequestsPerMinute = 0 ∧
        limits.endpointLimit request.endpoint = 0 := by
      simpa [RateLimits.counts] using counted
    simp [isRateLimited, RateLimits.Admits, disabled]

theorem Tracking.sorted_append (later : last ≤ request.time) :
    ((log.accepted ++ [request]).map (·.time)).Pairwise (· ≤ ·) := by
  rw [map_append, pairwise_append]
  refine ⟨tracking.sorted, by simp, ?_⟩
  intro instant inside other only
  obtain ⟨earlier, member, rfl⟩ := mem_map.mp inside
  rw [mem_map] at only
  obtain ⟨same, member', rfl⟩ := only
  cases mem_singleton.mp member'
  exact (tracking.bounded earlier member).trans later

end

omit [DecidableEq Address] in
theorem bounded_append (bounded : ∀ earlier ∈ log.accepted, earlier.time ≤ last)
    (later : last ≤ request.time) :
    ∀ earlier ∈ log.accepted ++ [request], earlier.time ≤ request.time := by
  intro earlier inside
  rcases mem_append.mp inside with before | same
  · exact (bounded earlier before).trans later
  · cases mem_singleton.mp same
    exact le_refl _

theorem Tracking.step (tracking : log.Tracking limits shardFor last)
    (later : last ≤ request.time) :
    (log.step limits shardFor request).Tracking limits shardFor request.time := by
  by_cases counted : limits.counts request = true
  · rw [RateLog.step, isRateLimited_of_counts counted]
    dsimp only
    have pruned := tracking.pruned later
    generalize (((log.state.sweptShard (shardFor request.peer)
      request.time).requests request.peer).getD .new).prune request.time = track at pruned
    -- the address itself
    have own : (accept limits request.endpoint request.time track).2.Follows
        (limits.timesOf (if (accept limits request.endpoint request.time
          track).1 = true then log.accepted else log.accepted ++ [request]) request.peer)
        (limits.routeTimesOf (if (accept limits request.endpoint request.time
          track).1 = true then log.accepted else log.accepted ++ [request])
            request.peer) request.time := by
      cases decided : (accept limits request.endpoint request.time track).1 with
      | true =>
        rw [accept_refused decided, if_pos rfl]
        exact pruned
      | false => exact accept_follows pruned counted decided
    generalize accept limits request.endpoint request.time track = result at own
    obtain ⟨limited, track'⟩ := result
    refine ⟨?_, ?_, ?_⟩
    · cases limited with
      | true => exact tracking.sorted
      | false => exact tracking.sorted_append later
    · cases limited with
      | true =>
        exact fun earlier inside =>
          (tracking.bounded earlier inside).trans later
      | false => exact bounded_append tracking.bounded later
    · intro peer
      rw [trackOf_update]
      by_cases here : peer = request.peer
      · subst here
        rw [if_pos rfl]
        exact ⟨request.time, le_refl _, own⟩
      · have apart : request.peer ≠ peer := Ne.symm here
        have times : limits.timesOf (if limited = true then log.accepted
            else log.accepted ++ [request]) peer = limits.timesOf log.accepted peer := by
          cases limited with
          | true => rfl
          | false => simp [RateLimits.timesOf_append, apart]
        have routes : limits.routeTimesOf (if limited = true then log.accepted
            else log.accepted ++ [request]) peer =
              limits.routeTimesOf log.accepted peer := by
          cases limited with
          | true => rfl
          | false =>
            funext route
            simp [RateLimits.routeTimesOf_append, apart]
        rw [if_neg here, times, routes]
        split
        · next shared =>
          rw [← shared]
          exact tracking.swept later peer
        · obtain ⟨cutoff, earlier, follows⟩ := tracking.follows peer
          exact ⟨cutoff, earlier.trans later, follows⟩
  · -- both limits are disabled: nothing is kept of the request
    have disabled : limits.maxRequestsPerMinute = 0 ∧
        limits.endpointLimit request.endpoint = 0 := by
      simpa [RateLimits.counts] using counted
    rw [RateLog.step, isRateLimited, if_pos disabled]
    refine ⟨tracking.sorted_append later, bounded_append tracking.bounded later, ?_⟩
    intro peer
    obtain ⟨cutoff, earlier, follows⟩ := tracking.follows peer
    refine ⟨cutoff, earlier.trans later, ?_⟩
    have times : limits.timesOf (log.accepted ++ [request]) peer =
        limits.timesOf log.accepted peer := by
      simp [RateLimits.timesOf_append, counted]
    have routes : limits.routeTimesOf (log.accepted ++ [request]) peer =
        limits.routeTimesOf log.accepted peer := by
      funext route
      simp [RateLimits.routeTimesOf_append, counted]
    dsimp only
    rw [if_neg Bool.false_ne_true, times, routes]
    exact follows

theorem tracking_foldl (requests : List (RateRequest Address))
    (tracking : log.Tracking limits shardFor last)
    (ordered : (requests.map (·.time)).Pairwise (· ≤ ·))
    (later : ∀ request ∈ requests, last ≤ request.time) :
    ∃ last', (∀ time, last ≤ time →
        (∀ request ∈ requests, request.time ≤ time) → last' ≤ time) ∧
      (requests.foldl
        (RateLog.step limits shardFor) log).Tracking limits shardFor last' := by
  induction requests generalizing log last with
  | nil => exact ⟨last, fun _ before _ => before, tracking⟩
  | cons request requests ih =>
    rw [map_cons, pairwise_cons] at ordered
    have next := tracking.step (later request mem_cons_self)
    obtain ⟨last', latest, tracking'⟩ := ih next ordered.2 (fun other inside =>
        ordered.1 other.time (mem_map_of_mem inside))
    refine ⟨last', ?_, tracking'⟩
    intro time _ all
    exact latest time (all request mem_cons_self)
      (forall_mem_cons.mp all).2

/-- The rate limiter is an exact sliding window: it accepts a request just if
fewer of the requests it accepted in the last window than the limits allow are
from the address, and from the address on the route. -/
theorem rate_limiter_is_sliding_window (limits : RateLimits)
    (shardFor : Address → Fin 16) (created : Fin 16 → Nat)
    (requests : List (RateRequest Address)) (request : RateRequest Address)
    (ordered : ((requests ++ [request]).map (·.time)).Pairwise (· ≤ ·)) :
    let log := requests.foldl (RateLog.step limits shardFor)
      (RateLog.start created)
    (log.state.isRateLimited limits shardFor request.peer request.endpoint
        request.time).1 = false ↔
      limits.Admits log.accepted request := by
  intro log
  rw [map_append, pairwise_append] at ordered
  obtain ⟨before, _, apart⟩ := ordered
  obtain ⟨last, latest, tracking⟩ := tracking_foldl requests
    (tracking_start created) before (fun _ _ => Nat.zero_le _)
  apply tracking.decision
  apply latest request.time (Nat.zero_le _)
  intro earlier inside
  exact apart earlier.time (mem_map_of_mem inside) request.time (by simp)

theorem rate_limiter_counts_two_requests :
    let limits : RateLimits := ⟨2, fun _ => none⟩
    let requests : List (RateRequest Nat) := [⟨1, none, 0⟩, ⟨1, none, 5⟩]
    let request : RateRequest Nat := ⟨1, none, rateWindow⟩
    let log := requests.foldl (RateLog.step limits (fun _ => 0))
      (RateLog.start (fun _ => 0))
    ((requests ++ [request]).map (·.time)).Pairwise (· ≤ ·) ∧
      ((log.state.isRateLimited limits (fun _ => 0) request.peer
          request.endpoint request.time).1 = false ↔
        limits.Admits log.accepted request) := by
  intro limits requests request log
  have ordered : ((requests ++ [request]).map (·.time)).Pairwise (· ≤ ·) := by
    simp [requests, request, rateWindow]
  exact ⟨ordered, rate_limiter_is_sliding_window limits (fun _ => 0)
    (fun _ => 0) requests request ordered⟩

end RateLog

end ApexStore
