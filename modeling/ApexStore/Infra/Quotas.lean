import ApexStore.Library.Runs
import Mathlib

/-!
# Tenant quotas

A client checks its amounts against the quota of its tenant and records them
in a second call.  In between they do not count, so that two clients together
can take more than the quota leaves.
-/

namespace ApexStore

/-- What is counted: `keys_count` and `storage_bytes`. -/
inductive Resource where
  | keys
  | bytes

structure TenantQuota where
  limit : Resource → Nat
  maxRequestsPerSecond : Nat

structure TenantUsage where
  count : Resource → Nat
  requestTimestamps : List Nat

/-- Amounts that are both a `u64` and an `i64`. -/
abbrev UsageAmounts := Resource → Fin (2 ^ 63)

namespace TenantUsage

variable (quota : TenantQuota) (tenant : String)

/-- `check_quota`; requests before the last second are pruned. -/
def checkQuota (usage : TenantUsage) (amounts : UsageAmounts) (now : Nat) :
    Except String Unit × TenantUsage :=
  let total resource := (usage.count resource + amounts resource) % 2 ^ 64
  if quota.limit .keys < total .keys then
    (.error (s!"Tenant '{tenant}' key limit exceeded: " ++
      s!"{total .keys}/{quota.limit .keys}"), usage)
  else if quota.limit .bytes < total .bytes then
    (.error (s!"Tenant '{tenant}' storage limit exceeded: " ++
      s!"{total .bytes}/{quota.limit .bytes} bytes"), usage)
  else
    let recent := usage.requestTimestamps.filter fun time => decide (now - time < 1000000000)
    (if quota.maxRequestsPerSecond ≤ recent.length then
      .error (s!"Tenant '{tenant}' rate limit exceeded: {recent.length} req/s " ++
        s!"(max {quota.maxRequestsPerSecond})")
    else .ok (), { usage with requestTimestamps := recent })

/-- `record_usage`: a signed change of the counts, which saturate. -/
def recordUsage (usage : TenantUsage) (delta : Resource → Int) (now : Nat) :
    TenantUsage :=
  { count := fun resource =>
      if 0 ≤ delta resource then min (usage.count resource + (delta resource).toNat)
        (2 ^ 64 - 1)
      else usage.count resource - (-delta resource).toNat
    requestTimestamps := usage.requestTimestamps ++ [now] }

variable {quota tenant} {usage : TenantUsage} {amounts : UsageAmounts} {now : Nat}

/-- Amounts that pass a check fit. -/
theorem checkQuota_spec :
    (usage.checkQuota quota tenant amounts now).2.count = usage.count ∧
    ((usage.checkQuota quota tenant amounts now).1 = .ok () → ∀ resource,
      (usage.count resource + amounts resource) % 2 ^ 64 ≤ quota.limit resource) := by
  rw [checkQuota]
  split
  · exact ⟨rfl, nofun⟩
  · next keys =>
    split
    · exact ⟨rfl, nofun⟩
    · next bytes =>
      refine ⟨rfl, fun _ resource => ?_⟩
      cases resource with
      | keys => exact Nat.le_of_not_lt keys
      | bytes => exact Nat.le_of_not_lt bytes

end TenantUsage

/-- A tenant and its clients: the amounts that passed a check and are to be
recorded, and those that are recorded and may be given back. -/
structure TenantClients where
  usage : TenantUsage
  approved : List UsageAmounts
  recorded : List UsageAmounts

inductive TenantStep where
  | check (amounts : UsageAmounts) (now : Nat)
  | record (index now : Nat)
  | giveBack (index now : Nat)

namespace TenantClients

def start : TenantClients := ⟨⟨fun _ => 0, []⟩, [], []⟩

variable (quota : TenantQuota) (tenant : String)

def step (clients : TenantClients) : TenantStep → TenantClients
  | .check amounts now =>
    match clients.usage.checkQuota quota tenant amounts now with
    | (.ok (), usage) =>
      { clients with usage, approved := amounts :: clients.approved }
    | (.error _, usage) => { clients with usage }
  | .record index now =>
    match clients.approved[index]? with
    | none => clients
    | some amounts =>
      { usage := clients.usage.recordUsage (fun resource => amounts resource) now
        approved := clients.approved.eraseIdx index
        recorded := amounts :: clients.recorded }
  | .giveBack index now =>
    match clients.recorded[index]? with
    | none => clients
    | some amounts =>
      { clients with
        usage := clients.usage.recordUsage (fun resource => -amounts resource) now
        recorded := clients.recorded.eraseIdx index }

/-- A check is made while no amounts are to be recorded, and its amounts can
be added to the quota. -/
def Alone (clients : TenantClients) : TenantStep → Prop
  | .check amounts _ => clients.approved = [] ∧
      ∀ resource, quota.limit resource + amounts resource < 2 ^ 64
  | _ => True

/-- There is room for the amounts that are to be recorded. -/
def Room (clients : TenantClients) : Prop :=
  ∀ resource, clients.usage.count resource +
    (clients.approved.map fun amounts => (amounts resource).val).sum ≤ quota.limit resource

variable {quota tenant} {clients : TenantClients}

theorem Room.step (room : clients.Room quota) {label : TenantStep}
    (alone : clients.Alone quota label) :
    (clients.step quota tenant label).Room quota := by
  intro resource
  have below := room resource
  cases label with
  | check amounts now =>
    obtain ⟨same, passed⟩ :=
      @TenantUsage.checkQuota_spec quota tenant clients.usage amounts now
    rw [TenantClients.step]
    split
    · next usage found =>
      rw [found] at same passed
      have within := passed rfl resource
      have fits := alone.2 resource
      rw [← same, Nat.mod_eq_of_lt (by rw [same]; omega)] at within
      simpa [alone.1] using within
    · next usage found =>
      rw [found] at same
      rwa [← same] at below
  | record index now =>
    rw [TenantClients.step]
    split
    · exact below
    · next amounts found =>
      obtain ⟨inside, rfl⟩ := List.getElem?_eq_some_iff.mp found
      have permuted := List.getElem_cons_eraseIdx_perm inside
      rw [← (permuted.map fun amounts => (amounts resource).val).sum_eq] at below
      simp only [TenantUsage.recordUsage, List.map_cons, List.sum_cons] at below ⊢
      split <;> omega
  | giveBack index now =>
    rw [TenantClients.step]
    split
    · exact below
    · simp only [TenantUsage.recordUsage]
      split <;> omega

/-- If the clients check and record one after the other and no amount is too
large to add, the usage stays within the quota and nothing overflows. -/
theorem usage_stays_within_quota (quota : TenantQuota) (tenant : String)
    {steps : List TenantStep}
    (run : Guarded (step quota tenant) (Alone quota) start steps) :
    let clients := steps.foldl (step quota tenant) start
    ∀ resource, clients.usage.count resource ≤ quota.limit resource ∧
      (∀ amounts now, clients.Alone quota (.check amounts now) →
        clients.usage.count resource + amounts resource < 2 ^ 64) ∧
      ∀ amounts ∈ clients.recorded, -(2 ^ 63 : Int) < -amounts resource := by
  intro clients resource
  have room : clients.Room quota :=
    run.invariant (fun _ _ room alone => room.step alone) (fun _ => Nat.zero_le _)
  have below := room resource
  refine ⟨by omega, ?_, ?_⟩
  · intro amounts now alone
    have fits := alone.2 resource
    omega
  · intro amounts _
    omega

/-- The second client is refused until the first one has given back what it
took. -/
theorem two_clients_stay_within_ten :
    let quota : TenantQuota := ⟨fun _ => 10, 10⟩
    let steps := [TenantStep.check (fun _ => 6) 0, .record 0 0,
      .check (fun _ => 7) 1, .giveBack 0 2, .check (fun _ => 7) 3, .record 0 3]
    Guarded (step quota "t") (Alone quota) start steps ∧
      (steps.foldl (step quota "t") start).usage.count .keys ≤ quota.limit .keys := by
  intro quota steps
  have run : Guarded (step quota "t") (Alone quota) start steps :=
    ⟨⟨rfl, fun _ => (by decide : 10 + 6 < 2 ^ 64)⟩, trivial,
      ⟨rfl, fun _ => (by decide : 10 + 7 < 2 ^ 64)⟩, trivial,
      ⟨rfl, fun _ => (by decide : 10 + 7 < 2 ^ 64)⟩, trivial, trivial⟩
  exact ⟨run, (usage_stays_within_quota quota "t" run .keys).1⟩

/-- Both checks pass before the first of the two is recorded. -/
theorem two_clients_exceed_quota :
    let steps := [TenantStep.check (fun _ => 6) 0, .check (fun _ => 6) 0, .record 0 0,
      .record 0 0]
    (steps.foldl (step ⟨fun _ => 10, 10⟩ "t") start).usage.count .keys = 12 := by
  decide

end TenantClients

end ApexStore
