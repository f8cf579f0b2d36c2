import ApexStore.Library.Runs
import Mathlib

/-!
# Memory limiter

A request loads the usage, tests its sum with the request against the limit and
installs it by compare-and-swap; a release does so with the difference.  The
sum of a large request wraps around and passes the test.
-/

namespace ApexStore

open List

/-- What a `usize` is below. -/
def usizeRange : Nat := 2 ^ 64

/-- A call between a load and its compare-and-swap. -/
inductive LimiterTask where
  | allocating (bytes current : Nat)
  | releasing (bytes current : Nat)

def LimiterTask.released : LimiterTask → Nat
  | .allocating _ _ => 0
  | .releasing bytes _ => bytes

/-- The addition of a pending request does not wrap. -/
def LimiterTask.Fits (limit : Nat) : LimiterTask → Prop
  | .allocating bytes current => current ≤ limit ∧ limit + bytes < usizeRange
  | .releasing _ _ => True

structure MemoryLimiter where
  limit : Nat
  current : Nat
  tasks : List LimiterTask
  /-- The granted amounts that no release has been called for. -/
  granted : List Nat

inductive LimiterStep where
  /-- The first load of `try_allocate`. -/
  | tryAllocate (bytes : Nat)
  /-- The first load of `release`, for a granted amount. -/
  | release (grant : Nat)
  /-- A compare-and-swap; that of a release may fail for no reason. -/
  | swap (task : Nat) (spurious : Bool)

namespace MemoryLimiter

def new (limit : Nat) :
    MemoryLimiter := { limit, current := 0, tasks := [], granted := [] }

/-- One turn of a loop, after its load.  A failed swap loads again. -/
def turn (limiter : MemoryLimiter) (rest : List LimiterTask) (spurious : Bool) :
    LimiterTask → MemoryLimiter
  | .allocating bytes current =>
    let new := (current + bytes) % usizeRange
    if limiter.limit < new then { limiter with tasks := rest }
    else if limiter.current = current then
      { limiter with current := new, tasks := rest, granted := bytes :: limiter.granted }
    else { limiter with tasks := .allocating bytes limiter.current :: rest }
  | .releasing bytes current =>
    if limiter.current = current ∧ spurious = false then
      { limiter with current := current - bytes, tasks := rest }
    else { limiter with tasks := .releasing bytes limiter.current :: rest }

def step (limiter : MemoryLimiter) : LimiterStep → MemoryLimiter
  | .tryAllocate bytes =>
    { limiter with tasks := .allocating bytes limiter.current :: limiter.tasks }
  | .release grant =>
    match limiter.granted[grant]? with
    | none => limiter
    | some bytes =>
      { limiter with
        tasks := .releasing bytes limiter.current :: limiter.tasks
        granted := limiter.granted.eraseIdx grant }
  | .swap task spurious =>
    match limiter.tasks[task]? with
    | none => limiter
    | some found => limiter.turn (limiter.tasks.eraseIdx task) spurious found

/-- The sum of the grants that have not been given back. -/
def outstanding (limiter : MemoryLimiter) : Nat :=
  limiter.granted.sum + (limiter.tasks.map (·.released)).sum

/-- A request can be added to a usage within the limit. -/
def Addable (limiter : MemoryLimiter) : LimiterStep → Prop
  | .tryAllocate bytes => limiter.limit + bytes < usizeRange
  | _ => True

structure Within (limiter : MemoryLimiter) : Prop where
  tracked : limiter.current = limiter.outstanding
  bounded : limiter.current ≤ limiter.limit
  fits : ∀ task ∈ limiter.tasks, task.Fits limiter.limit

variable {limiter : MemoryLimiter}

theorem cons_eraseIdx_perm {α : Type} {items : List α} {index : Nat} {item : α}
    (found : items[index]? = some item) :
    (item :: items.eraseIdx index).Perm items := by
  obtain ⟨inside, rfl⟩ := List.getElem?_eq_some_iff.mp found
  exact List.getElem_cons_eraseIdx_perm inside

theorem Within.turn (within : limiter.Within) {task : LimiterTask}
    {rest : List LimiterTask}
    (tasks : (task :: rest).Perm limiter.tasks) (spurious : Bool) :
    (limiter.turn rest spurious task).Within := by
  obtain ⟨own, others⟩ := forall_mem_cons.mp fun other member =>
    within.fits other (tasks.subset member)
  have bounded := within.bounded
  have tracked := within.tracked
  rw [outstanding, ← (tasks.map (·.released)).sum_eq, map_cons, sum_cons] at tracked
  cases task with
  | allocating bytes current =>
    have sum : (current + bytes) % usizeRange = current + bytes :=
      Nat.mod_eq_of_lt (Nat.lt_of_le_of_lt (Nat.add_le_add_right own.1 bytes) own.2)
    rw [LimiterTask.released, Nat.zero_add] at tracked
    rw [MemoryLimiter.turn, sum]
    split
    · exact ⟨tracked, bounded, others⟩
    · next below =>
      split
      · next same =>
        refine ⟨?_, Nat.le_of_not_lt below, others⟩
        simp only [outstanding, sum_cons]
        omega
      · refine ⟨?_, bounded, forall_mem_cons.mpr ⟨⟨bounded, own.2⟩, others⟩⟩
        simpa [outstanding, LimiterTask.released] using tracked
  | releasing bytes current =>
    rw [LimiterTask.released] at tracked
    rw [MemoryLimiter.turn]
    split
    · next swapped =>
      obtain ⟨rfl, _⟩ := swapped
      refine ⟨?_, Nat.le_trans (Nat.sub_le _ _) bounded, others⟩
      simp only [outstanding]
      omega
    · refine ⟨?_, bounded, forall_mem_cons.mpr ⟨trivial, others⟩⟩
      simpa [outstanding, LimiterTask.released] using tracked

theorem Within.step (within : limiter.Within) {label : LimiterStep}
    (fits : limiter.Addable label) : (limiter.step label).Within := by
  cases label with
  | tryAllocate bytes =>
    refine ⟨?_, within.bounded, forall_mem_cons.mpr ⟨⟨within.bounded, fits⟩, within.fits⟩⟩
    simpa [MemoryLimiter.step, outstanding, LimiterTask.released] using within.tracked
  | release grant =>
    rw [MemoryLimiter.step]
    split
    · exact within
    · next bytes found =>
      refine ⟨?_, within.bounded, forall_mem_cons.mpr ⟨trivial, within.fits⟩⟩
      have sum := (cons_eraseIdx_perm found).sum_eq
      have tracked := within.tracked
      simp only [outstanding, map_cons, sum_cons, LimiterTask.released] at sum tracked ⊢
      omega
  | swap task spurious =>
    rw [MemoryLimiter.step]
    split
    · exact within
    · next found => exact within.turn (cons_eraseIdx_perm found) spurious

/-- If every request can be added to the limit, the grants never exceed the
limit, the usage is their sum and no addition wraps. -/
theorem grants_stay_within_limit (limit : Nat) {steps : List LimiterStep}
    (run : Guarded step Addable (new limit) steps) :
    let limiter := steps.foldl step (new limit)
    limiter.outstanding ≤ limiter.limit ∧ limiter.current = limiter.outstanding ∧
      ∀ bytes current, .allocating bytes current ∈ limiter.tasks →
        current + bytes < usizeRange := by
  have within : (steps.foldl step (new limit)).Within :=
    run.invariant (fun _ _ within fits => within.step fits)
      ⟨rfl, Nat.zero_le _, fun _ member => by cases member⟩
  refine ⟨within.tracked ▸ within.bounded, within.tracked, fun bytes current member => ?_⟩
  obtain ⟨low, fits⟩ := within.fits _ member
  exact Nat.lt_of_le_of_lt (Nat.add_le_add_right low bytes) fits

theorem grants_stay_within_ten :
    let limiter := [LimiterStep.tryAllocate 6, .tryAllocate 5, .swap 1 false,
      .swap 0 false].foldl
      step (new 10)
    limiter.outstanding ≤ limiter.limit ∧ limiter.current = limiter.outstanding ∧
      ∀ bytes current, .allocating bytes current ∈ limiter.tasks →
        current + bytes < usizeRange :=
  grants_stay_within_limit 10 ⟨(by decide : 10 + 6 < usizeRange),
    (by decide : 10 + 5 < usizeRange), trivial, trivial, trivial⟩

/-- One byte is granted, and then all bytes there are. -/
theorem wrapped_request_exceeds_limit :
    let limiter := [LimiterStep.tryAllocate 1, .swap 0 false,
      .tryAllocate (usizeRange - 1),
      .swap 0 false].foldl step (new 10)
    ¬ limiter.outstanding ≤ 10 ∧ limiter.current = 0 := by
  decide

end MemoryLimiter

end ApexStore
