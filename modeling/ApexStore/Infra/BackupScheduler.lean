import ApexStore.Library.Runs

/-!
# Backup scheduler

`schedule` starts a thread unless the scheduler is running, and gives it a flag
of its own.  `stop` resets the flag of the scheduler, which the thread does not
read: the thread goes on, and a new one can be started beside it.
-/

namespace ApexStore

/-- A thread: the flag its loop reads, if it has passed the test of its loop,
and if `stop` has returned since it was scheduled. -/
structure BackupThread where
  runningFlag : Bool
  inBody : Bool
  stopped : Bool

structure BackupScheduler where
  running : Bool
  /-- The threads that have not ended. -/
  threads : List BackupThread
  /-- A stopped thread has started a backup. -/
  late : Bool

inductive SchedulerStep where
  | schedule
  | stop
  /-- The test of the loop of a thread. -/
  | test (thread : Nat)
  /-- After its sleep a thread starts a backup, which works or fails. -/
  | backup (thread : Nat)

namespace BackupScheduler

def new : BackupScheduler := { running := false, threads := [], late := false }

def schedule (scheduler : BackupScheduler) : BackupScheduler :=
  if scheduler.running then scheduler
  else
    let thread : BackupThread := { runningFlag := true, inBody := false, stopped := false }
    { scheduler with running := true, threads := scheduler.threads ++ [thread] }

/-- `stop` also unparks the thread, which is never parked. -/
def stop (scheduler : BackupScheduler) : BackupScheduler :=
  let threads := scheduler.threads.map fun thread => { thread with stopped := true }
  { scheduler with running := false, threads }

/-- The loop of a thread goes on as long as its own flag is set. -/
def test (scheduler : BackupScheduler) (index : Nat) : BackupScheduler :=
  match scheduler.threads[index]? with
  | some ⟨true, false, stopped⟩ =>
    { scheduler with threads := scheduler.threads.set index ⟨true, true, stopped⟩ }
  | some ⟨false, false, _⟩ => { scheduler with threads := scheduler.threads.eraseIdx index }
  | _ => scheduler

def backup (scheduler : BackupScheduler) (index : Nat) : BackupScheduler :=
  match scheduler.threads[index]? with
  | some ⟨flag, true, stopped⟩ =>
    { scheduler with
      threads := scheduler.threads.set index ⟨flag, false, stopped⟩
      late := scheduler.late || stopped }
  | _ => scheduler

def step (scheduler : BackupScheduler) : SchedulerStep → BackupScheduler
  | .schedule => scheduler.schedule
  | .stop => scheduler.stop
  | .test thread => scheduler.test thread
  | .backup thread => scheduler.backup thread

/-- `stop` is only called while there is no thread. -/
def StopsNothing (scheduler : BackupScheduler) : SchedulerStep → Prop
  | .stop => scheduler.threads = []
  | _ => True

/-- No thread, or one that runs and has not been stopped. -/
structure Orderly (scheduler : BackupScheduler) : Prop where
  single : scheduler.threads = [] ∨ scheduler.running = true ∧ ∃ inBody,
    scheduler.threads = [⟨true, inBody, false⟩]
  inTime : scheduler.late = false

theorem Orderly.step {scheduler : BackupScheduler} (orderly : scheduler.Orderly)
    {label : SchedulerStep} (guard : scheduler.StopsNothing label) :
    (scheduler.step label).Orderly := by
  obtain ⟨running, threads, late⟩ := scheduler
  obtain ⟨single, rfl : late = false⟩ := orderly
  cases label with
  | schedule =>
    cases running with
    | true => exact ⟨single, rfl⟩
    | false =>
      have none_yet : threads = [] :=
        single.resolve_right fun other => Bool.false_ne_true other.1
      subst none_yet
      exact ⟨.inr ⟨rfl, false, rfl⟩, rfl⟩
  | stop =>
    have none_left : threads = [] := guard
    subst none_left
    exact ⟨.inl rfl, rfl⟩
  | test index | backup index =>
    rcases single with rfl | ⟨active, inBody, rfl : threads = _⟩
    · exact ⟨.inl rfl, rfl⟩
    · cases index with
      | zero =>
        cases inBody with
        | true | false => exact ⟨.inr ⟨active, _, rfl⟩, rfl⟩
      | succ index => exact ⟨.inr ⟨active, inBody, rfl⟩, rfl⟩

/-- If `stop` is only called while there is no thread, no thread that has been
stopped starts a backup, and there is at most one thread. -/
theorem scheduler_stops_and_is_alone {steps : List SchedulerStep}
    (run : Guarded step StopsNothing new steps) :
    (steps.foldl step new).late = false ∧
      (steps.foldl step new).threads.length ≤ 1 := by
  have orderly : (steps.foldl step new).Orderly :=
    run.invariant (fun _ _ orderly guard => orderly.step guard) ⟨.inl rfl, rfl⟩
  refine ⟨orderly.inTime, ?_⟩
  rcases orderly.single with none_left | ⟨_, inBody, one⟩
  · simp [none_left]
  · simp [one]

theorem scheduler_backs_up_in_time :
    let steps := [SchedulerStep.stop, .schedule, .test 0, .schedule, .backup 0]
    (steps.foldl step new).late = false ∧ (steps.foldl step new).threads.length ≤ 1 :=
  scheduler_stops_and_is_alone ⟨rfl, trivial, trivial, trivial, trivial, trivial⟩

/-- A thread that has been stopped starts a backup, and a second thread runs
beside it. -/
theorem stopped_thread_goes_on :
    let steps := [SchedulerStep.schedule, .stop, .schedule, .test 0, .backup 0]
    (steps.foldl step new).late = true ∧ (steps.foldl step new).threads.length = 2 := by
  decide

end BackupScheduler

end ApexStore
