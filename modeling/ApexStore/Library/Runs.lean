import Mathlib.Data.List.Basic

/-!
# Runs of a state machine

A machine is a step function on states and labels; a run is a list of labels.
`Guarded` runs meet a condition before every step, and an invariant kept by
the steps that meet the condition holds wherever such a run gets to.
-/

namespace ApexStore

variable {State Label : Type*}

/-- Every step of the run meets the condition in the state it starts from. -/
def Guarded (step : State → Label → State) (guard : State → Label → Prop) :
    State → List Label → Prop
  | _, [] => True
  | state, label :: labels =>
    guard state label ∧ Guarded step guard (step state label) labels

variable {step : State → Label → State} {guard : State → Label → Prop}

@[simp] theorem Guarded.nil (state : State) : Guarded step guard state [] := trivial

instance Guarded.decidable [∀ state label, Decidable (guard state label)] :
    ∀ (start : State) (labels : List Label),
      Decidable (Guarded step guard start labels)
  | _, [] => .isTrue trivial
  | start, label :: labels =>
    have := Guarded.decidable (step start label) labels
    inferInstanceAs
      (Decidable (guard start label ∧ Guarded step guard (step start label) labels))

variable {start : State} {labels : List Label}

theorem Guarded.imp {weaker : State → Label → Prop}
    (run : Guarded step guard start labels)
    (implies : ∀ state label, guard state label → weaker state label) :
    Guarded step weaker start labels := by
  induction labels generalizing start with
  | nil => trivial
  | cons label labels ih => exact ⟨implies start label run.1, ih run.2⟩

theorem Guarded.concat (run : Guarded step guard start labels) {label : Label}
    (allowed : guard (labels.foldl step start) label) :
    Guarded step guard start (labels ++ [label]) := by
  induction labels generalizing start with
  | nil => exact ⟨allowed, trivial⟩
  | cons first labels ih => exact ⟨run.1, ih run.2 allowed⟩

variable {first rest : List Label} {holds : State → Prop}

theorem Guarded.front (run : Guarded step guard start (first ++ rest)) :
    Guarded step guard start first := by
  induction first generalizing start with
  | nil => trivial
  | cons label first ih => exact ⟨run.1, ih run.2⟩

theorem Guarded.of_append (run : Guarded step guard start (first ++ rest)) :
    Guarded step guard (first.foldl step start) rest := by
  induction first generalizing start with
  | nil => exact run
  | cons label first ih => exact ih run.2

theorem Guarded.invariant (preserved : ∀ state label, holds state → guard state label →
      holds (step state label)) (run : Guarded step guard start labels)
        (initial : holds start) :
    holds (labels.foldl step start) := by
  induction labels generalizing start with
  | nil => exact initial
  | cons label labels ih =>
    exact ih run.2 (preserved start label initial run.1)

/-- Where the condition is also necessary, a run is guarded exactly if the
invariant holds all along. -/
theorem Guarded.iff_throughout (exact_guard : ∀ state label, holds state →
      (holds (step state label) ↔ guard state label)) (initial : holds start) :
    (∀ count, holds ((labels.take count).foldl step start)) ↔
      Guarded step guard start labels := by
  induction labels generalizing start with
  | nil => simpa using initial
  | cons label labels ih =>
    constructor
    · intro throughout
      have next : holds (step start label) := throughout 1
      have allowed := (exact_guard start label initial).mp next
      refine ⟨allowed, (ih next).mp ?_⟩
      intro count
      exact throughout (count + 1)
    · intro run count
      have next := (exact_guard start label initial).mpr run.1
      cases count with
      | zero => exact initial
      | succ count => exact (ih next).mpr run.2 count

end ApexStore
