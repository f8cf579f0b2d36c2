import Mathlib

/-!
# Newest-first search

The lookup of a log-structured store asks its sources from the newest to the
oldest, and the first one that knows the key answers.  `newestAt` is this
search over positions `0, …, count - 1`, oldest first.

When neighbouring or distant positions are merged into units, and every unit
moves to the position where it starts, the answer comes from the position that
is last by start of its unit and then by position (`newestAt_units`).
-/

namespace ApexStore

open List Option

variable {α β : Type}

theorem findSome?_congr {items : List α} {left right : α → Option β}
    (agree : ∀ item ∈ items, left item = right item) :
    items.findSome? left = items.findSome? right := by
  induction items with
  | nil => rfl
  | cons item items ih =>
    rw [findSome?_cons, findSome?_cons, agree item mem_cons_self,
      ih (forall_mem_cons.mp agree).2]

theorem findSome?_filter (items : List α) (keep : α → Bool) (contents : α → Option β) :
    (items.filter keep).findSome? contents = items.findSome?
        (fun item => if keep item then contents item else none) := by
  rw [← head?_filterMap, filterMap_filter, head?_filterMap]

variable {γ : Type}

theorem findSome?_filterMap (items : List α) (select : α → Option γ)
    (contents : γ → Option β) :
    (items.filterMap select).findSome? contents =
      items.findSome? (fun item => (select item).bind contents) := by
  rw [← head?_filterMap, filterMap_filterMap, head?_filterMap]

/-- The contents of the last position that has any. -/
def newestAt (count : Nat) (contents : Nat → Option β) : Option β :=
  (List.range count).reverse.findSome? contents

@[simp] theorem newestAt_zero (contents : Nat → Option β) :
    newestAt 0 contents = none := rfl

theorem newestAt_succ (count : Nat) (contents : Nat → Option β) :
    newestAt (count + 1) contents =
      (contents count).or (newestAt count contents) := by
  rw [newestAt, range_succ, reverse_append, reverse_singleton, singleton_append,
    findSome?_cons]
  cases contents count <;> rfl

variable {count : Nat} {start : Nat → Nat} {contents : Nat → Option β}

theorem newestAt_congr {left right : Nat → Option β}
    (agree : ∀ index < count, left index = right index) :
    newestAt count left = newestAt count right := by
  apply findSome?_congr
  intro index member
  exact agree index (mem_range.mp (mem_reverse.mp member))

theorem newestAt_eq_some_iff {value : β} :
    newestAt count contents = some value ↔
      ∃ index < count, contents index = some value ∧
        ∀ other < count, index < other → contents other = none := by
  induction count with
  | zero => simp
  | succ count ih =>
    rw [newestAt_succ]
    constructor
    · intro found
      cases last : contents count with
      | some held =>
        rw [last] at found
        refine ⟨count, by omega, last.trans found, ?_⟩
        intro other bound later
        omega
      | none =>
        rw [last] at found
        obtain ⟨index, bound, held, empty⟩ := ih.mp found
        refine ⟨index, by omega, held, ?_⟩
        intro other other_bound later
        rcases Nat.lt_succ_iff_lt_or_eq.mp other_bound with below | rfl
        · exact empty other below later
        · exact last
    · rintro ⟨index, bound, held, empty⟩
      rcases Nat.lt_succ_iff_lt_or_eq.mp bound with below | rfl
      · rw [empty count (by omega) below]
        apply ih.mpr
        refine ⟨index, below, held, ?_⟩
        intro other other_bound later
        exact empty other (by omega) later
      · rw [held, some_or]

theorem newestAt_eq_none_iff : newestAt count contents = none ↔
      ∀ index < count, contents index = none := by
  simp [newestAt]

/-- Leaving positions out changes the answer only when the position that
answered is left out; an earlier one may answer then. -/
theorem newestAt_masked (count : Nat) (contents : Nat → Option β)
    (masked : Nat → Bool) :
    newestAt count (fun index => if masked index then none else contents index)
        = newestAt count contents ∨ ∃ index < count, ∃ newest, masked index = true ∧
        contents index = some newest ∧ newestAt count contents = some newest ∧
        ∀ value, newestAt count (fun index =>
            if masked index then none else contents index) = some value →
          ∃ position < index, contents position = some value := by
  cases newest : newestAt count contents with
  | none =>
    left
    rw [newestAt_eq_none_iff] at newest ⊢
    intro index bound
    rw [newest index bound, ite_self]
  | some value =>
    obtain ⟨index, bound, found, later⟩ := newestAt_eq_some_iff.mp newest
    cases hidden : masked index with
    | false =>
      left
      rw [newestAt_eq_some_iff]
      refine ⟨index, bound, by rw [hidden]; exact found, ?_⟩
      intro other other_bound after_index
      rw [later other other_bound after_index, ite_self]
    | true =>
      refine .inr ⟨index, bound, value, hidden, found, rfl, ?_⟩
      intro other remaining
      obtain ⟨position, position_bound, there, _⟩ := newestAt_eq_some_iff.mp remaining
      split at there
      · cases there
      · next shown =>
        refine ⟨position, ?_, there⟩
        rcases Nat.lt_trichotomy position index with less | same | more
        · exact less
        · rw [same, hidden] at shown
          exact absurd rfl shown
        · rw [later position position_bound more] at there
          cases there

theorem findSome?_reverse_eq (items : List α) (contents : α → Option β) :
    items.reverse.findSome? contents =
      newestAt items.length (fun index => items[index]?.bind contents) := by
  induction items using reverseRecOn with
  | nil => rfl
  | append_singleton items item ih =>
    have earlier : newestAt items.length (fun index =>
        (items ++ [item])[index]?.bind contents) = newestAt items.length (fun index =>
            items[index]?.bind contents) := by
      apply newestAt_congr
      intro index bound
      rw [getElem?_append_left bound]
    rw [length_append, length_singleton, newestAt_succ, earlier,
      ← ih, reverse_append, reverse_singleton, singleton_append, findSome?_cons]
    simp only [getElem?_concat_length, bind_some]
    cases contents item <;> rfl

/-- Searching increasing positions from their end is searching those
positions. -/
theorem findSome?_reverse_increasing {positions : List Nat}
    (increasing : positions.Pairwise (· < ·))
    (below : ∀ position ∈ positions, position < count)
    (contents : Nat → Option β) : positions.reverse.findSome? contents = newestAt count
        (fun index => if index ∈ positions then contents index else none) := by
  have listed : positions =
      (range count).filter (fun index => decide (index ∈ positions)) := by
    apply List.Perm.eq_of_sortedLE
    · exact (increasing.imp Nat.le_of_lt).sortedLE
    · exact ((pairwise_lt_range.filter _).imp Nat.le_of_lt).sortedLE
    · apply (perm_ext_iff_of_nodup _ _).mpr
      · intro index
        rw [mem_filter, mem_range, decide_eq_true_eq]
        exact ⟨fun member => ⟨below index member, member⟩, And.right⟩
      · exact increasing.imp Nat.ne_of_lt
      · exact nodup_range.filter _
  conv_lhs => rw [listed, ← filter_reverse, findSome?_filter]
  simp only [decide_eq_true_eq]
  rfl

theorem newestAt_single {position : Nat} (bound : position < count)
    (contents : Nat → Option β) :
    newestAt count (fun index => if index = position then contents index else none) =
      contents position := by
  apply Option.ext
  intro value
  rw [newestAt_eq_some_iff]
  constructor
  · rintro ⟨index, _, found, _⟩
    split at found
    · next same => rwa [same] at found
    · cases found
  · intro found
    refine ⟨position, bound, by rw [if_pos rfl, found], ?_⟩
    intro other _ later
    exact if_neg (by omega)

theorem findSome?_reverse_flatMap (items : List α) (expand : α → List γ)
    (contents : γ → Option β) :
    (items.flatMap expand).reverse.findSome? contents = items.reverse.findSome?
        (fun item => (expand item).reverse.findSome? contents) := by
  induction items with
  | nil => rfl
  | cons item items ih =>
    rw [flatMap_cons, reverse_append, findSome?_append, ih]
    simp

/-- `index` has contents, and among the positions with contents it is last by
`start` and then by position. -/
structure Latest (count : Nat) (start : Nat → Nat)
    (contents : Nat → Option β) (index : Nat) : Prop where
  bound : index < count
  present : (contents index).isSome = true
  last : ∀ other < count, (contents other).isSome = true →
    start other < start index ∨ start other = start index ∧ other ≤ index

theorem Latest.of_whole (whole : ∀ index < count, start index = 0)
    {newest latest : Nat}
    (is_newest : Latest count id contents newest)
    (is_latest : Latest count start contents latest) :
    contents newest = contents latest := by
  have forth := is_newest.last latest is_latest.bound is_latest.present
  have back := is_latest.last newest is_newest.bound is_newest.present
  rw [whole newest is_newest.bound, whole latest is_latest.bound] at back
  have same : newest = latest := by
    simp only [id] at forth
    omega
  rw [same]

/-- The newest contents among the positions of one unit. -/
def unitContents (count : Nat) (start : Nat → Nat)
    (contents : Nat → Option β) (unit : Nat) : Option β :=
  newestAt count (fun index => if start index = unit then contents index else none)

theorem newestAt_units (inside : ∀ index < count, start index < count) {value : β} :
    newestAt count (unitContents count start contents) = some value ↔
      ∃ index, Latest count start contents index ∧ contents index = some value := by
  rw [newestAt_eq_some_iff]
  constructor
  · rintro ⟨unit, unit_bound, held, later_empty⟩
    obtain ⟨index, bound, found, last⟩ := newestAt_eq_some_iff.mp held
    by_cases member : start index = unit
    · rw [if_pos member] at found
      refine ⟨index, ⟨bound, by rw [found]; rfl, ?_⟩, found⟩
      intro other other_bound present
      have not_later : ¬ unit < start other := by
        intro later
        have empty := newestAt_eq_none_iff.mp
          (later_empty (start other) (inside other other_bound) later) other other_bound
        rw [if_pos rfl] at empty
        simp [empty] at present
      have not_after : start other = unit → other ≤ index := by
        intro same
        by_contra after
        have empty := last other other_bound (by omega)
        rw [if_pos same] at empty
        simp [empty] at present
      omega
    · rw [if_neg member] at found
      cases found
  · rintro ⟨index, latest, found⟩
    refine ⟨start index, inside index latest.bound, ?_, ?_⟩
    · apply newestAt_eq_some_iff.mpr
      refine ⟨index, latest.bound, by rw [if_pos rfl, found], ?_⟩
      intro other other_bound later
      split
      · next same =>
        by_contra present
        have order := latest.last other other_bound (isSome_iff_ne_none.mpr present)
        omega
      · rfl
    · intro unit unit_bound later
      apply newestAt_eq_none_iff.mpr
      intro other other_bound
      split
      · next same =>
        by_contra present
        have order := latest.last other other_bound (isSome_iff_ne_none.mpr present)
        omega
      · rfl

theorem newestAt_eq_some_iff_latest {value : β} :
    newestAt count contents = some value ↔ ∃ index, Latest count id contents index ∧
        contents index = some value := by
  rw [newestAt_eq_some_iff]
  constructor
  · rintro ⟨index, bound, found, empty⟩
    refine ⟨index, ⟨bound, by rw [found]; rfl, ?_⟩, found⟩
    intro other other_bound present
    by_contra after
    have nothing := empty other other_bound (by simp only [id] at after; omega)
    simp [nothing] at present
  · rintro ⟨index, latest, found⟩
    refine ⟨index, latest.bound, found, ?_⟩
    intro other other_bound later
    by_contra present
    have order := latest.last other other_bound (isSome_iff_ne_none.mpr present)
    simp only [id] at order
    omega

theorem unitContents_eq_none (empty : ∀ index < count, contents index = none)
    (unit : Nat) :
    unitContents count start contents unit = none := by
  apply newestAt_eq_none_iff.mpr
  intro index bound
  split
  · exact empty index bound
  · rfl

/-- Moving units to their starts does not change the answer exactly when the
last position and the latest position have the same contents. -/
theorem newestAt_units_eq_iff (inside : ∀ index < count, start index < count) :
    newestAt count (unitContents count start contents) = newestAt count contents ↔
      ∀ last latest, Latest count id contents last →
        Latest count start contents latest →
        contents last = contents latest := by
  constructor
  · intro same last latest is_last is_latest
    obtain ⟨value, held⟩ := isSome_iff_exists.mp is_last.present
    obtain ⟨other, other_held⟩ := isSome_iff_exists.mp is_latest.present
    have before := newestAt_eq_some_iff_latest.mpr ⟨last, is_last, held⟩
    have after := (newestAt_units inside).mpr ⟨latest, is_latest, other_held⟩
    rw [held, other_held, ← before, ← after, same]
  · intro agree
    cases before : newestAt count contents with
    | none =>
      apply newestAt_eq_none_iff.mpr
      intro unit _
      exact unitContents_eq_none (newestAt_eq_none_iff.mp before) unit
    | some value =>
      obtain ⟨last, is_last, held⟩ := newestAt_eq_some_iff_latest.mp before
      cases after : newestAt count (unitContents count start contents) with
      | none =>
        have empty := newestAt_eq_none_iff.mp (newestAt_eq_none_iff.mp after (start last)
            (inside last is_last.bound)) last is_last.bound
        rw [if_pos rfl, held] at empty
        cases empty
      | some other =>
        obtain ⟨latest, is_latest, other_held⟩ := (newestAt_units inside).mp after
        rw [← held, ← other_held]
        exact (agree last latest is_last is_latest).symm

/-- When the items that have a value come in the order of their ranks, a
newest-first search finds the value of the highest rank. -/
theorem findSome?_reverse_of_ranked {α β κ : Type*} [LinearOrder κ]
    (rank : α → κ) {value : α → Option β} {items : List α}
    (ranked : items.Pairwise (fun first second => (value first).isSome →
      (value second).isSome → rank first < rank second)) (found : β) :
    items.reverse.findSome? value = some found ↔
      ∃ item ∈ items, value item = some found ∧
        ∀ other ∈ items, (value other).isSome → rank other ≤ rank item := by
  induction items using reverseRecOn with
  | nil => simp
  | append_singleton older newest ih =>
    rw [pairwise_append] at ranked
    obtain ⟨older_ranked, _, below⟩ := ranked
    have last := fun item member =>
      below item member newest (mem_singleton.mpr rfl)
    rw [reverse_append, reverse_singleton, singleton_append, findSome?_cons]
    cases at_newest : value newest with
    | some result =>
      constructor
      · intro same
        cases same
        refine ⟨newest, by simp, at_newest, ?_⟩
        intro other member present
        rcases mem_append.mp member with old | new
        · exact (last other old present (by simp [at_newest])).le
        · rw [mem_singleton.mp new]
      · rintro ⟨item, member, at_item, highest⟩
        rcases mem_append.mp member with old | new
        · have higher := highest newest (by simp) (by simp [at_newest])
          have lower := last item old (by simp [at_item]) (by simp [at_newest])
          exact absurd higher (not_le.mpr lower)
        · rw [mem_singleton.mp new, at_newest] at at_item
          exact at_item
    | none =>
      rw [ih older_ranked]
      constructor
      · rintro ⟨item, member, at_item, highest⟩
        refine ⟨item, mem_append_left _ member, at_item, ?_⟩
        intro other listed present
        rcases mem_append.mp listed with old | new
        · exact highest other old present
        · rw [mem_singleton.mp new, at_newest] at present
          cases present
      · rintro ⟨item, member, at_item, highest⟩
        rcases mem_append.mp member with old | new
        · refine ⟨item, old, at_item, ?_⟩
          intro other listed
          exact highest other (mem_append_left _ listed)
        · rw [mem_singleton.mp new, at_newest] at at_item
          cases at_item

end ApexStore
