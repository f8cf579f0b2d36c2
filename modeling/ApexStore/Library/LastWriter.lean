import Mathlib

/-!
# Last writer wins

A register takes a value with a timestamp if the timestamp is above that of the
value it holds.  After any number of offers it holds one with the highest
timestamp, the first of them.  Where those with the highest timestamp are all
the same, the order of the offers and how often they come play no role
(`settle_eq_of_tiesAgree`).
-/

namespace ApexStore.LastWriter

open List

variable {ν τ : Type*} [LinearOrder τ] {offers : List (ν × τ)}

def merge (held : Option (ν × τ)) (offer : ν × τ) : Option (ν × τ) :=
  match held with
  | none => some offer
  | some current => if offer.2 ≤ current.2 then some current else some offer

def settle (offers : List (ν × τ)) : Option (ν × τ) :=
  offers.foldl merge none

/-- The timestamp is at least that of every offer. -/
def Highest (offers : List (ν × τ)) (stamp : τ) : Prop :=
  ∀ offer ∈ offers, offer.2 ≤ stamp

theorem merge_ne_none (held : Option (ν × τ)) (offer : ν × τ) :
    merge held offer ≠ none := by
  cases held with
  | none => simp [merge]
  | some current =>
    by_cases older : offer.2 ≤ current.2 <;> simp [merge, older]

/-- One offer: the winner is the held value or the offer, and none of them is
above it. -/
theorem merge_spec {held : Option (ν × τ)} {offer winner : ν × τ}
    (merged : merge held offer = some winner) :
    (held = some winner ∨ winner = offer) ∧ offer.2 ≤ winner.2 ∧
      ∀ current, held = some current → current.2 ≤ winner.2 := by
  cases held with
  | none =>
    simp only [merge, Option.some.injEq] at merged
    subst merged
    exact ⟨.inr rfl, le_refl _, by simp⟩
  | some current =>
    by_cases older : offer.2 ≤ current.2
    · simp only [merge, older, if_true, Option.some.injEq] at merged
      subst merged
      exact ⟨.inl rfl, older, by simp⟩
    · simp only [merge, older, if_false, Option.some.injEq] at merged
      subst merged
      refine ⟨.inr rfl, le_refl _, ?_⟩
      intro other same
      cases same
      exact le_of_not_ge older

theorem foldl_merge_spec {held : Option (ν × τ)} {winner : ν × τ}
    (settled : offers.foldl merge held = some winner) :
    (held = some winner ∨ winner ∈ offers) ∧ Highest offers winner.2 ∧
      ∀ current, held = some current → current.2 ≤ winner.2 := by
  induction offers generalizing held with
  | nil =>
    refine ⟨.inl settled, by simp [Highest], ?_⟩
    intro current same
    simp_all
  | cons offer offers ih =>
    obtain ⟨origin, highest, above⟩ := ih settled
    obtain ⟨current, merged⟩ := Option.ne_none_iff_exists'.mp (merge_ne_none held offer)
    obtain ⟨source, offered, kept⟩ := merge_spec merged
    have below := above current merged
    refine ⟨?_, ?_, ?_⟩
    · rcases origin with same | later
      · have equal : current = winner := by
          rw [merged] at same
          exact Option.some.inj same
        subst equal
        rcases source with before | new
        · exact .inl before
        · exact .inr (by simp [new])
      · exact .inr (mem_cons_of_mem _ later)
    · intro other member
      rcases mem_cons.mp member with rfl | later
      · exact le_trans offered below
      · exact highest other later
    · intro earlier same
      exact le_trans (kept earlier same) below

theorem settle_spec {winner : ν × τ} (settled : settle offers = some winner) :
    winner ∈ offers ∧ Highest offers winner.2 := by
  obtain ⟨origin, highest, _⟩ := foldl_merge_spec settled
  exact ⟨origin.resolve_left (by simp), highest⟩

theorem foldl_merge_ne_none (offers : List (ν × τ)) (current : ν × τ) :
    offers.foldl merge (some current) ≠ none := by
  induction offers generalizing current with
  | nil => simp
  | cons offer offers ih =>
    obtain ⟨next, merged⟩ :=
      Option.ne_none_iff_exists'.mp (merge_ne_none (some current) offer)
    rw [foldl_cons, merged]
    exact ih next

theorem settle_eq_none_iff : settle offers = none ↔ offers = [] := by
  cases offers with
  | nil => simp [settle]
  | cons offer offers =>
    simp only [reduceCtorEq, iff_false]
    exact foldl_merge_ne_none offers offer

theorem foldl_merge_of_highest {current : ν × τ} (highest : Highest offers current.2) :
    offers.foldl merge (some current) = some current := by
  induction offers with
  | nil => rfl
  | cons offer offers ih =>
    have first : offer.2 ≤ current.2 := highest offer mem_cons_self
    rw [foldl_cons, merge, if_pos first]
    exact ih (forall_mem_cons.mp highest).2

/-- The offers with the highest timestamp are one and the same. -/
def TiesAgree (offers : List (ν × τ)) : Prop :=
  ∀ offer ∈ offers, ∀ other ∈ offers, offer.2 = other.2 → Highest offers offer.2 →
    offer = other

theorem settle_eq_of_tiesAgree {offers first second : List (ν × τ)}
    (agree : TiesAgree offers) (first_same : ∀ offer, offer ∈ first ↔ offer ∈ offers)
    (second_same : ∀ offer, offer ∈ second ↔ offer ∈ offers) :
    settle first = settle second := by
  cases one : settle first with
  | none =>
    have empty : first = [] := settle_eq_none_iff.mp one
    have none_offered : ∀ offer, offer ∉ offers := by
      intro offer member
      have inside := (first_same offer).mpr member
      simp [empty] at inside
    have empty' : second = [] := by
      apply eq_nil_iff_forall_not_mem.mpr
      intro offer member
      exact none_offered offer ((second_same offer).mp member)
    rw [empty']
    rfl
  | some winner =>
    obtain ⟨member, highest⟩ := settle_spec one
    have offered := (first_same winner).mp member
    cases two : settle second with
    | none =>
      have empty : second = [] := settle_eq_none_iff.mp two
      have inside := (second_same winner).mpr offered
      simp [empty] at inside
    | some other =>
      obtain ⟨member', highest'⟩ := settle_spec two
      have offered' := (second_same other).mp member'
      have below : other.2 ≤ winner.2 := highest other ((first_same other).mpr offered')
      have above : winner.2 ≤ other.2 := highest' winner ((second_same winner).mpr offered)
      have equal : winner = other := by
        apply agree winner offered other offered' (le_antisymm above below)
        intro third offered''
        exact highest third ((first_same third).mpr offered'')
      rw [equal]

theorem settle_cons_of_highest {offer : ν × τ} (highest : Highest offers offer.2) :
    settle (offer :: offers) = some offer := by
  exact foldl_merge_of_highest highest

end ApexStore.LastWriter
