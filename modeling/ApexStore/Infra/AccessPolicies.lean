import ApexStore.Engine.TextKeys

/-!
# The policies of an access controller

Policies are set and removed by name, and the first one that matches decides.
The list holds the policies without the names they were set under, a pattern
is taken for a glob only at its two ends, and keys are compared as lossy text.
Where none of this shows, the controller is an ordered list of named policies
with glob patterns (`controller_is_named_policy_list`).
-/

namespace ApexStore

open List

inductive Effect where
  | allow
  | deny
  deriving DecidableEq, Repr

inductive Operation where
  | read
  | write
  | delete
  | admin
  deriving DecidableEq, Repr

structure AccessPolicy where
  name : String
  operation : Operation
  keyPattern : String
  effect : Effect
  contextMatchers : List (String × String)

/-- A star at the end, or else one at the beginning, stands for any text. -/
def keyMatchesPattern (key : Bytes) (pattern : String) : Bool :=
  let text := (lossyString key).toList
  if pattern == "*" then true
  else if pattern.toList.getLast? == some '*' then
    pattern.toList.dropLast.isPrefixOf text
  else if pattern.toList.head? == some '*' then
    pattern.toList.tail.isSuffixOf text
  else text == pattern.toList

def contextMatches (matchers context : List (String × String)) : Bool :=
  matchers.all fun (name, value) => context.lookup name == some value

/-- The first policy that matches decides; without one access is denied. -/
def checkPermission (operation : Operation) (key : Bytes)
    (context : List (String × String)) : List AccessPolicy → Bool
  | [] => false
  | policy :: policies =>
    if policy.operation ≠ operation then
      checkPermission operation key context policies
    else if !keyMatchesPattern key policy.keyPattern then
      checkPermission operation key context policies
    else if !contextMatches policy.contextMatchers context then
      checkPermission operation key context policies
    else policy.effect == .allow

inductive PolicyCall where
  | setPolicy (name : String) (policy : AccessPolicy)
  | removePolicy (name : String)

namespace PolicyCall

def step (policies : List AccessPolicy) : PolicyCall → List AccessPolicy
  | setPolicy name policy =>
    match policies.findIdx? (·.name == name) with
    | some pos => policies.set pos policy
    | none => policies ++ [policy]
  | removePolicy name => policies.filter (·.name != name)

/-! ## Named policies with glob patterns -/

/-- A name is given a policy: where it stands, or at the end. -/
def assignPolicy (name : String) (policy : AccessPolicy) :
    List (String × AccessPolicy) → List (String × AccessPolicy)
  | [] => [(name, policy)]
  | entry :: named =>
    if entry.1 = name then (name, policy) :: named else entry ::
      assignPolicy name policy named

/-- What the calls stand for: names in the order they came in, each with the
policy it was given last. -/
def assign (named : List (String × AccessPolicy)) :
    PolicyCall → List (String × AccessPolicy)
  | setPolicy name policy => assignPolicy name policy named
  | removePolicy name => named.filter (·.1 != name)

end PolicyCall

/-- A star stands for any bytes, every other byte for itself. -/
def globMatches : Bytes → Bytes → Bool
  | [], key => key.isEmpty
  | byte :: pattern, key =>
    if byte = 42 then key.tails.any (globMatches pattern)
    else key.head? == some byte && globMatches pattern key.tail

/-- The first named policy that matches decides. -/
def permittedBy (named : List (String × AccessPolicy)) (operation : Operation)
    (key : Bytes) (context : List (String × String)) : Bool :=
  match named.find? (fun entry => decide (entry.2.operation = operation) &&
    globMatches (utf8 entry.2.keyPattern) key &&
      contextMatches entry.2.contextMatchers context) with
  | some entry => entry.2.effect == .allow
  | none => false

section Globs

variable {pattern key : Bytes}

theorem globMatches_literal (literal : 42 ∉ pattern) :
    globMatches pattern key = true ↔ key = pattern := by
  induction pattern generalizing key with
  | nil => simp [globMatches]
  | cons byte pattern ih =>
    obtain ⟨other, literal⟩ := not_or.mp (mem_cons.not.mp literal)
    rw [globMatches, if_neg (Ne.symm other)]
    cases key with
    | nil => simp
    | cons first rest => simp [ih literal]

theorem globMatches_concat_star (literal : 42 ∉ pattern) :
    globMatches (pattern ++ [42]) key = true ↔ pattern <+: key := by
  induction pattern generalizing key with
  | nil =>
    rw [nil_append, globMatches, if_pos rfl, any_eq_true]
    simp [globMatches, mem_tails]
  | cons byte pattern ih =>
    obtain ⟨other, literal⟩ := not_or.mp (mem_cons.not.mp literal)
    rw [cons_append, globMatches, if_neg (Ne.symm other)]
    cases key with
    | nil => simp
    | cons first rest =>
      rw [Bool.and_eq_true, tail_cons, ih literal, cons_prefix_cons, List.head?_cons,
        beq_iff_eq, Option.some.injEq, eq_comm]

theorem globMatches_star (literal : 42 ∉ pattern) :
    globMatches (42 :: pattern) key = true ↔ pattern <:+ key := by
  rw [globMatches, if_pos rfl, any_eq_true]
  simp [globMatches_literal literal, mem_tails]

end Globs

/-- A star stands at the end of the pattern or at its beginning, if at all. -/
def EdgePattern (pattern : String) : Prop :=
  '*' ∉ pattern.toList.dropLast ∨ '*' ∉ pattern.toList.tail

instance (pattern : String) : Decidable (EdgePattern pattern) :=
  inferInstanceAs (Decidable (_ ∨ _))

theorem starless_bytes {chars : List Char} (starless : '*' ∉ chars) :
    42 ∉ chars.flatMap String.utf8EncodeChar := by
  intro member
  have inside : 42 ∈ utf8 (String.ofList chars) := by
    rw [utf8_eq_flatMap]
    simpa using member
  exact starless
    (by simpa using @mem_of_ascii '*' 42 (String.ofList chars) inside rfl (by decide))

theorem utf8_star : String.utf8EncodeChar '*' = [42] := by decide +kernel

/-- On text, such a pattern is matched as a glob. -/
theorem keyMatchesPattern_eq_glob {pattern : String} (edge : EdgePattern pattern)
    (text : String) :
    keyMatchesPattern (utf8 text) pattern =
      globMatches (utf8 pattern) (utf8 text) := by
  rw [Bool.eq_iff_iff, keyMatchesPattern, lossyString_utf8, utf8_eq_flatMap, utf8_eq_flatMap]
  have star : pattern = "*" ↔ pattern.toList = ['*'] := by
    rw [← String.toList_inj]
    simp
  simp only [beq_iff_eq, star]
  rw [EdgePattern] at edge
  generalize pattern.toList = chars at edge
  generalize text.toList = key
  by_cases last : chars.getLast? = some '*'
  · obtain ⟨front, rfl⟩ := List.getLast?_eq_some_iff.mp last
    have starless : '*' ∉ front := by
      rcases edge with edge | edge
      · simpa using edge
      · cases front with
        | nil => simp
        | cons char front => simp at edge
    rw [flatMap_append, flatMap_singleton, utf8_star,
      globMatches_concat_star (starless_bytes starless), encode_prefix_iff, if_pos last,
      dropLast_concat, ← isPrefixOf_iff_prefix]
    split
    · next only =>
      have empty : front = [] := by simpa using only
      simp [empty]
    · rfl
  · have other : ¬ chars = ['*'] := by
      rintro rfl
      simp at last
    rw [if_neg other, if_neg last]
    by_cases first : chars.head? = some '*'
    · obtain ⟨rest, rfl⟩ := List.head?_eq_some_iff.mp first
      have starless : '*' ∉ rest := by
        rcases edge with edge | edge
        · cases rest with
          | nil => simp
          | cons char rest => simp at edge
        · exact edge
      rw [flatMap_cons, utf8_star, singleton_append,
        globMatches_star (starless_bytes starless),
        encode_suffix_iff, if_pos first, tail_cons, isSuffixOf_iff_suffix]
    · have starless : '*' ∉ chars := by
        intro member
        rcases edge with edge | edge
        · rcases eq_nil_or_concat chars with rfl | ⟨front, char, rfl⟩
          · cases member
          · rw [concat_eq_append] at last edge member
            rw [dropLast_concat] at edge
            rcases mem_append.mp member with inner | outer
            · exact edge inner
            · exact last (by rw [List.getLast?_concat, mem_singleton.mp outer])
        · cases chars with
          | nil => cases member
          | cons char rest =>
            rcases mem_cons.mp member with here | inner
            · exact first (congrArg some here.symm)
            · exact edge inner
      rw [if_neg first, globMatches_literal (starless_bytes starless)]
      constructor
      · rintro same
        rw [beq_iff_eq.mp same]
      · intro same
        have begins : key <+: chars := by rw [← encode_prefix_iff, same]
        have begun : chars <+: key := by rw [← encode_prefix_iff, same]
        exact beq_iff_eq.mpr (begins.eq_of_length_le begun.length_le)

/-! ## Runs of calls -/

/-- The policy has the name it is set under and a pattern with a star at its
edges only. -/
def PolicyCall.Proper : PolicyCall → Prop
  | setPolicy name policy => policy.name = name ∧ EdgePattern policy.keyPattern
  | removePolicy _ => True

/-- Every policy has the name it was set under and such a pattern. -/
def WellNamed (named : List (String × AccessPolicy)) : Prop :=
  ∀ entry ∈ named, entry.2.name = entry.1 ∧ EdgePattern entry.2.keyPattern

namespace WellNamed

variable {named : List (String × AccessPolicy)}

theorem setPolicy (wellNamed : WellNamed named) {name : String} {policy : AccessPolicy}
    (proper : (PolicyCall.setPolicy name policy).Proper) :
    WellNamed (PolicyCall.assignPolicy name policy named) ∧
      (PolicyCall.setPolicy name policy).step (named.map (·.2)) =
        (PolicyCall.assignPolicy name policy named).map (·.2) := by
  induction named with
  | nil => exact ⟨forall_mem_singleton.mpr proper, rfl⟩
  | cons entry named ih =>
    obtain ⟨own, others⟩ := forall_mem_cons.mp wellNamed
    obtain ⟨kept, rest⟩ := ih others
    rw [PolicyCall.step] at rest ⊢
    rw [PolicyCall.assignPolicy, map_cons, List.findIdx?_cons, own.1]
    by_cases here : entry.1 = name
    · rw [if_pos here]
      exact ⟨forall_mem_cons.mpr ⟨proper, others⟩, by simp [here]⟩
    · rw [if_neg here, if_neg (by simpa using here)]
      refine ⟨forall_mem_cons.mpr ⟨own, kept⟩, ?_⟩
      rw [map_cons, ← rest]
      cases (named.map (·.2)).findIdx? (·.name == name) with
      | none => rfl
      | some pos => rfl

theorem removePolicy (wellNamed : WellNamed named) (name : String) :
    WellNamed ((PolicyCall.removePolicy name).assign named) ∧
      (PolicyCall.removePolicy name).step (named.map (·.2)) =
        ((PolicyCall.removePolicy name).assign named).map (·.2) := by
  refine ⟨fun entry member => wellNamed entry (mem_filter.mp member).1, ?_⟩
  rw [PolicyCall.step, PolicyCall.assign, filter_map]
  congr 1
  refine filter_congr fun entry member => ?_
  rw [Function.comp_apply, (wellNamed entry member).1]

theorem checkPermission_eq (wellNamed : WellNamed named) (operation : Operation)
    (text : String) (context : List (String × String)) :
    checkPermission operation (utf8 text) context (named.map (·.2)) =
      permittedBy named operation (utf8 text) context := by
  induction named with
  | nil => rfl
  | cons entry named ih =>
    obtain ⟨own, wellNamed⟩ := forall_mem_cons.mp wellNamed
    have rest := ih wellNamed
    rw [permittedBy] at rest ⊢
    rw [map_cons, checkPermission, keyMatchesPattern_eq_glob own.2, rest, List.find?_cons]
    by_cases same : entry.2.operation = operation
    · cases globMatches (utf8 entry.2.keyPattern) (utf8 text) with
      | false => simp
      | true => cases contextMatches entry.2.contextMatchers context <;> simp [same]
    · simp [same]

end WellNamed

/-- After every sequence of calls that set policies under their own names and
with stars at the edges of the patterns only, permissions for keys that are
text are those of the named list. -/
theorem controller_is_named_policy_list {calls : List PolicyCall}
    (proper : ∀ call ∈ calls, call.Proper) (operation : Operation) (text : String)
    (context : List (String × String)) :
    checkPermission operation (utf8 text) context (calls.foldl PolicyCall.step []) =
      permittedBy (calls.foldl PolicyCall.assign []) operation
        (utf8 text) context := by
  suffices follows : ∀ named, WellNamed named →
    WellNamed (calls.foldl PolicyCall.assign named) ∧
      calls.foldl PolicyCall.step (named.map (·.2)) =
        (calls.foldl PolicyCall.assign named).map (·.2) by
    obtain ⟨wellNamed, stepped⟩ := follows [] (by simp [WellNamed])
    rw [← wellNamed.checkPermission_eq, ← stepped]
    rfl
  induction calls with
  | nil => exact fun named wellNamed => ⟨wellNamed, rfl⟩
  | cons call calls ih =>
    intro named wellNamed
    obtain ⟨first, proper⟩ := forall_mem_cons.mp proper
    have step : WellNamed (call.assign named) ∧
        call.step (named.map (·.2)) = (call.assign named).map (·.2) := by
      cases call with
      | setPolicy name policy => exact wellNamed.setPolicy first
      | removePolicy name => exact wellNamed.removePolicy name
    rw [foldl_cons, foldl_cons, step.2]
    exact ih proper _ step.1

def readPolicy (name pattern : String) (effect : Effect) : AccessPolicy :=
  { name, operation := .read, keyPattern := pattern, effect, contextMatchers := [] }

/-- The first of two policies, replaced under its name, still decides first. -/
theorem controller_is_named_policy_list_of_three_calls :
    let calls := [PolicyCall.setPolicy "users" (readPolicy "users" "user:*" .allow),
      .setPolicy "rest" (readPolicy "rest" "*" .allow),
      .setPolicy "users" (readPolicy "users" "user:*" .deny)]
    checkPermission .read (utf8 "user:1") [] (calls.foldl PolicyCall.step []) =
      permittedBy (calls.foldl PolicyCall.assign []) .read (utf8 "user:1") [] :=
  controller_is_named_policy_list (by
    simp only [forall_mem_cons, PolicyCall.Proper]
    exact ⟨⟨rfl, by decide⟩, ⟨rfl, by decide⟩, ⟨rfl, by decide⟩, by simp⟩) .read "user:1" []

/-- A star in the middle of a pattern is not taken for a wildcard. -/
theorem inner_star_denies_matching_key :
    let calls := [PolicyCall.setPolicy "inner" (readPolicy "inner" "a*c" .allow)]
    checkPermission .read (utf8 "abc") [] (calls.foldl PolicyCall.step []) = false ∧
      permittedBy (calls.foldl PolicyCall.assign []) .read (utf8 "abc") [] = true := by
  decide +kernel

end ApexStore
