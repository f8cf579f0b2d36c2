import ApexStore.Engine.SearchPrefix

/-!
# The public keyspace

Keys that start with two underscores are the engine's own.  `collect` scans
the default family page by page, drops the reserved keys and stops when it has
enough rows; `prefix` cuts pages from what it collects.  On a store at rest
both prefix searches, this one and that of the engine, show a client every
matching key once (`prefix_pages_are_complete`).
-/

namespace ApexStore

open List EngineCore

def isReserved (key : Bytes) : Bool := [95, 95].isPrefixOf key

def usizeMax : Nat := 2 ^ 64 - 1

/-- The loop over the rows of one page: the rows that are kept are appended
until there are enough. -/
def pushRows (limit : Nat) (keep : Bytes × Bytes → Bool) :
    List (Bytes × Bytes) → List (Bytes × Bytes) → List (Bytes × Bytes)
  | output, [] => output
  | output, row :: page =>
    if keep row then
      if (output ++ [row]).length = limit then output ++ [row]
      else pushRows limit keep (output ++ [row]) page
    else pushRows limit keep output page

namespace Clocked

/-- The loop of `collect`, with what is left of the scan budget. -/
def collectLoop (clock : Nat → Nanos) (upper : Option Bytes) (limit : Nat)
    (keep : Bytes × Bytes → Bool) (budget : Nat) (cursor : Option Bytes)
    (output : List (Bytes × Bytes)) (state : Clocked) :
    Except LsmError (List (Bytes × Bytes)) × Clocked :=
  if output.length < limit ∧ 0 < budget then
    let pageSize := min budget 256
    match state.scanCf clock "default" cursor upper pageSize with
    | (.error error, state) => (.error error, state)
    | (.ok page, state) =>
      match ends : page.getLast? with
      | none => (.ok output, state)
      | some last =>
        let output := pushRows limit keep output page
        if page.length < pageSize then (.ok output, state)
        else
          -- The smallest key behind the last one of the page.
          collectLoop clock upper limit keep (budget - page.length)
            (some (last.1 ++ [0])) output state
  else (.ok output, state)
termination_by budget
decreasing_by
  have nonempty := List.length_pos_of_mem (List.mem_of_getLast? ends)
  omega

def collect (clock : Nat → Nanos) (lower upper : Option Bytes)
    (limit scanBudget : Nat) (accepts : Bytes → Bytes → Bool)
    (state : Clocked) : Except LsmError (List (Bytes × Bytes)) × Clocked :=
  collectLoop clock upper (min limit (maxScanLimit + 1))
    (fun row => !isReserved row.1 && accepts row.1 row.2) scanBudget lower []
    state

/-- `keyspace::scan`. -/
def scan (clock : Nat → Nanos) (lower upper : Option Bytes) (limit : Nat)
    (state : Clocked) : Except LsmError (List (Bytes × Bytes)) × Clocked :=
  state.collect clock lower upper limit usizeMax (fun _ _ => true)

/-- `keyspace::scan_matching`. -/
def scanMatching (clock : Nat → Nanos) (lower upper : Option Bytes) (limit : Nat)
    (accepts : Bytes → Bytes → Bool) (state : Clocked) :
    Except LsmError (List (Bytes × Bytes)) × Clocked :=
  state.collect clock lower upper (min limit 100) 10000 accepts

/-- `keyspace::prefix`. -/
def prefixPage (clock : Nat → Nanos) (text : String) (cursor : Option String)
    (limit : Nat) (state : Clocked) :
    Except LsmError (List (Bytes × Bytes) × Option String) × Clocked :=
  let limit := min limit maxScanLimit
  let lower :=
    match cursor with
    | some cursor => max (utf8 text) (utf8 cursor ++ [0])
    | none => utf8 text
  match state.scan clock (some lower) (prefixEnd text) (limit + 1) with
  | (.error error, state) => (.error error, state)
  | (.ok rows, state) =>
    let more := decide (limit < rows.length)
    let rows := rows.take limit
    let next :=
      if more then rows.getLast?.map (fun row => lossyString row.1)
      else none
    (.ok (rows, next), state)

end Clocked

/-! ## What is collected -/

variable {limit : Nat} {output rows : List (Bytes × Bytes)}
  {config : StorageConfig} {clock : Nat → Nanos} {state : Clocked}

theorem pushRows_eq (keep : Bytes × Bytes → Bool) (room : output.length < limit)
    (page : List (Bytes × Bytes)) : pushRows limit keep output page =
      output ++ (page.filter keep).take (limit - output.length) := by
  induction page generalizing output with
  | nil => simp [pushRows]
  | cons row page ih =>
    rw [pushRows]
    by_cases kept : keep row = true
    · rw [if_pos kept, filter_cons_of_pos kept]
      have left : limit - output.length = (limit - (output ++ [row]).length) + 1 := by
        rw [length_append, length_singleton]
        omega
      rw [left, take_succ_cons]
      split
      · next full => simp [full]
      · next short =>
        have longer : (output ++ [row]).length < limit := by
          rw [length_append, length_singleton] at short ⊢
          omega
        rw [ih longer, append_assoc, singleton_append]
    · rw [if_neg kept, filter_cons_of_neg kept, ih room]

theorem concat_zero_le_iff {key other : Bytes} : key ++ [0] ≤ other ↔ key < other := by
  induction key generalizing other with
  | nil =>
    cases other with
    | nil => simp
    | cons first rest =>
      simp [← not_lt, cons_lt_cons_iff]
  | cons head key ih =>
    cases other with
    | nil => simp
    | cons first rest =>
      rw [cons_append, cons_lt_cons_iff, ← ih, ← not_lt, ← not_lt, cons_lt_cons_iff]
      rcases lt_trichotomy head first with less | same | greater
      · simp [less, less.ne', less.not_gt]
      · simp [same]
      · simp [greater, greater.ne', greater.not_gt]

def rowsWithin (rows : List (Bytes × Bytes)) (lower upper : Option Bytes) :
    List (Bytes × Bytes) :=
  rows.filter (fun row => inBounds lower upper row.1)

theorem rowsWithin_after_page (sorted : Paging.Sorted rows)
    {lower upper : Option Bytes} {size : Nat} {last : Bytes × Bytes}
    (ends : ((rowsWithin rows lower upper).take size).getLast? = some last) :
    rowsWithin rows (some (last.1 ++ [0])) upper =
      (rowsWithin rows lower upper).drop size := by
  have ordered : Paging.Sorted (rowsWithin rows lower upper) := sorted.sublist filter_sublist
  have member : last ∈ rowsWithin rows lower upper := mem_of_mem_take (mem_of_getLast? ends)
  have within := (mem_filter.mp member).2
  rw [inBounds, Bool.and_eq_true] at within
  obtain ⟨front, _, split⟩ := Paging.split_page ends
  rw [split] at ordered
  have behind := ordered.filter_above
  rw [← split] at behind
  rw [← behind, rowsWithin, rowsWithin, filter_filter]
  apply filter_congr
  intro row _
  simp only [inBounds, Option.all_some, concat_zero_le_iff]
  by_cases above : last.1 < row.1
  · have low : lower.all (fun bound => decide (bound ≤ row.1)) = true := by
      rw [Option.all_eq_true] at within ⊢
      intro bound present
      have below := of_decide_eq_true (within.1 bound present)
      exact decide_eq_true (below.trans above.le)
    simp [above, low]
  · simp [above]

theorem pushed_length_le (keep : Bytes × Bytes → Bool) (room : output.length < limit)
    (page : List (Bytes × Bytes)) :
    (output ++ (page.filter keep).take (limit - output.length)).length ≤ limit := by
  rw [length_append, length_take]
  omega

theorem take_filter_append (keep : Bytes × Bytes → Bool)
    {page rest : List (Bytes × Bytes)} (split : page ++ rest = rows) :
    (page.filter keep).take (limit - output.length) ++
      (rest.filter keep).take (limit - (output ++
          (page.filter keep).take (limit - output.length)).length) =
      (rows.filter keep).take (limit - output.length) := by
  rw [← split, filter_append, take_append, length_append, length_take]
  congr 2
  omega

/-- What the loop of `collect` returns: the rows that are kept among the first
ones, as many as the budget has. -/
theorem Clocked.collectLoop_eq (upper : Option Bytes)
    (keep : Bytes × Bytes → Bool) (budget : Nat) (cursor : Option Bytes)
    (quiescent : state.core.Quiescent config clock "default" rows)
    (room : output.length ≤ limit) :
    ∃ after, state.collectLoop clock upper limit keep budget cursor output =
        (.ok (output ++ (((rowsWithin rows cursor upper).take budget).filter keep).take
          (limit - output.length)), after) ∧
            after.core.Quiescent config clock "default" rows := by
  induction budget using Nat.strongRecOn generalizing cursor output state with
  | ind budget ih =>
    rw [collectLoop]
    by_cases goes : output.length < limit ∧ 0 < budget
    · rw [if_pos goes]
      obtain ⟨after, scanned, still⟩ := scanCf_eq quiescent cursor upper (min budget 256)
      have page : window rows cursor upper (min budget 256) =
          (rowsWithin rows cursor upper).take (min budget 256) := rfl
      dsimp only
      rw [scanned, page]
      dsimp only
      generalize least : min budget 256 = pageSize
      split
      · next empty =>
        have nothing : rowsWithin rows cursor upper = [] := by
          rw [List.getLast?_eq_none_iff, take_eq_nil_iff] at empty
          exact empty.resolve_left (by omega)
        refine ⟨after, ?_, still⟩
        rw [nothing]
        simp
      · next last ends =>
        rw [pushRows_eq keep goes.1]
        split
        · next short =>
          have all : (rowsWithin rows cursor upper).take pageSize =
              (rowsWithin rows cursor upper).take budget := by
            rw [length_take] at short
            rw [take_of_length_le (by omega), take_of_length_le (by omega)]
          exact ⟨after, by rw [all], still⟩
        · next long =>
          have taken : ((rowsWithin rows cursor upper).take pageSize).length = pageSize := by
            rw [length_take] at long ⊢
            omega
          have rest := rowsWithin_after_page quiescent.sorted ends
          have whole : (rowsWithin rows cursor upper).take pageSize ++
              ((rowsWithin rows cursor upper).drop pageSize).take (budget - pageSize) =
                (rowsWithin rows cursor upper).take budget := by
            rw [← take_add]
            congr
            omega
          rw [taken]
          obtain ⟨after', looped, still'⟩ := ih (budget - pageSize) (by omega)
            (some (last.1 ++ [0])) still (pushed_length_le keep goes.1 _)
          refine ⟨after', looped.trans ?_, still'⟩
          rw [rest, append_assoc, ← take_filter_append keep whole]
    · rw [if_neg goes]
      refine ⟨state, ?_, quiescent⟩
      rcases not_and_or.mp goes with full | spent
      · have none_left : limit - output.length = 0 := by omega
        rw [none_left]
        simp
      · have nothing : budget = 0 := by omega
        rw [nothing]
        simp

def publicRows (rows : List (Bytes × Bytes)) : List (Bytes × Bytes) :=
  rows.filter (fun row => !isReserved row.1)

theorem Clocked.scan_eq (quiescent : state.core.Quiescent config clock "default" rows)
    (fits : rows.length < usizeMax) (lower upper : Option Bytes) (limit : Nat) :
    ∃ after, state.scan clock lower upper limit = (.ok ((publicRows
          (rowsWithin rows lower upper)).take (min limit (maxScanLimit + 1))), after) ∧
      after.core.Quiescent config clock "default" rows := by
  have all : (rowsWithin rows lower upper).take usizeMax = rowsWithin rows lower upper :=
    take_of_length_le ((length_filter_le _ _).trans fits.le)
  obtain ⟨after, looped, still⟩ :=
    @collectLoop_eq (min limit (maxScanLimit + 1)) [] _ _ _ _ upper
    (fun row => !isReserved row.1 && true) usizeMax lower quiescent (Nat.zero_le _)
  refine ⟨after, looped.trans ?_, still⟩
  rw [all]
  simp only [Bool.and_true]
  rfl

theorem rowsWithin_prefixEnd (rows : List (Bytes × Bytes)) (text : String)
    (cursor : Option String) : publicRows (rowsWithin rows (some (match cursor with
        | some cursor => max (utf8 text) (utf8 cursor ++ [0])
        | none => utf8 text)) (prefixEnd text)) =
          Paging.above (publicRows (startingWith text rows))
        (cursor.map utf8) := by
  cases cursor with
  | none =>
    congr 1
    exact filter_congr (fun row _ => inBounds_prefixEnd text row.1)
  | some cursor =>
    simp only [Paging.above, publicRows, rowsWithin,
      startingWith, filter_filter, ← inBounds_prefixEnd]
    apply filter_congr
    intro row _
    rw [Bool.eq_iff_iff]
    simp only [inBounds, Option.all_some, max_le_iff,
      concat_zero_le_iff, Bool.and_eq_true, decide_eq_true_eq]
    tauto

theorem Clocked.prefixPage_eq
    (quiescent : state.core.Quiescent config clock "default" rows)
    (textual : TextRows rows) (fits : rows.length < usizeMax) (text : String)
    (cursor : Option String) (positive : 0 < limit) (small : limit ≤ maxScanLimit) :
    ∃ answer after, state.prefixPage clock text cursor limit = (.ok answer, after) ∧
      after.core.Quiescent config clock "default" rows ∧
      Paging.PageOf (publicRows
        (startingWith text rows)) limit utf8 cursor answer := by
  obtain ⟨after, scanned, still⟩ := scan_eq quiescent fits (some (match cursor with
      | some cursor => max (utf8 text) (utf8 cursor ++ [0])
      | none => utf8 text)) (prefixEnd text) (limit + 1)
  have named : ∀ row ∈ publicRows (startingWith text rows),
      ∃ key, some (lossyString row.1) = some key ∧ utf8 key = row.1 := by
    intro row member
    have listed := (mem_filter.mp (mem_filter.mp member).1).1
    obtain ⟨key, same⟩ := textual row listed
    exact ⟨key, by rw [same, lossyString_utf8], same.symm⟩
  rw [rowsWithin_prefixEnd, Nat.min_eq_left (Nat.succ_le_succ small)] at scanned
  refine ⟨_, after, ?_, still, .of_lookahead named positive rfl⟩
  unfold prefixPage
  dsimp only
  rw [Nat.min_eq_left small, scanned]
  simp only [Option.map_eq_bind]
  rfl

/-- `search_prefix` as clients use it. -/
def serveSearchPrefix (clock : Nat → Nanos) (text : String) (limit : Nat)
    (cursor : Option String) (state : Clocked) :
    Option (List (Bytes × Bytes) × Option String) × Clocked :=
  match state.searchPrefix clock text cursor limit with
  | (.ok answer, state) => (some answer, state)
  | (.error _, state) => (none, state)

/-- `keyspace::prefix` as clients use it. -/
def serveKeyspacePrefix (clock : Nat → Nanos) (text : String) (limit : Nat)
    (cursor : Option String) (state : Clocked) :
    Option (List (Bytes × Bytes) × Option String) × Clocked :=
  match state.prefixPage clock text cursor limit with
  | (.ok answer, state) => (some answer, state)
  | (.error _, state) => (none, state)

/-- Three keys in the memtable: `ab`, `abc` and `ad`. -/
def threeTexts : EngineCore :=
  engineRun .default [.put (.instant 1) "default" (utf8 "ab") [1] none,
      .put (.instant 2) "default" (utf8 "abc") [2] none,
      .put (.instant 3) "default" (utf8 "ad") [3] none]

theorem threeTexts_quiescent :
    threeTexts.Quiescent EngineOptions.default.storage (fun _ => 10) "default"
      [(utf8 "ab", [1]), (utf8 "abc", [2]), (utf8 "ad", [3])] := by
  have reachable : Reachable .default threeTexts := .of_check (by decide +kernel)
  have listing : threeTexts.listing 10 "default" (fun key =>
      expiredBy 10 (threeTexts.store.seen 10 "default" (ttlKey key))) =
        [(utf8 "ab", [1]), (utf8 "abc", [2]), (utf8 "ad", [3])] := by decide +kernel
  rw [← listing]
  exact .of_instant reachable.sound.store 10 "default"

theorem threeTexts_textual :
    TextRows [(utf8 "ab", [1]), (utf8 "abc", [2]), (utf8 "ad", [3])] := by
  simp [TextRows]

/-- On a store at rest a scan returns the first rows within its bounds that are
not reserved, and `scan_matching` the first ones that are accepted among ten
thousand. -/
theorem keyspace_scans_filter_rows {config : StorageConfig} {clock : Nat → Nanos}
    {rows : List (Bytes × Bytes)} {state : Clocked}
    (quiescent : state.core.Quiescent config clock "default" rows)
    (fits : rows.length < usizeMax)
    (lower upper : Option Bytes) (accepts : Bytes → Bytes → Bool) (limit : Nat) :
    (∃ after, state.scan clock lower upper limit =
      (.ok (((rowsWithin rows lower upper).filter (fun row => !isReserved row.1)).take
        (min limit (maxScanLimit + 1))), after)) ∧
    ∃ after, state.scanMatching clock lower upper limit accepts =
      (.ok ((((rowsWithin rows lower upper).take 10000).filter (fun row =>
        !isReserved row.1 && accepts row.1 row.2)).take (min limit 100)), after) := by
  obtain ⟨after, scanned, _⟩ := Clocked.scan_eq quiescent fits lower upper limit
  have least : min (min limit 100) (maxScanLimit + 1) = min limit 100 := by
    rw [Nat.min_eq_left]
    exact (Nat.min_le_right limit 100).trans (by decide)
  obtain ⟨after', looped, _⟩ := @Clocked.collectLoop_eq (min limit 100) [] _ _ _ _ upper
    (fun row => !isReserved row.1 && accepts row.1 row.2) 10000 lower quiescent
      (Nat.zero_le _)
  refine ⟨⟨after, scanned⟩, after', ?_⟩
  rw [Clocked.scanMatching, Clocked.collect, least, looped]
  rfl

theorem keyspace_scans_filter_three_texts :
    (∃ after, (⟨threeTexts, 0⟩ : Clocked).scan (fun _ => 10)
      (some (utf8 "abc")) none 5 =
      (.ok [(utf8 "abc", [2]), (utf8 "ad", [3])], after)) ∧
    ∃ after, (⟨threeTexts, 0⟩ : Clocked).scanMatching (fun _ => 10)
      (some (utf8 "abc")) none 5
      (fun key _ => decide (key = utf8 "ad")) = (.ok [(utf8 "ad", [3])], after) :=
  @keyspace_scans_filter_rows _ _ _ ⟨threeTexts, 0⟩ threeTexts_quiescent (by decide)
    (some (utf8 "abc")) none (fun key _ => decide (key = utf8 "ad")) 5

/-- On a store at rest whose keys are text, following the cursors of
`search_prefix` ends and shows every visible key that starts with the prefix
once, in increasing order; following those of `keyspace::prefix` shows the
ones that are not reserved. -/
theorem prefix_pages_are_complete {config : StorageConfig} {clock : Nat → Nanos}
    {rows : List (Bytes × Bytes)} {state : Clocked}
    (quiescent : state.core.Quiescent config clock "default" rows)
    (textual : TextRows rows)
    (fits : rows.length < usizeMax) (text : String) {limit : Nat}
    (positive : 0 < limit) :
    Paging.Sorted (startingWith text rows) ∧
    (∃ after, Paging.Follows (serveSearchPrefix clock text limit) none state
      (startingWith text rows) after) ∧ (limit ≤ maxScanLimit → ∃ after, Paging.Follows
      (serveKeyspacePrefix clock text limit) none state
      ((startingWith text rows).filter (fun row => !isReserved row.1)) after) := by
  have sorted : Paging.Sorted (startingWith text rows) :=
    quiescent.sorted.sublist filter_sublist
  refine ⟨sorted, ?_, ?_⟩
  · obtain ⟨after, follows, _⟩ := @Paging.Follows.of_pages _ _ _ _ _
      (startingWith text rows) limit utf8 (serveSearchPrefix clock text limit)
      (fun state => state.core.Quiescent config clock "default" rows) sorted
      (by
        intro cursor state located quiescent
        obtain ⟨answer, after, searched, still, page⟩ :=
          Clocked.searchPrefix_eq quiescent textual located positive
        refine ⟨answer, after, ?_, still, page⟩
        rw [serveSearchPrefix, searched]) state quiescent
    exact ⟨after, follows⟩
  · intro small
    obtain ⟨after, follows, _⟩ := @Paging.Follows.of_pages _ _ _ _ _
      (publicRows (startingWith text rows)) limit utf8 (serveKeyspacePrefix clock text limit)
      (fun state => state.core.Quiescent config clock "default" rows)
      (sorted.sublist filter_sublist) (by
        intro cursor state _ quiescent
        obtain ⟨answer, after, collected, still, page⟩ :=
          Clocked.prefixPage_eq quiescent textual fits text cursor positive small
        refine ⟨answer, after, ?_, still, page⟩
        rw [serveKeyspacePrefix, collected]) state quiescent
    exact ⟨after, follows⟩

/-- Pages of one row: both searches for `ab` find `ab` and `abc`. -/
theorem prefix_pages_of_three_texts :
    let rows := [(utf8 "ab", [1]), (utf8 "abc", [2]), (utf8 "ad", [3])]
    Paging.Sorted (startingWith "ab" rows) ∧
    (∃ after, Paging.Follows (serveSearchPrefix (fun _ => 10) "ab" 1) none
      ⟨threeTexts, 0⟩ (startingWith "ab" rows) after) ∧
    (1 ≤ maxScanLimit → ∃ after, Paging.Follows
      (serveKeyspacePrefix (fun _ => 10) "ab" 1) none ⟨threeTexts, 0⟩
      ((startingWith "ab" rows).filter (fun row => !isReserved row.1))
      after) :=
  @prefix_pages_are_complete _ _ _ ⟨threeTexts, 0⟩ threeTexts_quiescent
    threeTexts_textual (by decide) "ab" 1 Nat.one_pos

end ApexStore
