import ApexStore.Api.Keyspace

/-!
# The scan endpoints

`GET /scan` and `GET /keys/range` return a page of the public keys and a
cursor.  A request with a cursor scans from the cursor on and skips it, but
asks for no more rows than the first request does; so the second page never
finds that there are more, and a client sees at most two pages
(`scan_pages_are_complete_iff`).
-/

namespace ApexStore

open List

/-- The query parameters that are read: `include_lower` and `include_upper`
are not. -/
structure ScanQuery where
  lower : Option String
  upper : Option String
  limit : Option Nat
  cursor : Option String

structure ScanPage where
  records : List (String × String)
  cursor : Option String
  hasMore : Bool

def ScanQuery.pageLimit (query : ScanQuery) : Nat :=
  min (query.limit.getD 100) maxScanLimit

/-- The common body of the two handlers; the error is the message of the
response. -/
def Clocked.scanPage (clock : Nat → Nanos) (query : ScanQuery) (state : Clocked) :
    Except String ScanPage × Clocked :=
  let limit := query.pageLimit
  -- The cursor takes precedence over the lower bound.
  let lower := (query.cursor.or query.lower).map utf8
  let scanLimit := limit + 1
  match state.scan clock lower (query.upper.map utf8) scanLimit with
  | (.error _, state) => (.error "internal server error", state)
  | (.ok records, state) =>
    let records := records.dropWhile (fun row =>
      query.cursor.any (fun cursor => row.1 == utf8 cursor))
    let hasMore := decide (limit < records.length)
    let records := records.take limit
    let newCursor :=
      if hasMore then records.getLast?.bind (fun row => fromUtf8 row.1)
      else none
    (.ok
      { records := records.map (fun row =>
          (lossyString row.1, lossyString row.2))
        cursor := newCursor
        hasMore },
      state)

/-- `GET /scan`. -/
def Clocked.scanKeys (clock : Nat → Nanos) (query : ScanQuery) (state : Clocked) :
    Except String ScanPage × Clocked :=
  state.scanPage clock query

/-- `GET /keys/range`. -/
def Clocked.keysRange (clock : Nat → Nanos) (query : ScanQuery) (state : Clocked) :
    Except String ScanPage × Clocked :=
  state.scanPage clock query

/-- A client that repeats its query with the cursor it got, until `has_more` is
false, and keeps the keys.  It cannot go on without a cursor. -/
def servePage (handler : ScanQuery → Clocked → Except String ScanPage × Clocked)
    (query : ScanQuery) (cursor : Option String) (state : Clocked) :
    Option (List String × Option String) × Clocked :=
  match handler { query with cursor } state with
  | (.error _, state) => (none, state)
  | (.ok page, state) =>
    let keys := page.records.map (·.1)
    if page.hasMore then
      match page.cursor with
      | some next => (some (keys, some next), state)
      | none => (none, state)
    else (some (keys, none), state)

def ScanQuery.asked (query : ScanQuery) (rows : List (Bytes × Bytes)) :
    List (Bytes × Bytes) :=
  publicRows (rowsWithin rows (query.lower.map utf8) (query.upper.map utf8))

section Pages

variable {config : StorageConfig} {clock : Nat → Nanos}
  {rows : List (Bytes × Bytes)} {query : ScanQuery} {state : Clocked}

theorem ScanQuery.sorted_asked (query : ScanQuery)
    (sorted : Paging.Sorted rows) : Paging.Sorted (query.asked rows) :=
  (sorted.sublist filter_sublist).sublist filter_sublist

theorem asked_from_row (sorted : Paging.Sorted rows) {last : Bytes × Bytes}
    (member : last ∈ query.asked rows) :
    publicRows (rowsWithin rows (some last.1) (query.upper.map utf8)) =
      last :: Paging.above (query.asked rows) (some last.1) := by
  have within := (mem_filter.mp (mem_filter.mp member).1).2
  rw [inBounds, Bool.and_eq_true, Option.all_eq_true] at within
  rw [← (query.sorted_asked sorted).filter_from_row member, ScanQuery.asked,
    publicRows, publicRows, rowsWithin, rowsWithin, filter_filter, filter_filter,
      filter_filter]
  apply filter_congr
  intro row _
  rw [Bool.eq_iff_iff]
  simp only [inBounds, Option.all_some, Option.all_eq_true,
    Bool.and_eq_true, decide_eq_true_eq]
  constructor
  · rintro ⟨open_key, from_last, below⟩
    refine ⟨⟨from_last, open_key⟩, fun bound given => ?_, below⟩
    exact (of_decide_eq_true (within.1 bound given)).trans from_last
  · rintro ⟨⟨from_last, open_key⟩, _, below⟩
    exact ⟨open_key, from_last, below⟩

variable {cursor : Option String}

/-- The rows of a page before it is cut: those behind the cursor, where a page
with a cursor has one row less to look at. -/
theorem scanned_rows (sorted : Paging.Sorted rows)
    (located : Paging.Locates (query.asked rows) utf8 cursor) (limit : Nat) :
    ((publicRows (rowsWithin rows ((cursor.or query.lower).map utf8)
        (query.upper.map utf8))).take (limit + 1)).dropWhile
          (fun row => cursor.any (fun cursor => row.1 == utf8 cursor)) =
      (Paging.above (query.asked rows) (cursor.map utf8)).take
        (if cursor.isSome then limit else limit + 1) := by
  cases cursor with
  | none => exact dropWhile_eq_self_iff.mpr (by simp)
  | some key =>
    obtain ⟨last, member, same⟩ := located key rfl
    simp only [Option.some_or, Option.map_some, Option.any_some, ← same,
      asked_from_row sorted member]
    exact Paging.skip_cursor _ last limit

theorem Clocked.scanPage_eq
    (quiescent : state.core.Quiescent config clock "default" rows)
    (fits : rows.length < usizeMax)
    (located : Paging.Locates (query.asked rows) utf8 cursor)
    {found : List (Bytes × Bytes)}
    (seen : found = (Paging.above (query.asked rows) (cursor.map utf8)).take
      (if cursor.isSome then query.pageLimit else query.pageLimit + 1)) :
    ∃ after : Clocked, state.scanPage clock { query with cursor } = (.ok
          { records := (found.take query.pageLimit).map (fun row =>
              (lossyString row.1, lossyString row.2))
            cursor :=
              if decide (query.pageLimit < found.length) then
                (found.take query.pageLimit).getLast?.bind (fun row => fromUtf8 row.1)
              else none
            hasMore := decide (query.pageLimit < found.length) }, after) ∧
      after.core.Quiescent config clock "default" rows := by
  have small : query.pageLimit + 1 ≤ maxScanLimit + 1 :=
    Nat.succ_le_succ (Nat.min_le_right _ _)
  obtain ⟨after, scanned, still⟩ := scan_eq quiescent fits
    ((cursor.or query.lower).map utf8) (query.upper.map utf8) (query.pageLimit + 1)
  rw [Nat.min_eq_left small] at scanned
  refine ⟨after, ?_, still⟩
  have limit : ScanQuery.pageLimit { query with cursor } = query.pageLimit := rfl
  unfold scanPage
  dsimp only
  rw [limit, scanned, seen, ← scanned_rows quiescent.sorted located]

theorem map_utf8_lossyString (textual : TextRows rows)
    {page : List (Bytes × Bytes)} (listed : ∀ row ∈ page, row ∈ rows) :
    (page.map (fun row => lossyString row.1)).map utf8 = page.map (·.1) := by
  rw [map_map]
  apply map_congr_left
  intro row member
  obtain ⟨text, same⟩ := textual row (listed row member)
  rw [Function.comp_apply, same, lossyString_utf8]

variable (quiescent : state.core.Quiescent config clock "default" rows)
include quiescent

/-- A page that does not end the rows it looks at, in a request without a
cursor: the client gets the cursor of its last row. -/
theorem servePage_of_more (textual : TextRows rows)
    (fits : rows.length < usizeMax) (positive : 0 < query.pageLimit)
    (more : query.pageLimit < (query.asked rows).length) : ∃ next last after,
      servePage (fun query state => state.scanPage clock query) query none state =
        (some (((query.asked rows).take query.pageLimit).map (fun row =>
          lossyString row.1), some next), after) ∧
      ((query.asked rows).take query.pageLimit).getLast? = some last ∧
      utf8 next = last.1 ∧ last ∈ query.asked rows ∧
      after.core.Quiescent config clock "default" rows := by
  have start : Paging.Locates (query.asked rows) utf8 none := by
    intro key absent
    cases absent
  obtain ⟨after, answered, still⟩ := Clocked.scanPage_eq quiescent fits start rfl
  have taken : ((query.asked rows).take (query.pageLimit + 1)).take
      query.pageLimit = (query.asked rows).take query.pageLimit := by
    rw [take_take, Nat.min_eq_left (Nat.le_succ _)]
  have long : query.pageLimit < ((query.asked rows).take (query.pageLimit + 1)).length := by
    rw [length_take]
    omega
  have nonempty : (query.asked rows).take query.pageLimit ≠ [] := by
    apply ne_nil_of_length_pos
    rw [length_take]
    omega
  have ends := List.getLast?_eq_some_getLast nonempty
  generalize ((query.asked rows).take query.pageLimit).getLast nonempty = last at ends
  have member := mem_of_mem_take (mem_of_getLast? ends)
  obtain ⟨next, same⟩ := textual last (mem_filter.mp (mem_filter.mp member).1).1
  simp only [Option.map_none, Paging.above, Option.isSome_none, if_false,
    Bool.false_eq_true, long,
    decide_true, taken, ends, Option.bind_some, same, fromUtf8_utf8] at answered
  refine ⟨next, last, after, ?_, ends, same.symm, member, still⟩
  unfold servePage
  dsimp only
  rw [answered]
  dsimp only
  rw [if_pos rfl, map_map]
  rfl

theorem servePage_of_done (fits : rows.length < usizeMax)
    (located : Paging.Locates (query.asked rows) utf8 cursor)
    {found : List (Bytes × Bytes)}
    (seen : found = (Paging.above (query.asked rows) (cursor.map utf8)).take
      (if cursor.isSome then query.pageLimit else query.pageLimit + 1))
    (short : found.length ≤ query.pageLimit) : ∃ after,
      servePage (fun query state => state.scanPage clock query) query cursor state =
        (some (found.map (fun row => lossyString row.1), none), after) := by
  obtain ⟨after, answered, _⟩ := Clocked.scanPage_eq quiescent fits located seen
  simp only [Nat.not_lt.mpr short, decide_false, take_of_length_le short] at answered
  refine ⟨after, ?_⟩
  unfold servePage
  dsimp only
  rw [answered]
  dsimp only
  rw [if_neg Bool.false_ne_true, map_map]
  rfl

theorem follows_two_pages (textual : TextRows rows)
    (fits : rows.length < usizeMax) (positive : 0 < query.pageLimit) :
    ∃ after, Paging.Follows
      (servePage (fun query state => state.scanPage clock query) query) none
      state (((query.asked rows).take (2 * query.pageLimit)).map (fun row =>
        lossyString row.1)) after := by
  have sorted := query.sorted_asked quiescent.sorted
  rcases Nat.lt_or_ge query.pageLimit (query.asked rows).length with more | few
  · obtain ⟨next, last, between, first, ends, same, member, still⟩ :=
      servePage_of_more quiescent textual fits positive more
    have located : Paging.Locates (query.asked rows) utf8 (some next) := by
      rintro _ ⟨rfl⟩
      exact ⟨last, member, same.symm⟩
    obtain ⟨after, second⟩ := servePage_of_done still fits located rfl (length_take_le _ _)
    have both : (query.asked rows).take (2 * query.pageLimit) =
        (query.asked rows).take query.pageLimit ++
          (Paging.above (query.asked rows) (some (utf8 next))).take query.pageLimit := by
      have rest : Paging.above (query.asked rows) (some last.1) =
          (query.asked rows).drop query.pageLimit := by
        have split : Paging.above (query.asked rows) none = _ := sorted.above_eq_append ends
        exact (append_cancel_left ((take_append_drop _ _).trans split)).symm
      rw [same, rest, two_mul, take_add]
    refine ⟨after, ?_⟩
    rw [both, map_append]
    exact .more first (.last second)
  · have start : Paging.Locates (query.asked rows) utf8 none := by
      intro key absent
      cases absent
    have whole : query.asked rows = (Paging.above (query.asked rows)
        ((none : Option String).map utf8)).take
          (if (none : Option String).isSome then query.pageLimit
            else query.pageLimit + 1) := (take_of_length_le (Nat.le_succ_of_le few)).symm
    obtain ⟨after, only⟩ := servePage_of_done quiescent fits start whole few
    refine ⟨after, ?_⟩
    rw [take_of_length_le (by omega)]
    exact .last only

end Pages

/-- On a store at rest whose keys are text, following the cursors of a query to
one of the scan endpoints yields every key that the query asks for once, in
increasing order, exactly if these are no more than two pages. -/
theorem scan_pages_are_complete_iff {config : StorageConfig} {clock : Nat → Nanos}
    {rows : List (Bytes × Bytes)} {state : Clocked}
    (quiescent : state.core.Quiescent config clock "default" rows)
    (textual : TextRows rows)
    (fits : rows.length < usizeMax) (query : ScanQuery) {limit : Nat}
    (asked : query.limit = some limit) (positive : 0 < limit)
    (small : limit ≤ maxScanLimit)
    {handler : ScanQuery → Clocked → Except String ScanPage × Clocked}
    (endpoint : handler = (fun query state => state.scanKeys clock query) ∨
      handler = (fun query state => state.keysRange clock query)) :
    (∃ keys after, Paging.Follows (servePage handler query) none state keys
        after ∧ keys.map utf8 = (query.asked rows).map (·.1)) ↔
      (query.asked rows).length ≤ 2 * limit := by
  have body : handler = (fun query state => state.scanPage clock query) := by
    rcases endpoint with rfl | rfl <;> rfl
  have page : query.pageLimit = limit := by
    rw [ScanQuery.pageLimit, asked, Option.getD_some, Nat.min_eq_left small]
  subst body
  rw [← page] at positive ⊢
  obtain ⟨after, follows⟩ := follows_two_pages quiescent textual fits positive
  have public_rows : ∀ row ∈ (query.asked rows).take (2 * query.pageLimit), row ∈ rows := by
    intro row member
    exact (mem_filter.mp (mem_filter.mp (mem_of_mem_take member)).1).1
  constructor
  · rintro ⟨keys, after', follows', complete⟩
    obtain ⟨rfl, _⟩ := follows'.unique follows
    rw [map_utf8_lossyString textual public_rows] at complete
    have lengths := congrArg List.length complete
    rw [length_map, length_map, length_take] at lengths
    omega
  · intro few
    refine ⟨_, after, follows, ?_⟩
    rw [map_utf8_lossyString textual public_rows, take_of_length_le few]

/-- Three keys in pages of two. -/
theorem scan_pages_of_three_texts :
    let query : ScanQuery :=
      { lower := none, upper := none, limit := some 2, cursor := none }
    ∃ keys after, Paging.Follows (servePage (fun query state =>
        state.scanKeys (fun _ => 10) query) query) none ⟨threeTexts, 0⟩ keys
        after ∧
      keys.map utf8 = (query.asked
        [(utf8 "ab", [1]), (utf8 "abc", [2]), (utf8 "ad", [3])]).map (·.1) := by
  intro query
  exact (@scan_pages_are_complete_iff _ _ _ ⟨threeTexts, 0⟩
    threeTexts_quiescent threeTexts_textual (by decide) query 2 rfl
    (by decide) (by decide) _ (.inl rfl)).mpr (by decide +kernel)

/-- Three keys in pages of one: the client is told that there is nothing behind
the second key. -/
theorem scan_pages_miss_third_text :
    let query : ScanQuery :=
      { lower := none, upper := none, limit := some 1, cursor := none }
    let serve := servePage (fun query state =>
      state.scanKeys (fun _ => 10) query) query
    (∃ after, Paging.Follows serve none ⟨threeTexts, 0⟩ ["ab", "abc"] after) ∧
      ¬ ∃ keys after, Paging.Follows serve none ⟨threeTexts, 0⟩ keys after ∧
        keys.map utf8 = (query.asked
          [(utf8 "ab", [1]), (utf8 "abc", [2]), (utf8 "ad", [3])]).map (·.1) := by
  intro query serve
  obtain ⟨after, follows⟩ := @follows_two_pages _ _ _ query ⟨threeTexts, 0⟩
    threeTexts_quiescent threeTexts_textual (by decide) (by decide)
  have asked : query.asked [(utf8 "ab", [1]), (utf8 "abc", [2]), (utf8 "ad", [3])] =
        [(utf8 "ab", [1]), (utf8 "abc", [2]), (utf8 "ad", [3])] := by decide +kernel
  rw [asked] at follows ⊢
  have seen : (([(utf8 "ab", [1]), (utf8 "abc", [2]), (utf8 "ad", [3])].take
      (2 * query.pageLimit)).map (fun row : Bytes × Bytes =>
        lossyString row.1)) = ["ab", "abc"] := by
    change [lossyString (utf8 "ab"), lossyString (utf8 "abc")] = _
    rw [lossyString_utf8, lossyString_utf8]
  rw [seen] at follows
  refine ⟨⟨after, follows⟩, ?_⟩
  rintro ⟨keys, after', follows', complete⟩
  obtain ⟨rfl, _⟩ := follows'.unique follows
  have lengths := congrArg List.length complete
  simp at lengths

end ApexStore
