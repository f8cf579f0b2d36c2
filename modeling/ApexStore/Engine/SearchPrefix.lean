import ApexStore.Engine.QuietScans
import ApexStore.Engine.TextKeys

/-!
# Searching by a prefix

`search_prefix` scans from the prefix, or from the cursor, to the first key
behind all that start with the prefix.  The cursor is the last key of the page
before; the scan finds it again and skips it.
-/

namespace ApexStore

open EngineCore List

/-- Increment a byte string as a number, from its end: the loop of
`prefix_end` and `key_after`, over the bytes in reverse.  `none` means that
every byte was `0xFF`. -/
def incrementCarry : Bytes → Option Bytes
  | [] => none
  | byte :: rest =>
    if byte < 0xFF then some ((byte + 1) :: rest)
    else (incrementCarry rest).map (0 :: ·)

/-- A string of bytes `0xFF` becomes zeros, and one more. -/
def incrementBytes (bytes : Bytes) : Bytes :=
  match incrementCarry bytes.reverse with
  | some incremented => incremented.reverse
  | none => List.replicate bytes.length 0 ++ [0]

def prefixEnd (text : String) : Option Bytes :=
  if text.isEmpty then none else some (incrementBytes (utf8 text))

variable {byte : UInt8}

theorem incrementBytes_concat (front : Bytes) (below : byte < 0xFF) :
    incrementBytes (front ++ [byte]) = front ++ [byte + 1] := by
  simp [incrementBytes, incrementCarry, below]

theorem lt_succ_iff_le {other : UInt8} (below : byte < 0xFF) :
    other < byte + 1 ↔ other ≤ byte := by
  have small : byte.toNat < 255 := UInt8.lt_iff_toNat_lt.mp below
  have next : (byte + 1).toNat = byte.toNat + 1 := by
    change (byte.toNat + 1) % 256 = byte.toNat + 1
    omega
  rw [UInt8.lt_iff_toNat_lt, UInt8.le_iff_toNat_le]
  omega

/-- The keys between a byte string and its increment are its extensions, if
there is no carry. -/
theorem between_iff_isPrefix (front : Bytes) (below : byte < 0xFF) (key : Bytes) :
    (front ++ [byte] ≤ key ∧ key < front ++ [byte + 1]) ↔ front ++ [byte] <+: key := by
  induction front generalizing key with
  | nil =>
    cases key with
    | nil => simp
    | cons first rest =>
      simp only [nil_append, ← not_lt, cons_lt_cons_iff, not_lt_nil, and_false, or_false,
        lt_succ_iff_le below, cons_prefix_cons, nil_prefix, and_true]
      rw [not_lt, not_lt, ← le_antisymm_iff]
  | cons head front ih =>
    cases key with
    | nil => simp
    | cons first rest =>
      simp only [cons_append, ← not_lt, cons_lt_cons_iff, cons_prefix_cons, ← ih rest]
      rcases lt_trichotomy head first with less | same | greater
      · simp [less.ne, less.ne']
      · simp [same]
      · simp [greater, greater.ne']

variable {text : String}

theorem utf8_eq_concat (nonempty : text.isEmpty = false) :
    ∃ front byte, utf8 text = front ++ [byte] ∧ byte < 0xFF := by
  have some_bytes : utf8 text ≠ [] := by
    intro empty
    have same : text = "" := utf8_injective (empty.trans rfl)
    rw [same] at nonempty
    cases nonempty
  obtain ⟨front, byte, split⟩ := (eq_nil_or_concat (utf8 text)).resolve_left some_bytes
  rw [concat_eq_append] at split
  refine ⟨front, byte, split, ?_⟩
  have member : byte ∈ utf8 text := by
    rw [split]
    simp
  have top := ne_0xFF_of_mem_utf8 member
  rw [ne_eq, ← UInt8.toNat_inj] at top
  have bound := byte.toNat_lt
  change byte.toNat < 255
  change byte.toNat ≠ 255 at top
  omega

/-- A scan from a prefix to its end is a scan of the keys that start with
it. -/
theorem inBounds_prefixEnd (text : String) (key : Bytes) :
    inBounds (some (utf8 text)) (prefixEnd text) key = (utf8 text).isPrefixOf key := by
  rw [Bool.eq_iff_iff, isPrefixOf_iff_prefix, prefixEnd]
  cases empty : text.isEmpty with
  | true =>
    have same : text = "" := by simpa using empty
    rw [same]
    have least : [] ≤ key := not_lt.mp (not_lt_nil key)
    simp [inBounds, utf8, least]
  | false =>
    obtain ⟨front, byte, split, below⟩ := utf8_eq_concat empty
    rw [split, if_neg (by simp), incrementBytes_concat front below,
      ← between_iff_isPrefix front below]
    simp [inBounds]

/-- `Engine::search_prefix`: a page of the default family, and the cursor of
the next one. -/
def Clocked.searchPrefix (clock : Nat → Nanos) (text : String)
    (cursor : Option String) (limit : Nat) (state : Clocked) :
    Except LsmError (List (Bytes × Bytes) × Option String) × Clocked :=
  let start := (cursor.map utf8).or (some (utf8 text))
  -- The cursor uses up one row of the scan.
  let scanExtra := if cursor.isSome then 2 else 1
  match state.scanCf clock "default" start (prefixEnd text)
      (limit + scanExtra) with
  | (.error error, state) => (.error error, state)
  | (.ok results, state) =>
    let results := results.dropWhile (fun row =>
      cursor.any (fun cursor => row.1 == utf8 cursor))
    let hasMore := decide (limit < results.length)
    let results := results.take limit
    let newCursor :=
      if hasMore then results.getLast?.bind (fun row => fromUtf8 row.1)
      else none
    (.ok (results, newCursor), state)

def startingWith (text : String) (rows : List (Bytes × Bytes)) :
    List (Bytes × Bytes) :=
  rows.filter (fun row => (utf8 text).isPrefixOf row.1)

def TextRows (rows : List (Bytes × Bytes)) : Prop :=
  ∀ row ∈ rows, ∃ text, row.1 = utf8 text

section Search

variable {rows : List (Bytes × Bytes)} {text : String}

/-- From a row that starts with the text on, the scan sees the row and those
that start with the text behind it. -/
theorem filter_inBounds_of_row (sorted : Paging.Sorted rows)
    {last : Bytes × Bytes} (member : last ∈ startingWith text rows) :
    rows.filter (fun row =>
        inBounds (some last.1) (prefixEnd text) row.1) =
      last :: Paging.above (startingWith text rows) (some last.1) := by
  have sorted' : Paging.Sorted (startingWith text rows) := sorted.sublist filter_sublist
  rw [← sorted'.filter_from_row member, startingWith, filter_filter]
  have begins := (mem_filter.mp member).2
  rw [← inBounds_prefixEnd, inBounds, Bool.and_eq_true] at begins
  have low : utf8 text ≤ last.1 := by simpa using begins.1
  apply filter_congr
  intro row _
  rw [← inBounds_prefixEnd, inBounds, inBounds]
  by_cases behind : last.1 ≤ row.1
  · simp [low.trans behind]
  · simp [behind]

theorem results_eq_above (sorted : Paging.Sorted rows)
    {cursor : Option String}
    (located : Paging.Locates (startingWith text rows) utf8 cursor)
    (limit : Nat) : (window rows ((cursor.map utf8).or (some (utf8 text)))
        (prefixEnd text) (limit + if cursor.isSome then 2 else 1)).dropWhile
          (fun row => cursor.any (fun cursor => row.1 == utf8 cursor)) =
      (Paging.above (startingWith text rows) (cursor.map utf8)).take (limit + 1) := by
  cases cursor with
  | none =>
    have same : rows.filter (fun row => inBounds
        (some (utf8 text)) (prefixEnd text) row.1) = startingWith text rows :=
      filter_congr (fun row _ => inBounds_prefixEnd text row.1)
    simp only [Option.map_none, Option.none_or, window, same]
    exact dropWhile_eq_self_iff.mpr (by simp)
  | some key =>
    obtain ⟨last, member, same⟩ := located key rfl
    simp only [Option.map_some, Option.some_or,
      Option.any_some, window, ← same, filter_inBounds_of_row sorted member]
    exact Paging.skip_cursor _ last (limit + 1)

end Search

theorem Clocked.searchPrefix_eq {config : StorageConfig} {clock : Nat → Nanos}
    {rows : List (Bytes × Bytes)} {state : Clocked}
    (quiescent : state.core.Quiescent config clock "default" rows)
    (textual : TextRows rows)
    {cursor : Option String}
    (located : Paging.Locates (startingWith text rows) utf8 cursor)
    {limit : Nat} (positive : 0 < limit) :
    ∃ answer after, state.searchPrefix clock text cursor limit = (.ok answer, after) ∧
      after.core.Quiescent config clock "default" rows ∧
      Paging.PageOf (startingWith text rows) limit utf8 cursor answer := by
  have sorted := quiescent.sorted
  obtain ⟨after, scanned, still⟩ := scanCf_eq quiescent
    ((cursor.map utf8).or (some (utf8 text))) (prefixEnd text)
    (limit + if cursor.isSome then 2 else 1)
  have named : ∀ row ∈ startingWith text rows,
      ∃ key, fromUtf8 row.1 = some key ∧ utf8 key = row.1 := by
    intro row member
    obtain ⟨key, same⟩ := textual row (mem_filter.mp member).1
    exact ⟨key, by rw [same, fromUtf8_utf8], same.symm⟩
  refine ⟨_, after, ?_, still,
    .of_lookahead named positive (results_eq_above sorted located limit)⟩
  unfold searchPrefix
  dsimp only
  rw [scanned]

end ApexStore
