import ApexStore.Api.Keyspace
import ApexStore.Engine.MemtableHistory

/-!
# Bulk export

`for_each_kv` shows a visitor the rows of a family, page by page.  The next
page starts at the increment of the last key of a page, and that is not the
smallest key behind it: the extensions of the last key lie between the two.
So the visitor sees every row once just if no page ends at a key for which
something lies there (`export_visits_every_row_iff`).
-/

namespace ApexStore

open List EngineCore

def exportPageSize : Nat := 2000

/-- `key_after`; the source never returns `None`. -/
def keyAfter (key : Bytes) : Option Bytes := some (incrementBytes key)

/-- The loop over the rows of a page.  The visitor says whether it wants to see
more; the flag tells whether it did to the end. -/
def visitRows {σ : Type} (visit : Bytes → Bytes → σ → Except LsmError Bool × σ) :
    List (Bytes × Bytes) → σ → Except LsmError Bool × σ
  | [], seen => (.ok true, seen)
  | (key, value) :: rows, seen =>
    match visit key value seen with
    | (.error error, seen) => (.error error, seen)
    | (.ok false, seen) => (.ok false, seen)
    | (.ok true, seen) => visitRows visit rows seen

/-- `for_each_kv` from some lower bound on, for at most a number of pages; the
visitor has a state of its own. -/
def Clocked.forEachKv {σ : Type} (clock : Nat → Nanos) (cf : String)
    (visit : Bytes → Bytes → σ → Except LsmError Bool × σ) :
    Nat → Option Bytes → σ → Clocked → Option (Except LsmError Unit × σ × Clocked)
  | 0, _, _, _ => none
  | pages + 1, lower, seen, state =>
    match state.scanCf clock cf lower none exportPageSize with
    | (.error error, state) => some (.error error, seen, state)
    | (.ok results, state) =>
      if results.isEmpty then some (.ok (), seen, state)
      else
        match visitRows visit results seen with
        | (.error error, seen) => some (.error error, seen, state)
        | (.ok false, seen) => some (.ok (), seen, state)
        | (.ok true, seen) =>
          if results.length < exportPageSize then
            some (.ok (), seen, state)
          else
            match results.getLast? with
            | none => some (.ok (), seen, state)
            | some last =>
              match keyAfter last.1 with
              | none => some (.ok (), seen, state)
              | some next =>
                state.forEachKv clock cf visit pages (some next) seen

/-- A visitor that writes down the calls it gets. -/
def recordCall (key value : Bytes) (calls : List (Bytes × Bytes)) :
    Except LsmError Bool × List (Bytes × Bytes) :=
  (.ok true, calls ++ [(key, value)])

theorem visitRows_recordCall (rows calls : List (Bytes × Bytes)) :
    visitRows recordCall rows calls = (.ok true, calls ++ rows) := by
  induction rows generalizing calls with
  | nil => rw [visitRows, append_nil]
  | cons row rows ih =>
    rw [visitRows, recordCall]
    dsimp only
    rw [ih, append_assoc, singleton_append]

section Export

variable {config : StorageConfig} {clock : Nat → Nanos} {cf : String}
  {rows : List (Bytes × Bytes)}

theorem window_eq_fromBound (lower : Option Bytes) (limit : Nat) :
    EngineCore.window rows lower none limit =
      (Paging.fromBound rows lower).take limit := by
  rw [window]
  congr 1
  cases lower with
  | none =>
    rw [Paging.fromBound, filter_eq_self]
    intro row _
    rfl
  | some key =>
    apply filter_congr
    intro row _
    simp [inBounds]

variable {state : Clocked}

theorem Clocked.forEachKv_eq (quiescent : state.core.Quiescent config clock cf rows)
    (pages : Nat) (lower : Option Bytes) (calls : List (Bytes × Bytes)) :
    match Paging.walk incrementBytes exportPageSize rows pages lower with
    | none => state.forEachKv clock cf recordCall pages lower calls = none
    | some seen => ∃ after, state.forEachKv clock cf recordCall pages lower calls =
          some (.ok (), calls ++ seen, after) := by
  induction pages generalizing state lower calls with
  | zero => rfl
  | succ pages ih =>
    obtain ⟨after, scanned, still⟩ := Clocked.scanCf_eq quiescent lower none exportPageSize
    rw [window_eq_fromBound] at scanned
    rw [Paging.walk, forEachKv, scanned]
    dsimp only
    generalize (Paging.fromBound rows lower).take exportPageSize = page
    rw [visitRows_recordCall]
    dsimp only [keyAfter]
    by_cases short : page.length < exportPageSize
    · rw [if_pos short, if_pos short]
      cases page with
      | nil => exact ⟨after, by simp⟩
      | cons row page => exact ⟨after, rfl⟩
    · rw [if_neg short, if_neg short]
      cases ends : page.getLast? with
      | none =>
        exact ⟨after, by simp⟩
      | some last =>
        have nonempty : page.isEmpty = false := by
          cases page with
          | nil => cases ends
          | cons row page => rfl
        dsimp only
        rw [nonempty]
        have rest := ih still (some (incrementBytes last.1)) (calls ++ page)
        cases walked : Paging.walk incrementBytes exportPageSize rows
            pages (some (incrementBytes last.1)) with
        | none =>
          rw [walked] at rest
          exact rest
        | some seen =>
          rw [walked] at rest
          dsimp only [Option.map_some] at rest ⊢
          rw [← append_assoc]
          exact rest

/-- The export ends, and its visitor was called with the rows, in their
order. -/
def ExportsRows (clock : Nat → Nanos) (cf : String) (state : Clocked)
    (rows : List (Bytes × Bytes)) : Prop :=
  ∃ pages after, state.forEachKv clock cf recordCall pages none [] =
    some (.ok (), rows, after)

theorem exportsRows_iff_walk (quiescent : state.core.Quiescent config clock cf rows) :
    ExportsRows clock cf state rows ↔
      ∃ pages, Paging.walk incrementBytes exportPageSize rows pages none =
        some rows := by
  apply exists_congr
  intro pages
  have same := Clocked.forEachKv_eq quiescent pages none []
  cases walked : Paging.walk incrementBytes exportPageSize rows pages none with
  | none =>
    rw [walked] at same
    simp [same]
  | some seen =>
    rw [walked] at same
    obtain ⟨after, exported⟩ := same
    simp [exported]

end Export

/-! ### What lies between a key and its increment -/

theorem incrementCarry_replicate (tops : Nat) (byte : UInt8) (rest : Bytes)
    (below : byte < 0xFF) :
    incrementCarry (List.replicate tops 0xFF ++ byte :: rest) =
      some (List.replicate tops 0 ++ (byte + 1) :: rest) := by
  induction tops with
  | zero => exact if_pos below
  | succ tops ih =>
    rw [replicate_succ, cons_append, incrementCarry,
      if_neg (by decide), ih, Option.map_some, replicate_succ, cons_append]

variable {byte : UInt8} {items : List (BatchStamp × Bytes × Bytes)}

/-- Bytes `0xFF` at the end become zeros, and the byte before them is
incremented. -/
theorem incrementBytes_carry (front : Bytes) (below : byte < 0xFF) (tops : Nat) :
    incrementBytes (front ++ byte :: List.replicate tops 0xFF) =
      front ++ (byte + 1) :: List.replicate tops 0 := by
  have reversed : (front ++ byte :: List.replicate tops 0xFF).reverse =
      List.replicate tops 0xFF ++ byte :: front.reverse := by
    simp
  rw [incrementBytes, reversed, incrementCarry_replicate _ _ _ below]
  simp

theorem incrementCarry_eq_none {bytes : Bytes}
    (top : ∀ byte ∈ bytes, byte = 0xFF) : incrementCarry bytes = none := by
  induction bytes with
  | nil => rfl
  | cons byte rest ih =>
    rw [top byte mem_cons_self, incrementCarry, if_neg (by decide),
      ih (forall_mem_cons.mp top).2]
    rfl

variable {key : Bytes}

theorem split_at_carry (some_below : ∃ byte ∈ key, byte ≠ 0xFF) :
    ∃ front byte tops, byte < (0xFF : UInt8) ∧
      key = front ++ byte :: List.replicate tops 0xFF := by
  induction key using List.reverseRecOn with
  | nil => simp at some_below
  | append_singleton key last ih =>
    by_cases top : last = 0xFF
    · obtain ⟨byte, member, low⟩ := some_below
      have earlier : byte ∈ key := by
        rcases mem_append.mp member with earlier | same
        · exact earlier
        · exact absurd ((mem_singleton.mp same).trans top) low
      obtain ⟨front, byte, tops, below, split⟩ := ih ⟨byte, earlier, low⟩
      refine ⟨front, byte, tops + 1, below, ?_⟩
      rw [split, top, append_assoc, cons_append, replicate_succ']
    · refine ⟨key, last, 0, ?_, rfl⟩
      rw [← UInt8.toNat_inj] at top
      have bound := last.toNat_lt
      change last.toNat ≠ 255 at top
      change last.toNat < 255
      omega

theorem replicate_top_isPrefix {tops : Nat}
    (above_tops : List.replicate tops 0xFF < key) :
    List.replicate tops 0xFF <+: key := by
  induction tops generalizing key with
  | zero => exact nil_prefix
  | succ tops ih =>
    cases key with
    | nil => exact absurd above_tops (not_lt_nil _)
    | cons first rest =>
      rw [replicate_succ, cons_lt_cons_iff] at above_tops
      rcases above_tops with above_top | ⟨rfl, above_rest⟩
      · rw [UInt8.lt_iff_toNat_lt] at above_top
        have bound := first.toNat_lt
        change 255 < first.toNat at above_top
        omega
      · rw [replicate_succ, cons_prefix_cons]
        exact ⟨rfl, ih above_rest⟩

theorem lt_replicate_zero_iff {count : Nat} : key < List.replicate count 0 ↔
      ∃ fewer < count, key = List.replicate fewer 0 := by
  induction count generalizing key with
  | zero => simp
  | succ count ih =>
    cases key with
    | nil =>
      rw [replicate_succ]
      simp only [nil_lt_cons, true_iff]
      exact ⟨0, Nat.succ_pos count, rfl⟩
    | cons first rest =>
      rw [replicate_succ, cons_lt_cons_iff, ih]
      constructor
      · rintro (low | ⟨rfl, fewer, less, rfl⟩)
        · rw [UInt8.lt_iff_toNat_lt] at low
          exact absurd low (Nat.not_lt_zero _)
        · exact ⟨fewer + 1, Nat.succ_lt_succ less, rfl⟩
      · rintro ⟨fewer, less, split⟩
        cases fewer with
        | zero => cases split
        | succ fewer =>
          rw [replicate_succ, List.cons.injEq] at split
          exact Or.inr ⟨split.1, fewer, Nat.lt_of_succ_lt_succ less, split.2⟩

/-- A key that the next page leaves out when a page ends at `last`: an
extension of `last`; or, where bytes `0xFF` at its end are carried over, the
incremented byte with fewer zeros behind it. -/
def LeftOut (last key : Bytes) : Prop :=
  last <+: key ∨ ∃ front byte tops zeros, byte < (0xFF : UInt8) ∧
    last = front ++ byte :: List.replicate tops 0xFF ∧ zeros < tops ∧
    key = front ++ (byte + 1) :: List.replicate zeros 0

theorem lt_carry_iff (front : Bytes) (below : byte < 0xFF) (tops : Nat)
    (behind : front ++ byte :: List.replicate tops 0xFF < key) :
    key < front ++ (byte + 1) :: List.replicate tops 0 ↔
      front ++ byte :: List.replicate tops 0xFF <+: key ∨
        ∃ zeros < tops, key = front ++ (byte + 1) :: List.replicate zeros 0 := by
  induction front generalizing key with
  | nil =>
    cases key with
    | nil => exact absurd behind (not_lt_nil _)
    | cons first rest =>
      rw [nil_append, cons_lt_cons_iff] at behind
      simp only [nil_append, cons_lt_cons_iff,
        lt_succ_iff_le below, cons_prefix_cons, List.cons.injEq, lt_replicate_zero_iff]
      rcases behind with above_byte | ⟨rfl, above_tops⟩
      · simp only [above_byte.ne, above_byte.not_ge, false_and, false_or]
        constructor
        · rintro ⟨rfl, fewer, less, rfl⟩
          exact ⟨fewer, less, rfl, rfl⟩
        · rintro ⟨fewer, less, rfl, rfl⟩
          exact ⟨rfl, fewer, less, rfl⟩
      · simp only [le_refl, true_or, true_and, true_iff]
        exact Or.inl (replicate_top_isPrefix above_tops)
  | cons head front ih =>
    cases key with
    | nil => exact absurd behind (not_lt_nil _)
    | cons first rest =>
      rw [cons_append, cons_lt_cons_iff] at behind
      simp only [cons_append, cons_lt_cons_iff]
      rcases behind with above_head | ⟨rfl, behind⟩
      · simp [above_head.ne, above_head.ne', above_head.not_gt]
      · simpa using ih behind

theorem lt_incrementBytes_iff {last : Bytes} (some_below : ∃ byte ∈ last, byte ≠ 0xFF)
    (behind : last < key) : key < incrementBytes last ↔ LeftOut last key := by
  constructor
  · intro skipped
    obtain ⟨front, byte, tops, below, rfl⟩ := split_at_carry some_below
    rw [incrementBytes_carry front below, lt_carry_iff front below tops behind] at skipped
    rcases skipped with extends_last | ⟨zeros, fewer, same⟩
    · exact Or.inl extends_last
    · exact Or.inr ⟨front, byte, tops, zeros, below, rfl, fewer, same⟩
  · rintro (extends_last | ⟨front, byte, tops, zeros, below, rfl, fewer, same⟩)
    · obtain ⟨front, byte, tops, below, rfl⟩ := split_at_carry some_below
      rw [incrementBytes_carry front below, lt_carry_iff front below tops behind]
      exact Or.inl extends_last
    · rw [incrementBytes_carry front below, lt_carry_iff front below tops behind]
      exact Or.inr ⟨zeros, fewer, same⟩

theorem lt_incrementBytes_self_iff (nonempty : key ≠ []) :
    key < incrementBytes key ↔ ∃ byte ∈ key, byte ≠ 0xFF := by
  constructor
  · intro increased
    by_contra! top
    have none_below : incrementCarry key.reverse = none :=
      incrementCarry_eq_none (by simpa using top)
    obtain ⟨first, rest, rfl⟩ := exists_cons_of_ne_nil nonempty
    rw [incrementBytes, none_below, length_cons, replicate_succ,
      top first mem_cons_self] at increased
    rw [cons_append, cons_lt_cons_iff] at increased
    rcases increased with low | ⟨same, _⟩
    · exact absurd low (by decide)
    · exact absurd same (by decide)
  · intro some_below
    obtain ⟨front, byte, tops, below, rfl⟩ := split_at_carry some_below
    rw [incrementBytes_carry front below]
    clear nonempty some_below
    induction front with
    | nil =>
      rw [nil_append, nil_append, cons_lt_cons_iff]
      exact Or.inl ((lt_succ_iff_le below).mpr le_rfl)
    | cons head front ih =>
      rw [cons_append, cons_append, cons_lt_cons_iff]
      exact Or.inr ⟨rfl, ih⟩

/-- No full page ends at a key of bytes `0xFF` only, or at a key for which
there is a row that the next page leaves out. -/
def NothingLeftOut (rows : List (Bytes × Bytes)) : Prop :=
  ∀ page last, (page + 1) * exportPageSize ≤ rows.length →
    (rows.take ((page + 1) * exportPageSize)).getLast? = some last →
      (∃ byte ∈ last.1, byte ≠ 0xFF) ∧ ∀ row ∈ rows.drop ((page + 1) * exportPageSize),
        ¬ LeftOut last.1 row.1

section Export

variable {config : StorageConfig} {clock : Nat → Nanos} {cf : String}
  {rows : List (Bytes × Bytes)}

theorem last_key_ne_nil (sorted : Paging.Sorted rows) {count : Nat}
    (several : 1 < count) (within : count ≤ rows.length) {last : Bytes × Bytes}
    (ends : (rows.take count).getLast? = some last) : last.1 ≠ [] := by
  obtain ⟨front, page, split⟩ := Paging.split_page ends
  have length : (rows.take count).length = count := length_take_of_le within
  rw [page, length_append, length_singleton] at length
  obtain ⟨first, others, rfl⟩ := exists_cons_of_ne_nil
    (ne_nil_of_length_pos (show 0 < front.length by omega))
  rw [split] at sorted
  intro empty
  have below := sorted.around.1 first mem_cons_self
  rw [empty] at below
  exact not_lt_nil _ below

theorem pagesCut_iff_nothingLeftOut (sorted : Paging.Sorted rows) :
    Paging.PagesCut incrementBytes exportPageSize rows 0 ↔ NothingLeftOut rows := by
  apply forall₂_congr
  intro page last
  rw [Nat.zero_add]
  apply imp_congr_right
  intro within
  apply imp_congr_right
  intro ends
  have several : 1 < (page + 1) * exportPageSize := by
    rw [exportPageSize]
    omega
  have nonempty := last_key_ne_nil sorted several within ends
  obtain ⟨front, _, split⟩ := Paging.split_page ends
  rw [Paging.CutsAt, lt_incrementBytes_self_iff nonempty]
  apply and_congr_right
  intro some_below
  apply forall₂_congr
  intro row member
  have behind : last.1 < row.1 := by
    rw [split] at sorted
    exact sorted.around.2 row member
  rw [← not_lt, lt_incrementBytes_iff some_below behind]

theorem exportsRows_iff {state : Clocked}
    (quiescent : state.core.Quiescent config clock cf rows) :
    ExportsRows clock cf state rows ↔ NothingLeftOut rows := by
  rw [exportsRows_iff_walk quiescent, quiescent.sorted.walk_iff (by decide),
    pagesCut_iff_nothingLeftOut quiescent.sorted]

end Export

/-! ### A batch in the memtable -/

theorem toList_setBatch (now : Nanos) (clock : FlushClock)
    (sorted : (items.map (·.2.1)).Pairwise (· < ·)) :
    ((referenceRun [.setBatch clock items]).liveAt now).toList.map
        (fun entry => (entry.1, entry.2.1)) = items.map (·.2) := by
  have run : referenceRun [.setBatch clock items] = ByteMap.insertAll ∅
        (items.map (fun item => (item.2.1, (item.2.2, none)))) := by
    rw [ByteMap.insertAll, foldl_map]
    rfl
  have listed : SortedEntries (items.map (·.2)) := by
    rw [SortedEntries, pairwise_map]
    exact pairwise_map.mp sorted
  have keys : ((items.map (fun item =>
      (item.2.1, (item.2.2, (none : Option Nanos))))).map (·.1)).Pairwise (· < ·) := by
    rwa [map_map]
  have map_sorted :
      SortedEntries (((referenceRun [.setBatch clock items]).liveAt now).toList.map
        (fun entry => (entry.1, entry.2.1))) := pairwise_map.mpr (ByteMap.toList_sorted _)
  refine map_sorted.eq_of_mem_iff listed ?_
  rintro ⟨key, value⟩
  simp only [mem_map, Prod.exists, Prod.mk.injEq, ByteMap.mem_toList,
    Reference.liveAt, Std.ExtTreeMap.getElem?_filter', run,
    Option.filter_eq_some_iff, ByteMap.getElem?_insertAll_empty keys]
  constructor
  · rintro ⟨_, _, _, ⟨⟨stamp, found, stored, member, rfl, rfl, rfl⟩, _⟩, rfl, rfl⟩
    exact ⟨stamp, found, stored, member, rfl, rfl⟩
  · rintro ⟨stamp, found, stored, member, rfl, rfl⟩
    exact ⟨found, stored, none, ⟨⟨stamp, found, stored, member, rfl, rfl, rfl⟩, rfl⟩,
      rfl, rfl⟩

theorem setBatch_quiescent {options : EngineOptions} (clock : FlushClock) (cf : String)
    (now : Nanos) (permanent : options.defaultTtl = none)
    (increasing : (items.map (·.1.logged) ++ items.map (·.1.stored)).Pairwise (· < ·))
    (sorted : (items.map (·.2.1)).Pairwise (· < ·))
    (named : ∀ item ∈ items, ttlPrefix.isPrefixOf item.2.1 = false)
    (below : ((putWrites items).map (·.size)).sum < options.writeBufferLimit) :
    (EngineCore.empty.setBatchCf options clock cf items).2.Quiescent
      options.storage (fun _ => now) cf (items.map (·.2)) := by
  have reachable : Reachable options (empty.setBatchCf options clock cf items).2 :=
    ⟨[.setBatch clock cf items], ⟨Std.ExtTreeMap.getElem?_empty, trivial⟩, rfl⟩
  have state := @historyState_run options cf permanent [.setBatch clock items]
    (by simpa [FamilyOp.readings] using increasing) (by
      intro op member key written
      rw [mem_singleton.mp member] at written
      obtain ⟨item, listed, rfl⟩ := mem_map.mp written
      exact named item listed) (by simpa [FamilyOp.size] using below)
  refine ⟨reachable.sound.store, fun _ _ _ => rfl, fun _ limit room => ?_⟩
  rw [← toList_setBatch now clock sorted] at room ⊢
  refine state.scanCf_eq now ?_
  rwa [length_map, Std.ExtTreeMap.length_toList] at room

/-- Keys of two bytes that fill one page, and a key behind them. -/
def fullPageKey (behind : Bytes) (index : Nat) : Bytes :=
  if index < exportPageSize then
    [UInt8.ofNat (index / 256), UInt8.ofNat (index % 256)]
  else behind

def fullPageItems (behind : Bytes) : List (BatchStamp × Bytes × Bytes) :=
  (List.range (exportPageSize + 1)).map (fun index =>
    (⟨Fin.ofNat _ index, Fin.ofNat _ (index + 3000), Vector.replicate 12 0⟩,
      fullPageKey behind index, [1]))

section FullPage

variable {behind : Bytes}

theorem fullPageKey_lt (later : [7, 207] < behind) {first second : Nat}
    (less : first < second) (within : second ≤ exportPageSize) :
    fullPageKey behind first < fullPageKey behind second := by
  rw [exportPageSize] at within
  rw [fullPageKey, fullPageKey, exportPageSize, if_pos (by omega)]
  split
  · simp only [cons_lt_cons_iff, UInt8.lt_iff_toNat_lt, ← UInt8.toNat_inj,
      UInt8.toNat_ofNat']
    omega
  · refine lt_of_le_of_lt ?_ later
    rw [← not_lt]
    simp only [cons_lt_cons_iff, not_lt_nil, UInt8.lt_iff_toNat_lt, ← UInt8.toNat_inj,
      UInt8.toNat_ofNat', UInt8.toNat_ofNat, and_false, or_false]
    omega

theorem length_fullPageKey (short : behind.length ≤ 3) (index : Nat) :
    (fullPageKey behind index).length ≤ 3 := by
  rw [fullPageKey]
  split
  · simp
  · exact short

theorem fullPage_increasing : ((fullPageItems behind).map (·.1.logged) ++
      (fullPageItems behind).map (·.1.stored)).Pairwise (· < ·) := by
  have small : ∀ first second : Nat, first < second → second < 10000 →
      (Fin.ofNat (2 ^ 128) first : Nanos) < Fin.ofNat (2 ^ 128) second := by
    intro first second less within
    rw [Fin.lt_def, Fin.val_ofNat, Fin.val_ofNat]
    omega
  rw [fullPageItems, map_map, map_map, pairwise_append, pairwise_map, pairwise_map]
  refine ⟨?_, ?_, ?_⟩
  · refine pairwise_lt_range.imp_of_mem ?_
    intro first second _ member less
    rw [mem_range, exportPageSize] at member
    exact small _ _ less (by omega)
  · refine pairwise_lt_range.imp_of_mem ?_
    intro first second _ member less
    rw [mem_range, exportPageSize] at member
    exact small _ _ (by omega) (by omega)
  · intro logged first stored second
    obtain ⟨index, member, rfl⟩ := mem_map.mp first
    obtain ⟨other, member', rfl⟩ := mem_map.mp second
    rw [mem_range, exportPageSize] at member member'
    exact small _ _ (by omega) (by omega)

/-- An engine whose rows fill a page, with one key more. -/
def fullPage (behind : Bytes) : EngineCore :=
  (EngineCore.empty.setBatchCf .default ⟨9000, fun _ => 9000⟩ "default"
    (fullPageItems behind)).2

theorem fullPage_quiescent (later : [7, 207] < behind) (short : behind.length ≤ 3) :
    (fullPage behind).Quiescent EngineOptions.default.storage (fun _ => 10000)
      "default" ((fullPageItems behind).map (·.2)) := by
  rw [fullPage]
  apply setBatch_quiescent _ _ _ rfl fullPage_increasing
  · rw [fullPageItems, map_map, pairwise_map]
    refine pairwise_lt_range.imp_of_mem ?_
    intro first second _ member less
    exact fullPageKey_lt later less (by simpa using member)
  · intro item member
    obtain ⟨index, _, rfl⟩ := mem_map.mp member
    rw [Bool.eq_false_iff, ne_eq, isPrefixOf_iff_prefix]
    intro hidden
    have longer := hidden.length_le.trans (length_fullPageKey short index)
    exact absurd longer (by decide)
  · have sizes : ∀ size ∈ (putWrites (fullPageItems behind)).map (·.size), size ≤ 4 := by
      intro size member
      rw [putWrites, fullPageItems, map_map, map_map] at member
      obtain ⟨index, _, rfl⟩ := mem_map.mp member
      exact Nat.succ_le_succ (length_fullPageKey short index)
    have total := sum_le_card_nsmul _ 4 sizes
    rw [length_map, putWrites, length_map, fullPageItems, length_map, length_range] at total
    exact total.trans_lt (by decide)

theorem fullPage_nothingLeftOut_iff :
    NothingLeftOut ((fullPageItems behind).map (·.2)) ↔ ¬ LeftOut [7, 207] behind := by
  have rows : (fullPageItems behind).map (·.2) =
      (List.range exportPageSize).map (fun index => (fullPageKey behind index, [1])) ++
        [(behind, [1])] := by
    have last : fullPageKey behind exportPageSize = behind := if_neg (Nat.lt_irrefl _)
    rw [fullPageItems, map_map, range_succ, map_append, map_singleton,
      Function.comp_apply, last]
    rfl
  have length : ((List.range exportPageSize).map
      (fun index => (fullPageKey behind index, ([1] : Bytes)))).length =
        exportPageSize := by
    rw [length_map, length_range]
  have ends : (((fullPageItems behind).map (·.2)).take
      ((0 + 1) * exportPageSize)).getLast? = some ([7, 207], [1]) := by
    rw [rows, Nat.one_mul, take_append_of_le_length length.ge,
      take_of_length_le length.le, List.getLast?_map, List.getLast?_range]
    rfl
  have rest : ((fullPageItems behind).map (·.2)).drop ((0 + 1) * exportPageSize) =
      [(behind, [1])] := by
    rw [rows, Nat.one_mul, drop_append_of_le_length length.ge,
      drop_of_length_le length.le, nil_append]
  constructor
  · intro kept
    have none_behind := (kept 0 ([7, 207], [1]) (by
      rw [rows]; simp) ends).2
    rw [rest] at none_behind
    exact none_behind _ mem_cons_self
  · intro kept page last within ends'
    -- there is one full page
    obtain rfl : page = 0 := by
      rw [rows, length_append, length, length_singleton, exportPageSize] at within
      omega
    rw [ends] at ends'
    cases ends'
    refine ⟨⟨7, mem_cons_self, by decide⟩, fun row inside => ?_⟩
    rw [rest] at inside
    rw [mem_singleton.mp inside]
    exact kept

end FullPage

/-- The visitor of an export of a family at rest is called once for every row
that a scan lists, in increasing order, just if no page leaves a row out. -/
theorem export_visits_every_row_iff {config : StorageConfig} {clock : Nat → Nanos}
    {cf : String} {rows : List (Bytes × Bytes)} {state : Clocked}
    (quiescent : state.core.Quiescent config clock cf rows) :
    ExportsRows clock cf state rows ↔ NothingLeftOut rows :=
  exportsRows_iff quiescent

/-- A full page and the key behind it, which does not extend the last key of
the page. -/
theorem export_visits_second_page :
    ExportsRows (fun _ => 10000) "default" ⟨fullPage [8], 0⟩
      ((fullPageItems [8]).map (·.2)) := by
  have quiescent := @fullPage_quiescent [8] (by decide) (by decide)
  have exports : ∀ (core : EngineCore) rows,
      core.Quiescent EngineOptions.default.storage (fun _ => 10000) "default" rows →
      (ExportsRows (fun _ => 10000) "default" ⟨core, 0⟩ rows ↔ NothingLeftOut rows) := by
    intro core rows quiescent
    exact @export_visits_every_row_iff _ _ _ _ ⟨core, 0⟩ quiescent
  have below := @lt_incrementBytes_iff [8] [7, 207]
    ⟨7, mem_cons_self, by decide⟩ (by decide)
  exact (exports _ _ quiescent).mpr
    (fullPage_nothingLeftOut_iff.mpr (below.not.mp (by decide)))

/-- The key behind a full page that extends its last key is not exported. -/
theorem export_misses_extension_of_page_end :
    (fullPage [7, 207, 0]).Quiescent EngineOptions.default.storage (fun _ => 10000)
        "default" ((fullPageItems [7, 207, 0]).map (·.2)) ∧
      ¬ ExportsRows (fun _ => 10000) "default" ⟨fullPage [7, 207, 0], 0⟩
        ((fullPageItems [7, 207, 0]).map (·.2)) := by
  have quiescent := @fullPage_quiescent [7, 207, 0] (by decide) (by decide)
  have exports : ∀ (core : EngineCore) rows,
      core.Quiescent EngineOptions.default.storage (fun _ => 10000) "default" rows →
      (ExportsRows (fun _ => 10000) "default" ⟨core, 0⟩ rows ↔ NothingLeftOut rows) := by
    intro core rows quiescent
    exact @exportsRows_iff _ _ _ _ ⟨core, 0⟩ quiescent
  refine ⟨quiescent, fun exported => ?_⟩
  exact fullPage_nothingLeftOut_iff.mp ((exports _ _ quiescent).mp exported)
    (Or.inl ⟨[0], rfl⟩)

end ApexStore
