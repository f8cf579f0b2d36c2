import ApexStore.Storage.Sstable

/-!
# Blocks

A builder groups the entries of a file into blocks and notes the first key of
each.  `SstableReader::scan_range` looks up the block to start with among the
first keys, and stops at the first key that lies behind the range.  It returns
the entries within the range (`scanRange_layout`).
-/

namespace ApexStore

open List

/-- The entries of a block, in the order they were added. -/
abbrev Block := List (Bytes × LogRecord)

/-- A block and the first key its metadata give for it. -/
abbrev IndexedBlock := Bytes × Block

namespace Block

def entrySize (entry : Bytes × LogRecord) : Nat :=
  2 + entry.1.length + 2 + entry.2.encode.length

def metadataSize (entries : Nat) : Nat :=
  entries * 4 + 4 + 1

def currentSize (block : Block) : Nat :=
  (block.map entrySize).sum + metadataSize block.length + 4

def add (blockSize : Nat) (block : Block) (entry : Bytes × LogRecord) : Option Block :=
  if blockSize < block.currentSize + entrySize entry + 4 then none
  else some (block ++ [entry])

end Block

namespace SstableBuilder

theorem entryFits_eq_add (config : StorageConfig) (entry : Bytes × LogRecord) :
    entryFits config entry.1 entry.2 =
      (Block.add config.blockSize [] entry).isSome := by
  have total : Block.currentSize [] + Block.entrySize entry + 4 =
      entry.1.length + entry.2.encode.length + 17 := by
    simp only [Block.currentSize, Block.entrySize, Block.metadataSize, map_nil, sum_nil,
      length_nil]
    omega
  rw [entryFits, Block.add, total]
  split <;> simp <;> omega

def flushCurrentBlock : Block → List IndexedBlock
  | [] => []
  | entry :: rest => [(entry.1, entry :: rest)]

/-- The blocks of the entries that follow, given the current block. -/
def layoutFrom (blockSize : Nat) : Block → List (Bytes × LogRecord) → List IndexedBlock
  | current, [] => flushCurrentBlock current
  | current, entry :: rest =>
    match current.add blockSize entry with
    | some block => layoutFrom blockSize block rest
    | none => flushCurrentBlock current ++ layoutFrom blockSize [entry] rest

/-- The blocks that `add` and `finish` write. -/
def layout (blockSize : Nat) (entries : List (Bytes × LogRecord)) :
    List IndexedBlock :=
  layoutFrom blockSize [] entries

/-- Every block is listed under the key of its first entry. -/
def Indexed (blocks : List IndexedBlock) : Prop :=
  ∀ block ∈ blocks, ∃ head rest, block = (head.1, head :: rest)

theorem indexed_flushCurrentBlock (current : Block) :
    Indexed (flushCurrentBlock current) := by
  cases current with
  | nil => nofun
  | cons entry rest =>
    intro block member
    exact ⟨entry, rest, mem_singleton.mp member⟩

theorem flatMap_flushCurrentBlock (current : Block) :
    (flushCurrentBlock current).flatMap (·.2) = current := by
  cases current with
  | nil => rfl
  | cons entry rest => simp [flushCurrentBlock]

theorem layoutFrom_spec (blockSize : Nat) (current : Block)
    (entries : List (Bytes × LogRecord)) :
    (layoutFrom blockSize current entries).flatMap (·.2) = current ++ entries ∧
      Indexed (layoutFrom blockSize current entries) := by
  induction entries generalizing current with
  | nil =>
    rw [layoutFrom, append_nil]
    exact ⟨flatMap_flushCurrentBlock current, indexed_flushCurrentBlock current⟩
  | cons entry entries ih =>
    rw [layoutFrom]
    split
    · next block added =>
      have grown : block = current ++ [entry] := by
        unfold Block.add at added
        split at added
        · cases added
        · exact (Option.some.inj added).symm
      rw [(ih block).1, grown, append_assoc]
      exact ⟨rfl, (ih _).2⟩
    · obtain ⟨entries_eq, indexed⟩ := ih [entry]
      rw [flatMap_append, flatMap_flushCurrentBlock, entries_eq]
      refine ⟨rfl, fun block member => ?_⟩
      rcases mem_append.mp member with first | later
      · exact indexed_flushCurrentBlock current block first
      · exact indexed block later

end SstableBuilder

/-- The bounds of a scan: the lower one belongs to the range, the upper one
does not. -/
def inBounds (lower upper : Option Bytes) (key : Bytes) : Bool :=
  lower.all (fun bound => decide (bound ≤ key)) && upper.all
    (fun bound => decide (key < bound))

theorem inBounds_eq_false_of_upper {lower upper : Option Bytes} {key : Bytes}
    (beyond : upper.any (fun bound => decide (bound ≤ key)) = true)
    {other : Bytes} (above : key ≤ other) : inBounds lower upper other = false := by
  obtain ⟨bound, rfl, le⟩ := (Option.any_eq_true _ _).mp beyond
  have not_lt : ¬ other < bound := not_lt.mpr ((of_decide_eq_true le).trans above)
  simp [inBounds, not_lt]

theorem inBounds_eq_false_of_lower {lower upper : Option Bytes} {key : Bytes}
    (below : lower.any (fun bound => decide (key < bound)) = true)
    {other : Bytes} (less : other ≤ key) : inBounds lower upper other = false := by
  obtain ⟨bound, rfl, lt⟩ := (Option.any_eq_true _ _).mp below
  have not_le : ¬ bound ≤ other := not_le.mpr (less.trans_lt (of_decide_eq_true lt))
  simp [inBounds, not_le]

namespace SstableReader

/-- The loop over the entries of a block. -/
def scanEntries (start stop : Option Bytes) : Block → Block
  | [] => []
  | entry :: rest =>
    if start.any (fun bound => decide (entry.1 < bound)) then
      scanEntries start stop rest
    else if stop.any (fun bound => decide (bound ≤ entry.1)) then []
    else entry :: scanEntries start stop rest

/-- The loop over the blocks. -/
def scanBlocks (start stop : Option Bytes) : List IndexedBlock → Block
  | [] => []
  | block :: rest =>
    if stop.any (fun bound => decide (bound ≤ block.1)) then []
    else scanEntries start stop block.2 ++ scanBlocks start stop rest

/-- The block before the first one that begins behind the lower bound; the
partition point of sorted first keys ends the blocks that do not. -/
def startBlock (start : Option Bytes) (blocks : List IndexedBlock) : Nat :=
  match start with
  | none => 0
  | some bound => (blocks.takeWhile (fun block => decide (block.1 ≤ bound))).length - 1

def scanRange (start stop : Option Bytes) (blocks : List IndexedBlock) : Block :=
  scanBlocks start stop (blocks.drop (startBlock start blocks))

variable {start stop : Option Bytes}

theorem scanEntries_eq {block : Block}
    (sorted : block.Pairwise (fun left right => left.1 < right.1)) :
    scanEntries start stop block =
      block.filter (fun entry => inBounds start stop entry.1) := by
  induction block with
  | nil => rfl
  | cons entry rest ih =>
    rw [pairwise_cons] at sorted
    rw [scanEntries, ih sorted.2]
    by_cases below : start.any (fun bound => decide (entry.1 < bound)) = true
    · rw [if_pos below,
        filter_cons_of_neg (by simp [inBounds_eq_false_of_lower below le_rfl])]
    rw [if_neg below]
    by_cases behind : stop.any (fun bound => decide (bound ≤ entry.1)) = true
    · -- the keys to come are behind the upper bound as well
      rw [if_pos behind, eq_comm, filter_eq_nil_iff]
      intro other member
      rw [inBounds_eq_false_of_upper behind]
      · exact Bool.false_ne_true
      · rcases mem_cons.mp member with rfl | later
        · exact le_rfl
        · exact (sorted.1 other later).le
    · have within : inBounds start stop entry.1 = true := by
        cases start <;> cases stop <;> simp_all [inBounds]
      rw [if_neg behind, filter_cons, if_pos within]

/-- The blocks hold entries in the order of their keys, each block under its
first key. -/
structure Ordered (blocks : List IndexedBlock) : Prop where
  indexed : SstableBuilder.Indexed blocks
  sorted : (blocks.flatMap (·.2)).Pairwise (fun left right => left.1 < right.1)

namespace Ordered

variable {block : IndexedBlock} {blocks : List IndexedBlock}
  {entry : Bytes × LogRecord}

theorem tail (ordered : Ordered (block :: blocks)) : Ordered blocks := by
  refine ⟨fun other member => ordered.indexed other (mem_cons_of_mem _ member), ?_⟩
  have sorted := ordered.sorted
  rw [flatMap_cons, pairwise_append] at sorted
  exact sorted.2.1

theorem first_le (ordered : Ordered (block :: blocks))
    (member : entry ∈ (block :: blocks).flatMap (·.2)) : block.1 ≤ entry.1 := by
  obtain ⟨head, rest, rfl⟩ := ordered.indexed block mem_cons_self
  have sorted := ordered.sorted
  rw [flatMap_cons, cons_append] at sorted member
  rcases mem_cons.mp member with rfl | later
  · exact le_rfl
  · exact ((pairwise_cons.mp sorted).1 entry later).le

theorem lt_next {next : IndexedBlock} (ordered : Ordered (block :: next :: blocks))
    (member : entry ∈ block.2) : entry.1 < next.1 := by
  obtain ⟨head, rest, rfl⟩ := ordered.indexed next (by simp)
  have sorted := ordered.sorted
  rw [flatMap_cons, pairwise_append] at sorted
  exact sorted.2.2 entry member head (by simp)

theorem scanBlocks_eq (ordered : Ordered blocks) : scanBlocks start stop blocks =
    (blocks.flatMap (·.2)).filter (fun entry => inBounds start stop entry.1) := by
  induction blocks with
  | nil => rfl
  | cons block blocks ih =>
    have sorted := ordered.sorted
    rw [flatMap_cons, pairwise_append] at sorted
    rw [scanBlocks]
    by_cases behind : stop.any (fun bound => decide (bound ≤ block.1)) = true
    · rw [if_pos behind, eq_comm, filter_eq_nil_iff]
      intro entry member
      rw [inBounds_eq_false_of_upper behind (ordered.first_le member)]
      exact Bool.false_ne_true
    · rw [if_neg behind, scanEntries_eq sorted.1, ih ordered.tail, flatMap_cons,
        filter_append]

/-- The blocks before the start block hold nothing within the bounds. -/
theorem drop_startBlock (ordered : Ordered blocks) :
    Ordered (blocks.drop (startBlock start blocks)) ∧
      ((blocks.drop (startBlock start blocks)).flatMap (·.2)).filter
          (fun entry => inBounds start stop entry.1) =
        (blocks.flatMap (·.2)).filter (fun entry => inBounds start stop entry.1) := by
  cases start with
  | none => exact ⟨ordered, rfl⟩
  | some bound =>
    induction blocks with
    | nil => exact ⟨ordered, rfl⟩
    | cons block blocks ih =>
      have later := ih ordered.tail
      cases blocks with
      | nil =>
        have first : startBlock (some bound) [block] = 0 := by
          rw [startBlock, takeWhile_cons]
          split <;> rfl
        rw [first]
        exact ⟨ordered, rfl⟩
      | cons next rest =>
        by_cases both : block.1 ≤ bound ∧ next.1 ≤ bound
        · have skipped : startBlock (some bound) (block :: next :: rest) =
              startBlock (some bound) (next :: rest) + 1 := by
            simp [startBlock, both.1, both.2]
          have before : block.2.filter (fun entry => inBounds (some bound) stop entry.1) = [] := by
            rw [filter_eq_nil_iff]
            intro entry member
            have below := (ordered.lt_next member).trans_le both.2
            simp [inBounds, below]
          rw [skipped, drop_succ_cons, flatMap_cons, filter_append, before]
          exact later
        · have first : startBlock (some bound) (block :: next :: rest) = 0 := by
            rw [startBlock, takeWhile_cons]
            split
            · next low =>
              have high : ¬ next.1 ≤ bound := fun low' => both ⟨of_decide_eq_true low, low'⟩
              simp [high]
            · rfl
          rw [first]
          exact ⟨ordered, rfl⟩

end Ordered

theorem scanRange_layout (blockSize : Nat) (start stop : Option Bytes)
    (records : ByteMap LogRecord) :
    scanRange start stop (SstableBuilder.layout blockSize records.toList) =
      records.toList.filter (fun entry => inBounds start stop entry.1) := by
  obtain ⟨entries, indexed⟩ := SstableBuilder.layoutFrom_spec blockSize [] records.toList
  have ordered : Ordered (SstableBuilder.layout blockSize records.toList) := by
    refine ⟨indexed, ?_⟩
    rw [SstableBuilder.layout, entries]
    exact records.toList_sorted
  obtain ⟨dropped, same⟩ := ordered.drop_startBlock
  rw [scanRange, dropped.scanBlocks_eq, same, SstableBuilder.layout, entries]
  rfl

end SstableReader

end ApexStore
