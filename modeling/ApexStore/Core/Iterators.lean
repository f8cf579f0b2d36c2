import ApexStore.Core.LogRecord

/-!
# The k-way merge iterator

`MergeIterator` walks several sorted sources at once and, when a key occurs in
more than one of them, yields the version of the source with the lowest index.
A `BinaryHeap` is represented by its entries in pop order, so `peek` is the
head of the list and `push` an ordered insertion; source indices are distinct,
hence the pop order is determined.
-/

namespace ApexStore

variable {α : Type}

/-- A source that still has a current entry, with its index among the sources.
An exhausted source cannot be represented: the heap never holds one. -/
structure HeapEntry (α : Type) where
  key : Bytes
  payload : α
  rest : List (Bytes × α)
  index : Nat

namespace HeapEntry

def ofList (index : Nat) : List (Bytes × α) → Option (HeapEntry α)
  | [] => none
  | (key, payload) :: rest => some { key, payload, rest, index }

/-- `iter.next()`, with `none` for an iterator that is no longer valid. -/
def next (entry : HeapEntry α) : Option (HeapEntry α) :=
  ofList entry.index entry.rest

def contents (entry : HeapEntry α) : List (Bytes × α) :=
  (entry.key, entry.payload) :: entry.rest

/-- `iter.seek(target)`: move on while the current key is below the target. -/
def seek (target : Bytes) (entry : HeapEntry α) : Option (HeapEntry α) :=
  ofList entry.index (entry.contents.dropWhile (fun item => decide (item.1 < target)))

/-- The order of `HeapEntry::cmp`, read from the greatest entry down: smaller
keys first, and the lower index first among equal keys. -/
def Before (left right : HeapEntry α) : Prop :=
  left.key < right.key ∨ left.key = right.key ∧ left.index ≤ right.index

instance : DecidableRel (Before (α := α)) := fun left right =>
  inferInstanceAs (Decidable (left.key < right.key ∨
      left.key = right.key ∧ left.index ≤ right.index))

instance : Std.Total (Before (α := α)) where
  total left right := by
    rcases lt_trichotomy left.key right.key with less | same | more
    · exact .inl (.inl less)
    · rcases Nat.le_total left.index right.index with low | high
      · exact .inl (.inr ⟨same, low⟩)
      · exact .inr (.inr ⟨same.symm, high⟩)
    · exact .inr (.inl more)

instance : IsTrans (HeapEntry α) Before where
  trans first second third := by
    rintro (less | ⟨same, low⟩) (less' | ⟨same', low'⟩)
    · exact .inl (less.trans less')
    · exact .inl (same' ▸ less)
    · exact .inl (same ▸ less')
    · exact .inr ⟨same.trans same', low.trans low'⟩

theorem Before.key_le {left right : HeapEntry α} (before : left.Before right) :
    left.key ≤ right.key := by
  rcases before with less | ⟨same, _⟩
  · exact less.le
  · exact same.le

end HeapEntry

/-- `BinaryHeap::push` of an entry that may have become invalid. -/
def pushValid (entry : Option (HeapEntry α)) (heap : List (HeapEntry α)) :
    List (HeapEntry α) :=
  match entry with
  | some entry => heap.orderedInsert HeapEntry.Before entry
  | none => heap

/-- Number of source entries a heap still has to consume. -/
def heapSize (heap : List (HeapEntry α)) : Nat :=
  (heap.map (fun entry => entry.rest.length + 1)).sum

theorem heapSize_orderedInsert (entry : HeapEntry α) (heap : List (HeapEntry α)) :
    heapSize (heap.orderedInsert HeapEntry.Before entry) =
      entry.rest.length + 1 + heapSize heap := by
  unfold heapSize
  have permutation := List.perm_orderedInsert HeapEntry.Before entry heap
  rw [(permutation.map _).sum_eq]
  simp

theorem heapSize_advance (top : HeapEntry α) (heap : List (HeapEntry α)) :
    heapSize (pushValid top.next heap) < heapSize (top :: heap) := by
  have total : heapSize (top :: heap) = top.rest.length + 1 + heapSize heap := by
    simp [heapSize]
  rw [total]
  cases rest : top.rest with
  | nil => simp [pushValid, HeapEntry.next, HeapEntry.ofList, rest]
  | cons head tail =>
    simp [pushValid, HeapEntry.next, HeapEntry.ofList, rest, heapSize_orderedInsert]

/-- Advance every source positioned on the key that was just yielded. -/
def skipDuplicates (currentKey : Option Bytes) :
    List (HeapEntry α) → List (HeapEntry α)
  | [] => []
  | top :: heap =>
    if currentKey = some top.key then
      skipDuplicates currentKey (pushValid top.next heap)
    else
      top :: heap
termination_by heap => heapSize heap
decreasing_by exact heapSize_advance top heap

theorem heapSize_skipDuplicates_le (currentKey : Option Bytes)
    (heap : List (HeapEntry α)) :
    heapSize (skipDuplicates currentKey heap) ≤ heapSize heap := by
  fun_induction skipDuplicates currentKey heap with
  | case1 => exact Nat.le_refl _
  | case2 top heap same ih => exact ih.trans (heapSize_advance top heap).le
  | case3 => exact Nat.le_refl _

structure MergeIterator (α : Type) where
  heap : List (HeapEntry α)
  currentKey : Option Bytes

namespace MergeIterator

def new (iters : List (List (Bytes × α))) : MergeIterator α :=
  let heap := iters.zipIdx.foldl
    (fun heap source => pushValid (HeapEntry.ofList source.2 source.1) heap) []
  { heap := skipDuplicates none heap, currentKey := none }

def next (iter : MergeIterator α) : MergeIterator α :=
  match iter.heap with
  | [] => { iter with heap := skipDuplicates iter.currentKey [] }
  | top :: heap =>
    { heap := skipDuplicates (some top.key) (pushValid top.next heap)
      currentKey := some top.key }

theorem heapSize_next {iter : MergeIterator α} {top : HeapEntry α}
    {heap : List (HeapEntry α)}
    (valid : iter.heap = top :: heap) :
    heapSize iter.next.heap < heapSize iter.heap := by
  simp only [next, valid]
  exact lt_of_le_of_lt (heapSize_skipDuplicates_le _ _) (heapSize_advance top heap)

/-- Every source is moved to the target; those with nothing left drop out. -/
def seek (target : Bytes) (iter : MergeIterator α) : MergeIterator α :=
  let heap := iter.heap.foldl
    (fun heap entry => pushValid (entry.seek target) heap) []
  { heap := skipDuplicates none heap, currentKey := none }

/-- Everything a `while iter.is_valid() { visit; iter.next() }` loop visits. -/
def drain (iter : MergeIterator α) : List (Bytes × α) :=
  match _valid : iter.heap with
  | [] => []
  | top :: _ => (top.key, top.payload) :: drain iter.next
termination_by heapSize iter.heap
decreasing_by exact heapSize_next _valid

end MergeIterator

end ApexStore
