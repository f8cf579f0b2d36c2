import ApexStore.Core.Iterators

/-!
# Draining a merge yields the newest-wins union

`Wins heap key payload` says that `payload` is the version of `key` held by the
lowest-indexed source of the heap that has the key at all.  One `next` step
removes exactly the yielded key from this relation, so a drained iterator lists
every key once, in increasing order, with its winning version.
-/

namespace ApexStore

open List HeapEntry

variable {α : Type} {heap : List (HeapEntry α)} {top entry : HeapEntry α}

def SortedEntries (entries : List (Bytes × α)) : Prop :=
  entries.Pairwise (fun left right => left.1 < right.1)

def HeapEntry.Has (entry : HeapEntry α) (key : Bytes) : Prop :=
  ∃ payload, (key, payload) ∈ entry.contents

/-- The version of `key` that a merge of the heap has to yield. -/
def Wins (heap : List (HeapEntry α)) (key : Bytes) (payload : α) : Prop :=
  ∃ entry ∈ heap, (key, payload) ∈ entry.contents ∧
    ∀ other ∈ heap, other.Has key → entry.index ≤ other.index

/-- The invariant of the merge heap. -/
structure HeapOk (heap : List (HeapEntry α)) : Prop where
  ordered : heap.Pairwise HeapEntry.Before
  sorted : ∀ entry ∈ heap, SortedEntries entry.contents
  distinct : heap.Pairwise (fun left right => left.index ≠ right.index)

theorem HeapEntry.ofList_contents {index : Nat} {source : List (Bytes × α)}
    (built : HeapEntry.ofList index source = some entry) :
    entry.contents = source ∧ entry.index = index := by
  cases source with
  | nil => cases built
  | cons head tail =>
    cases built
    exact ⟨rfl, rfl⟩

theorem mem_pushValid {next : Option (HeapEntry α)} :
    entry ∈ pushValid next heap ↔ next = some entry ∨ entry ∈ heap := by
  cases next with
  | none => simp [pushValid]
  | some pushed => simp [pushValid, eq_comm]

theorem HeapOk.pushValid {next : Option (HeapEntry α)} (ok : HeapOk heap)
    (sorted : ∀ entry, next = some entry → SortedEntries entry.contents)
    (fresh : ∀ entry, next = some entry → ∀ other ∈ heap, entry.index ≠ other.index) :
    HeapOk (pushValid next heap) := by
  cases next with
  | none => exact ok
  | some pushed =>
    refine ⟨ok.ordered.orderedInsert pushed heap, ?_, ?_⟩
    · intro entry member
      rcases mem_pushValid.mp member with same | old
      · exact sorted entry same
      · exact ok.sorted entry old
    · have permutation := perm_orderedInsert HeapEntry.Before pushed heap
      refine (permutation.pairwise_iff fun {_ _} different =>
        Ne.symm different).mpr ?_
      exact List.Pairwise.cons (fresh pushed rfl) ok.distinct

theorem HeapOk.advance (ok : HeapOk (top :: heap)) :
    HeapOk (ApexStore.pushValid top.next heap) := by
  have tailOk : HeapOk heap := ⟨(pairwise_cons.mp ok.ordered).2,
      (forall_mem_cons.mp ok.sorted).2,
      (pairwise_cons.mp ok.distinct).2⟩
  have topSorted := ok.sorted top mem_cons_self
  apply tailOk.pushValid
  · intro entry built
    rw [(ofList_contents built).1]
    exact (pairwise_cons.mp topSorted).2
  · intro entry built other member
    rw [(ofList_contents built).2]
    exact (pairwise_cons.mp ok.distinct).1 other member

variable {key : Bytes}

theorem contents_next_of_ne (different : key ≠ top.key) (payload : α) :
    (key, payload) ∈ top.contents ↔
      ∃ entry, top.next = some entry ∧ (key, payload) ∈ entry.contents := by
  have skipped : (key, payload) ∈ top.contents ↔ (key, payload) ∈ top.rest := by
    simp [HeapEntry.contents, different]
  rw [skipped]
  cases rest : top.rest with
  | nil => simp [HeapEntry.next, HeapEntry.ofList, rest]
  | cons head tail =>
    simp [HeapEntry.next, HeapEntry.ofList, rest, HeapEntry.contents, Prod.ext_iff]

private theorem next_index {top entry : HeapEntry α}
    (built : top.next = some entry) :
    entry.index = top.index := (HeapEntry.ofList_contents built).2

theorem wins_advance (different : key ≠ top.key) (payload : α) :
    Wins (pushValid top.next heap) key payload ↔
      Wins (top :: heap) key payload := by
  have hasTop : top.Has key ↔ ∃ entry, top.next = some entry ∧ entry.Has key := by
    constructor
    · rintro ⟨value, member⟩
      obtain ⟨entry, built, inside⟩ := (contents_next_of_ne different value).mp member
      exact ⟨entry, built, value, inside⟩
    · rintro ⟨entry, built, value, inside⟩
      exact ⟨value, (contents_next_of_ne different value).mpr ⟨entry, built, inside⟩⟩
  constructor
  · rintro ⟨entry, member, holds, least⟩
    -- the winner is either the advanced top entry or an untouched one
    have leastAll : ∀ other ∈ top :: heap, other.Has key → entry.index ≤ other.index := by
      intro other otherMember otherHas
      rcases mem_cons.mp otherMember with same | old
      · subst other
        obtain ⟨advanced, built, advancedHas⟩ := hasTop.mp otherHas
        have bound := least advanced (mem_pushValid.mpr (.inl built)) advancedHas
        rwa [next_index built] at bound
      · exact least other (mem_pushValid.mpr (.inr old)) otherHas
    rcases mem_pushValid.mp member with built | old
    · refine ⟨top, mem_cons_self, ?_, ?_⟩
      · exact (contents_next_of_ne different payload).mpr ⟨entry, built, holds⟩
      · rwa [next_index built] at leastAll
    · exact ⟨entry, mem_cons_of_mem _ old, holds, leastAll⟩
  · rintro ⟨entry, member, holds, least⟩
    have leastAll : ∀ other ∈ pushValid top.next heap, other.Has key →
        entry.index ≤ other.index := by
      intro other otherMember otherHas
      rcases mem_pushValid.mp otherMember with built | old
      · rw [next_index built]
        exact least top mem_cons_self (hasTop.mpr ⟨other, built, otherHas⟩)
      · exact least other (mem_cons_of_mem _ old) otherHas
    rcases mem_cons.mp member with same | old
    · subst entry
      obtain ⟨advanced, built, inside⟩ := (contents_next_of_ne different payload).mp holds
      refine ⟨advanced, mem_pushValid.mpr (.inl built), inside, ?_⟩
      rwa [next_index built]
    · exact ⟨entry, mem_pushValid.mpr (.inr old), holds, leastAll⟩

theorem HeapOk.top_le (ok : HeapOk (top :: heap)) (member : entry ∈ top :: heap)
    {payload : α} (holds : (key, payload) ∈ entry.contents) : top.key ≤ key := by
  have headLe : top.key ≤ entry.key := by
    rcases mem_cons.mp member with same | old
    · rw [same]
    · exact ((pairwise_cons.mp ok.ordered).1 entry old).key_le
  rcases mem_cons.mp holds with first | later
  · cases first
    exact headLe
  · have above := (pairwise_cons.mp (ok.sorted entry member)).1 _ later
    exact headLe.trans above.le

theorem HeapOk.wins_top (ok : HeapOk (top :: heap)) (payload : α) :
    Wins (top :: heap) top.key payload ↔ payload = top.payload := by
  have least : ∀ other ∈ top :: heap, other.Has top.key → top.index ≤ other.index := by
    rintro other member ⟨value, holds⟩
    rcases mem_cons.mp member with same | old
    · rw [same]
    · rcases (pairwise_cons.mp ok.ordered).1 other old with less | ⟨_, low⟩
      · -- every key of `other` is at least its head, which is above `top.key`
        exfalso
        rcases mem_cons.mp holds with first | later
        · have sameKey : top.key = other.key := congrArg Prod.fst first
          exact less.ne sameKey
        · have above := (pairwise_cons.mp (ok.sorted other member)).1 _ later
          exact lt_asymm less above
      · exact low
  constructor
  · rintro ⟨entry, member, holds, bound⟩
    have sameIndex : entry.index = top.index := by
      apply Nat.le_antisymm
      · exact bound top mem_cons_self ⟨top.payload, mem_cons_self⟩
      · exact least entry member ⟨payload, holds⟩
    have same : entry = top := by
      rcases mem_cons.mp member with same | old
      · exact same
      · exact absurd sameIndex.symm ((pairwise_cons.mp ok.distinct).1 entry old)
    subst entry
    rcases mem_cons.mp holds with first | later
    · cases first
      rfl
    · have above := (pairwise_cons.mp (ok.sorted top member)).1 _ later
      exact absurd above (lt_irrefl _)
  · rintro rfl
    exact ⟨top, mem_cons_self, mem_cons_self, least⟩

variable {currentKey : Option Bytes}

theorem HeapOk.skipDuplicates (ok : HeapOk heap) :
    HeapOk (skipDuplicates currentKey heap) := by
  fun_induction ApexStore.skipDuplicates currentKey heap with
  | case1 => exact ok
  | case2 top heap same ih => exact ih ok.advance
  | case3 => exact ok

theorem wins_skipDuplicates (different : currentKey ≠ some key) (payload : α) :
    Wins (skipDuplicates currentKey heap) key payload ↔ Wins heap key payload := by
  fun_induction skipDuplicates currentKey heap with
  | case1 => exact Iff.rfl
  | case2 top heap same ih =>
    have other : key ≠ top.key := by
      intro equality
      exact different (equality ▸ same)
    rw [ih, wins_advance other]
  | case3 => exact Iff.rfl

theorem not_wins_skipDuplicates {current : Bytes} (ok : HeapOk heap)
    (bound : ∀ key payload, Wins heap key payload → current ≤ key) (payload : α) :
    ¬ Wins (skipDuplicates (some current) heap) current payload := by
  fun_induction skipDuplicates (some current) heap with
  | case1 =>
    rintro ⟨entry, member, _⟩
    cases member
  | case2 top heap same ih =>
    apply ih ok.advance
    intro key value wins
    by_cases equality : key = top.key
    · rw [equality]
      exact (Option.some.inj same).le
    · exact bound key value ((wins_advance equality value).mp wins)
  | case3 top heap different =>
    rintro ⟨entry, member, holds, _⟩
    have low := ok.top_le member holds
    have high := bound top.key top.payload ((ok.wins_top _).mpr rfl)
    exact different (congrArg some (le_antisymm high low))

namespace MergeIterator

variable {iter : MergeIterator α}

theorem heapOk_next (ok : HeapOk iter.heap) : HeapOk iter.next.heap := by
  unfold next
  cases valid : iter.heap with
  | nil =>
    rw [valid] at ok
    exact ok.skipDuplicates
  | cons top heap =>
    rw [valid] at ok
    exact ok.advance.skipDuplicates

theorem wins_next (valid : iter.heap = top :: heap) (ok : HeapOk iter.heap)
    (key : Bytes) (payload : α) : Wins iter.next.heap key payload ↔
      key ≠ top.key ∧ Wins iter.heap key payload := by
  rw [valid] at ok
  simp only [next, valid]
  by_cases equality : key = top.key
  · subst equality
    simp only [ne_eq, not_true_eq_false, false_and, iff_false]
    apply not_wins_skipDuplicates ok.advance
    intro other value wins
    by_cases same : other = top.key
    · exact same.ge
    · obtain ⟨entry, member, holds, _⟩ := (wins_advance same value).mp wins
      exact ok.top_le member holds
  · have different : some top.key ≠ some key := by
      intro same
      exact equality (Option.some.inj same).symm
    rw [wins_skipDuplicates different, wins_advance equality]
    simp [equality]

theorem mem_drain (ok : HeapOk iter.heap) (key : Bytes) (payload : α) :
    (key, payload) ∈ iter.drain ↔ Wins iter.heap key payload := by
  fun_induction drain iter with
  | case1 iter valid => simp [valid, Wins]
  | case2 iter top heap valid ih =>
    rw [mem_cons, ih (heapOk_next ok), wins_next valid ok]
    by_cases equality : key = top.key
    · subst equality
      rw [valid] at ok ⊢
      simp [ok.wins_top]
    · simp [equality]

theorem drain_sorted (ok : HeapOk iter.heap) :
    SortedEntries iter.drain := by
  fun_induction drain iter with
  | case1 => exact List.Pairwise.nil
  | case2 iter top heap valid ih =>
    refine List.Pairwise.cons ?_ (ih (heapOk_next ok))
    rintro ⟨key, payload⟩ member
    have wins := (mem_drain (heapOk_next ok) key payload).mp member
    obtain ⟨different, entry, inHeap, holds, _⟩ := (wins_next valid ok key payload).mp wins
    rw [valid] at ok inHeap
    exact lt_of_le_of_ne (ok.top_le inHeap holds) (Ne.symm different)

theorem mem_foldl_push (sources : List (List (Bytes × α) × Nat))
    (heap : List (HeapEntry α)) (entry : HeapEntry α) : entry ∈ sources.foldl
        (fun heap source => pushValid (HeapEntry.ofList source.2 source.1) heap)
        heap ↔ entry ∈ heap ∨
        ∃ source ∈ sources, HeapEntry.ofList source.2 source.1 = some entry := by
  induction sources generalizing heap with
  | nil => simp
  | cons source sources ih =>
    rw [foldl_cons, ih, mem_pushValid]
    simp only [mem_cons, exists_eq_or_imp]
    tauto

theorem heapOk_foldl_push (sources : List (List (Bytes × α) × Nat))
    (heap : List (HeapEntry α))
    (ok : HeapOk heap) (sorted : ∀ source ∈ sources, SortedEntries source.1)
    (distinct : sources.Pairwise (fun left right => left.2 ≠ right.2))
    (fresh : ∀ source ∈ sources, ∀ entry ∈ heap, source.2 ≠ entry.index) :
    HeapOk (sources.foldl
      (fun heap source => pushValid
        (HeapEntry.ofList source.2 source.1) heap) heap) := by
  induction sources generalizing heap with
  | nil => exact ok
  | cons source sources ih =>
    obtain ⟨headDistinct, tailDistinct⟩ := pairwise_cons.mp distinct
    apply ih
    · apply ok.pushValid
      · intro entry built
        rw [(ofList_contents built).1]
        exact sorted source mem_cons_self
      · intro entry built other member
        rw [(ofList_contents built).2]
        exact fresh source mem_cons_self other member
    · exact (forall_mem_cons.mp sorted).2
    · exact tailDistinct
    · intro other member entry inHeap
      rcases mem_pushValid.mp inHeap with built | old
      · rw [(ofList_contents built).2]
        exact (headDistinct other member).symm
      · exact fresh other (mem_cons_of_mem _ member) entry old

theorem skipDuplicates_none (heap : List (HeapEntry α)) :
    skipDuplicates none heap = heap := by
  cases heap <;> simp [skipDuplicates]

theorem mem_heap_new (iters : List (List (Bytes × α))) (entry : HeapEntry α) :
    entry ∈ (new iters).heap ↔ iters[entry.index]? = some entry.contents := by
  simp only [new, skipDuplicates_none, mem_foldl_push, not_mem_nil, false_or]
  constructor
  · rintro ⟨⟨source, index⟩, member, built⟩
    obtain ⟨contents, sameIndex⟩ := ofList_contents built
    have lookup := mem_zipIdx_iff_getElem?.mp member
    rw [sameIndex, contents]
    exact lookup
  · intro lookup
    exact ⟨(entry.contents, entry.index), mem_zipIdx_iff_getElem?.mpr lookup, rfl⟩

theorem heapOk_new (iters : List (List (Bytes × α)))
    (sorted : ∀ source ∈ iters, SortedEntries source) : HeapOk (new iters).heap := by
  simp only [new, skipDuplicates_none]
  apply heapOk_foldl_push
  · exact ⟨List.Pairwise.nil, by simp, List.Pairwise.nil⟩
  · rintro ⟨source, index⟩ member
    have lookup := mem_zipIdx_iff_getElem?.mp member
    exact sorted source (mem_of_getElem? lookup)
  · have distinct := nodup_zipIdx_map_snd iters
    rw [List.Nodup, pairwise_map] at distinct
    exact distinct
  · intro source _ entry member
    cases member

theorem drain_new_sorted (sources : List (ByteMap α)) :
    SortedEntries (new (sources.map (·.toList))).drain := by
  apply drain_sorted
  apply heapOk_new
  intro source member
  obtain ⟨entries, _, rfl⟩ := mem_map.mp member
  exact entries.toList_sorted

theorem mem_heap_of_source {sources : List (ByteMap α)} {index : Nat}
    {source : ByteMap α}
    (at_index : sources[index]? = some source) {key : Bytes} {payload : α}
    (found : source[key]? = some payload) :
    ∃ entry ∈ (new (sources.map (·.toList))).heap,
      entry.index = index ∧ (key, payload) ∈ entry.contents := by
  have inside := (ByteMap.mem_toList source key payload).mpr found
  cases list : source.toList with
  | nil =>
    rw [list] at inside
    cases inside
  | cons head tail =>
    rw [list] at inside
    refine ⟨⟨head.1, head.2, tail, index⟩, ?_, rfl, inside⟩
    rw [mem_heap_new, List.getElem?_map, at_index]
    simp [HeapEntry.contents, list]

/-- Draining sorted sources yields, for every key, the version of the first
source that has the key. -/
theorem mem_drain_new (sources : List (ByteMap α)) (key : Bytes) (payload : α) :
    (key, payload) ∈ (new (sources.map (·.toList))).drain ↔
      sources.findSome? (·[key]?) = some payload := by
  have sorted : ∀ source ∈ sources.map (·.toList), SortedEntries source := by
    intro source member
    obtain ⟨entries, _, rfl⟩ := mem_map.mp member
    exact entries.toList_sorted
  rw [mem_drain (heapOk_new _ sorted), List.findSome?_eq_some_iff]
  constructor
  · rintro ⟨entry, member, holds, least⟩
    rw [mem_heap_new, List.getElem?_map, Option.map_eq_some_iff] at member
    obtain ⟨source, lookup, contents⟩ := member
    obtain ⟨inside, sourceEq⟩ := List.getElem?_eq_some_iff.mp lookup
    refine ⟨sources.take entry.index, source, sources.drop (entry.index + 1), ?_, ?_, ?_⟩
    · rw [← sourceEq, cons_getElem_drop_succ, take_append_drop]
    · rw [← contents] at holds
      exact (ByteMap.mem_toList source key payload).mp holds
    · intro earlier earlierMember
      obtain ⟨index, below, earlierEq⟩ := mem_iff_getElem.mp earlierMember
      rw [length_take] at below
      rw [getElem_take] at earlierEq
      by_contra present
      obtain ⟨value, found⟩ := Option.ne_none_iff_exists'.mp present
      obtain ⟨other, otherMember, rfl, held⟩ :=
        mem_heap_of_source (List.getElem?_eq_some_iff.mpr ⟨by omega, earlierEq⟩) found
      have bound := least other otherMember ⟨value, held⟩
      omega
  · rintro ⟨before, source, after, split, found, absent⟩
    obtain ⟨entry, member, index, held⟩ :=
      mem_heap_of_source (show sources[before.length]? = some source by simp [split]) found
    refine ⟨entry, member, held, ?_⟩
    rintro other otherMember ⟨value, holds⟩
    by_contra above
    have below : other.index < before.length := by omega
    rw [mem_heap_new, split, List.getElem?_map,
      List.getElem?_append_left below, Option.map_eq_some_iff] at otherMember
    obtain ⟨earlier, lookup, contents⟩ := otherMember
    have missing := absent earlier (mem_of_getElem? lookup)
    rw [← contents] at holds
    rw [(ByteMap.mem_toList earlier key value).mp holds] at missing
    cases missing

end MergeIterator

end ApexStore
