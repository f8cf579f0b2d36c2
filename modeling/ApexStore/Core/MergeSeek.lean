import ApexStore.Core.MergeUnion

/-!
# The merge iterator as a specification

Draining a merge of arbitrary sorted sources lists the newest-wins union of
the sources, and seeking first restricts the list to the keys from the target
on (`merge_iterator_newest_union`).
-/

namespace ApexStore

open List

variable {α : Type}

/-- `payload` is what the source of lowest index that has `key` holds for it. -/
def LowestHolds (iters : List (List (Bytes × α))) (key : Bytes) (payload : α) : Prop :=
  ∃ (index : Nat) (source : List (Bytes × α)), iters[index]? = some source ∧
    (key, payload) ∈ source ∧ ∀ (lower : Nat) (earlier : List (Bytes × α)), lower < index →
      iters[lower]? = some earlier → ∀ other, (key, other) ∉ earlier

theorem SortedEntries.eq_of_mem_iff {first second : List (Bytes × α)}
    (first_sorted : SortedEntries first) (second_sorted : SortedEntries second)
    (same : ∀ entry, entry ∈ first ↔ entry ∈ second) : first = second := by
  have nodup : ∀ {entries : List (Bytes × α)}, SortedEntries entries → entries.Nodup := by
    intro entries sorted
    exact sorted.imp (fun below equal => below.ne (congrArg Prod.fst equal))
  have permutation :=
    (perm_ext_iff_of_nodup (nodup first_sorted) (nodup second_sorted)).mpr same
  apply permutation.eq_of_pairwise _ first_sorted second_sorted
  intro left right _ _ below above
  exact absurd above (lt_asymm below)

theorem mem_dropWhile_iff {entries : List (Bytes × α)}
    (sorted : SortedEntries entries) (target : Bytes) (entry : Bytes × α) :
    entry ∈ entries.dropWhile (fun item => decide (item.1 < target)) ↔
      entry ∈ entries ∧ target ≤ entry.1 := by
  induction entries with
  | nil => simp
  | cons head tail ih =>
    obtain ⟨above, tail_sorted⟩ := pairwise_cons.mp sorted
    by_cases below : head.1 < target
    · rw [dropWhile_cons_of_pos (by simpa using below), ih tail_sorted, mem_cons]
      constructor
      · rintro ⟨member, bound⟩
        exact ⟨.inr member, bound⟩
      · rintro ⟨same | member, bound⟩
        · rw [same] at bound
          exact absurd below (not_lt.mpr bound)
        · exact ⟨member, bound⟩
    · rw [dropWhile_cons_of_neg (by simpa using below)]
      constructor
      · intro member
        refine ⟨member, ?_⟩
        rcases mem_cons.mp member with same | later
        · rw [same]
          exact not_lt.mp below
        · exact (not_lt.mp below).trans (above entry later).le
      · exact fun present => present.1

theorem SortedEntries.dropWhile {entries : List (Bytes × α)}
    (sorted : SortedEntries entries)
    (target : Bytes) :
    SortedEntries (entries.dropWhile (fun item => decide (item.1 < target))) :=
  List.Pairwise.sublist (dropWhile_sublist _) sorted

namespace MergeIterator

theorem wins_new (iters : List (List (Bytes × α))) (key : Bytes) (payload : α) :
    Wins (new iters).heap key payload ↔ LowestHolds iters key payload := by
  constructor
  · rintro ⟨entry, member, holds, least⟩
    refine ⟨entry.index, entry.contents, (mem_heap_new iters entry).mp member, holds, ?_⟩
    intro lower earlier below lookup other present
    obtain ⟨found, built, index⟩ : ∃ found : HeapEntry α, found.contents = earlier ∧
          found.index = lower := by
      cases earlier with
      | nil => cases present
      | cons head tail => exact ⟨⟨head.1, head.2, tail, lower⟩, rfl, rfl⟩
    have listed : found ∈ (new iters).heap := by
      rw [mem_heap_new, index, built, lookup]
    have bound := least found listed ⟨other, by rw [built]; exact present⟩
    omega
  · rintro ⟨index, source, lookup, holds, absent⟩
    obtain ⟨entry, built, at_index⟩ : ∃ entry : HeapEntry α, entry.contents = source ∧
          entry.index = index := by
      cases source with
      | nil => cases holds
      | cons head tail => exact ⟨⟨head.1, head.2, tail, index⟩, rfl, rfl⟩
    refine ⟨entry, ?_, ?_, ?_⟩
    · rw [mem_heap_new, at_index, built, lookup]
    · rw [built]
      exact holds
    · rintro other member ⟨value, present⟩
      rw [mem_heap_new] at member
      by_contra above
      exact absent other.index other.contents (by omega) member value present

theorem heap_seek (target : Bytes) (iter : MergeIterator α) : (iter.seek target).heap =
      (iter.heap.map (fun entry => (entry.contents.dropWhile
        (fun item => decide (item.1 < target)), entry.index))).foldl
          (fun heap source =>
            pushValid (HeapEntry.ofList source.2 source.1) heap) [] := by
  rw [seek, skipDuplicates_none, foldl_map]
  rfl

theorem heapOk_seek {iter : MergeIterator α} (ok : HeapOk iter.heap)
    (target : Bytes) : HeapOk (iter.seek target).heap := by
  rw [heap_seek]
  apply heapOk_foldl_push
  · exact ⟨List.Pairwise.nil, by simp, List.Pairwise.nil⟩
  · intro source member
    obtain ⟨entry, listed, rfl⟩ := mem_map.mp member
    exact (ok.sorted entry listed).dropWhile target
  · rw [pairwise_map]
    exact ok.distinct
  · intro source _ entry member
    cases member

theorem mem_heap_seek {iter : MergeIterator α} {target : Bytes}
    {entry : HeapEntry α} : entry ∈ (iter.seek target).heap ↔
      ∃ source ∈ iter.heap, source.seek target = some entry := by
  rw [heap_seek, mem_foldl_push]
  simp [HeapEntry.seek]

theorem wins_seek {iter : MergeIterator α} (ok : HeapOk iter.heap)
    (target key : Bytes) (payload : α) : Wins (iter.seek target).heap key payload ↔
      target ≤ key ∧ Wins iter.heap key payload := by
  have kept : ∀ source ∈ iter.heap, ∀ value, (key, value) ∈ source.contents → target ≤ key →
      ∃ entry, source.seek target = some entry ∧
        (key, value) ∈ entry.contents ∧ entry.index = source.index := by
    intro source listed value holds bound
    have remains := (mem_dropWhile_iff (ok.sorted source listed) target
      (key, value)).mpr ⟨holds, bound⟩
    cases rest : source.contents.dropWhile (fun item => decide (item.1 < target)) with
    | nil =>
      rw [rest] at remains
      cases remains
    | cons head tail =>
      refine ⟨⟨head.1, head.2, tail, source.index⟩, ?_, ?_, rfl⟩
      · rw [HeapEntry.seek, rest]
        rfl
      · rw [rest] at remains
        exact remains
  have origin : ∀ source ∈ iter.heap, ∀ entry, source.seek target = some entry → ∀ value,
      (key, value) ∈ entry.contents → (key, value) ∈ source.contents ∧ target ≤ key ∧
        entry.index = source.index := by
    intro source listed entry built value holds
    obtain ⟨contents, index⟩ := HeapEntry.ofList_contents built
    rw [contents] at holds
    have remains :=
      (mem_dropWhile_iff (ok.sorted source listed) target (key, value)).mp holds
    exact ⟨remains.1, remains.2, index⟩
  constructor
  · rintro ⟨entry, member, holds, least⟩
    obtain ⟨source, listed, built⟩ := mem_heap_seek.mp member
    obtain ⟨in_source, bound, index⟩ := origin source listed entry built payload holds
    refine ⟨bound, source, listed, in_source, ?_⟩
    rintro other other_listed ⟨value, other_holds⟩
    obtain ⟨moved, moved_built, moved_holds, moved_index⟩ :=
      kept other other_listed value other_holds bound
    have order := least moved (mem_heap_seek.mpr ⟨other, other_listed, moved_built⟩)
      ⟨value, moved_holds⟩
    rwa [index, moved_index] at order
  · rintro ⟨bound, source, listed, holds, least⟩
    obtain ⟨entry, built, entry_holds, index⟩ := kept source listed payload holds bound
    refine ⟨entry, mem_heap_seek.mpr ⟨source, listed, built⟩, entry_holds, ?_⟩
    rintro other member ⟨value, other_holds⟩
    obtain ⟨origin_source, origin_listed, origin_built⟩ := mem_heap_seek.mp member
    obtain ⟨in_source, _, origin_index⟩ :=
      origin origin_source origin_listed other origin_built value other_holds
    rw [index, origin_index]
    exact least origin_source origin_listed ⟨value, in_source⟩

end MergeIterator

open MergeIterator in
/-- A drained merge lists every key of its sources once, in increasing order,
with what the first source that has the key holds for it; after a seek it
lists the part of that from the target on. -/
theorem merge_iterator_newest_union (iters : List (List (Bytes × α)))
    (sorted : ∀ source ∈ iters, SortedEntries source) :
    SortedEntries (new iters).drain ∧
    (∀ key payload, (key, payload) ∈ (new iters).drain ↔
      LowestHolds iters key payload) ∧
    ∀ target, ((new iters).seek target).drain =
      (new iters).drain.filter (fun entry => decide (target ≤ entry.1)) := by
  have ok := heapOk_new iters sorted
  refine ⟨drain_sorted ok, ?_, ?_⟩
  · intro key payload
    rw [mem_drain ok, wins_new]
  · intro target
    have sought := heapOk_seek ok target
    apply (drain_sorted sought).eq_of_mem_iff
      (List.Pairwise.sublist filter_sublist (drain_sorted ok))
    rintro ⟨key, payload⟩
    rw [mem_drain sought, wins_seek ok, mem_filter, mem_drain ok, decide_eq_true_eq,
      and_comm]

/-- Two sources that share a key: the first one wins, and a seek past the
first key leaves the rest. -/
theorem merge_iterator_newest_union_of_two :
    let newer : List (Bytes × Bytes) := [([1], [10]), ([3], [30])]
    let older : List (Bytes × Bytes) := [([1], [99]), ([2], [20])]
    (MergeIterator.new [newer, older]).drain =
        [([1], [10]), ([2], [20]), ([3], [30])] ∧
      ((MergeIterator.new [newer, older]).seek [2]).drain =
        [([2], [20]), ([3], [30])] := by
  intro newer older
  have sorted : ∀ source ∈ [newer, older], SortedEntries source := by
    intro source member
    simp only [mem_cons, not_mem_nil, or_false] at member
    rcases member with rfl | rfl
    · simp only [SortedEntries]
      decide
    · simp only [SortedEntries]
      decide
  obtain ⟨increasing, members, sought⟩ := merge_iterator_newest_union [newer, older] sorted
  have union : (MergeIterator.new [newer, older]).drain =
      [([1], [10]), ([2], [20]), ([3], [30])] := by decide +kernel
  exact ⟨union, by rw [sought, union]; decide⟩

end ApexStore
