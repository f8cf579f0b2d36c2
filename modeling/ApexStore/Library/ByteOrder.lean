import Mathlib

/-!
# Byte strings and ordered maps keyed by them

Keys, values and file images are byte strings compared lexicographically.
`ByteMap` is the standard library's ordered map at that comparison; the lemmas
below turn its `compare`-based statements into statements about `=` and `<`.
-/

namespace ApexStore

open List

instance byteOrder : LinearOrder UInt8 where
  le_refl := UInt8.le_refl
  le_trans _ _ _ := UInt8.le_trans
  le_antisymm _ _ := UInt8.le_antisymm
  le_total := UInt8.le_total
  lt_iff_le_not_ge left right := by
    rw [UInt8.lt_iff_toNat_lt, UInt8.le_iff_toNat_le, UInt8.le_iff_toNat_le]
    omega
  toDecidableLE := inferInstance
  toDecidableEq := inferInstance
  toDecidableLT := inferInstance

abbrev Bytes := List UInt8

abbrev ByteMap (V : Type) := Std.ExtTreeMap Bytes V compare

abbrev NameMap (V : Type) := Std.ExtTreeMap String V compare

variable {left right : Bytes}

theorem compare_bytes_eq_lt : compare left right = .lt ↔ left < right := by
  induction left generalizing right with
  | nil => cases right <;> simp
  | cons first rest ih =>
    cases right with
    | nil => simp
    | cons other others =>
      have tail : rest.compareLex compare others = .lt ↔ rest < others := ih
      rw [List.compare_eq_compareLex, List.compareLex_cons_cons,
        List.cons_lt_cons_iff, ← tail]
      rcases lt_trichotomy first other with before | same | after
      · simp [Std.compare_eq_lt.mpr before, before]
      · simp [same]
      · simp [Std.compare_eq_gt.mpr after, after.not_gt, after.ne']

theorem compare_bytes_isLE : (compare left right).isLE = true ↔ left ≤ right := by
  rw [← not_lt, ← compare_bytes_eq_lt, ← Std.OrientedCmp.gt_iff_lt]
  cases compare left right <;> simp

variable {V : Type}

theorem NameMap.getElem?_insert (entries : NameMap V) (name other : String)
    (value : V) :
    (entries.insert name value)[other]? = if name =
      other then some value else entries[other]? := by
  simp [Std.ExtTreeMap.getElem?_insert]

theorem NameMap.toList_sorted (entries : NameMap V) :
    entries.toList.Pairwise (fun left right => left.1 < right.1) :=
  entries.ordered_keys_toList.imp compare_lt_iff_lt.mp

theorem NameMap.mem_toList (entries : NameMap V) (name : String) (value : V) :
    (name, value) ∈ entries.toList ↔ entries[name]? = some value :=
  Std.ExtTreeMap.mem_toList_iff_getElem?_eq_some

namespace ByteMap

variable {V : Type}

theorem getElem?_insert (entries : ByteMap V) (key other : Bytes) (value : V) :
    (entries.insert key value)[other]? = if key =
      other then some value else entries[other]? := by
  simp [Std.ExtTreeMap.getElem?_insert]

theorem toList_sorted (entries : ByteMap V) :
    entries.toList.Pairwise (fun left right => left.1 < right.1) := by
  have ordered := entries.ordered_keys_toList
  exact ordered.imp compare_bytes_eq_lt.mp

theorem mem_toList (entries : ByteMap V) (key : Bytes) (value : V) :
    (key, value) ∈ entries.toList ↔ entries[key]? = some value :=
  Std.ExtTreeMap.mem_toList_iff_getElem?_eq_some

variable {entries : ByteMap V} {key : Bytes} {added : List (Bytes × V)}

theorem minKey_le (present : key ∈ entries) : entries.minKey?.getD [] ≤ key := by
  obtain ⟨least, found⟩ := Option.isSome_iff_exists.mp
    (Std.ExtTreeMap.isSome_minKey?_of_mem present)
  exact compare_bytes_isLE.mp (Std.ExtTreeMap.minKey?_le_of_mem present (by simp [found]))

theorem le_maxKey (present : key ∈ entries) : key ≤ entries.maxKey?.getD [] := by
  obtain ⟨greatest, found⟩ := Option.isSome_iff_exists.mp
    (Std.ExtTreeMap.isSome_maxKey?_of_mem present)
  exact compare_bytes_isLE.mp (Std.ExtTreeMap.le_maxKey?_of_mem present (by simp [found]))

/-- Insert the entries of a list one after the other. -/
def insertAll (entries : ByteMap V) (added : List (Bytes × V)) : ByteMap V :=
  added.foldl (fun entries entry => entries.insert entry.1 entry.2) entries

theorem getElem?_insertAll_of_not_mem (entries : ByteMap V)
    (absent : key ∉ added.map (·.1)) :
    (entries.insertAll added)[key]? = entries[key]? := by
  induction added generalizing entries with
  | nil => rfl
  | cons entry added ih =>
    rw [map_cons, mem_cons, not_or] at absent
    have later := ih (entries.insert entry.1 entry.2) absent.2
    rw [getElem?_insert, if_neg (Ne.symm absent.1)] at later
    exact later

theorem getElem?_insertAll_of_mem (sorted : (added.map (·.1)).Pairwise (· < ·))
    {value : V} (member : (key, value) ∈ added) :
    (entries.insertAll added)[key]? = some value := by
  induction added generalizing entries with
  | nil => cases member
  | cons entry added ih =>
    rw [map_cons, pairwise_cons] at sorted
    rcases mem_cons.mp member with rfl | later
    · have absent : key ∉ added.map (·.1) := fun again => (sorted.1 key again).false
      have kept := getElem?_insertAll_of_not_mem (entries.insert key value) absent
      rw [getElem?_insert, if_pos rfl] at kept
      exact kept
    · exact ih sorted.2 later

theorem getElem?_insertAll_empty (sorted : (added.map (·.1)).Pairwise (· < ·))
    (key : Bytes) (value : V) :
    (insertAll ∅ added)[key]? = some value ↔ (key, value) ∈ added := by
  constructor
  · intro found
    by_cases present : key ∈ added.map (·.1)
    · obtain ⟨⟨other, stored⟩, member, rfl⟩ := mem_map.mp present
      rw [getElem?_insertAll_of_mem sorted member] at found
      cases found
      exact member
    · rw [getElem?_insertAll_of_not_mem _ present] at found
      simp at found
  · exact getElem?_insertAll_of_mem sorted

end ByteMap

end ApexStore
