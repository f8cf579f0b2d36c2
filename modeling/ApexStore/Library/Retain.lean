import Mathlib.Data.List.AList

/-!
# Maps whose entries expire

`AList.retain` drops the entries that fail a test, `AList.mapEntries` changes
values in place; both are described by what a lookup finds afterwards.
-/

namespace AList

variable {κ ν : Type*}

def retain (keep : κ → ν → Bool) (entries : AList (fun _ : κ => ν)) :
    AList (fun _ : κ => ν) where
  entries := entries.entries.filter fun entry => keep entry.1 entry.2
  nodupKeys := entries.nodupKeys.sublist List.filter_sublist

def mapEntries (change : κ → ν → ν) (entries : AList (fun _ : κ => ν)) :
    AList (fun _ : κ => ν) where
  entries := entries.entries.map fun entry =>
    ⟨entry.1, change entry.1 entry.2⟩
  nodupKeys := by
    simp only [List.NodupKeys, List.keys, List.map_map, Function.comp_def]
    exact entries.nodupKeys

variable [DecidableEq κ]

theorem lookup_retain (keep : κ → ν → Bool) (entries : AList (fun _ : κ => ν))
    (key : κ) :
    (entries.retain keep).lookup key = (entries.lookup key).filter (keep key) := by
  apply Option.ext
  intro value
  rw [← Option.mem_def, mem_lookup_iff, Option.filter_eq_some_iff, ← Option.mem_def,
    mem_lookup_iff]
  exact List.mem_filter

theorem lookup_mapEntries (change : κ → ν → ν) (entries : AList (fun _ : κ => ν))
    (key : κ) :
    (entries.mapEntries change).lookup key = (entries.lookup key).map (change key) :=
  List.dlookup_map₂ key

end AList
