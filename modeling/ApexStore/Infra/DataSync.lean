import ApexStore.Infra.Crdt

/-!
# Data sync

`sync` computes the differences between two maps and which entries they come
to, but gives these to neither side.
-/

namespace ApexStore

inductive SyncDirection where
  | pull
  | push
  | twoWay

/-- A key that differs; a side that lacks it counts with timestamp 0. -/
structure DiffEntry where
  key : Bytes
  localValue : Option Bytes
  remoteValue : Option Bytes
  localTimestamp : Nat
  remoteTimestamp : Nat

structure SyncResult where
  keysSynced : Nat
  conflictsResolved : Nat

/-- The entries of the local engine and of the remote backend. -/
structure DataSync where
  localMap : ByteMap Stamped
  remoteMap : ByteMap Stamped

namespace DataSync

def diffEntry (key : Bytes) (mine theirs : Option Stamped) : DiffEntry where
  key := key
  localValue := mine.map (·.1)
  remoteValue := theirs.map (·.1)
  localTimestamp := (mine.map (·.2)).getD 0
  remoteTimestamp := (theirs.map (·.2)).getD 0

def diff (data : DataSync) : List DiffEntry :=
  data.localMap.toList.filterMap (fun entry =>
    if data.remoteMap[entry.1]? = some entry.2 then none
    else some (diffEntry entry.1 (some entry.2) data.remoteMap[entry.1]?)) ++
  data.remoteMap.toList.filterMap (fun entry =>
    if data.localMap.contains entry.1 then none
    else some (diffEntry entry.1 none (some entry.2)))

def resolveConflictsImpl (entries : List DiffEntry) (direction : SyncDirection) :
    List (Bytes × Bytes × Nat) :=
  entries.filterMap fun entry =>
    let fromRemote :=
      entry.remoteValue.map fun value => (entry.key, value, entry.remoteTimestamp)
    let fromLocal :=
      entry.localValue.map fun value => (entry.key, value, entry.localTimestamp)
    match direction with
    | .pull => fromRemote
    | .push => fromLocal
    | .twoWay =>
      if entry.localTimestamp ≤ entry.remoteTimestamp then fromRemote else fromLocal

/-- The result and the maps afterwards: the resolved entries are only counted. -/
def sync (data : DataSync) (direction : SyncDirection) : SyncResult × DataSync :=
  let diffs := data.diff
  let resolved := resolveConflictsImpl diffs direction
  ({ keysSynced := resolved.length, conflictsResolved := diffs.length }, data)

def Reconciled (before after : DataSync) : SyncDirection → Prop
  | .pull => ∀ (key : Bytes) (entry : Stamped), before.remoteMap[key]? = some entry →
      after.localMap[key]? = some entry
  | .push => ∀ (key : Bytes) (entry : Stamped), before.localMap[key]? = some entry →
      after.remoteMap[key]? = some entry
  | .twoWay => after.diff = [] ∧ ∀ (key : Bytes) (entry : Stamped),
      before.localMap[key]? = some entry ∨ before.remoteMap[key]? = some entry →
        ∃ kept : Stamped, after.localMap[key]? = some kept ∧ entry.2 ≤ kept.2 ∧
          (before.localMap[key]? = some kept ∨ before.remoteMap[key]? = some kept)

/-- The differences have nothing for the side that would be written. -/
def Settled (data : DataSync) : SyncDirection → Prop
  | .pull => ∀ entry ∈ data.diff, entry.remoteValue = none
  | .push => ∀ entry ∈ data.diff, entry.localValue = none
  | .twoWay => data.diff = []

variable {data : DataSync} {key : Bytes} {entry : Stamped}

theorem mem_diff {found : DiffEntry} : found ∈ data.diff ↔
    (∃ (key : Bytes) (entry : Stamped), data.localMap[key]? = some entry ∧
      data.remoteMap[key]? ≠ some entry ∧
        found = diffEntry key (some entry) data.remoteMap[key]?) ∨
    ∃ (key : Bytes) (entry : Stamped), data.remoteMap[key]? = some entry ∧
      data.localMap[key]? = none ∧ found = diffEntry key none (some entry) := by
  rw [diff, List.mem_append, List.mem_filterMap, List.mem_filterMap]
  apply or_congr
  · simp [@eq_comm DiffEntry]
  · simp [@eq_comm DiffEntry]

/-- A key whose two sides differ is in the list, with both of them. -/
theorem diffEntry_mem (differs : data.localMap[key]? ≠ data.remoteMap[key]?) :
    diffEntry key data.localMap[key]? data.remoteMap[key]? ∈ data.diff := by
  rw [mem_diff]
  cases mine : data.localMap[key]? with
  | some entry =>
    rw [mine] at differs
    exact .inl ⟨key, entry, mine, differs.symm, rfl⟩
  | none =>
    cases theirs : data.remoteMap[key]? with
    | none => exact absurd (mine.trans theirs.symm) differs
    | some entry => exact .inr ⟨key, entry, theirs, mine, rfl⟩

theorem diff_eq_nil_iff :
    data.diff = [] ↔ ∀ key : Bytes, data.localMap[key]? = data.remoteMap[key]? := by
  constructor
  · intro none_differs key
    by_contra differs
    have member := diffEntry_mem differs
    rw [none_differs] at member
    cases member
  · intro same
    refine List.eq_nil_iff_forall_not_mem.mpr fun found member => ?_
    rcases mem_diff.mp member with ⟨key, entry, mine, differs, _⟩ |
      ⟨key, entry, theirs, absent, _⟩
    · exact differs ((same key).symm.trans mine)
    · rw [same, theirs] at absent
      cases absent

/-- A sync reconciles the two sides exactly if there was nothing to transfer. -/
theorem sync_reconciles_iff (data : DataSync) (direction : SyncDirection) :
    data.Reconciled (data.sync direction).2 direction ↔ data.Settled direction := by
  change data.Reconciled data direction ↔ _
  cases direction with
  | pull =>
    constructor
    · intro pulled found member
      rcases mem_diff.mp member with
        ⟨key, entry, mine, differs, rfl⟩ | ⟨key, entry, theirs, absent, _⟩
      · cases theirs : data.remoteMap[key]? with
        | none => rfl
        | some other =>
          cases mine.symm.trans (pulled key other theirs)
          exact absurd theirs differs
      · cases absent.symm.trans (pulled key entry theirs)
    · intro settled key entry theirs
      by_contra differs
      have member := diffEntry_mem (theirs ▸ differs)
      rw [theirs] at member
      cases settled _ member
  | push =>
    constructor
    · intro pushed found member
      rcases mem_diff.mp member with ⟨key, entry, mine, differs, _⟩ | ⟨_, _, _, _, rfl⟩
      · exact absurd (pushed key entry mine) differs
      · rfl
    · intro settled key entry mine
      by_contra differs
      have member := diffEntry_mem (mine ▸ Ne.symm differs)
      rw [mine] at member
      cases settled _ member
  | twoWay =>
    refine ⟨And.left, fun settled => ⟨settled, ?_⟩⟩
    intro key entry present
    have same := diff_eq_nil_iff.mp settled key
    refine ⟨entry, present.elim id same.trans, Nat.le_refl _, present⟩

/-- A remote entry is not there after a pull. -/
theorem pull_leaves_remote_entry :
    ¬ Reconciled
      { localMap := ∅, remoteMap := (∅ : ByteMap Stamped).insert [7] ([1], 5) }
      (sync { localMap := ∅, remoteMap := (∅ : ByteMap Stamped).insert [7] ([1], 5) } .pull).2
      .pull := by
  intro pulled
  cases pulled [7] ([1], 5) (by decide +kernel)

end DataSync

end ApexStore
