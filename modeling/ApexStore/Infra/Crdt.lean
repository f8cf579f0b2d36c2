import ApexStore.Library.ByteOrder
import ApexStore.Library.LastWriter

/-!
# The last-writer-wins engine

`CrdtEngine` holds a value and a timestamp for every key.  A merge replaces an
entry whose timestamp is lower; key by key it is the register of
`LastWriter`.
-/

namespace ApexStore

abbrev Stamped := Bytes × Nat

abbrev CrdtEngine := ByteMap Stamped

namespace CrdtEngine

def new : CrdtEngine := ∅

def getState (crdt : CrdtEngine) (key : Bytes) : Option Stamped := crdt[key]?

def merge (crdt : CrdtEngine) (key value : Bytes) (timestamp : Nat) : CrdtEngine :=
  match crdt[key]? with
  | some (_, existing) =>
    if timestamp ≤ existing then crdt
    else crdt.insert key (value, timestamp)
  | none => crdt.insert key (value, timestamp)

def getAllEntries (crdt : CrdtEngine) : List (Bytes × Stamped) := crdt.toList

@[simp] theorem getState_new (key : Bytes) : new.getState key = none := by
  simp [getState, new]

theorem ext {crdt other : CrdtEngine}
    (same : ∀ key, crdt.getState key = other.getState key) : crdt = other :=
  Std.ExtTreeMap.ext_getElem? same

theorem getState_merge (crdt : CrdtEngine) (key value : Bytes) (timestamp : Nat)
    (other : Bytes) :
    (crdt.merge key value timestamp).getState other = if key = other then
        LastWriter.merge (crdt.getState key)
          (value, timestamp) else crdt.getState other := by
  unfold merge getState
  cases found : crdt[key]? with
  | none =>
    by_cases here : key = other <;> simp [ByteMap.getElem?_insert, LastWriter.merge]
  | some entry =>
    obtain ⟨current, existing⟩ := entry
    by_cases older : timestamp ≤ existing
    · by_cases here : key = other
      · subst here
        simp [older, LastWriter.merge, found]
      · simp [older, here]
    · by_cases here : key = other <;> simp [older, ByteMap.getElem?_insert, LastWriter.merge]

end CrdtEngine

end ApexStore
