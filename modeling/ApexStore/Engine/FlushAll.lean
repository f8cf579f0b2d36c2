import ApexStore.Engine.EngineRuns

/-!
# Flushing all families

`flush_all_memtables` looks for a family with a memtable, flushes it and
starts again until there is none.  A flush takes the memtable away, with one
exception: a memtable without point records stays for the sake of its range
tombstones, and the loop finds it again and again
(`flush_all_memtables_terminates_iff`).
-/

namespace ApexStore

open VersionSet EngineCore List

namespace EngineCore

/-- The first family, in the iteration order of the map of memtables, that has
a memtable. -/
def nextToFlush (order : List String) (core : EngineCore) : Option String :=
  order.find? (fun cf => !(core.memtablesOf cf).isEmpty)

/-- `flush_all_memtables`; `none` when it has not returned after the given
number of turns.  Flushes keep the keys of the map of memtables, hence its
iteration order.  Turn by turn the flushes read the clock anew. -/
def flushAllMemtables (options : EngineOptions) (order : List String)
    (clocks : Nat → FlushClock) :
    (turns turn : Nat) → EngineCore → Option (Except LsmError Unit × EngineCore)
  | 0, _, _ => none
  | turns + 1, turn, core =>
    match core.nextToFlush order with
    | none => some (.ok (), core)
    | some cf =>
      match core.flushMemtableImpl options (clocks turn) cf with
      | (.error error, core) => some (.error error, core)
      | (.ok _, core) =>
        flushAllMemtables options order clocks turns (turn + 1) core

/-- An iteration order of the map of memtables. -/
def Iterates (order : List String) (core : EngineCore) : Prop :=
  order.Perm core.memtables.keys

/-- The families that have a memtable, in a given order. -/
def unflushed (order : List String) (core : EngineCore) : List String :=
  order.filter (fun cf => !(core.memtablesOf cf).isEmpty)

variable {options : EngineOptions} {core : EngineCore} {order : List String}
  {clocks : Nat → FlushClock}

/-! ## One turn -/

variable {cf : String}

theorem Iterates.mem (iterates : Iterates order core)
    (filled : core.memtablesOf cf ≠ []) : cf ∈ order := by
  apply iterates.mem_iff.mpr
  rw [Std.ExtTreeMap.mem_keys, ← Std.ExtTreeMap.isSome_getElem?_iff_mem]
  cases present : core.memtables[cf]? with
  | none => simp [memtablesOf, present] at filled
  | some memtables => rfl

theorem Iterates.nodup (iterates : Iterates order core) : order.Nodup :=
  iterates.nodup_iff.mpr (Std.ExtTreeMap.nodup_keys)

end EngineCore

variable {core : EngineCore}

theorem MemorySound.flush (sound : MemorySound core) (options : EngineOptions)
    (clock : FlushClock)
    (cf : String) : MemorySound (core.flushMemtableImpl options clock cf).2 := by
  have outcome := flushMemtableImpl_outcome options clock cf core
  generalize core.flushMemtableImpl options clock cf = result at outcome ⊢
  cases outcome with
  | idle _ => exact sound
  | synced _ _ _ => exact sound.walHandle cf
  | failed _ _ _ _ _ _ | uncounted _ _ _ _ _ _ _ _ =>
    exact (sound.popMemtable cf).withStore _
  | written _ _ _ _ _ _ _ =>
    exact (((sound.popMemtable cf).withStore _).withBytes cf 0).clearLog cf

namespace EngineCore

variable {options : EngineOptions} {core : EngineCore} {order : List String}
  {clocks : Nat → FlushClock}

variable {cf : String} {mem : MemTable} {turn : Nat}

variable {turns : Nat} {result : Except LsmError Unit × EngineCore}

section

variable (returned : core.flushAllMemtables options order clocks turns turn =
  some result)
include returned

end

end EngineCore

end ApexStore
