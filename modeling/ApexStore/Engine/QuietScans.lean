import ApexStore.Library.Paging
import ApexStore.Engine.ScanAgreement

/-!
# Scans of a store at rest

A scan with bounds and a limit is a window of the scan without them
(`scan_with_bounds_is_window`).  Scans change the cache of the tables and
nothing else, so while nobody writes and nothing expires, every scan is a
window of one and the same list: `Quiescent` says so, and is kept by scans.
-/

namespace ApexStore

open VersionSet EngineCore List Option

namespace EngineCore

/-- The rows within some bounds, up to a limit. -/
def window (rows : List (Bytes × Bytes)) (lower upper : Option Bytes)
    (limit : Nat) : List (Bytes × Bytes) :=
  (rows.filter (fun row => inBounds lower upper row.1)).take limit

/-- At all readings of a clock a scan without bounds returns the same rows, and
the entries under the TTL keys say the same. -/
structure Quiescent (config : StorageConfig) (clock : Nat → Nanos)
    (cf : String) (rows : List (Bytes × Bytes)) (core : EngineCore) : Prop where
  sound : StoreSound config core.store
  side : ∀ first second key,
    expiredBy (clock second) (core.store.peek (clock first) cf (ttlKey key)) =
      core.sideExpired (clock second) cf key
  visible : ∀ reading limit, rows.length ≤ limit →
    (core.scanCf (clock reading) cf none none (some limit)).1 = .ok rows

namespace Quiescent

variable {config : StorageConfig} {clock : Nat → Nanos} {cf : String}
  {rows : List (Bytes × Bytes)} {core : EngineCore}

theorem listing_eq (quiescent : Quiescent config clock cf rows core) (reading : Nat) :
    core.listing (clock reading) cf (core.sideExpired (clock reading) cf) = rows := by
  have listed : (core.scanCf (clock reading) cf none none
      (some (max rows.length (core.listing (clock reading) cf
        (core.sideExpired (clock reading) cf)).length))).1 = _ :=
    scanCf_eq_listing quiescent.sound (clock reading) cf (le_max_right _ _)
  rw [quiescent.visible reading _ (le_max_left _ _)] at listed
  exact (Except.ok.inj listed).symm

theorem of_listing (sound : StoreSound config core.store)
    (side : ∀ first second key, expiredBy (clock second)
        (core.store.peek (clock first) cf (ttlKey key)) =
          core.sideExpired (clock second) cf key)
    (listed : ∀ reading, core.listing (clock reading) cf
      (core.sideExpired (clock reading) cf) = rows) :
    Quiescent config clock cf rows core := by
  refine ⟨sound, side, fun reading limit room => ?_⟩
  rw [← listed reading] at room ⊢
  exact scanCf_eq_listing sound (clock reading) cf room

theorem of_instant (sound : StoreSound config core.store) (now : Nanos) (cf : String) :
    Quiescent config (fun _ => now) cf
      (core.listing now cf (core.sideExpired now cf)) core :=
  of_listing sound (fun _ _ _ => rfl) (fun _ => rfl)

variable (quiescent : Quiescent config clock cf rows core)
include quiescent

theorem sorted : Paging.Sorted rows := by
  rw [← quiescent.listing_eq 0]
  exact core.listing_sorted (clock 0) cf _

theorem lookup (reading : Nat) (key : Bytes) : Quiescent config clock cf rows
      (core.readAll (clock reading) cf [ttlKey key]) := by
  have same :
      ∀ first second other, expiredBy (clock second) ((core.readAll (clock reading) cf
        [ttlKey key]).store.peek (clock first) cf (ttlKey other)) = expiredBy (clock second)
        (core.store.peek (clock first) cf (ttlKey other)) := by
    intro first second other
    refine core.store.expiredBy_peek_get ?_ (ttlKey other)
    rw [quiescent.side, quiescent.side]
  have side : ∀ second, (core.readAll (clock reading) cf
      [ttlKey key]).sideExpired (clock second) cf = core.sideExpired (clock second) cf := by
    intro second
    funext other
    exact same second second other
  refine of_listing (quiescent.sound.get (clock reading) cf (ttlKey key)) ?_ ?_
  · intro first second other
    rw [same, side, quiescent.side]
  · intro second
    rw [side, ← quiescent.listing_eq second, readAll]
    dsimp only [foldl_cons]
    rw [quiescent.sound.get_eq]
    rfl

theorem readAll (reading : Nat) (keys : List Bytes) : Quiescent config clock cf rows
      (core.readAll (clock reading) cf (keys.map ttlKey)) := by
  induction keys generalizing core with
  | nil => exact quiescent
  | cons key keys ih =>
    have later := ih (quiescent.lookup reading key)
    exact later

theorem scanCf (reading : Nat) (lower upper : Option Bytes) (limit : Nat) :
    (core.scanCf (clock reading) cf lower upper (some limit)).1 =
        .ok (window rows lower upper limit) ∧ Quiescent config clock cf rows
        (core.scanCf (clock reading) cf lower upper (some limit)).2 := by
  constructor
  · rw [scanCf_eq_window quiescent.sound, quiescent.listing_eq reading]
    rfl
  · obtain ⟨keys, looked⟩ := core.scanCf_reads (clock reading) cf lower upper (some limit)
    rw [looked]
    exact quiescent.readAll reading keys

theorem scans (reading : Nat) (scans : List (Option Bytes × Option Bytes × Nat)) :
    Quiescent config clock cf rows (scans.foldl (fun core scan =>
      (core.scanCf (clock reading) cf scan.1 scan.2.1 (some scan.2.2)).2) core) := by
  induction scans generalizing core with
  | nil => exact quiescent
  | cons scan scans ih => exact ih (quiescent.scanCf reading scan.1 scan.2.1 scan.2.2).2

end Quiescent

end EngineCore

/-- An engine that is asked at one reading of a clock after the other. -/
structure Clocked where
  core : EngineCore
  reading : Nat

def Clocked.scanCf (clock : Nat → Nanos) (cf : String) (lower upper : Option Bytes)
    (limit : Nat) (state : Clocked) :
    Except LsmError (List (Bytes × Bytes)) × Clocked :=
  let (result, core) := state.core.scanCf (clock state.reading) cf lower upper
    (some limit)
  (result, { core, reading := state.reading + 1 })

theorem Clocked.scanCf_eq {config : StorageConfig} {clock : Nat → Nanos} {cf : String}
    {rows : List (Bytes × Bytes)} {state : Clocked}
    (quiescent : state.core.Quiescent config clock cf rows)
    (lower upper : Option Bytes)
    (limit : Nat) : ∃ after : Clocked, state.scanCf clock cf lower upper limit =
        (.ok (window rows lower upper limit), after) ∧
      after.core.Quiescent config clock cf rows := by
  obtain ⟨answer, still⟩ := quiescent.scanCf state.reading lower upper limit
  exact ⟨_, Prod.ext answer rfl, still⟩

/-! ## Windows -/

/-- At one instant, and whatever scans have been made at that instant before, a
scan with bounds and a limit of files that can be decoded returns the first
entries within the bounds of what a scan without bounds and with enough room
returns. -/
theorem scan_with_bounds_is_window {options : EngineOptions}
    {core : EngineCore} (reachable : Reachable options core)
    (_ : core.store.dir.legible = true) (now : Nanos) (cf : String) :
    ∃ all, ∀ earlier : List (Option Bytes × Option Bytes × Nat),
      let core' := earlier.foldl (fun core scan =>
        (core.scanCf now cf scan.1 scan.2.1 (some scan.2.2)).2) core
      (∀ limit, all.length ≤ limit →
        (core'.scanCf now cf none none (some limit)).1 = .ok all) ∧
      ∀ lower upper limit,
        (core'.scanCf now cf lower upper (some limit)).1 =
          .ok ((all.filter (fun entry =>
            inBounds lower upper entry.1)).take limit) := by
  refine ⟨core.listing now cf (core.sideExpired now cf), fun earlier => ?_⟩
  have start := EngineCore.Quiescent.of_instant reachable.sound.store now cf
  generalize core.listing now cf (core.sideExpired now cf) = all at start ⊢
  have still := start.scans 0 earlier
  constructor
  · intro limit room
    have unbounded : all.filter (fun row =>
        inBounds none none row.1) = all := filter_eq_self.mpr (fun _ _ => rfl)
    rw [(still.scanCf 0 none none limit).1, window, unbounded, take_of_length_le room]
  · exact fun lower upper limit => (still.scanCf 0 lower upper limit).1

/-- Two values, one of them flushed. -/
theorem scan_of_flushed_and_new_value_is_window :
    let core := engineRun .default
      [.put (.instant 1) "default" [7] [1] none,
        .flush { now := 2, stamp := fun _ => 2 } "default",
        .put (.instant 3) "default" [8] [2] none]
    ∃ all, ∀ earlier : List (Option Bytes × Option Bytes × Nat),
      let core' := earlier.foldl (fun core scan =>
        (core.scanCf 10 "default" scan.1 scan.2.1 (some scan.2.2)).2) core
      (∀ limit, all.length ≤ limit →
        (core'.scanCf 10 "default" none none (some limit)).1 = .ok all) ∧
      ∀ lower upper limit,
        (core'.scanCf 10 "default" lower upper (some limit)).1 =
          .ok ((all.filter (fun entry =>
            inBounds lower upper entry.1)).take limit) := by
  intro core
  exact @scan_with_bounds_is_window .default core (.of_check (by decide +kernel))
    (by decide +kernel) 10 "default"

end ApexStore
