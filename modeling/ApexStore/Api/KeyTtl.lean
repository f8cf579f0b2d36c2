import ApexStore.Engine.TtlPairs
import ApexStore.Api.Keyspace

/-!
# The TTL of a key over the REST interface

`GET /keys/{key}/ttl` looks the key up and then reports what stands under its
TTL key in the tables.  That is the expiry of the last version of the key that
was flushed with one: not that of a version that is still in the memtable, and
not of a version without an expiry that came later.  So the report is right
just if the newest version has been flushed with an expiry, or has none and
there is nothing under the TTL key, apart from coincidences
(`ttl_query_reports_expiry_iff`).  That is as long as no request starts a
compaction, which may bring an older version back.
-/

namespace ApexStore

open VersionSet EngineCore

def maxKeyLength : Nat := 4096

/-- `Duration::from_secs`, in nanoseconds. -/
def secsToNanos (secs : UInt64) : Nanos :=
  ⟨secs.toNat * 1000000000, by
    have bound := secs.toNat_lt
    omega⟩

/-- The response to the query: an error, or the body with the two fields
`ttl_secs` and `expired`. -/
inductive TtlReply where
  | rejected
  | keyNotFound
  | internalError
  | found (ttlSecs : Option Nat) (expired : Bool)
  deriving DecidableEq, Repr

/-- The seconds that are reported for the bytes under a TTL key. -/
def reportedSecs (now : Nanos) (raw : Bytes) : Option Nat × Bool :=
  if raw.length = 16 then
    if leNat raw ≤ now.val then (some 0, true)
    else (some ((leNat raw - now.val) / 1000000000 % 2 ^ 64), false)
  else (none, false)

namespace EngineCore

/-- `GET /keys/{key}/ttl`; the clock readings of the call are taken to be the
same. -/
def getKeyTtl (now : Nanos) (key : String) (core : EngineCore) :
    TtlReply × EngineCore :=
  if isReserved (utf8 key) then (.rejected, core)
  else
    match core.getCf now "default" (utf8 key) with
    | (.error _, core) => (.internalError, core)
    | (.ok none, core) => (.keyNotFound, core)
    | (.ok (some _), core) =>
      match core.getCf now "default" (ttlPrefix ++ utf8 key) with
      | (.ok (some raw), core) =>
        let (ttlSecs, expired) := reportedSecs now raw
        (.found ttlSecs expired, core)
      -- no expiry is known, or the lookup failed
      | (_, core) => (.found none false, core)

/-- `PUT /keys/{key}`. -/
def putKey (options : EngineOptions) (context : WriteContext)
    (key value : String) (ttlSecs : Option UInt64) (core : EngineCore) : EngineCore :=
  if isReserved (utf8 key) then core
  else if key.isEmpty then core
  else if maxKeyLength < (utf8 key).length then core
  else
    (core.putCf options context "default" (utf8 key) (utf8 value) (ttlSecs.map secsToNanos)).2

/-- `PATCH /keys/{key}/ttl`: the value is read and written again. -/
def updateKeyTtl (options : EngineOptions) (now : Nanos)
    (context : WriteContext) (key : String) (ttlSecs : UInt64) (core : EngineCore) :
    EngineCore :=
  if isReserved (utf8 key) then core
  else
    match core.getCf now "default" (utf8 key) with
    | (.ok (some value), core) =>
      (core.putCf options context "default" (utf8 key) value (some (secsToNanos ttlSecs))).2
    | (_, core) => core

/-- `DELETE /keys/{key}`. -/
def deleteKey (options : EngineOptions) (context : WriteContext)
    (key : String) (core : EngineCore) : EngineCore :=
  if isReserved (utf8 key) then core
  else (core.deleteCf options context "default" (utf8 key)).2

/-- `GET /keys/{key}`. -/
def getKey (now : Nanos) (key : String) (core : EngineCore) : EngineCore :=
  if isReserved (utf8 key) then core
  else (core.getCf now "default" (utf8 key)).2

end EngineCore

/-- The requests on single keys, and the flush of the administrator. -/
inductive RestOp where
  | put (context : WriteContext) (key value : String) (ttlSecs : Option UInt64)
  | updateTtl (now : Nanos) (context : WriteContext) (key : String) (ttlSecs : UInt64)
  | delete (context : WriteContext) (key : String)
  | flush (clock : FlushClock)
  | get (now : Nanos) (key : String)
  | getTtl (now : Nanos) (key : String)

def RestOp.step (options : EngineOptions) (core : EngineCore) : RestOp → EngineCore
  | put context key value ttlSecs =>
    core.putKey options context key value ttlSecs
  | updateTtl now context key ttlSecs =>
    core.updateKeyTtl options now context key ttlSecs
  | delete context key => core.deleteKey options context key
  | flush clock => (core.flushMemtableImpl options clock "default").2
  | get now key => core.getKey now key
  | getTtl now key => (core.getKeyTtl now key).2

/-- New files get new names, and no request starts a compaction. -/
def RestOp.Orderly (options : EngineOptions) (core : EngineCore) : RestOp → Prop
  | put context key value _ =>
    context.flush.Fresh core ∧
      core.Calm options "default" ((utf8 key).length + (utf8 value).length)
  | updateTtl now context key _ =>
    context.flush.Fresh core ∧
      ∀ value, (core.getCf now "default" (utf8 key)).1 = .ok (some value) →
        core.Calm options "default" ((utf8 key).length + value.length)
  | delete context key =>
    context.flush.Fresh core ∧ core.Calm options "default" (utf8 key).length
  | flush clock => clock.Fresh core
  | get .. => True
  | getTtl .. => True

def restRun (options : EngineOptions) (ops : List RestOp) : EngineCore :=
  ops.foldl (RestOp.step options) .empty

variable {key : String}

theorem plainText_of_public (visible : isReserved (utf8 key) = false) :
    PlainText (utf8 key) := by
  refine ⟨?_, key, rfl⟩
  rw [Bool.eq_false_iff] at visible ⊢
  intro hidden
  apply visible
  rw [isReserved, List.isPrefixOf_iff_prefix]
  rw [List.isPrefixOf_iff_prefix] at hidden
  exact List.IsPrefix.trans (by decide) hidden

section Runs

variable {options : EngineOptions} {core : EngineCore} {now : Nanos}
  {key : String}

theorem EngineCore.getCf_frame (now : Nanos) (cf : String) (key : Bytes)
    (core : EngineCore) :
    (core.getCf now cf key).2.store.dir = core.store.dir ∧
      ∀ other, (core.getCf now cf key).2.newestEntry cf other =
        core.newestEntry cf other := by
  obtain ⟨keys, _, _, reads⟩ := getCf_reads now cf key core
  rw [reads]
  exact ⟨dir_readAll now cf keys core, newestEntry_readAll core now cf cf keys⟩

theorem TtlPaired.restStep (paired : TtlPaired options "default" core) {op : RestOp}
    (orderly : op.Orderly options core) :
    TtlPaired options "default" (op.step options core) := by
  cases op with
  | put context key value ttlSecs =>
    rw [RestOp.step, putKey]
    split
    · exact paired
    · next visible =>
      have plain := plainText_of_public (Bool.eq_false_iff.mpr visible)
      split
      · exact paired
      · split
        · exact paired
        · exact paired.putCf orderly.1 plain _ _
  | updateTtl now context key ttlSecs =>
    rw [RestOp.step, updateKeyTtl]
    split
    · exact paired
    · next visible =>
      have plain := plainText_of_public (Bool.eq_false_iff.mpr visible)
      have read := paired.getCf now (utf8 key)
      have files := (getCf_frame now "default" (utf8 key) core).1
      split
      · next found =>
        rw [found] at read files
        refine read.putCf ?_ plain _ _
        rw [FlushClock.Fresh, files]
        exact orderly.1
      · next found =>
        rw [found] at read
        exact read
  | delete context key =>
    rw [RestOp.step, deleteKey]
    split
    · exact paired
    · next visible =>
      exact paired.deleteCf orderly.1 (plainText_of_public (Bool.eq_false_iff.mpr visible))
  | flush clock => exact paired.flush orderly
  | get now key =>
    rw [RestOp.step, getKey]
    split
    · exact paired
    · exact paired.getCf now (utf8 key)
  | getTtl now key =>
    rw [RestOp.step, getKeyTtl]
    split
    · exact paired
    · have read := paired.getCf now (utf8 key)
      split
      · next found => rw [found] at read; exact read
      · next found => rw [found] at read; exact read
      · next found =>
        rw [found] at read
        have again := read.getCf now (ttlPrefix ++ utf8 key)
        split
        · next looked => rw [looked] at again; exact again
        · next looked => rw [looked] at again; exact again

theorem TtlPaired.restRun {ops : List RestOp}
    (run : Guarded (RestOp.step options) (RestOp.Orderly options) .empty ops) :
    TtlPaired options "default" (restRun options ops) :=
  run.invariant (fun _ _ paired orderly => paired.restStep orderly) (.empty options "default")

theorem TtlPaired.getCf_side (paired : TtlPaired options "default" core)
    (now : Nanos) (key : String) :
    (core.getCf now "default" (ttlPrefix ++ utf8 key)).1 =
      .ok ((core.newestEntry "default" (ttlKey (utf8 key))).map (·.2.value)) := by
  have reserved := isPrefixOf_ttlKey (utf8 key)
  have unstored : core.memtableRecord "default" (ttlKey (utf8 key)) =
      none := by
    apply Option.eq_none_iff_forall_ne_some.mpr
    intro record held
    rw [(paired.memory _ record held).1] at reserved
    cases reserved
  -- nothing stands under the TTL key of a TTL key
  have permanent : core.newestEntry "default" (ttlKey (ttlKey (utf8 key))) =
      none := by
    apply Option.eq_none_iff_forall_ne_some.mpr
    intro entry found
    obtain ⟨⟨owner, plain, same⟩, _⟩ :=
      paired.sides _ entry.1 entry.2 (isPrefixOf_ttlKey _) found
    exact absurd same (ttlKey_ttlKey_ne key plain)
  rw [← ttlKey_utf8, getCf_eq paired.sound.store, answer, unstored]
  rw [tableValue, paired.uncovered, sideExpired,
    paired.peek_side (isPrefixOf_ttlKey _), paired.peek_side reserved, permanent]
  cases core.newestEntry "default" (ttlKey (utf8 key)) <;> rfl

theorem TtlPaired.getKeyTtl_eq (paired : TtlPaired options "default" core)
    (reachable : isReserved (utf8 key) = false) {value : Bytes}
    (visible : (core.getCf now "default" (utf8 key)).1 = .ok (some value)) :
    (core.getKeyTtl now key).1 =
      match core.newestEntry "default" (ttlKey (utf8 key)) with
      | none => .found none false
      | some (_, side) => .found
        (some ((leNat side.value - now.val) / 1000000000 % 2 ^ 64))
          (decide (leNat side.value ≤ now.val)) := by
  have read := paired.getCf now (utf8 key)
  have frame := (getCf_frame now "default" (utf8 key) core).2 (ttlKey (utf8 key))
  rw [getKeyTtl, reachable]
  generalize core.getCf now "default" (utf8 key) = result at visible read frame ⊢
  obtain ⟨outcome, after⟩ := result
  obtain rfl : outcome = .ok (some value) := visible
  dsimp only at read frame ⊢
  have looked := read.getCf_side now key
  rw [frame] at looked
  generalize after.getCf now "default" (ttlPrefix ++ utf8 key) = result at looked ⊢
  obtain ⟨outcome, last⟩ := result
  subst looked
  cases found : core.newestEntry "default" (ttlKey (utf8 key)) with
  | none => rfl
  | some entry =>
    obtain ⟨table, side⟩ := entry
    obtain ⟨_, _, _, expiry, bytes⟩ := paired.sides _ table side (isPrefixOf_ttlKey _) found
    dsimp only [Option.map_some]
    rw [reportedSecs, bytes, leNat_leBytes_nanos]
    by_cases past : expiry.val ≤ now.val
    · simp [past]
    · simp [past]

end Runs

def secondsUntil (now expiry : Nanos) : Nat :=
  (expiry.val - now.val) / 1000000000

/-- The newest version has been flushed and carries an expiry, one that is
less than `2 ^ 64` seconds away; or it carries none, and there is nothing under
the TTL key; or it carries one and is in the memtable, but what an earlier
version left under the TTL key is as many seconds away. -/
def TtlTold (core : EngineCore) (now : Nanos) (key : Bytes) (version : LogRecord) :
    Prop :=
  (core.memtableRecord "default" key = none ∧ ∃ expiry, version.expiresAt = some expiry ∧
        secondsUntil now expiry < 2 ^ 64) ∨ (version.expiresAt = none ∧
      core.newestEntry "default" (ttlKey key) = none) ∨
    ∃ expiry table side, core.memtableRecord "default" key = some version ∧
      version.expiresAt = some expiry ∧
      core.newestEntry "default" (ttlKey key) = some (table, side) ∧
      (leNat side.value - now.val) / 1000000000 % 2 ^ 64 = secondsUntil now expiry

theorem TtlPaired.reports_iff {options : EngineOptions} {core : EngineCore}
    {now : Nanos}
    (paired : TtlPaired options "default" core)
    (reachable : isReserved (utf8 key) = false)
    (visible : ∃ value, (core.getCf now "default" (utf8 key)).1 = .ok (some value))
    {version : LogRecord}
    (newest : core.newestRecord "default" (utf8 key) = some version) :
    (∃ expired, (core.getKeyTtl now key).1 =
        .found (version.expiresAt.map (secondsUntil now)) expired) ↔
      TtlTold core now (utf8 key) version := by
  obtain ⟨value, visible⟩ := visible
  have plain := plainText_of_public reachable
  rw [paired.getKeyTtl_eq reachable visible, TtlTold]
  cases expires : version.expiresAt with
  | none =>
    cases found : core.newestEntry "default" (ttlKey (utf8 key)) with
    | none => simp
    | some entry => simp
  | some expiry =>
    rw [EngineCore.newestRecord] at newest
    cases held : core.memtableRecord "default" (utf8 key) with
    | some record =>
      -- what is reported has nothing to do with the version
      rw [held] at newest
      cases newest
      cases found : core.newestEntry "default" (ttlKey (utf8 key)) with
      | none => simp
      | some entry =>
        obtain ⟨table, side⟩ := entry
        simp
    | none =>
      -- the flush has filed the expiry of the version
      rw [held] at newest
      obtain ⟨⟨table, record⟩, stored, same⟩ := Option.map_eq_some_iff.mp newest
      obtain rfl : record = version := same
      have side := paired.paired (utf8 key) table record expiry plain stored expires
      obtain ⟨⟨holder, entry⟩, found, bytes⟩ := Option.map_eq_some_iff.mp side
      rw [found]
      dsimp only
      rw [bytes, leNat_leBytes_nanos, ← secondsUntil]
      simp

/-- The query for the TTL of a visible key reports the seconds until the
expiry of its newest version, or that there is none, just if that expiry has
been filed by a flush or there is none and none has ever been filed (or,
by coincidence, an outdated entry agrees). -/
theorem ttl_query_reports_expiry_iff (options : EngineOptions) {ops : List RestOp}
    (run : Guarded (RestOp.step options) (RestOp.Orderly options) .empty ops)
    (now : Nanos) {key : String}
    (reachable : isReserved (utf8 key) = false)
    (visible : ∃ value,
      ((restRun options ops).getCf now "default" (utf8 key)).1 = .ok (some value))
    {version : LogRecord}
    (newest : (restRun options ops).newestRecord "default" (utf8 key) = some version) :
    (∃ expired, ((restRun options ops).getKeyTtl now key).1 =
        .found (version.expiresAt.map (secondsUntil now)) expired) ↔
      TtlTold (restRun options ops) now (utf8 key) version :=
  (TtlPaired.restRun run).reports_iff reachable visible newest

/-- One request, `PUT /keys/K`. -/
def singleKey (ttlSecs : Option UInt64) : List RestOp :=
  [.put (.instant 1) "K" "v" ttlSecs]

def singleVersion (timestamp : Nanos) (expiresAt : Option Nanos) : LogRecord :=
  { key := utf8 "K", value := utf8 "v", timestamp, isDeleted := false
    columnFamily := some "default", expiresAt, rangeStart := none
    rangeEnd := none }

/-- A key is put and gets a TTL of an hour, and both are flushed. -/
theorem ttl_query_of_flushed_key :
    let ops := singleKey none ++ [.updateTtl 2 (.instant 3) "K" 3600,
      .flush { now := 4, stamp := fun _ => 4 }]
    let core := restRun .default ops
    (core.getCf 10 "default" (utf8 "K")).1 = .ok (some (utf8 "v")) ∧
      ∃ expired, (core.getKeyTtl 10 "K").1 = .found (some 3599) expired := by
  intro ops core
  let clock : FlushClock := { now := 4, stamp := fun _ => 4 }
  let updated := restRun .default (ops.take 2)
  have flushed : core = updated.afterFlush EngineOptions.default.storage "default"
      (flushName 4) (updated.flushEntries clock "default") :=
    EngineOp.step_flush .default updated clock "default" (by decide +kernel)
      (by decide +kernel) (by decide +kernel) (by decide +kernel)
  have update : RestOp.Orderly .default (restRun .default (singleKey none))
      (.updateTtl 2 (.instant 3) "K" 3600) := by
    refine ⟨by decide +kernel, fun value found => ?_⟩
    have known : ((restRun .default (singleKey none)).getCf 2 "default" (utf8 "K")).1 =
        .ok (some (utf8 "v")) := congrArg Except.ok (by decide +kernel)
    cases known.symm.trans found
    decide +kernel
  have run : Guarded (RestOp.step .default) (RestOp.Orderly .default) .empty ops :=
    ⟨⟨by decide +kernel, by decide +kernel⟩, update,
      show clock.Fresh updated by decide +kernel, trivial⟩
  have sound := (TtlPaired.restRun run).sound.store
  change StoreSound _ core.store at sound
  have newest : core.newestRecord "default" (utf8 "K") =
      some (singleVersion 3 (some 3600000000003)) := by
    rw [flushed]
    decide +kernel
  have visible : (core.getCf 10 "default" (utf8 "K")).1 = .ok (some (utf8 "v")) := by
    rw [getCf_eq_versions sound, flushed]
    decide +kernel
  have written : core.memtableRecord "default" (utf8 "K") = none := by
    rw [flushed]
    decide +kernel
  exact ⟨visible, (ttl_query_reports_expiry_iff .default run 10 (by decide +kernel)
    ⟨_, visible⟩ newest).mpr (.inl ⟨written, 3600000000003, rfl, by decide +kernel⟩)⟩

/-- Before the flush a TTL of an hour is not reported. -/
theorem ttl_query_misses_unflushed_expiry :
    let core := restRun .default (singleKey (some 3600))
    Guarded (RestOp.step .default) (RestOp.Orderly .default) .empty
        (singleKey (some 3600)) ∧
      (core.getCf 10 "default" (utf8 "K")).1 = .ok (some (utf8 "v")) ∧
      core.newestRecord "default" (utf8 "K") =
        some (singleVersion 1 (some 3600000000001)) ∧
      (core.getKeyTtl 10 "K").1 = .found none false := by
  intro core
  have guarded : Guarded (RestOp.step .default) (RestOp.Orderly .default) .empty
      (singleKey (some 3600)) := ⟨⟨by decide +kernel, by decide +kernel⟩, trivial⟩
  have visible : (core.getCf 10 "default" (utf8 "K")).1 = .ok (some (utf8 "v")) :=
    congrArg Except.ok (by decide +kernel)
  have unfiled : core.newestEntry "default" (ttlKey (utf8 "K")) = none := by
    decide +kernel
  refine ⟨guarded, visible, by decide +kernel, ?_⟩
  rw [(TtlPaired.restRun guarded).getKeyTtl_eq (by decide +kernel) visible, unfiled]

end ApexStore
