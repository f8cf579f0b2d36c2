import ApexStore.Engine.Expiry
import ApexStore.Engine.QuietScans

/-!
# Writes without an expiry

As long as no record has an expiry, flushes write nothing under TTL keys and
the instant of a read plays no role: the last write of a key decides what is
read (`Lasting.getCf_eq`) and what a scan lists (`Lasting.mem_rows`), and all
that a flush needs is a new file name and room for its entries.
-/

namespace ApexStore

open VersionSet EngineCore LogRecord

variable {record : LogRecord} {size : Nat} {context : WriteContext}

def LogRecord.kept (record : LogRecord) : Option Bytes :=
  if record.isDeleted then none else some record.value

theorem LogRecord.liveAt_of_lasting (lasting : record.expiresAt = none) (now : Nanos) :
    record.liveAt now = record.kept := by
  rw [liveAt, isExpiredAt_of_none lasting, Bool.or_false, kept]

namespace EngineCore

/-- A flush gets a new file, and every entry fits in a block. -/
def FlushWorks (core : EngineCore) (options : EngineOptions)
    (clock : FlushClock) (cf : String) : Prop :=
  clock.Fresh core ∧ ∀ mem, (core.memtablesOf cf).getLast? = some mem →
    mem.data.isEmpty = false → Flushable options.storage clock mem.data

/-- The locked part of a write works. -/
abbrev InsertWorks (core : EngineCore) (options : EngineOptions)
    (clock : FlushClock) (cf : String) (record : LogRecord) (size : Nat) : Prop :=
  core.InsertCalm options cf record size (·.FlushWorks options clock cf)

end EngineCore

/-- The last writes are known, and none of them has an expiry. -/
structure Lasting (options : EngineOptions) (cf : String) (core : EngineCore)
    (last : Bytes → Option LogRecord) : Prop where
  decided : Decided options cf (Fin.last _) core last
  permanent : ∀ key record, last key = some record → record.expiresAt = none
  sideless : ∀ key, ttlPrefix.isPrefixOf key = true → core.newestEntry cf key = none
  uncached : ∀ key : Bytes, core.store.versions.kvCache[key]? = none

namespace Lasting

variable {options : EngineOptions} {cf : String} {core : EngineCore}
  {last : Bytes → Option LogRecord}

theorem empty (options : EngineOptions) (cf : String) :
    Lasting options cf .empty (fun _ => none) := by
  have decided := Decided.empty options cf (Fin.last _)
  refine ⟨decided, by simp, fun _ _ => rfl, fun key => ?_⟩
  simp [EngineCore.empty, TableState.empty, VersionSet.new]

/-! ## Reads -/

variable {key : Bytes} {clock : FlushClock}

section

variable (lasting : Lasting options cf core last)
include lasting

theorem newestEntry_eq (plain : ttlPrefix.isPrefixOf key = false)
    (missing : core.memtableRecord cf key = none) :
    (core.newestEntry cf key).map (·.2) = last key := by
  have settled := lasting.decided.settled key plain missing
  cases written : last key with
  | none =>
    rw [written] at settled
    rw [show core.newestEntry cf key = none from settled]
    rfl
  | some record =>
    rw [written] at settled
    rcases settled with ⟨_, expired⟩ | ⟨table, newest, _⟩
    · rw [isExpiredAt_of_none (lasting.permanent key record written)] at expired
      cases expired
    · rw [newest]
      rfl

theorem newestRecord_eq (plain : ttlPrefix.isPrefixOf key = false) :
    core.newestRecord cf key = last key := by
  rw [EngineCore.newestRecord]
  cases held : core.memtableRecord cf key with
  | some record => exact (lasting.decided.memory key record held).2.symm
  | none => exact lasting.newestEntry_eq plain held

theorem at_instant (instant : Nanos) : Decided options cf instant core last := by
  have decided := lasting.decided
  refine ⟨decided.sound, decided.uncovered, decided.memory, decided.sides, ?_, ?_⟩
  · intro key value cached
    rw [lasting.uncached] at cached
    cases cached
  intro key plain missing
  have settled := decided.settled key plain missing
  cases written : last key with
  | none =>
    rw [written] at settled
    exact settled
  | some record =>
    rw [written] at settled
    rcases settled with ⟨_, expired⟩ | newest
    · rw [isExpiredAt_of_none (lasting.permanent key record written)] at expired
      cases expired
    · exact .inr newest

theorem peek_reserved (reserved : ttlPrefix.isPrefixOf key = true) (now : Nanos) :
    core.store.peek now cf key = none := by
  rw [lasting.decided.peek_reserved reserved, lasting.sideless key reserved]
  rfl

theorem sideExpired_eq (now : Nanos) (key : Bytes) :
    core.sideExpired now cf key = false := by
  rw [sideExpired, lasting.peek_reserved (isPrefixOf_ttlKey key)]
  rfl

theorem answer_eq (plain : ttlPrefix.isPrefixOf key = false) (now : Nanos) :
    core.answer now cf key = (last key).bind (·.kept) := by
  rw [(lasting.at_instant now).answer_eq plain]
  cases written : last key with
  | none => rfl
  | some record =>
    exact liveAt_of_lasting (lasting.permanent key record written) now

theorem answer_reserved (reserved : ttlPrefix.isPrefixOf key = true) (now : Nanos) :
    core.answer now cf key = none := by
  have missing : core.memtableRecord cf key = none := by
    apply Option.eq_none_iff_forall_ne_some.mpr
    intro record held
    rw [(lasting.decided.memory key record held).1] at reserved
    cases reserved
  rw [answer, missing, tableValue, lasting.decided.uncovered]
  rw [lasting.peek_reserved reserved]
  rfl

theorem getCf_eq (plain : ttlPrefix.isPrefixOf key = false) (now : Nanos) :
    (core.getCf now cf key).1 = .ok ((last key).bind (·.kept)) := by
  rw [EngineCore.getCf_eq lasting.decided.sound.store, lasting.answer_eq plain]

theorem getCf_reserved (reserved : ttlPrefix.isPrefixOf key = true) (now : Nanos) :
    (core.getCf now cf key).1 = .ok none := by
  rw [EngineCore.getCf_eq lasting.decided.sound.store, lasting.answer_reserved reserved]

/-! ## Scans -/

theorem valuesCached (now : Nanos) : core.ValuesCached now cf := by
  intro key value _ _ _ _ cached
  rw [lasting.uncached] at cached
  cases cached

theorem sideAgrees (now : Nanos) (plain : ttlPrefix.isPrefixOf key = false)
    (missing : core.memtableRecord cf key = none) : core.SideAgrees now cf key := by
  refine ⟨fun _ _ _ _ _ _ _ => lasting.sideExpired_eq now key, ?_, ?_⟩
  · intro table record newest _ _ expired
    have written := lasting.newestEntry_eq plain missing
    rw [newest] at written
    rw [isExpiredAt_of_none (lasting.permanent key record written.symm)] at expired
    cases expired
  · intro _ _ _ _ _ covering
    rw [lasting.decided.uncovered] at covering
    cases covering

end

def rows (core : EngineCore) (cf : String) : List (Bytes × Bytes) :=
  core.listing 0 cf (core.sideExpired 0 cf)

variable (lasting : Lasting options cf core last)
include lasting

theorem mem_listing (now : Nanos) (key value : Bytes) :
    (key, value) ∈ core.listing now cf (core.sideExpired now cf) ↔
      ttlPrefix.isPrefixOf key = false ∧ (last key).bind (·.kept) = some value := by
  have sound := lasting.decided.sound.store
  have same : ∀ plain : ttlPrefix.isPrefixOf key = false, core.answer now cf key =
        core.shown now cf (core.sideExpired now cf) key := by
    intro plain
    by_cases missing : core.memtableRecord cf key = none
    · exact (answer_eq_shown_iff sound (lasting.valuesCached now)
        plain missing).mpr (lasting.sideAgrees now plain missing)
    · exact answer_eq_shown_of_memtable plain missing _
  constructor
  · intro member
    have plain := mem_listing_plain member
    refine ⟨plain, ?_⟩
    rw [← lasting.answer_eq plain now, same plain]
    exact (core.mem_listing now cf _ key value).mp member
  · rintro ⟨plain, written⟩
    rw [EngineCore.mem_listing, ← same plain, lasting.answer_eq plain now]
    exact written

theorem mem_rows (key value : Bytes) :
    (key, value) ∈ rows core cf ↔ ttlPrefix.isPrefixOf key = false ∧
      (last key).bind (·.kept) = some value := lasting.mem_listing 0 key value

theorem quiescent (clock : Nat → Nanos) :
    core.Quiescent options.storage clock cf (rows core cf) := by
  refine .of_listing lasting.decided.sound.store ?_ ?_
  · intro first second key
    rw [lasting.peek_reserved (isPrefixOf_ttlKey key), lasting.sideExpired_eq]
    rfl
  · intro reading
    apply (core.listing_sorted _ cf _).eq_of_mem_iff (core.listing_sorted 0 cf _)
    rintro ⟨key, value⟩
    rw [lasting.mem_listing, lasting.mem_listing]

theorem scanCf (now : Nanos) (lower upper : Option Bytes) (limit : Option Nat) :
    (core.scanCf now cf lower upper limit).2 = core := by
  have sound := lasting.decided.sound.store
  obtain ⟨keys, reads⟩ := core.scanCf_reads now cf lower upper limit
  rw [reads]
  apply readAll_of_absent sound
  intro key member
  obtain ⟨owner, _, rfl⟩ := List.mem_map.mp member
  exact lookup_of_absent sound now (lasting.sideless _ (isPrefixOf_ttlKey owner))

/-! ## Writes -/

section

variable (works : core.FlushWorks options clock cf)
include works

theorem flushSafe : core.FlushSafe options clock cf := by
  have unexpiring : ∀ key record, core.memtableRecord cf key = some record →
      record.expiresAt = none := fun key record held =>
    lasting.permanent key record (lasting.decided.memory key record held).2
  refine ⟨works.1, works.2, ?_, ?_, ?_⟩
  · intro key record held expired
    rw [isExpiredAt_of_none (unexpiring key record held)] at expired
    cases expired
  · exact fun key _ _ _ _ => lasting.sideless _ (isPrefixOf_ttlKey key)
  · intro owner record key held expires
    exact absurd (unexpiring owner record held) expires

theorem flush :
    Lasting options cf (core.flushMemtableImpl options clock cf).2 last := by
  have sound := lasting.decided.sound
  have safe := lasting.flushSafe works
  have decided := lasting.decided.flush (Fin.le_last _) safe
  have works := sound.flush_isOk safe.flushable
  have outcome := flushMemtableImpl_outcome options clock cf core
  generalize core.flushMemtableImpl options clock cf = result at outcome works decided ⊢
  cases outcome with
  | idle _ | synced _ _ _ =>
    exact ⟨decided, lasting.permanent, lasting.sideless, lasting.uncached⟩
  | failed _ _ _ _ _ _ | uncounted _ _ _ _ _ _ _ _ => cases works
  | written mem newest nonempty table dir done _ =>
    have placed := flushInstalled_of_done sound safe.fresh newest done
    refine ⟨decided, lasting.permanent, fun key reserved => ?_, fun key => ?_⟩
    swap
    · exact Std.ExtTreeMap.getElem?_empty
    have before := lasting.sideless key reserved
    refine (newestEntry_withTable sound.store safe.fresh placed.store key).trans ?_
    rw [before]
    cases flushed : (core.flushedRecords clock cf)[key]? with
    | none => rfl
    | some record =>
      rcases (placed.flushed_iff sound key record).mp flushed with
        ⟨held, _⟩ | ⟨owner, owned, expiry, held, _, expires, _⟩
      · rw [(lasting.decided.memory key record held).1] at reserved
        cases reserved
      · rw [lasting.permanent owner owned
          (lasting.decided.memory owner owned held).2] at expires
        cases expires

theorem flush_isOk :
    (core.flushMemtableImpl options clock cf).1.isOk = true :=
  lasting.decided.sound.flush_isOk works.2

end

theorem insertMemtable (bare : record.Bare)
    (plain : ttlPrefix.isPrefixOf record.key = false)
    (unexpiring : record.expiresAt = none) (size : Nat) :
    Lasting options cf (core.insertMemtable cf record size)
      (fun key => if record.key = key then some record else last key) := by
  refine ⟨lasting.decided.insertMemtable bare plain size, ?_, lasting.sideless,
    lasting.uncached⟩
  intro key other written
  split at written
  · cases written
    exact unexpiring
  · exact lasting.permanent key other written

theorem write (entry : WalEntry) (logged : entry.record.Bare) (bare : record.Bare)
    (plain : ttlPrefix.isPrefixOf record.key = false)
    (unexpiring : record.expiresAt = none)
    (works : core.InsertWorks options clock cf record size) :
    (((core.walHandle cf).writeRecord cf entry).insertRecord options clock
        cf record size).1.isOk = true ∧ Lasting options cf
        (((core.walHandle cf).writeRecord cf entry).insertRecord options clock cf record size).2
        (fun key => if record.key = key then some record else last key) := by
  have handled : Lasting options cf ((core.walHandle cf).writeRecord cf entry) last :=
    ⟨lasting.decided.withLogs _ ((lasting.decided.sound.memory.walHandle
      cf).writeRecord cf logged), lasting.permanent, lasting.sideless, lasting.uncached⟩
  have inserted := handled.insertMemtable bare plain unexpiring size
  unfold insertRecord
  dsimp only
  split
  · next full =>
    exact ⟨inserted.flush_isOk (works.flush full), inserted.flush (works.flush full)⟩
  · exact ⟨rfl, inserted⟩

theorem put (permanent : options.defaultTtl = none) {value : Bytes}
    (plain : ttlPrefix.isPrefixOf key = false) (fits : checkSizes key value = .ok ())
    (works : core.InsertWorks options context.flush cf
      (putRecord options context cf key value none) (key.length + value.length)) :
    (core.putCf options context cf key value none).1.isOk = true ∧
      Lasting options cf (core.putCf options context cf key value none).2
        (fun other => if key =
          other then some (putRecord options context cf key value none)
          else last other) := by
  have fields := putRecord_fields options context cf key value none
  have bare : (putRecord options context cf key value none).Bare :=
    bare_of_live fields.2.2.2.1
  have unexpiring : (putRecord options context cf key value none).expiresAt = none := by
    rw [putRecord, permanent]
    rfl
  have written := @write _ _ options cf core last context.flush lasting
    { nonce := context.nonce
      record := putRecord options context cf key value none }
    bare bare (by rwa [fields.1]) unexpiring works
  rw [fields.1] at written
  rw [putCf, fits]
  exact written

theorem deleteLocked (plain : ttlPrefix.isPrefixOf key = false)
    (works : core.InsertWorks options context.flush cf
      (.tombstone context.inserted key) key.length) :
    Lasting options cf (core.deleteLocked options context cf key).2
      (fun other => if key =
        other then some (.tombstone context.inserted key) else last other) :=
  (lasting.write _ (fun _ => rfl) (fun _ => rfl) plain rfl works).2

theorem getCf (now : Nanos) (nothing : ttlPrefix.isPrefixOf key = true ∨
      (last key).bind (·.kept) = none) : (core.getCf now cf key).2 = core := by
  have sound := lasting.decided.sound.store
  obtain ⟨keys, only, in_memory, reads⟩ := getCf_reads now cf key core
  rw [reads]
  apply readAll_of_absent sound
  intro read member
  rcases only read member with rfl | rfl
  · cases plain : ttlPrefix.isPrefixOf read with
    | true => exact lookup_of_absent sound now (lasting.sideless read plain)
    | false =>
      have gone := nothing.resolve_left (by simp [plain])
      have held : core.memtableRecord cf read = none := by
        by_contra present
        rw [in_memory present] at member
        cases member
      have newest := lasting.newestEntry_eq plain held
      cases found : core.newestEntry cf read with
      | none => exact lookup_of_absent sound now found
      | some entry =>
        rw [found, Option.map_some] at newest
        rw [← newest, Option.bind_some, kept] at gone
        apply lookup_of_newest sound none found
        cases deleted : entry.2.isDeleted with
        | true => simp [Table.verdict, deleted]
        | false => simp [deleted] at gone
  · exact lookup_of_absent sound now (lasting.sideless _ (isPrefixOf_ttlKey key))

end Lasting

end ApexStore
