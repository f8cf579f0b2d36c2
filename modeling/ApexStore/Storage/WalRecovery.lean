import ApexStore.Storage.WalDedup

/-!
# What recovery returns for an intact log

An intact log is a concatenation of frames.  One pass of the recovery loop
over a frame returns its record and leaves the reader at the next frame, as
long as the chunk holds at least four bytes at the frame's start
(`recoveryStep_frame`).  Where the chunk boundaries fall is a computation on
frame lengths alone, so the number of frames that are read back is one too
(`readableFrames`), and recovery returns exactly those
(`recover_of_frames`).
-/

namespace ApexStore

open WriteAheadLog BufReader List

/-- The shape after the four reads that consume a frame. -/
def ChunkShape.afterFrame (shape : ChunkShape) (length : Nat) : ChunkShape :=
  let read := readExact defaultBufSize
  read (read (read (read shape 4) 1) (length - 1)) 4

/-- How many frames of a log recovery reaches, given the shape of the reader
and the length fields of the frames: it stops at the first frame whose start
leaves fewer than four bytes of the current chunk. -/
def readableFrames (shape : ChunkShape) : List Nat → Nat
  | [] => 0
  | length :: lengths =>
    let filled := shape.fill defaultBufSize
    if filled.buffered < 4 then 0
    else readableFrames (filled.afterFrame length) lengths + 1

namespace WriteAheadLog

variable {encryptor : Encryptor}

variable {entry : WalEntry}

theorem decodePayload_versionedPayload (encryptor : Encryptor)
    (encodable : entry.record.Encodable) :
    decodePayload encryptor (versionedPayload encryptor entry).1
      (versionedPayload encryptor entry).2 = .ok (some entry.record) := by
  unfold versionedPayload
  split
  · next enabled =>
    simp [decodePayload, walFrameVersionV0, walFrameVersionV1,
      walFrameVersionV2, walFrameVersionV3Encrypted,
      Encryptor.decryptForRecovery_encryptBlock enabled, LogRecord.decode_encode encodable]
  · simp [decodePayload, walFrameVersionV0, walFrameVersionV1,
      walFrameVersionV2, LogRecord.decode_encode encodable]

theorem encodable_of_frameLength
    (bound : frameLength encryptor entry ≤ maxWalRecordBytes) :
    entry.record.Encodable := by
  have grows : entry.record.encode.length ≤ (versionedPayload encryptor entry).2.length := by
    unfold versionedPayload
    split
    · exact encryptor.length_le_encryptBlock entry.nonce _
    · exact Nat.le_refl _
  apply LogRecord.encodable_of_length
  unfold frameLength maxWalRecordBytes at bound
  omega

theorem length_frame (encryptor : Encryptor) (entry : WalEntry) :
    (frame encryptor entry).length = frameLength encryptor entry + 8 := by
  simp [frame, frameBytes, frameHead, frameLength]
  omega

end WriteAheadLog

variable {encryptor : Encryptor} {reader : WalReader} {fileSize pos : Nat}

variable {rest : Bytes}

theorem readFrameBody_frame {version : UInt8} {payload : Bytes}
    {record : LogRecord}
    (decodes : decodePayload encryptor version payload = .ok (some record))
    (unread : reader.unread = version :: payload ++
      leBytes 4 (crc32 (frameHead version payload)).toNat ++ rest) (pos : Nat) :
    ∃ next : WalReader,
      readFrameBody encryptor (leBytes 4 (1 + payload.length))
        (1 + payload.length) reader pos =
        .ok (.next (some record) next (pos + 1 + payload.length + 4)) ∧
          next.unread = rest ∧
      next.shape = ((reader.shape.readExact defaultBufSize 1).readExact defaultBufSize
          payload.length).readExact defaultBufSize 4 := by
  have total := congrArg List.length unread
  simp only [length_append, length_leBytes] at total
  obtain ⟨afterVersion, version_read, version_unread, version_shape⟩ :=
    reader.readExact_eq 1 (by omega)
  rw [unread] at version_read version_unread
  simp only [cons_append, drop_succ_cons, drop_zero] at version_read version_unread
  obtain ⟨afterPayload, payload_read, payload_unread, payload_shape⟩ :=
    afterVersion.readExact_eq payload.length (by rw [version_unread]; simp)
  rw [version_unread] at payload_read payload_unread
  simp only [append_assoc, take_left, drop_left] at payload_read payload_unread
  obtain ⟨afterChecksum, checksum_read, checksum_unread, checksum_shape⟩ :=
    afterPayload.readExact_eq 4 (by rw [payload_unread]; simp)
  rw [payload_unread] at checksum_read checksum_unread
  have fits : (crc32 (frameHead version payload)).toNat < 256 ^ 4 :=
    (crc32 (frameHead version payload)).toNat_lt
  have head : leBytes 4 (1 + payload.length) ++ [version] ++ payload =
      frameHead version payload := by
    simp [frameHead]
  refine ⟨afterChecksum, ?_, checksum_unread, ?_⟩
  · simp [readFrameBody, version_read, payload_read, checksum_read, head,
      leNat_leBytes fits, decodes]
  · rw [checksum_shape, payload_shape, version_shape]

/-- One pass over an intact frame returns its record, provided the frame's
length field does not straddle the end of the chunk. -/
theorem recoveryStep_frame {entry : WalEntry}
    (bound : frameLength encryptor entry ≤ maxWalRecordBytes)
    (unread : reader.unread = WriteAheadLog.frame encryptor entry ++ rest)
    (position : pos + reader.unread.length = fileSize)
    (whole : ¬ (reader.shape.fill defaultBufSize).buffered < 4) : ∃ next : WalReader,
      recoveryStep encryptor fileSize reader pos = .ok (.next (some entry.record) next
          (pos + (WriteAheadLog.frame encryptor entry).length)) ∧ next.unread = rest ∧
      next.shape = (reader.shape.fill defaultBufSize).afterFrame
        (frameLength encryptor entry) ∧
      pos + (WriteAheadLog.frame encryptor entry).length + next.unread.length =
        fileSize := by
  have decodes := decodePayload_versionedPayload encryptor (encodable_of_frameLength bound)
  have size := length_frame encryptor entry
  rw [unread, length_append] at position
  rw [← shape_fillBuf] at whole ⊢
  rw [← unread_fillBuf] at unread
  obtain ⟨version, payload, versioned⟩ : ∃ version payload,
        versionedPayload encryptor entry = (version, payload) := ⟨_, _, rfl⟩
  simp only [frameLength, WriteAheadLog.frame,
    versioned] at bound decodes size position unread ⊢
  simp only [frameBytes, frameHead, append_assoc] at unread
  have total := congrArg List.length unread
  simp only [length_append, length_leBytes] at total
  obtain ⟨afterLength, length_read, length_unread, length_shape⟩ :=
    reader.fillBuf.readExact_eq 4 (by omega)
  rw [unread] at length_read length_unread
  rw [take_left' (length_leBytes 4 _)] at length_read
  have body_unread : afterLength.unread = version :: payload ++
      leBytes 4 (crc32 (frameHead version payload)).toNat ++ rest := by
    simpa [frameHead] using length_unread
  obtain ⟨next, body, next_unread, next_shape⟩ :=
    readFrameBody_frame decodes body_unread (pos + 4)
  have fits : 1 + payload.length < 256 ^ 4 := by
    unfold maxWalRecordBytes at bound
    omega
  have chunk : ¬ reader.fillBuf.buffered.length < 4 := whole
  have nonempty : reader.fillBuf.buffered ≠ [] := by
    intro empty
    simp [empty] at chunk
  refine ⟨next, ?_, next_unread, ?_, by rw [next_unread]; omega⟩
  · have inside : ¬ fileSize < pos + 4 + (1 + (1 + payload.length - 1) + 4) := by
      omega
    have accepted :
        ¬ (1 + payload.length = 0 ∨ maxWalRecordBytes < 1 + payload.length) := by omega
    simp only [recoveryStep, nonempty, chunk, length_read, leNat_leBytes fits,
      if_neg accepted, if_neg inside, if_false, body]
    simp only [Except.ok.injEq, RecoveryStep.next.injEq, true_and]
    omega
  · rw [next_shape, length_shape]
    simp [ChunkShape.afterFrame]

theorem recoverLoop_of_stop
    (stops : recoveryStep encryptor fileSize reader pos = .ok .stop) :
    recoverLoop encryptor fileSize reader pos = .ok [] := by
  rw [recoverLoop]
  split <;> simp_all

theorem recoverLoop_of_end (ended : reader.unread = []) :
    recoverLoop encryptor fileSize reader pos = .ok [] := by
  have empty : reader.fillBuf.buffered = [] :=
    (fillBuf_buffered_eq_nil (by decide) reader).mpr ended
  exact recoverLoop_of_stop (by simp [recoveryStep, empty])

theorem recoverLoop_of_next {pos' : Nat} {reader' : WalReader}
    {record : Option LogRecord} {records : List LogRecord}
    (went : recoveryStep encryptor fileSize reader pos =
      .ok (.next record reader' pos'))
    (later : recoverLoop encryptor fileSize reader' pos' = .ok records) :
    recoverLoop encryptor fileSize reader pos = .ok (record.toList ++ records) := by
  rw [recoverLoop]
  split <;> simp_all

/-- Recovery of a run of intact frames returns the records of those frames
whose start it reaches. -/
theorem recoverLoop_frames (entries : List WalEntry) (bound : ∀ entry ∈ entries,
      frameLength encryptor entry ≤ maxWalRecordBytes) (unread : reader.unread =
      entries.flatMap (WriteAheadLog.frame encryptor))
    (position : pos + reader.unread.length = fileSize) :
    recoverLoop encryptor fileSize reader pos =
      .ok ((entries.take (readableFrames reader.shape
        (entries.map (frameLength encryptor)))).map (·.record)) := by
  induction entries generalizing reader pos with
  | nil => exact recoverLoop_of_end unread
  | cons entry entries ih =>
    rw [flatMap_cons] at unread
    rw [map_cons, readableFrames]
    by_cases short : (reader.shape.fill defaultBufSize).buffered < 4
    · have stops : recoveryStep encryptor fileSize reader pos = .ok .stop := by
        have chunk : reader.fillBuf.buffered.length < 4 := by
          rwa [← shape_fillBuf] at short
        simp [recoveryStep, chunk]
      rw [recoverLoop_of_stop stops]
      simp [short]
    · obtain ⟨next, step, next_unread, next_shape, moved⟩ :=
        recoveryStep_frame (bound entry mem_cons_self) unread position short
      have later := ih (forall_mem_cons.mp bound).2
        next_unread moved
      rw [recoverLoop_of_next step later, next_shape]
      simp [short]

theorem WriteAheadLog.recover_of_frames {log : WriteAheadLog} {entries : List WalEntry}
    (bound : ∀ entry ∈ entries, frameLength log.encryptor entry ≤ maxWalRecordBytes)
    (intact : log.file = entries.flatMap (frame log.encryptor)) :
    log.recover = .ok (deduplicateRecords
      ((entries.take (readableFrames ⟨0, log.file.length⟩
        (entries.map (frameLength log.encryptor)))).map (·.record))) := by
  have unread : (ofFile log.file : WalReader).unread =
      entries.flatMap (frame log.encryptor) := intact
  have whole : 0 + (ofFile log.file : WalReader).unread.length =
      log.file.length := by simp [ofFile, BufReader.unread]
  rw [recover, recoverLoop_frames entries bound unread whole]
  rfl

/-! ## Runs of writes to a fresh log -/

/-- A call that appends to the log. -/
inductive WalCall where
  | writeRecord (entry : WalEntry)
  | writeBatch (entries : List WalEntry)

namespace WalCall

def entries : WalCall → List WalEntry
  | writeRecord entry => [entry]
  | writeBatch entries => entries

def apply (log : WriteAheadLog) : WalCall → WriteAheadLog
  | writeRecord entry => log.writeRecord entry
  | writeBatch entries => log.writeBatch entries

def run (encryptor : Encryptor) (calls : List WalCall) : WriteAheadLog :=
  calls.foldl apply (WriteAheadLog.new encryptor)

theorem apply_eq (log : WriteAheadLog) (call : WalCall) : call.apply log =
      { log with
        file := log.file ++ call.entries.flatMap
          (WriteAheadLog.frame log.encryptor) } := by
  cases call <;> simp [apply, entries, WriteAheadLog.writeRecord, WriteAheadLog.writeBatch]

/-- However the records were grouped into calls, the file is the
concatenation of their frames. -/
theorem run_eq (encryptor : Encryptor) (calls : List WalCall) : run encryptor calls =
      { file := (calls.flatMap entries).flatMap (WriteAheadLog.frame encryptor)
        encryptor } := by
  induction calls using List.reverseRecOn with
  | nil => rfl
  | append_singleton calls call ih =>
    unfold run at ih ⊢
    rw [foldl_concat, ih, apply_eq]
    simp

end WalCall

/-- How many of the entries recovery reads back from an intact log that holds
exactly their frames. -/
def reachedEntries (encryptor : Encryptor) (entries : List WalEntry) : Nat :=
  readableFrames ⟨0, (entries.flatMap (WriteAheadLog.frame encryptor)).length⟩
    (entries.map (frameLength encryptor))

theorem WalCall.recover_run (encryptor : Encryptor) (calls : List WalCall)
    (bound : ∀ entry ∈ calls.flatMap WalCall.entries,
      frameLength encryptor entry ≤ maxWalRecordBytes) :
    (run encryptor calls).recover =
      .ok (deduplicateRecords (((calls.flatMap entries).take
          (reachedEntries encryptor (calls.flatMap entries))).map (·.record))) := by
  rw [run_eq]
  exact recover_of_frames bound rfl

/-- Recovery of an intact log returns every record written to it, deduplicated,
exactly when the records behind the first frame whose length field straddles
the end of a chunk are point records that repeat the end of the log before
them. -/
theorem recover_complete_iff (encryptor : Encryptor) (calls : List WalCall)
    (bound : ∀ entry ∈ calls.flatMap WalCall.entries,
      frameLength encryptor entry ≤ maxWalRecordBytes) :
    let entries := calls.flatMap WalCall.entries
    let reached := reachedEntries encryptor entries
    let lost := (entries.drop reached).map (·.record)
    (WalCall.run encryptor calls).recover =
        .ok (deduplicateRecords (entries.map (·.record))) ↔
      (∀ record ∈ lost, record.isRangeTombstone = false) ∧
        deduplicateRecords lost <:+
          deduplicateRecords ((entries.take reached).map (·.record)) := by
  intro entries reached lost
  have split : entries.map (·.record) = (entries.take reached).map (·.record) ++ lost := by
    rw [← map_append, take_append_drop]
  rw [WalCall.recover_run encryptor calls bound, Except.ok.injEq, split, eq_comm]
  exact deduplicateRecords_append_eq_iff _ _

/-- Two short records fit one chunk and both come back. -/
theorem recover_complete_of_short_log :
    let encryptor := Encryptor.disabled Aes256Gcm.blank
    let nonce : Nonce := Vector.replicate 12 0
    let first : WalEntry := ⟨nonce, LogRecord.new 1 [1] [10]⟩
    let second : WalEntry := ⟨nonce, LogRecord.new 2 [2] [20]⟩
    (WalCall.run encryptor [.writeRecord first, .writeBatch [second]]).recover =
      .ok (deduplicateRecords [first.record, second.record]) := by
  intro encryptor nonce first second
  apply (recover_complete_iff encryptor
    [.writeRecord first, .writeBatch [second]] (by decide +kernel)).mpr
  decide +kernel

private theorem straddling_frameLength {value : Bytes}
    (size : value.length = 8171) (nonce : Nonce) :
    frameLength (Encryptor.disabled Aes256Gcm.blank)
      ⟨nonce, LogRecord.new 0 [] value⟩ = 8181 := by
  simp [frameLength, versionedPayload, Encryptor.isEnabled, Encryptor.disabled,
    EncryptionConfig.default, LogRecord.encode, LogRecord.new, encodeBytes,
      encodeU128, encodeBool,
    encodeOption, length_encodeVarint_of_lt_128, length_encodeVarint_of_lt_16384, size]

/-- A frame of 8189 bytes leaves three bytes of the first chunk; recovery takes
them for a torn tail and drops the record that starts there. -/
theorem recover_drops_straddling_record :
    let encryptor := Encryptor.disabled Aes256Gcm.blank
    let nonce : Nonce := Vector.replicate 12 0
    let first : WalEntry :=
      ⟨nonce, LogRecord.new 0 [] (List.replicate 8171 0)⟩
    let second : WalEntry := ⟨nonce, LogRecord.new 1 [1] [2]⟩
    (∀ entry ∈ [first, second], frameLength encryptor entry ≤ maxWalRecordBytes) ∧
    (WalCall.run encryptor
        [.writeRecord first, .writeRecord second]).recover ≠
      .ok (deduplicateRecords [first.record, second.record]) := by
  intro encryptor nonce first second
  have first_length : frameLength encryptor first = 8181 :=
    straddling_frameLength length_replicate nonce
  have second_length : frameLength encryptor second = 11 := by decide +kernel
  have bound :
      ∀ entry ∈ [first, second], frameLength encryptor entry ≤ maxWalRecordBytes := by
    simp [first_length, second_length, maxWalRecordBytes]
  refine ⟨bound, ?_⟩
  have reached : reachedEntries encryptor [first, second] = 1 := by
    simp only [reachedEntries, flatMap_cons,
      length_append, length_frame, map_cons, first_length, second_length]
    decide
  have entries : [WalCall.writeRecord first, .writeRecord second].flatMap
      WalCall.entries = [first, second] := rfl
  have recovered :=
    WalCall.recover_run encryptor [.writeRecord first, .writeRecord second] bound
  rw [entries, reached] at recovered
  have both : second.record.survives first.record = true := by decide +kernel
  rw [recovered, Ne, Except.ok.injEq]
  intro same
  have lengths := congrArg List.length same
  simp [deduplicateRecords_eq, supersede, both] at lengths

end ApexStore
