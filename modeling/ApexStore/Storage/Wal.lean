import ApexStore.Library.BufReader
import ApexStore.Storage.RecordCodec
import ApexStore.Storage.Encryption

/-!
# The write-ahead log

A log file is a sequence of frames
`[length: u32][version: u8][payload][crc32: u32]`, where `length` counts the
version byte and the payload.  Recovery reads them back through a buffered
reader and tolerates damage: an implausible length makes it scan forward for
the next plausible frame, a bad checksum or an undecodable payload skips the
frame.  Only encrypted frames that cannot be opened abort it.
-/

namespace ApexStore

def maxWalRecordBytes : Nat := 32 * 1024 * 1024

/-- The default capacity of the standard library's `BufReader`. -/
def defaultBufSize : Nat := 8 * 1024

def walFrameVersionV0 : UInt8 := 0
def walFrameVersionV1 : UInt8 := 1
def walFrameVersionV2 : UInt8 := 2
def walFrameVersionV3Encrypted : UInt8 := 3

def crc32Bit (crc : UInt32) : UInt32 :=
  if crc &&& 1 = 1 then (crc >>> 1) ^^^ 0xEDB88320 else crc >>> 1

def crc32Byte (crc : UInt32) (byte : UInt8) : UInt32 :=
  Nat.repeat crc32Bit 8 (crc ^^^ byte.toUInt32)

def crc32 (bytes : Bytes) : UInt32 :=
  bytes.foldl crc32Byte 0xFFFFFFFF ^^^ 0xFFFFFFFF

def frameHead (version : UInt8) (payload : Bytes) : Bytes :=
  leBytes 4 (1 + payload.length) ++ version :: payload

def frameBytes (version : UInt8) (payload : Bytes) : Bytes :=
  frameHead version payload ++ leBytes 4 (crc32 (frameHead version payload)).toNat

/-- A record together with the nonce drawn when it is encrypted. -/
structure WalEntry where
  nonce : Nonce
  record : LogRecord
  deriving DecidableEq, Repr

/-- The log of one column family: what its file holds and how it encrypts. -/
structure WriteAheadLog where
  file : Bytes
  encryptor : Encryptor

namespace WriteAheadLog

def new (encryptor : Encryptor) : WriteAheadLog :=
  { file := [], encryptor }

/-- The version byte and payload a record is framed with. -/
def versionedPayload (encryptor : Encryptor) (entry : WalEntry) : UInt8 × Bytes :=
  let serialized := entry.record.encode
  if encryptor.isEnabled then
    (walFrameVersionV3Encrypted, encryptor.encryptBlock entry.nonce serialized)
  else (walFrameVersionV2, serialized)

def frame (encryptor : Encryptor) (entry : WalEntry) : Bytes :=
  let (version, payload) := versionedPayload encryptor entry
  frameBytes version payload

def frameLength (encryptor : Encryptor) (entry : WalEntry) : Nat :=
  1 + (versionedPayload encryptor entry).2.length

def writeRecord (log : WriteAheadLog) (entry : WalEntry) : WriteAheadLog :=
  { log with file := log.file ++ frame log.encryptor entry }

def writeBatch (log : WriteAheadLog) (entries : List WalEntry) : WriteAheadLog :=
  { log with file := log.file ++ entries.flatMap (frame log.encryptor) }

/-- `clear` replaces the file by an empty one. -/
def clear (log : WriteAheadLog) : WriteAheadLog :=
  { log with file := [] }

end WriteAheadLog

/-! ## Recovery -/

abbrev WalReader := BufReader defaultBufSize

/-- The test `resync_after_invalid_length` makes on the peeked bytes. -/
def plausibleFrameStart (fileSize pos : Nat) (peeked : Bytes) : Bool :=
  let candidate := leNat (peeked.take 4)
  decide (5 ≤ peeked.length) && decide (35 ≤ candidate ∧ candidate ≤ maxWalRecordBytes) &&
    decide (pos + 4 + candidate ≤ fileSize) && (peeked[4]?.any fun version =>
      version == walFrameVersionV0 || version == walFrameVersionV1 ||
        version == walFrameVersionV2 || version == walFrameVersionV3Encrypted)

/-- Scan forward byte by byte for a plausible frame start, for at most `scans`
bytes; `none` when none is found. -/
def resyncAfterInvalidLength (fileSize : Nat) : Nat → WalReader → Nat →
    Option (WalReader × Nat)
  | 0, _, _ => none
  | scans + 1, reader, pos =>
    match reader.read 1 with
    | ([], _) => none
    | (_ :: _, reader) =>
      let reader := reader.fillBuf
      if plausibleFrameStart fileSize (pos + 1) reader.buffered then
        some (reader, pos + 1)
      else resyncAfterInvalidLength fileSize scans reader (pos + 1)

/-- Decode a payload whose checksum is right.  `ok none` is a frame that
recovery skips. -/
def decodePayload (encryptor : Encryptor) (version : UInt8) (payload : Bytes) :
    Except LsmError (Option LogRecord) :=
  if version = walFrameVersionV0 then .ok (LogRecord.decodeV0 payload)
  else if version = walFrameVersionV1 then .ok (LogRecord.decodeV1 payload)
  else if version = walFrameVersionV2 then .ok (LogRecord.decode payload)
  else if version = walFrameVersionV3Encrypted then
    match encryptor.decryptForRecovery payload with
    | .error error => .error error
    | .ok decrypted =>
      match LogRecord.decode decrypted with
      | some record => .ok (some record)
      | none => .error .codec
  else .ok none

/-- What one pass of the recovery loop does: leave the loop, or go on from the
given reader and position, with the record it recovered if any. -/
inductive RecoveryStep where
  | stop
  | next (record : Option LogRecord) (reader : WalReader) (pos : Nat)

def resync (fileSize : Nat) (reader : WalReader) (pos : Nat) : RecoveryStep :=
  match resyncAfterInvalidLength fileSize maxWalRecordBytes reader pos with
  | some (reader, pos) => .next none reader pos
  | none => .stop

/-- The rest of a pass, once a length has been accepted. -/
def readFrameBody (encryptor : Encryptor) (lengthBytes : Bytes) (length : Nat)
    (reader : WalReader) (pos : Nat) : Except LsmError RecoveryStep :=
  match reader.readExact 1 with
  | none => .error .io
  | some (versionBytes, reader) =>
    match reader.readExact (length - 1) with
    | none => .ok .stop
    | some (payload, reader) =>
      match reader.readExact 4 with
      | none => .ok .stop
      | some (checksumBytes, reader) =>
        let pos := pos + 1 + (length - 1) + 4
        let calculated := crc32 (lengthBytes ++ versionBytes ++ payload)
        if leNat checksumBytes ≠ calculated.toNat then
          .ok (.next none reader pos)
        else
          match decodePayload encryptor (versionBytes.headD 0) payload with
          | .error error => .error error
          | .ok record => .ok (.next record reader pos)

/-- One pass of the loop in `recover_locked`. -/
def recoveryStep (encryptor : Encryptor) (fileSize : Nat) (reader : WalReader)
    (pos : Nat) : Except LsmError RecoveryStep :=
  let reader := reader.fillBuf
  if reader.buffered = [] then .ok .stop
  -- The source takes a chunk of less than four bytes for a torn tail.
  else if reader.buffered.length < 4 then .ok .stop
  else
    match reader.readExact 4 with
    | none => .error .io
    | some (lengthBytes, reader) =>
      let pos := pos + 4
      let length := leNat lengthBytes
      if length = 0 ∨ maxWalRecordBytes < length then
        .ok (resync fileSize reader pos)
      else if fileSize < pos + (1 + (length - 1) + 4) then
        .ok (resync fileSize reader pos)
      else readFrameBody encryptor lengthBytes length reader pos

variable {pos pos' : Nat} {reader reader' : WalReader}

variable {fileSize : Nat} {encryptor : Encryptor} {record : Option LogRecord}

theorem resyncAfterInvalidLength_decreases {scans : Nat}
    (found : resyncAfterInvalidLength fileSize scans reader pos =
      some (reader', pos')) :
    reader'.unread.length < reader.unread.length := by
  induction scans generalizing reader pos with
  | zero => cases found
  | succ scans ih =>
    rw [resyncAfterInvalidLength] at found
    have consumed := congrArg List.length (reader.read_append 1)
    split at found
    · cases found
    · next byte rest after part =>
      simp only [part, List.length_append, List.length_cons] at consumed
      have filled := congrArg List.length after.unread_fillBuf
      dsimp only at found
      split at found
      · cases found
        omega
      · have later := ih found
        omega

theorem readFrameBody_decreases {lengthBytes : Bytes} {length : Nat}
    (went : readFrameBody encryptor lengthBytes length reader pos =
      .ok (.next record reader' pos')) :
    reader'.unread.length < reader.unread.length := by
  unfold readFrameBody at went
  split at went
  · cases went
  · next versionBytes afterVersion version =>
    have first := BufReader.readExact_length version
    split at went
    · cases went
    · next payload afterPayload body =>
      have second := BufReader.readExact_length body
      split at went
      · cases went
      · next checksumBytes afterChecksum checksum =>
        have third := BufReader.readExact_length checksum
        have last : reader' = afterChecksum := by
          dsimp only at went
          split at went
          · cases went
            rfl
          · split at went
            · cases went
            · cases went
              rfl
        rw [last]
        omega

theorem recoveryStep_decreases (went : recoveryStep encryptor fileSize reader pos =
      .ok (.next record reader' pos')) :
    reader'.unread.length < reader.unread.length := by
  have filled := congrArg List.length reader.unread_fillBuf
  have resyncs : ∀ {start : WalReader} {pos : Nat},
      resync fileSize start pos = .next record reader' pos' →
      reader'.unread.length < start.unread.length := by
    intro start pos moved
    unfold resync at moved
    split at moved
    · next found =>
      cases moved
      exact resyncAfterInvalidLength_decreases found
    · cases moved
  unfold recoveryStep at went
  dsimp only at went
  split at went
  · cases went
  split at went
  · cases went
  split at went
  · cases went
  next lengthBytes afterLength header =>
    have first := BufReader.readExact_length header
    split at went
    · have later := resyncs (Except.ok.inj went)
      omega
    split at went
    · have later := resyncs (Except.ok.inj went)
      omega
    · have later := readFrameBody_decreases went
      omega

/-- The loop of `recover_locked`. -/
def recoverLoop (encryptor : Encryptor) (fileSize : Nat) (reader : WalReader)
    (pos : Nat) : Except LsmError (List LogRecord) :=
  match _pass : recoveryStep encryptor fileSize reader pos with
  | .error error => .error error
  | .ok .stop => .ok []
  | .ok (.next record reader pos) =>
    match recoverLoop encryptor fileSize reader pos with
    | .error error => .error error
    | .ok records => .ok (record.toList ++ records)
termination_by reader.unread.length
decreasing_by exact recoveryStep_decreases _pass

/-! ## Deduplication -/

/-- What `deduplicate_records` identifies point records by. -/
def LogRecord.pointKey (record : LogRecord) : String × Bytes :=
  (record.family, record.key)

/-- `HashMap::insert` on a map kept as a list of entries; what is read of the
map does not depend on their order. -/
def insertEntry {κ ν : Type} [DecidableEq κ] (entries : List (κ × ν)) (key : κ)
    (value : ν) : List (κ × ν) :=
  (key, value) :: entries.filter (fun entry => decide (entry.1 ≠ key))

/-- The state of the scan in `deduplicate_records`: the positions of the range
tombstones and the last position of each point key. -/
structure Occurrences where
  keep : List Nat
  lastOccurrence : List ((String × Bytes) × Nat)

def Occurrences.visit (seen : Occurrences) (item : LogRecord × Nat) : Occurrences :=
  if item.1.isRangeTombstone then { seen with keep := seen.keep ++ [item.2] }
  else
    { seen with
      lastOccurrence :=
        insertEntry seen.lastOccurrence item.1.pointKey item.2 }

def deduplicateRecords (records : List LogRecord) : List LogRecord :=
  let seen := records.zipIdx.foldl Occurrences.visit ⟨[], []⟩
  let keep := (seen.keep ++ seen.lastOccurrence.map (·.2)).mergeSort
  keep.filterMap (fun position => records[position]?)

def WriteAheadLog.recover (log : WriteAheadLog) : Except LsmError (List LogRecord) :=
  match recoverLoop log.encryptor log.file.length (BufReader.ofFile log.file) 0
    with
  | .error error => .error error
  | .ok records => .ok (deduplicateRecords records)

end ApexStore
