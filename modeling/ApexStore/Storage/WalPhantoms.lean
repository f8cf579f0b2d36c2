import ApexStore.Storage.WalTorn

/-!
# Records that recovery makes up

Where a frame is torn, recovery scans its bytes for something that looks like
a frame, and these bytes are the keys and values of whoever wrote the record.
A complete frame among them is taken for a record of the log
(`mem_recover_of_hidden`).  Nothing else is made up: behind the last frame that is
complete and not too long, every record that is recovered stands in a complete
frame (`recoverLoop_tail`), so without frames of other records there all
recovered records were appended.
-/

namespace ApexStore

open WriteAheadLog BufReader List

/-- The bytes begin with a complete frame that recovery takes a record from. -/
def BeginsWithFrame (encryptor : Encryptor) (bytes : Bytes) (record : LogRecord) :
    Prop :=
  ∃ version payload rest, bytes = frameBytes version payload ++ rest ∧
    1 + payload.length ≤ maxWalRecordBytes ∧
    decodePayload encryptor version payload = .ok (some record)

/-! ## What one pass does -/

variable {fileSize pos pos' offset : Nat} {reader reader' : WalReader}
  {encryptor : Encryptor} {records : List LogRecord} {torn : Bytes}
  {hidden : WalEntry}

variable {scans length start : Nat} {record : Option LogRecord}
  {entries : List WalEntry}

theorem resyncAfterInvalidLength_drop
    (found : resyncAfterInvalidLength fileSize scans reader pos =
      some (reader', pos')) :
    ∃ skipped, 0 < skipped ∧
      reader'.unread = reader.unread.drop skipped ∧ pos' = pos + skipped := by
  induction scans generalizing reader pos with
  | zero => cases found
  | succ scans ih =>
    rw [resyncAfterInvalidLength] at found
    have consumed := reader.read_append 1
    have limit := reader.read_length_le 1
    split at found
    · cases found
    · next byte rest after part =>
      simp only [part, length_cons] at consumed limit
      have single : rest = [] := eq_nil_of_length_eq_zero (by omega)
      subst single
      have left : after.fillBuf.unread = reader.unread.drop 1 := by
        rw [after.unread_fillBuf, ← consumed]
        rfl
      dsimp only at found
      split at found
      · cases found
        exact ⟨1, Nat.one_pos, left, rfl⟩
      · obtain ⟨skipped, _, unread, moved⟩ := ih found
        refine ⟨1 + skipped, by omega, ?_, by omega⟩
        rw [unread, left, drop_drop]

/-- A body that was read stands behind its length, and the record comes from
a frame whose checksum is right. -/
theorem readFrameBody_drop {lengthBytes : Bytes} (four : lengthBytes.length = 4)
    (named : leNat lengthBytes = length) (positive : 0 < length)
    (bounded : length ≤ maxWalRecordBytes)
    (went : readFrameBody encryptor lengthBytes length reader pos =
      .ok (.next record reader' pos')) :
    reader'.unread = reader.unread.drop (length + 4) ∧
      pos' = pos + (length + 4) ∧ ∀ found, record = some found →
        BeginsWithFrame encryptor (lengthBytes ++ reader.unread) found := by
  unfold readFrameBody at went
  split at went
  · cases went
  next versionBytes afterVersion version =>
    obtain ⟨first, one⟩ := readExact_append version
    split at went
    · cases went
    next payload afterPayload body =>
      obtain ⟨second, size⟩ := readExact_append body
      split at went
      · cases went
      next checksumBytes afterChecksum checksum =>
        obtain ⟨third, last⟩ := readExact_append checksum
        obtain ⟨byte, rfl⟩ := length_eq_one_iff.mp one
        have whole : reader.unread = byte :: payload ++ checksumBytes ++ afterChecksum.unread := by
          rw [← first, ← second, ← third]
          simp
        have left : afterChecksum.unread = reader.unread.drop (length + 4) := by
          rw [whole, drop_left']
          simp only [length_append, length_cons]
          omega
        dsimp only at went
        split at went
        · cases went
          exact ⟨left, by omega, by simp⟩
        · next sum =>
          split at went
          · cases went
          next decoded decodes =>
            cases went
            refine ⟨left, by omega, ?_⟩
            rintro found rfl
            refine ⟨byte, payload, reader'.unread, ?_, by omega, decodes⟩
            have counted : 1 + payload.length = length := by omega
            have head : frameHead byte payload = lengthBytes ++ [byte] ++ payload := by
              rw [frameHead, counted, ← named, ← four, leBytes_leNat]
              simp
            have crc : leBytes 4 (crc32 (frameHead byte payload)).toNat =
                checksumBytes := by
              rw [head, ← of_not_not sum, ← last, leBytes_leNat]
            rw [frameBytes, crc, head, whole]
            simp only [append_assoc, cons_append, nil_append]

/-- A pass that goes on has left the length field and at least one byte more
behind; a record it returns comes from a complete frame. -/
theorem recoveryStep_drop
    (went : recoveryStep encryptor fileSize reader pos =
      .ok (.next record reader' pos')) :
    (∃ skipped, 5 ≤ skipped ∧ reader'.unread = reader.unread.drop skipped ∧
      pos' = pos + skipped) ∧
      ∀ found, record = some found →
        BeginsWithFrame encryptor reader.unread found := by
  have resyncs : ∀ {start : WalReader}, start.unread = reader.unread.drop 4 →
      resync fileSize start (pos + 4) = .next record reader' pos' → (∃ skipped, 5 ≤ skipped ∧
        reader'.unread = reader.unread.drop skipped ∧ pos' = pos + skipped) ∧
          record = none := by
    intro start behind moved
    unfold resync at moved
    split at moved
    · next found =>
      cases moved
      obtain ⟨skipped, some_bytes, unread, position⟩ := resyncAfterInvalidLength_drop found
      refine ⟨⟨4 + skipped, by omega, ?_, by omega⟩, rfl⟩
      rw [unread, behind, drop_drop]
    · cases moved
  unfold recoveryStep at went
  dsimp only at went
  split at went
  · cases went
  split at went
  · cases went
  split at went
  · cases went
  next lengthBytes afterLength header =>
    obtain ⟨whole, four⟩ := readExact_append header
    rw [unread_fillBuf] at whole
    have behind : afterLength.unread = reader.unread.drop 4 := by
      rw [← whole, drop_left' four]
    split at went
    · obtain ⟨moved, nothing⟩ := resyncs behind (Except.ok.inj went)
      exact ⟨moved, by simp [nothing]⟩
    next accepted =>
    split at went
    · obtain ⟨moved, nothing⟩ := resyncs behind (Except.ok.inj went)
      exact ⟨moved, by simp [nothing]⟩
    · obtain ⟨unread, position, framed⟩ :=
        readFrameBody_drop four rfl (by omega) (by omega) went
      rw [whole] at framed
      refine ⟨⟨4 + (leNat lengthBytes + 4), by omega, ?_, by omega⟩, framed⟩
      rw [unread, behind, drop_drop]

theorem recoverLoop_ok
    (done : recoverLoop encryptor fileSize reader pos = .ok records) :
    records = [] ∨ ∃ record reader' pos' later,
      recoveryStep encryptor fileSize reader pos =
        .ok (.next record reader' pos') ∧
          recoverLoop encryptor fileSize reader' pos' = .ok later ∧
      records = record.toList ++ later := by
  rw [recoverLoop] at done
  split at done
  · cases done
  · cases done
    exact .inl rfl
  · next record reader' pos' step =>
    split at done
    · cases done
    · next later rest =>
      cases done
      exact .inr ⟨record, reader', pos', later, step, rest, rfl⟩

/-! ## Whole files -/

/-- A place at which recovery may look for a frame, in bytes that start with a
frame it cannot step over. -/
def ScanPlace (offset : Nat) : Prop := offset = 0 ∨ 5 ≤ offset

/-- Wherever the scan goes from there, what it recovers stands in a complete
frame. -/
theorem recoverLoop_tail {tail : Bytes} (place : ScanPlace offset)
    (unread : reader.unread = tail.drop offset)
    (done : recoverLoop encryptor fileSize reader pos = .ok records)
    {record : LogRecord} (member : record ∈ records) : ∃ offset, ScanPlace offset ∧
      BeginsWithFrame encryptor (tail.drop offset) record := by
  induction size : reader.unread.length using Nat.strong_induction_on
    generalizing reader pos offset records with
  | _ size ih =>
    rcases recoverLoop_ok done with rfl | ⟨found, reader', pos', later, step, rest, rfl⟩
    · cases member
    obtain ⟨⟨skipped, enough, left, _⟩, framed⟩ := recoveryStep_drop step
    rcases mem_append.mp member with first | after
    · refine ⟨offset, place, ?_⟩
      rw [← unread]
      exact framed record (Option.mem_toList.mp first)
    · rw [unread, drop_drop] at left
      have fewer := recoveryStep_decreases step
      exact ih _ (by omega) (.inr (by omega)) left rest after rfl

/-- What follows the frames that are complete and not too long, in the first
bytes of the frames of some records. -/
def logTail (encryptor : Encryptor) : Nat → List WalEntry → Bytes
  | _, [] => []
  | cut, entry :: entries =>
    if frameLength encryptor entry ≤ maxWalRecordBytes ∧
        (WriteAheadLog.frame encryptor entry).length ≤ cut then
      logTail encryptor (cut - (WriteAheadLog.frame encryptor entry).length) entries
    else
      ((entry :: entries).flatMap (WriteAheadLog.frame encryptor)).take cut

/-- Recovery gets to the tail, and the length of the frame there is in its
buffer: before a length that is not, it stops. -/
def scansTail (encryptor : Encryptor) : ChunkShape → Nat → List WalEntry → Bool
  | _, _, [] => true
  | shape, cut, entry :: entries =>
    let filled := shape.fill defaultBufSize
    if filled.buffered < 4 then false
    else if frameLength encryptor entry ≤ maxWalRecordBytes ∧
        (WriteAheadLog.frame encryptor entry).length ≤ cut then
      scansTail encryptor (filled.afterFrame (frameLength encryptor entry))
        (cut - (WriteAheadLog.frame encryptor entry).length) entries
    else true

/-- The loop over the first bytes of a log: a record is that of one of the
frames, or stands in a complete frame in the tail that recovery scans. -/
theorem recoverLoop_cut {cut : Nat}
    (unread : reader.unread =
      (entries.flatMap (WriteAheadLog.frame encryptor)).take cut)
    (position : pos + reader.unread.length = fileSize)
    (done : recoverLoop encryptor fileSize reader pos = .ok records)
    {record : LogRecord} (member : record ∈ records) :
    record ∈ entries.map (·.record) ∨
      scansTail encryptor reader.shape cut entries = true ∧
        ∃ offset, ScanPlace offset ∧
        BeginsWithFrame encryptor
          ((logTail encryptor cut entries).drop offset) record := by
  induction entries generalizing cut pos records reader with
  | nil =>
    refine .inr ⟨rfl, recoverLoop_tail (.inl rfl) ?_ done member⟩
    rw [unread, logTail]
    simp
  | cons entry entries ih =>
    have long : ¬ (reader.shape.fill defaultBufSize).buffered < 4 := by
      intro short
      rcases recoverLoop_ok done with rfl | ⟨_, _, _, _, step, _⟩
      · cases member
      rw [← shape_fillBuf] at short
      have chunk : reader.fillBuf.buffered.length < 4 := short
      simp [recoveryStep, chunk] at step
    rw [logTail, scansTail, if_neg long]
    split
    · next intact =>
      obtain ⟨bounded, whole⟩ := intact
      rw [flatMap_cons, take_append, take_of_length_le whole] at unread
      rcases recoverLoop_ok done with rfl | ⟨found, reader', pos', later, step, rest, rfl⟩
      · cases member
      obtain ⟨next, taken, left, shape, _⟩ := recoveryStep_frame bounded unread position long
      have moved : pos + (frame encryptor entry).length +
          next.unread.length = fileSize := by
        rw [← position, unread, left, length_append]
        omega
      cases taken.symm.trans step
      rcases mem_append.mp member with first | after
      · obtain rfl : record = entry.record := by simpa using first
        exact .inl mem_cons_self
      · rcases ih left moved rest after with known | hidden
        · exact .inl (mem_cons_of_mem _ known)
        · rw [← shape]
          exact .inr hidden
    · exact .inr ⟨rfl, recoverLoop_tail (.inl rfl) unread done member⟩

/-- If recovery of a log that was cut somewhere does not scan its tail, or
every complete frame there, at a place where recovery may look for one, is
that of a record that was appended, every recovered record was. -/
theorem recovered_was_appended (encryptor : Encryptor) (calls : List WalCall)
    (cut : Nat)
    (honest : scansTail encryptor
        (ofFile ((WalCall.run encryptor calls).file.take cut) : WalReader).shape cut
        (calls.flatMap WalCall.entries) = true →
      ∀ offset record, ScanPlace offset →
      BeginsWithFrame encryptor
        ((logTail encryptor cut (calls.flatMap WalCall.entries)).drop offset)
        record →
      record ∈ (calls.flatMap WalCall.entries).map (·.record)) :
    ∀ records,
      ({ WalCall.run encryptor calls with
        file := (WalCall.run encryptor calls).file.take cut } :
          WriteAheadLog).recover = .ok records →
      ∀ record ∈ records,
        record ∈ (calls.flatMap WalCall.entries).map (·.record) := by
  intro records recovered record member
  rw [WalCall.run_eq] at honest
  rw [WalCall.run_eq, recover] at recovered
  split at recovered
  · cases recovered
  next all loop =>
    cases recovered
    have kept := mem_of_mem_deduplicateRecords member
    have start : 0 + (ofFile (((calls.flatMap WalCall.entries).flatMap
          (frame encryptor)).take cut) : WalReader).unread.length =
        (((calls.flatMap WalCall.entries).flatMap (frame encryptor)).take cut).length := by
      simp [ofFile, BufReader.unread]
    rcases recoverLoop_cut rfl start loop kept with known | ⟨scans, offset, place, framed⟩
    · exact known
    · exact honest scans offset record place framed

theorem recovered_was_appended_short_tail :
    let encryptor := Encryptor.disabled Aes256Gcm.blank
    let nonce : Nonce := Vector.replicate 12 0
    let first : WalEntry := ⟨nonce, LogRecord.new 1 [1] [10]⟩
    let second : WalEntry := ⟨nonce, LogRecord.new 2 [2] [20]⟩
    let calls : List WalCall := [.writeRecord first, .writeRecord second]
    ∀ records,
      ({ WalCall.run encryptor calls with
        file := (WalCall.run encryptor calls).file.take 24 } :
          WriteAheadLog).recover = .ok records →
      ∀ record ∈ records, record ∈ [first.record, second.record] := by
  intro encryptor nonce first second calls
  refine recovered_was_appended encryptor calls 24 ?_
  -- Five bytes are too few for a frame.
  intro _ offset record _ ⟨version, payload, rest, bytes, _⟩
  have few : (logTail encryptor 24 (calls.flatMap WalCall.entries)).length = 5 := by
    decide +kernel
  have size := congrArg List.length bytes
  rw [length_drop, length_append, frameBytes,
    length_append, length_leBytes, frameHead, length_append, length_leBytes] at size
  omega

/-! ## Hidden frames -/

/-- All that is unread is in the buffer, or will be after the next refill. -/
def LastChunk (reader : WalReader) : Prop := reader.fillBuf.source = []

theorem LastChunk.fillBuf (last : LastChunk reader) :
    reader.fillBuf = ⟨reader.unread, []⟩ := by
  rw [← reader.unread_fillBuf, BufReader.unread, last, append_nil]
  exact congrArg (BufReader.mk reader.fillBuf.buffered) last

theorem LastChunk.of_source (none_left : reader.source = []) : LastChunk reader := by
  rw [LastChunk, BufReader.fillBuf]
  split
  · simp [none_left]
  · exact none_left

theorem LastChunk.of_short {file : Bytes} (short : file.length ≤ defaultBufSize) :
    LastChunk (.ofFile file) := by
  simpa [LastChunk, BufReader.fillBuf, ofFile] using short

theorem LastChunk.afterFrame {next : WalReader} (last : LastChunk reader)
    (shape : next.shape = (reader.shape.fill defaultBufSize).afterFrame length) :
    LastChunk next := by
  have none_left : (reader.shape.fill defaultBufSize).source = 0 := by
    rw [← reader.shape_fillBuf, last.fillBuf]
    rfl
  have reads : ∀ (shape : ChunkShape) count, shape.source = 0 →
      (shape.readExact defaultBufSize count).source = 0 := by
    intro shape count empty
    rw [ChunkShape.readExact]
    split
    · exact empty
    · dsimp only
      split <;> simp [empty]
  have source : next.shape.source = 0 := by
    rw [shape]
    exact reads _ _ (reads _ _ (reads _ _ (reads _ _ none_left)))
  exact .of_source (eq_nil_of_length_eq_zero source)

/-- A torn frame in which the first bytes that look like a frame start are
those of a complete frame at the end of the file. -/
structure HiddenFrame (encryptor : Encryptor) (fileSize start : Nat)
    (torn : Bytes) (offset : Nat) (hidden : WalEntry) : Prop where
  beginning : ∃ entry, TornFrame encryptor torn entry
  behind : 5 ≤ offset
  unlike : ∀ earlier, 5 ≤ earlier → earlier < offset →
    plausibleFrameStart fileSize (start + earlier) (torn.drop earlier) = false
  likely : plausibleFrameStart fileSize (start + offset) (torn.drop offset) = true
  frame : torn.drop offset = WriteAheadLog.frame encryptor hidden
  bounded : frameLength encryptor hidden ≤ maxWalRecordBytes

/-- A scan through buffered bytes stops at the first of them that look like a
frame start. -/
theorem resyncAfterInvalidLength_of_first (inside : offset < torn.length)
    (likely : plausibleFrameStart fileSize (start + offset) (torn.drop offset) = true)
    {place : Nat}
    (before : place < offset) (unlike : ∀ earlier, place < earlier → earlier < offset →
      plausibleFrameStart fileSize (start + earlier) (torn.drop earlier) = false)
    (enough : offset - place ≤ scans) :
    resyncAfterInvalidLength fileSize scans ⟨torn.drop place, []⟩ (start + place) =
      some (⟨torn.drop offset, []⟩, start + offset) := by
  induction scans generalizing place with
  | zero => omega
  | succ scans ih =>
    have some_byte : torn.drop place = torn[place] :: torn.drop (place + 1) :=
      drop_eq_getElem_cons (by omega)
    have more : torn.drop (place + 1) ≠ [] := by
      rw [ne_eq, drop_eq_nil_iff]
      omega
    have part : (⟨torn.drop place, []⟩ : WalReader).read 1 =
        ([torn[place]], ⟨torn.drop (place + 1), []⟩) := by
      rw [some_byte]
      rfl
    have full : (⟨torn.drop (place + 1), []⟩ : WalReader).fillBuf =
        ⟨torn.drop (place + 1), []⟩ := if_neg more
    rw [resyncAfterInvalidLength, part]
    dsimp only
    rw [full, Nat.add_assoc]
    by_cases here : place + 1 = offset
    · rw [here, if_pos likely]
    · rw [unlike (place + 1) (by omega) (by omega)]
      exact ih (by omega) (fun earlier after => unlike earlier (by omega)) (by omega)

theorem HiddenFrame.recoveryStep
    (frame : HiddenFrame encryptor fileSize start torn offset hidden)
    (unread : reader.unread = torn) (last : LastChunk reader)
    (position : start + torn.length = fileSize) :
    recoveryStep encryptor fileSize reader start =
      .ok (.next none ⟨torn.drop offset, []⟩ (start + offset)) := by
  obtain ⟨entry, beginning⟩ := frame.beginning
  have size := length_frame encryptor entry
  have inside := congrArg List.length frame.frame
  rw [length_frame, length_drop] at inside
  have behind := frame.behind
  have short := beginning.short
  have bounded := beginning.bounded
  have nonempty : torn ≠ [] := ne_nil_of_length_pos (by omega)
  have read : (⟨torn, []⟩ : WalReader).readExact 4 = some (torn.take 4, ⟨torn.drop 4, []⟩) :=
    if_pos (show 4 ≤ torn.length by omega)
  have enough : offset - 4 ≤ maxWalRecordBytes := by omega
  have found :=
    resyncAfterInvalidLength_of_first (show offset < torn.length by omega) frame.likely
    (show 4 < offset by omega) (fun earlier after => frame.unlike earlier (by omega)) enough
  have accepted : ¬ (frameLength encryptor entry = 0 ∨
      maxWalRecordBytes < frameLength encryptor entry) := by
    omega
  have missing : fileSize < start + 4 + (1 + (frameLength encryptor entry - 1) + 4) := by
    omega
  rw [ApexStore.recoveryStep, last.fillBuf, unread]
  dsimp only
  rw [if_neg nonempty, if_neg (by omega), read]
  dsimp only
  rw [beginning.length_field (by omega), if_neg accepted, if_pos missing, resync, found]

/-- The loop over complete frames and a torn one with a hidden frame returns
the record of the hidden frame, too. -/
theorem HiddenFrame.recoverLoop
    (frame : HiddenFrame encryptor fileSize
      (fileSize - torn.length) torn offset hidden)
    (entries : List WalEntry) (bounded : ∀ entry ∈ entries,
      frameLength encryptor entry ≤ maxWalRecordBytes) (unread : reader.unread =
      entries.flatMap (WriteAheadLog.frame encryptor) ++ torn)
        (last : LastChunk reader)
    (position : pos + reader.unread.length = fileSize) :
    recoverLoop encryptor fileSize reader pos =
      .ok (entries.map (·.record) ++ [hidden.record]) := by
  have long : ∀ {bytes : Bytes} {entry : WalEntry} {rest : Bytes}
      {reader : WalReader}, LastChunk reader → reader.unread = bytes →
      bytes = WriteAheadLog.frame encryptor entry ++ rest →
      ¬ (reader.shape.fill defaultBufSize).buffered < 4 := by
    intro bytes entry rest reader last unread whole
    rw [← reader.shape_fillBuf, last.fillBuf, unread, whole]
    show ¬ (WriteAheadLog.frame encryptor entry ++ rest).length < 4
    rw [length_append, length_frame]
    omega
  induction entries generalizing reader pos with
  | nil =>
    rw [flatMap_nil, nil_append] at unread
    have start : pos = fileSize - torn.length := by
      rw [unread] at position
      omega
    rw [unread, start] at position
    have step := frame.recoveryStep unread last position
    -- the hidden frame, and the end of the file behind it
    let behind : WalReader := ⟨torn.drop offset, []⟩
    have whole : behind.unread = WriteAheadLog.frame encryptor hidden ++ [] := by
      simpa [behind, BufReader.unread] using frame.frame
    have chunk : LastChunk behind := .of_source rfl
    have moved : fileSize - torn.length + offset + behind.unread.length =
        fileSize := by
      have size := congrArg List.length frame.frame
      rw [length_frame, length_drop] at size
      rw [whole, append_nil, length_frame]
      omega
    obtain ⟨next, taken, left, _⟩ := recoveryStep_frame frame.bounded whole
      moved (long chunk rfl whole)
    rw [start, recoverLoop_of_next step
      (recoverLoop_of_next taken (recoverLoop_of_end left))]
    rfl
  | cons entry entries ih =>
    rw [flatMap_cons, append_assoc] at unread
    obtain ⟨next, step, left, shape, moved⟩ :=
      recoveryStep_frame (bounded entry mem_cons_self) unread position (long last unread rfl)
    have later := ih (forall_mem_cons.mp bounded).2
      left (last.afterFrame shape) moved
    rw [recoverLoop_of_next step later]
    rfl

theorem mem_recover_of_hidden (bounded : ∀ entry ∈ entries,
      frameLength encryptor entry ≤ maxWalRecordBytes)
    (short : (entries.flatMap (WriteAheadLog.frame encryptor) ++ torn).length ≤
      defaultBufSize)
    (frame : HiddenFrame encryptor
      (entries.flatMap (WriteAheadLog.frame encryptor) ++ torn).length
      (entries.flatMap (WriteAheadLog.frame encryptor)).length torn offset hidden) :
    ∃ records,
      ({ file := entries.flatMap (WriteAheadLog.frame encryptor) ++ torn
         encryptor } : WriteAheadLog).recover = .ok records ∧
      hidden.record ∈ records := by
  have start : (entries.flatMap (WriteAheadLog.frame encryptor)).length =
      (entries.flatMap (WriteAheadLog.frame encryptor) ++ torn).length - torn.length := by
    rw [length_append]
    omega
  rw [start] at frame
  have whole : 0 + (ofFile (entries.flatMap
      (WriteAheadLog.frame encryptor) ++ torn) : WalReader).unread.length =
        (entries.flatMap (WriteAheadLog.frame encryptor) ++ torn).length := by
    simp [ofFile, BufReader.unread]
  have loop := frame.recoverLoop entries bounded rfl (.of_short short) whole
  refine ⟨_, by rw [recover, loop], ?_⟩
  rw [deduplicateRecords_concat]
  exact mem_append_right _ mem_cons_self

/-- The value of the only record contains a frame, and the file ends with
it. -/
theorem recover_invents_record :
    let encryptor := Encryptor.disabled Aes256Gcm.blank
    let nonce : Nonce := Vector.replicate 12 0
    let hidden : WalEntry := ⟨nonce, LogRecord.new 1 [2] (List.replicate 30 9)⟩
    let written : WalEntry := ⟨nonce, LogRecord.new 2 [1]
      (WriteAheadLog.frame encryptor hidden ++ List.replicate 8 0)⟩
    ∃ records,
      ({ WalCall.run encryptor [.writeRecord written] with
        file := (WalCall.run encryptor [.writeRecord written]).file.take
          56 } : WriteAheadLog).recover = .ok records ∧
      hidden.record ∈ records ∧ hidden.record ≠ written.record := by
  intro encryptor nonce hidden written
  let torn := (frame encryptor written).take 56
  have frame : HiddenFrame encryptor torn.length 0 torn 8 hidden := by
    refine ⟨⟨written, by decide +kernel, take_prefix 56 _,
      by decide +kernel⟩, by decide, ?_, by decide +kernel, by decide +kernel,
        by decide +kernel⟩
    intro earlier behind before
    have near : earlier = 5 ∨ earlier = 6 ∨ earlier = 7 := by omega
    rcases near with rfl | rfl | rfl <;> decide +kernel
  obtain ⟨records, recovered, member⟩ :=
    @mem_recover_of_hidden 8 encryptor torn hidden [] (by simp) (by decide +kernel) frame
  exact ⟨records, recovered, member, by decide +kernel⟩

end ApexStore
