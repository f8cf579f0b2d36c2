import ApexStore.Storage.WalRecovery

/-!
# Recovery of a log with a torn tail

A crash in the middle of an append leaves complete frames and the beginning of
one more.  Recovery reads the length of the torn frame, sees that the file is
too short for it and scans on for something that looks like a frame.  If
nothing in the torn bytes does, it returns the records of the complete frames
(`recover_of_torn`); a value may well contain such bytes.
-/

namespace ApexStore

open WriteAheadLog List

variable {fileSize pos : Nat} {torn : Bytes} {reader : WalReader}
  {encryptor : Encryptor} {entries : List WalEntry}

theorem plausibleFrameStart_of_beginning {peeked bytes : Bytes}
    (beginning : peeked <+: bytes)
    (likely : plausibleFrameStart fileSize pos peeked = true) :
    plausibleFrameStart fileSize pos bytes = true := by
  obtain ⟨rest, rfl⟩ := beginning
  simp only [plausibleFrameStart, Bool.and_eq_true, decide_eq_true_eq] at likely ⊢
  obtain ⟨⟨⟨enough, length⟩, inside⟩, version⟩ := likely
  have first : (peeked ++ rest).take 4 = peeked.take 4 := take_append_of_le_length (by omega)
  have fifth : (peeked ++ rest)[4]? = peeked[4]? := List.getElem?_append_left (by omega)
  rw [first, fifth]
  refine ⟨⟨⟨?_, length⟩, inside⟩, version⟩
  rw [length_append]
  omega

/-- Nothing in the torn bytes, which start at the given place of the file,
looks like the start of a frame. -/
def Inert (fileSize start : Nat) (torn : Bytes) : Prop :=
  ∀ offset, 5 ≤ offset →
    plausibleFrameStart fileSize (start + offset) (torn.drop offset) = false

variable {start cut : Nat} {entry : WalEntry}

theorem Inert.of_short (short : torn.length ≤ 9) : Inert fileSize start torn := by
  intro offset behind
  have few : ¬ 5 ≤ (torn.drop offset).length := by
    rw [length_drop]
    omega
  simp only [plausibleFrameStart, few, decide_false, Bool.false_and]

theorem resyncAfterInvalidLength_of_inert (inert : Inert fileSize start torn)
    (scans : Nat)
    {offset : Nat} (behind : 4 ≤ offset) (unread : reader.unread = torn.drop offset) :
    resyncAfterInvalidLength fileSize scans reader (start + offset) = none := by
  induction scans generalizing reader offset with
  | zero => rfl
  | succ scans ih =>
    rw [resyncAfterInvalidLength]
    have consumed := reader.read_append 1
    have limit := reader.read_length_le 1
    split
    · rfl
    · next byte rest after part =>
      simp only [part, length_cons] at consumed limit
      have single : rest = [] := eq_nil_of_length_eq_zero (by omega)
      subst single
      have left : after.unread = torn.drop (offset + 1) := by
        rw [← drop_drop, ← unread, ← consumed]
        rfl
      have left' : after.fillBuf.unread = torn.drop (offset + 1) :=
        after.unread_fillBuf.trans left
      have beginning : after.fillBuf.buffered <+: torn.drop (offset + 1) :=
        ⟨after.fillBuf.source, left'⟩
      have unlike : plausibleFrameStart fileSize (start + offset + 1)
          after.fillBuf.buffered = false := by
        rw [Bool.eq_false_iff]
        intro likely
        have whole := plausibleFrameStart_of_beginning beginning likely
        rw [Nat.add_assoc, inert (offset + 1) (by omega)] at whole
        cases whole
      dsimp only
      rw [unlike]
      exact ih (Nat.le_succ_of_le behind) left'

/-- The beginning of a frame that was being written. -/
structure TornFrame (encryptor : Encryptor) (torn : Bytes) (entry : WalEntry) :
    Prop where
  bounded : frameLength encryptor entry ≤ maxWalRecordBytes
  beginning : torn <+: WriteAheadLog.frame encryptor entry
  short : torn.length < (WriteAheadLog.frame encryptor entry).length

theorem TornFrame.length_field (frame : TornFrame encryptor torn entry)
    (enough : 4 ≤ torn.length) :
    leNat (torn.take 4) = frameLength encryptor entry := by
  obtain ⟨rest, whole⟩ := frame.beginning
  have fits : frameLength encryptor entry < 256 ^ 4 := by
    have bounded := frame.bounded
    unfold maxWalRecordBytes at bounded
    omega
  have first : torn.take 4 = leBytes 4 (frameLength encryptor entry) := by
    have taken : (WriteAheadLog.frame encryptor entry).take 4 = torn.take 4 := by
      rw [← whole, take_append_of_le_length enough]
    rw [← taken]
    rfl
  rw [first, leNat_leBytes fits]

theorem recoveryStep_of_torn (frame : TornFrame encryptor torn entry)
    (unread : reader.unread = torn) (position : pos + torn.length = fileSize)
    (inert : Inert fileSize pos torn) :
    recoveryStep encryptor fileSize reader pos = .ok .stop := by
  have size := length_frame encryptor entry
  have positive : 0 < frameLength encryptor entry := by
    unfold frameLength
    omega
  have filled : reader.fillBuf.unread = torn := reader.unread_fillBuf.trans unread
  unfold recoveryStep
  dsimp only
  split
  · rfl
  split
  · rfl
  next nonempty chunk =>
    have enough : 4 ≤ reader.fillBuf.unread.length := by
      rw [BufReader.unread, length_append]
      omega
    obtain ⟨next, read, left, _⟩ := reader.fillBuf.readExact_eq 4 enough
    rw [filled] at read left enough
    rw [read]
    dsimp only
    rw [frame.length_field enough]
    have accepted : ¬ (frameLength encryptor entry = 0 ∨
        maxWalRecordBytes < frameLength encryptor entry) := by
      have bounded := frame.bounded
      omega
    have missing : fileSize < pos + 4 + (1 + (frameLength encryptor entry - 1) + 4) := by
      have short := frame.short
      omega
    rw [if_neg accepted, if_pos missing, resync,
      resyncAfterInvalidLength_of_inert inert _ (Nat.le_refl 4) left]

/-- A file of complete frames and a torn tail, all of whose complete frames
recovery reaches. -/
structure TornFile (encryptor : Encryptor) (entries : List WalEntry) (torn : Bytes) :
    Prop where
  bounded : ∀ entry ∈ entries, frameLength encryptor entry ≤ maxWalRecordBytes
  reached : readableFrames
    ⟨0, (entries.flatMap (WriteAheadLog.frame encryptor) ++ torn).length⟩
      (entries.map (frameLength encryptor)) = entries.length
  tail : torn = [] ∨ ∃ entry, TornFrame encryptor torn entry
  inert : Inert (entries.flatMap (WriteAheadLog.frame encryptor) ++ torn).length
    (entries.flatMap (WriteAheadLog.frame encryptor)).length torn

theorem recoverLoop_of_torn
    (tail : torn = [] ∨ ∃ entry, TornFrame encryptor torn entry)
    (inert : Inert fileSize (fileSize - torn.length) torn) (entries : List WalEntry)
    (bounded : ∀ entry ∈ entries, frameLength encryptor entry ≤ maxWalRecordBytes)
    (unread : reader.unread = entries.flatMap (WriteAheadLog.frame encryptor) ++ torn)
    (position : pos + reader.unread.length = fileSize)
    (reached : readableFrames reader.shape
      (entries.map (frameLength encryptor)) = entries.length) :
    recoverLoop encryptor fileSize reader pos = .ok (entries.map (·.record)) := by
  induction entries generalizing reader pos with
  | nil =>
    rw [flatMap_nil, nil_append] at unread
    rcases tail with rfl | ⟨entry, frame⟩
    · exact recoverLoop_of_end unread
    · apply recoverLoop_of_stop
      rw [unread] at position
      apply recoveryStep_of_torn frame unread position
      have start : pos = fileSize - torn.length := by omega
      rwa [start]
  | cons entry entries ih =>
    rw [flatMap_cons, append_assoc] at unread
    rw [map_cons, readableFrames] at reached
    by_cases short : (reader.shape.fill defaultBufSize).buffered < 4
    · simp [short] at reached
    · obtain ⟨next, step, next_unread, next_shape, moved⟩ :=
        recoveryStep_frame (bounded entry mem_cons_self) unread position short
      have later := ih (forall_mem_cons.mp bounded).2
        next_unread moved (by
          rw [next_shape]
          simpa [short] using reached)
      rw [recoverLoop_of_next step later]
      rfl

theorem WriteAheadLog.recover_of_torn (file : TornFile encryptor entries torn) :
    ({ file := entries.flatMap (frame encryptor) ++ torn, encryptor } :
      WriteAheadLog).recover =
      .ok (deduplicateRecords (entries.map (·.record))) := by
  have start : (entries.flatMap (frame encryptor) ++ torn).length -
      torn.length = (entries.flatMap (frame encryptor)).length := by
    rw [length_append]
    omega
  have inert := file.inert
  rw [← start] at inert
  have whole : 0 + (BufReader.ofFile (entries.flatMap (frame encryptor) ++
      torn) : WalReader).unread.length =
        (entries.flatMap (frame encryptor) ++ torn).length := by
    simp [BufReader.ofFile, BufReader.unread]
  rw [recover,
    recoverLoop_of_torn file.tail inert entries file.bounded rfl whole file.reached]

/-! ## Cutting an append -/

/-- How many of the frames are complete in the first bytes of an append. -/
def wholeFrames (encryptor : Encryptor) : Nat → List WalEntry → Nat
  | _, [] => 0
  | cut, entry :: entries =>
    if (WriteAheadLog.frame encryptor entry).length ≤ cut then
      wholeFrames encryptor
        (cut - (WriteAheadLog.frame encryptor entry).length) entries + 1
    else 0

theorem wholeFrames_le (encryptor : Encryptor) (cut : Nat) (entries : List WalEntry) :
    wholeFrames encryptor cut entries ≤ entries.length := by
  induction entries generalizing cut with
  | nil => exact Nat.le_refl 0
  | cons entry entries ih =>
    rw [wholeFrames]
    split
    · exact Nat.succ_le_succ (ih _)
    · exact Nat.zero_le _

theorem wholeFrames_zero (encryptor : Encryptor) (entries : List WalEntry) :
    wholeFrames encryptor 0 entries = 0 := by
  cases entries with
  | nil => rfl
  | cons entry entries =>
    have size := length_frame encryptor entry
    rw [wholeFrames, if_neg (by omega)]

theorem wholeFrames_append_of_le (more : List WalEntry) (inside : cut ≤
      (entries.flatMap (WriteAheadLog.frame encryptor)).length) :
    wholeFrames encryptor cut (entries ++ more) =
      wholeFrames encryptor cut entries := by
  induction entries generalizing cut with
  | nil =>
    have start : cut = 0 := Nat.le_zero.mp inside
    rw [start, wholeFrames_zero, wholeFrames_zero]
  | cons entry entries ih =>
    rw [flatMap_cons, length_append] at inside
    rw [cons_append, wholeFrames, wholeFrames]
    split
    · rw [ih (by omega)]
    · rfl

theorem wholeFrames_append_of_ge (more : List WalEntry)
    (behind : (entries.flatMap (WriteAheadLog.frame encryptor)).length ≤ cut) :
    wholeFrames encryptor cut (entries ++ more) =
      entries.length + wholeFrames encryptor
        (cut - (entries.flatMap (WriteAheadLog.frame encryptor)).length) more := by
  induction entries generalizing cut with
  | nil => simp
  | cons entry entries ih =>
    rw [flatMap_cons, length_append] at behind ⊢
    rw [cons_append, wholeFrames, if_pos (by omega), ih (by omega), Nat.sub_sub, length_cons]
    omega

/-- The bytes of the frame that the cut goes through. -/
def tornBytes (encryptor : Encryptor) : Nat → List WalEntry → Bytes
  | _, [] => []
  | cut, entry :: entries =>
    if (WriteAheadLog.frame encryptor entry).length ≤ cut then
      tornBytes encryptor (cut - (WriteAheadLog.frame encryptor entry).length) entries
    else (WriteAheadLog.frame encryptor entry).take cut

theorem tornFrame_tornBytes (bounded : ∀ entry ∈ entries,
      frameLength encryptor entry ≤ maxWalRecordBytes) (cut : Nat) :
    tornBytes encryptor cut entries = [] ∨
      ∃ entry, TornFrame encryptor (tornBytes encryptor cut entries) entry := by
  induction entries generalizing cut with
  | nil => exact .inl rfl
  | cons entry entries ih =>
    rw [tornBytes]
    split
    · exact ih (forall_mem_cons.mp bounded).2 _
    · next outside =>
      refine .inr ⟨entry, bounded entry mem_cons_self, take_prefix _ _, ?_⟩
      rw [length_take]
      omega

end ApexStore
