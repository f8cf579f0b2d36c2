import ApexStore.Core.LogRecord

/-!
# Encryption at rest

The block cipher is a parameter: `Aes256Gcm` is any authenticated cipher whose
`decrypt` undoes `encrypt` under the same key and nonce.  The encryptor around
it follows the source, with the nonce drawn for each block as an argument.
-/

namespace ApexStore

abbrev Nonce := Vector UInt8 12

abbrev EncryptionKey := Vector UInt8 32

/-- AES-256-GCM as the engine relies on it. -/
structure Aes256Gcm where
  encrypt : EncryptionKey → Nonce → Bytes → Bytes
  decrypt : EncryptionKey → Nonce → Bytes → Option Bytes
  decrypt_encrypt : ∀ key nonce plaintext,
    decrypt key nonce (encrypt key nonce plaintext) = some plaintext
  /-- The ciphertext is followed by a 16-byte tag. -/
  length_encrypt : ∀ key nonce plaintext,
    (encrypt key nonce plaintext).length = plaintext.length + 16

/-- A cipher that leaves the text as it is and appends a blank tag.  It only
serves concrete runs, where encryption is switched off. -/
def Aes256Gcm.blank : Aes256Gcm where
  encrypt _ _ plaintext := plaintext ++ List.replicate 16 0
  decrypt _ _ ciphertext := some (ciphertext.take (ciphertext.length - 16))
  decrypt_encrypt _ _ plaintext := by simp
  length_encrypt _ _ plaintext := by simp

structure EncryptionConfig where
  key : EncryptionKey
  enabled : Bool
  deriving DecidableEq, Repr

def EncryptionConfig.default : EncryptionConfig :=
  { key := Vector.replicate 32 0, enabled := false }

/-- The source keeps `cipher = Some(_)` exactly when `enabled` holds; here the
key is kept with the flag, so the two cannot disagree. -/
structure Encryptor where
  cipher : Aes256Gcm
  config : EncryptionConfig

/-- `Encryptor::disabled`. -/
def Encryptor.disabled (cipher : Aes256Gcm) : Encryptor :=
  { cipher, config := EncryptionConfig.default }

namespace Encryptor

def isEnabled (encryptor : Encryptor) : Bool :=
  encryptor.config.enabled

def encryptBlock (encryptor : Encryptor) (nonce : Nonce) (plaintext : Bytes) : Bytes :=
  if !encryptor.config.enabled then plaintext
  else
    nonce.toList ++ encryptor.cipher.encrypt encryptor.config.key nonce plaintext

def decryptBlock (encryptor : Encryptor) (data : Bytes) : Except LsmError Bytes :=
  if !encryptor.config.enabled then .ok data
  else
    if long : 12 ≤ data.length then
      let nonce : Nonce := ⟨(data.take 12).toArray, by simpa using long⟩
      match encryptor.cipher.decrypt encryptor.config.key nonce
          (data.drop 12) with
      | some plaintext => .ok plaintext
      | none => .error .encryptionAuthenticationFailed
    else
      .error (.corruptedData
        s!"Ciphertext too short ({data.length} bytes); need at least 12 for IV")

/-- Decrypt a logged payload.  A failure is reported as a required migration
when the legacy all-zero key would have opened the payload. -/
def decryptForRecovery (encryptor : Encryptor) (data : Bytes) :
    Except LsmError Bytes :=
  let result :=
    if encryptor.isEnabled then encryptor.decryptBlock data
    else .error .encryptionKeyRequired
  match result with
  | .ok plaintext => .ok plaintext
  | .error error =>
    let legacy : Encryptor :=
      { encryptor with
        config := { key := Vector.replicate 32 0, enabled := true } }
    match legacy.decryptBlock data with
    | .ok _ => .error .legacyEncryptionMigrationRequired
    | .error _ => .error error

theorem decryptBlock_encryptBlock (encryptor : Encryptor) (nonce : Nonce)
    (plaintext : Bytes) :
    encryptor.decryptBlock (encryptor.encryptBlock nonce plaintext) =
      .ok plaintext := by
  unfold decryptBlock encryptBlock
  cases enabled : encryptor.config.enabled with
  | false => simp
  | true =>
    have same : (⟨nonce.toList.toArray, by simp⟩ : Nonce) = nonce := by
      simp [Vector.toList]
    simp [same, encryptor.cipher.decrypt_encrypt]

theorem length_le_encryptBlock (encryptor : Encryptor) (nonce : Nonce)
    (plaintext : Bytes) :
    plaintext.length ≤ (encryptor.encryptBlock nonce plaintext).length := by
  unfold encryptBlock
  split
  · exact Nat.le_refl _
  · rw [List.length_append, encryptor.cipher.length_encrypt]
    omega

theorem decryptForRecovery_encryptBlock {encryptor : Encryptor}
    (enabled : encryptor.isEnabled = true) (nonce : Nonce) (plaintext : Bytes) :
    encryptor.decryptForRecovery (encryptor.encryptBlock nonce plaintext) =
      .ok plaintext := by
  simp [decryptForRecovery, enabled, decryptBlock_encryptBlock]

end Encryptor

end ApexStore
