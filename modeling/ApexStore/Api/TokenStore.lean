import ApexStore.Engine.TextKeys
import ApexStore.Library.Runs
import ApexStore.Library.Sha256

/-!
# The token store

`TokenManager` keeps the API tokens in a map and saves a snapshot of the new
map before it replaces the old one.  The snapshot is written to a temporary
file that is then renamed; last the directory is synced.  When that last step
fails the new snapshot is already in place, while the map stays the old one
(`token_store_agrees_iff`).
-/

namespace ApexStore

open List

inductive Permission where
  | read
  | write
  | delete
  | admin
  deriving DecidableEq, Repr

structure ApiToken where
  id : String
  name : String
  tokenHash : String
  createdAt : Nat
  expiresAt : Option Nat
  permissions : List Permission
  deriving DecidableEq, Repr

inductive AuthError where
  | invalidToken
  | tokenExpired
  | tokenNotFound
  | internal (message : String)
  deriving DecidableEq, Repr

structure Snapshot where
  version : Nat
  tokens : List ApiToken
  deriving DecidableEq, Repr

/-- `u8::is_ascii_hexdigit`. -/
def isHexDigit (byte : UInt8) : Bool :=
  (48 ≤ byte && byte ≤ 57) || (65 ≤ byte && byte ≤ 70) || (97 ≤ byte && byte ≤ 102)

def isTokenHash (text : String) : Bool :=
  (utf8 text).length == 64 && (utf8 text).all isHexDigit

/-- What comes from other crates: `serde_json` for the snapshot, `uuid` and
`sha2`. -/
structure TokenCrates (File : Type) where
  encode : Snapshot → File
  decode : File → Except String Snapshot
  decode_encode : ∀ snapshot, decode (encode snapshot) = .ok snapshot
  isUuid : String → Bool
  hashToken : String → String
  isTokenHash_hashToken : ∀ raw, isTokenHash (hashToken raw) = true

namespace TokenStore

variable {File : Type} (crates : TokenCrates File)

def storageError (error : String) : AuthError :=
  .internal ("Private token storage: " ++ error)

def loadRecord (tokens : NameMap ApiToken) (token : ApiToken) :
    Except AuthError (NameMap ApiToken) :=
  if !crates.isUuid token.id || !isTokenHash token.tokenHash then
    .error (storageError "invalid token record")
  else if token.id ∈ tokens then
    .error (storageError "duplicate token identifier")
  else .ok (tokens.insert token.id token)

/-- The tokens of `tokens.json`, where there is one. -/
def load (disk : Option File) : Except AuthError (NameMap ApiToken) :=
  match disk with
  | none => .ok ∅
  | some file =>
    match crates.decode file with
    | .error error => .error (storageError error)
    | .ok snapshot =>
      if snapshot.version ≠ 1 then
        .error (storageError "unsupported snapshot version")
      else snapshot.tokens.foldlM (loadRecord crates) ∅

/-- The steps of `save`. -/
inductive SaveStep where
  | createTemporary
  | write
  | flush
  | syncFile
  | rename
  | openDirectory
  | syncDirectory
  deriving DecidableEq, Repr

/-- When the step is made the snapshot is already in place. -/
def SaveStep.isAfterRename : SaveStep → Bool
  | .openDirectory | .syncDirectory => true
  | _ => false

/-- The step that fails, if one does, with the error it returns. -/
abbrev SaveFault := Option (SaveStep × String)

/-- The records in the order of their identifiers, which are the names of the
map. -/
def snapshotOf (tokens : NameMap ApiToken) : Snapshot :=
  { version := 1, tokens := tokens.toList.map (·.2) }

/-- `save`: what it returns and what it leaves as `tokens.json`. -/
def save (fault : SaveFault) (tokens : NameMap ApiToken)
    (disk : Option File) : Except AuthError Unit × Option File :=
  let replaced := some (crates.encode (snapshotOf tokens))
  match fault with
  | none => (.ok (), replaced)
  | some (step, error) =>
    (.error (storageError error),
      if step.isAfterRename then replaced else disk)

end TokenStore

open TokenStore

/-- The tokens in memory and the store on disk. -/
structure TokenManager (File : Type) where
  tokens : NameMap ApiToken
  disk : Option File

/-- What `create_token` draws: randomness, an identifier and the time. -/
structure TokenDraw {File : Type} (crates : TokenCrates File) where
  raw : Except String String
  id : String
  isUuid : crates.isUuid id = true
  now : Except String Nat

/-- A call of the token manager, with the fault its save meets. -/
inductive TokenCall {File : Type} (crates : TokenCrates File) where
  | create (name : String) (expiresAt : Option Nat)
      (permissions : List Permission) (draw : TokenDraw crates) (fault : SaveFault)
  | delete (id : String) (fault : SaveFault)

namespace TokenManager

variable {File : Type} {crates : TokenCrates File}

/-- `generate_token` and `ApiToken::new`. -/
def newToken (name : String) (expiresAt : Option Nat)
    (permissions : List Permission) (draw : TokenDraw crates) :
    Except AuthError (String × ApiToken) :=
  match draw.raw with
  | .error error =>
    .error (.internal ("Secure token randomness unavailable: " ++ error))
  | .ok raw =>
    match draw.now with
    | .error error => .error (.internal ("SystemTime error: " ++ error))
    | .ok now =>
      .ok (raw,
        { id := draw.id, name, tokenHash := crates.hashToken raw,
          createdAt := now, expiresAt, permissions })

def replaceTokens (crates : TokenCrates File) (fault : SaveFault)
    (next : NameMap ApiToken) (manager : TokenManager File) :
    Except AuthError Unit × TokenManager File :=
  match save crates fault next manager.disk with
  | (.error error, disk) => (.error error, { manager with disk })
  | (.ok (), disk) => (.ok (), { tokens := next, disk })

def createToken (name : String) (expiresAt : Option Nat)
    (permissions : List Permission) (draw : TokenDraw crates)
    (fault : SaveFault) (manager : TokenManager File) :
    Except AuthError (String × ApiToken) × TokenManager File :=
  match newToken name expiresAt permissions draw with
  | .error error => (.error error, manager)
  | .ok (raw, token) =>
    match manager.replaceTokens crates fault
        (manager.tokens.insert token.id token) with
    | (.error error, manager) => (.error error, manager)
    | (.ok (), manager) => (.ok (raw, token), manager)

def deleteToken (crates : TokenCrates File) (id : String) (fault : SaveFault)
    (manager : TokenManager File) : Except AuthError Unit × TokenManager File :=
  match manager.tokens[id]? with
  | none => (.error .tokenNotFound, manager)
  | some _ => manager.replaceTokens crates fault (manager.tokens.erase id)

def step (manager : TokenManager File) : TokenCall crates → TokenManager File
  | .create name expiresAt permissions draw fault =>
    (manager.createToken name expiresAt permissions draw fault).2
  | .delete id fault => (manager.deleteToken crates id fault).2

/-- A store that is opened now has the tokens of the memory. -/
def Agrees (crates : TokenCrates File) (manager : TokenManager File) : Prop :=
  load crates manager.disk = .ok manager.tokens

end TokenManager

/-! ## Loading what was saved -/

namespace TokenStore

variable {File : Type} {crates : TokenCrates File}

/-- The tokens are kept under their identifiers, and would be accepted from a
snapshot. -/
def WellFormed (crates : TokenCrates File) (tokens : NameMap ApiToken) : Prop :=
  ∀ id token, tokens[id]? = some token → token.id = id ∧ crates.isUuid id = true ∧
      isTokenHash token.tokenHash = true

theorem wellFormed_empty : WellFormed crates ∅ := by
  intro id token held
  simp at held

variable {tokens : NameMap ApiToken}

variable {token : ApiToken} {after : NameMap ApiToken} {records : List ApiToken}

theorem WellFormed.insert (wellFormed : WellFormed crates tokens)
    (uuid : crates.isUuid token.id = true)
    (hash : isTokenHash token.tokenHash = true) :
    WellFormed crates (tokens.insert token.id token) := by
  intro id other held
  rw [NameMap.getElem?_insert] at held
  split at held
  · next here =>
    cases held
    exact ⟨here, here ▸ uuid, hash⟩
  · exact wellFormed id other held

theorem WellFormed.erase (wellFormed : WellFormed crates tokens) (id : String) :
    WellFormed crates (tokens.erase id) := by
  intro other token held
  rw [Std.ExtTreeMap.getElem?_erase] at held
  split at held
  · cases held
  · exact wellFormed other token held

theorem loadRecord_eq_ok (loaded : loadRecord crates tokens token = .ok after) :
    crates.isUuid token.id = true ∧ isTokenHash token.tokenHash = true ∧
      after = tokens.insert token.id token := by
  unfold loadRecord at loaded
  split at loaded
  · cases loaded
  · next valid =>
    split at loaded
    · cases loaded
    · cases loaded
      simpa using valid

theorem foldlM_loadRecord_wellFormed (wellFormed : WellFormed crates tokens)
    (loaded : records.foldlM (loadRecord crates) tokens = .ok after) :
    WellFormed crates after := by
  induction records generalizing tokens with
  | nil =>
    cases loaded
    exact wellFormed
  | cons record records ih =>
    rw [foldlM_cons] at loaded
    cases first : loadRecord crates tokens record with
    | error error =>
      rw [first] at loaded
      cases loaded
    | ok next =>
      rw [first] at loaded
      obtain ⟨uuid, hash, rfl⟩ := loadRecord_eq_ok first
      exact ih (wellFormed.insert uuid hash) loaded

theorem load_wellFormed {disk : Option File}
    (loaded : load crates disk = .ok tokens) : WellFormed crates tokens := by
  unfold load at loaded
  split at loaded
  · cases loaded
    exact wellFormed_empty
  · split at loaded
    · cases loaded
    · split at loaded
      · cases loaded
      · exact foldlM_loadRecord_wellFormed wellFormed_empty loaded

theorem foldlM_loadRecord (valid : ∀ record ∈ records, crates.isUuid record.id = true ∧
      isTokenHash record.tokenHash = true) (distinct : (records.map (·.id)).Nodup)
    (fresh : ∀ record ∈ records, tokens[record.id]? = none) :
    ∃ after, records.foldlM (loadRecord crates) tokens = .ok after ∧
      ∀ id token, after[id]? = some token ↔
        (token ∈ records ∧ token.id = id) ∨ tokens[id]? = some token := by
  induction records generalizing tokens with
  | nil => exact ⟨tokens, rfl, by simp⟩
  | cons record records ih =>
    obtain ⟨uuid, hash⟩ := valid record mem_cons_self
    have absent : record.id ∉ tokens := by
      have missing := fresh record mem_cons_self
      simpa using missing
    have first : loadRecord crates tokens record = .ok (tokens.insert record.id record) := by
      simp [loadRecord, uuid, hash, absent]
    rw [map_cons, nodup_cons] at distinct
    have fresh' : ∀ other ∈ records, (tokens.insert record.id record)[other.id]? = none := by
      intro other inside
      rw [NameMap.getElem?_insert, if_neg]
      · exact fresh other (mem_cons_of_mem _ inside)
      · intro same
        exact distinct.1 (same ▸ mem_map_of_mem inside)
    obtain ⟨after, loaded, contents⟩ := ih
      (forall_mem_cons.mp valid).2 distinct.2 fresh'
    refine ⟨after, ?_, ?_⟩
    · rw [foldlM_cons, first]
      exact loaded
    · intro id token
      rw [contents, NameMap.getElem?_insert, mem_cons]
      by_cases here : record.id = id
      · have missing : tokens[id]? = none := here ▸ fresh record mem_cons_self
        rw [if_pos here, missing]
        constructor
        · intro held
          rcases held with ⟨inside, same⟩ | same
          · exact .inl ⟨.inr inside, same⟩
          · cases same
            exact .inl ⟨.inl rfl, here⟩
        · intro held
          rcases held with ⟨rfl | inside, same⟩ | same
          · exact .inr rfl
          · exact .inl ⟨inside, same⟩
          · cases same
      · rw [if_neg here]
        constructor
        · intro held
          rcases held with ⟨inside, same⟩ | held
          · exact .inl ⟨.inr inside, same⟩
          · exact .inr held
        · intro held
          rcases held with ⟨rfl | inside, same⟩ | held
          · exact absurd same here
          · exact .inl ⟨inside, same⟩
          · exact .inr held

theorem load_snapshotOf (wellFormed : WellFormed crates tokens) :
    load crates (some (crates.encode (snapshotOf tokens))) = .ok tokens := by
  have listed : ∀ token, token ∈ (snapshotOf tokens).tokens ↔
      tokens[token.id]? = some token := by
    intro token
    simp only [snapshotOf, mem_map, Prod.exists, exists_eq_right]
    constructor
    · intro member
      obtain ⟨id, inside⟩ := member
      have held := (NameMap.mem_toList tokens id token).mp inside
      rwa [(wellFormed id token held).1]
    · intro held
      exact ⟨token.id, (NameMap.mem_toList tokens _ token).mpr held⟩
  have identifiers : (snapshotOf tokens).tokens.map (·.id) = tokens.toList.map (·.1) := by
    rw [snapshotOf, map_map]
    apply map_congr_left
    intro entry inside
    exact (wellFormed entry.1 entry.2 ((NameMap.mem_toList tokens _ _).mp inside)).1
  have distinct : ((snapshotOf tokens).tokens.map (·.id)).Nodup := by
    rw [identifiers]
    exact pairwise_map.mpr (tokens.toList_sorted.imp ne_of_lt)
  obtain ⟨after, loaded, contents⟩ :=
    @foldlM_loadRecord _ crates ∅ (snapshotOf tokens).tokens
    (fun record inside =>
      (wellFormed record.id record ((listed record).mp inside)).2) distinct (by simp)
  have same : after = tokens := by
    apply Std.ExtTreeMap.ext_getElem?
    intro id
    apply Option.ext
    intro token
    rw [contents, listed]
    constructor
    · intro held
      rcases held with ⟨held, rfl⟩ | held
      · exact held
      · simp at held
    · intro held
      have here := (wellFormed id token held).1
      exact .inl ⟨here ▸ held, here⟩
  rw [load, crates.decode_encode]
  exact loaded.trans (congrArg _ same)

end TokenStore

/-! ## Memory and disk -/

namespace TokenManager

variable {File : Type} {crates : TokenCrates File}

variable {manager : TokenManager File} {token : ApiToken}

/-- The next tokens are saved: memory and disk agree unless the directory
could not be synced and the tokens are not the old ones. -/
theorem replaceTokens_agrees_iff (agrees : manager.Agrees crates)
    {next : NameMap ApiToken} (wellFormed : WellFormed crates next)
    (fault : SaveFault) :
    (manager.replaceTokens crates fault next).2.Agrees crates ↔
      ∀ step error, fault = some (step, error) → step.isAfterRename = true →
        next = manager.tokens := by
  have reloaded := load_snapshotOf wellFormed
  cases fault with
  | none =>
    simp only [reduceCtorEq, false_implies, implies_true, iff_true]
    exact reloaded
  | some failure =>
    obtain ⟨step, error⟩ := failure
    simp only [replaceTokens, save, Agrees, Option.some.injEq, Prod.mk.injEq]
    by_cases late : step.isAfterRename = true
    · rw [if_pos late, reloaded, Except.ok.injEq]
      constructor
      · intro same _ _ _ _
        exact same
      · intro same
        exact same step error ⟨rfl, rfl⟩ late
    · rw [if_neg late]
      constructor
      · intro _ _ _ met late'
        exact absurd (met.1 ▸ late') late
      · intro _
        exact agrees

/-- The call does not meet a fault of the directory sync with a changed set of
tokens: a token is created that is there already, or one is deleted that is
not there. -/
def Harmless (manager : TokenManager File) : TokenCall crates → Prop
  | .create name expiresAt permissions draw fault =>
    ∀ step error, fault = some (step, error) → step.isAfterRename = true →
      ∀ raw token, newToken name expiresAt permissions draw = .ok (raw, token) →
        manager.tokens[token.id]? = some token
  | .delete id fault =>
    ∀ step error, fault = some (step, error) → step.isAfterRename = true →
      manager.tokens[id]? = none

variable {name raw : String} {expiresAt : Option Nat} {permissions : List Permission}

theorem newToken_valid {draw : TokenDraw crates}
    (made : newToken name expiresAt permissions draw = .ok (raw, token)) :
    crates.isUuid token.id = true ∧ isTokenHash token.tokenHash = true := by
  unfold newToken at made
  split at made
  · cases made
  · split at made
    · cases made
    · cases made
      exact ⟨draw.isUuid, crates.isTokenHash_hashToken _⟩

theorem createToken_of_made {draw : TokenDraw crates}
    (made : newToken name expiresAt permissions draw = .ok (raw, token))
    (fault : SaveFault)
    (manager : TokenManager File) :
    (manager.createToken name expiresAt permissions draw fault).2 =
      (manager.replaceTokens crates fault
        (manager.tokens.insert token.id token)).2 := by
  rw [createToken, made]
  dsimp only
  split
  · next same => rw [same]
  · next same => rw [same]

theorem insert_eq_self_iff {tokens : NameMap ApiToken} :
    tokens.insert token.id token = tokens ↔ tokens[token.id]? = some token := by
  constructor
  · intro same
    rw [← same, NameMap.getElem?_insert, if_pos rfl]
  · intro held
    apply Std.ExtTreeMap.ext_getElem?
    intro id
    rw [NameMap.getElem?_insert]
    split
    · next here => rw [← here, held]
    · rfl

theorem createToken_agrees_iff (agrees : manager.Agrees crates) (name : String)
    (expiresAt : Option Nat) (permissions : List Permission)
    (draw : TokenDraw crates) (fault : SaveFault) :
    (manager.createToken name expiresAt permissions draw fault).2.Agrees crates ↔
      manager.Harmless (.create name expiresAt permissions draw fault) := by
  rw [Harmless]
  cases made : newToken name expiresAt permissions draw with
  | error error =>
    rw [createToken, made]
    simpa using agrees
  | ok result =>
    obtain ⟨raw, token⟩ := result
    obtain ⟨uuid, hash⟩ := newToken_valid made
    have wellFormed := (load_wellFormed agrees).insert uuid hash
    rw [createToken_of_made made,
      replaceTokens_agrees_iff agrees wellFormed fault, insert_eq_self_iff]
    constructor
    · intro kept step error met late _ _ same
      cases same
      exact kept step error met late
    · intro kept step error met late
      exact kept step error met late raw token rfl

theorem deleteToken_agrees_iff (agrees : manager.Agrees crates) (id : String)
    (fault : SaveFault) :
    (manager.deleteToken crates id fault).2.Agrees crates ↔
      @Harmless _ crates manager (.delete id fault) := by
  rw [Harmless, deleteToken]
  cases held : manager.tokens[id]? with
  | none => simpa using agrees
  | some token =>
    have wellFormed := (load_wellFormed agrees).erase id
    have changed : manager.tokens.erase id ≠ manager.tokens := by
      intro same
      have missing : (manager.tokens.erase id)[id]? = none := by simp
      rw [same, held] at missing
      cases missing
    have replaced := replaceTokens_agrees_iff agrees wellFormed fault
    simpa [changed] using replaced

/-- Memory and disk agree after every call of a run exactly if no call meets a
fault of the directory sync with a changed set of tokens. -/
theorem token_store_agrees_iff (crates : TokenCrates File) (opened : TokenManager File)
    (agrees : opened.Agrees crates) (calls : List (TokenCall crates)) :
    (∀ count, ((calls.take count).foldl step opened).Agrees crates) ↔
      Guarded step Harmless opened calls := by
  apply Guarded.iff_throughout _ agrees
  intro manager call agrees
  cases call with
  | create name expiresAt permissions draw fault =>
    exact createToken_agrees_iff agrees name expiresAt permissions draw fault
  | delete id fault => exact deleteToken_agrees_iff agrees id fault

/-! ## A failed directory sync -/

theorem isTokenHash_hex (message : Bytes) :
    isTokenHash (Sha256.hex message) = true := by
  have digits : Sha256.hexDigits.all (fun char =>
      String.utf8EncodeChar char == [.ofNat char.toNat] &&
        isHexDigit (.ofNat char.toNat)) = true := by decide +kernel
  have single : ∀ char ∈ (Sha256.hex message).toList,
      String.utf8EncodeChar char = [.ofNat char.toNat] ∧
        isHexDigit (.ofNat char.toNat) = true := by
    intro char member
    have both := all_eq_true.mp digits char (Sha256.mem_hexDigits_of_mem_hex member)
    simpa using both
  have bytes : utf8 (Sha256.hex message) =
      (Sha256.hex message).toList.map (fun char => .ofNat char.toNat) := by
    rw [utf8_eq_flatMap, map_eq_flatMap]
    exact flatMap_congr fun char member => (single char member).1
  rw [isTokenHash, bytes, length_map, Sha256.length_toList_hex, all_map]
  simpa using fun char member => (single char member).2

def isHyphenated (bytes : Bytes) : Bool :=
  bytes.length == 36 && bytes.zipIdx.all (fun entry =>
    if entry.2 ∈ [8, 13, 18, 23] then entry.1 == 45 else isHexDigit entry.1)

/-- `Uuid::parse_str(text).is_ok()`: 32 digits, or hyphenated groups, also in
braces or with the prefix of a URN. -/
def isUuid (text : String) : Bool :=
  let bytes := utf8 text
  (bytes.length == 32 && bytes.all isHexDigit) || isHyphenated bytes ||
    (bytes.head? == some 123 && bytes.getLast? == some 125 &&
      isHyphenated bytes.tail.dropLast) ||
    ((utf8 "urn:uuid:").isPrefixOf bytes && isHyphenated (bytes.drop 9))

/-- The crates, with a snapshot kept as it is. -/
def snapshotCrates : TokenCrates Snapshot where
  encode := id
  decode := .ok
  decode_encode _ := rfl
  isUuid := isUuid
  hashToken raw := Sha256.hex (utf8 raw)
  isTokenHash_hashToken raw := isTokenHash_hex (utf8 raw)

def readerId : String := "f47ac10b-58cc-4372-a567-0e02b2c3d479"

/-- A token for reading. -/
def readerCall (fault : SaveFault) : TokenCall snapshotCrates :=
  .create "reader" none [.read]
    { raw := .ok "apx_AAECAwQFBgcICQoLDA0ODxAREhMUFRYXGBkaGxwdHh8=", id := readerId
      isUuid := by decide +kernel, now := .ok 1700000000000000000 } fault

theorem token_store_agrees_after_early_fault :
    let opened : TokenManager Snapshot := ⟨∅, none⟩
    let calls := [readerCall (some (.rename, "no space left")), readerCall none,
      .delete readerId (some (.write, "no space left"))]
    opened.Agrees snapshotCrates ∧ Guarded step Harmless opened calls ∧
      ∀ count, ((calls.take count).foldl step opened).Agrees snapshotCrates := by
  intro opened calls
  have harmless : Guarded step Harmless opened calls := by
    refine ⟨?_, nofun, ?_, trivial⟩ <;> rintro step error ⟨⟩ after <;> cases after
  exact ⟨rfl, harmless, (token_store_agrees_iff snapshotCrates ⟨∅, none⟩ rfl _).mpr harmless⟩

/-- The creation of a token fails at the last step: it is not in memory, but a
store that is opened now has it. -/
theorem failed_creation_is_on_disk :
    let opened : TokenManager Snapshot := ⟨∅, none⟩
    let after := opened.step
      (readerCall (some (.syncDirectory, "input/output error")))
    opened.Agrees snapshotCrates ∧ after.tokens[readerId]? = none ∧
      (load snapshotCrates after.disk).toOption.bind (fun tokens =>
        tokens[readerId]?.map (·.name)) = some "reader" := by
  refine ⟨rfl, ?_⟩
  decide +kernel

end TokenManager

end ApexStore
