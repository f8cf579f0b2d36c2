import ApexStore.Engine.Flush

/-!
# Keys that are text

The interfaces above the engine take strings, the engine takes their UTF-8
bytes.  Reading the bytes back gives the string again, and the lossy reading
that `String::from_utf8_lossy` makes of any bytes leaves those of a string as
they are (`fromUtf8Lossy_utf8`).
-/

namespace ApexStore

open List UInt8

variable {char : Char} {left right : List Char}

def utf8 (text : String) : Bytes := text.toByteArray.data.toList

/-- `String::from_utf8`. -/
def fromUtf8 (bytes : Bytes) : Option String :=
  String.fromUTF8? ⟨bytes.toArray⟩

theorem fromUtf8_utf8 (text : String) : fromUtf8 (utf8 text) = some text := by
  simp [fromUtf8, utf8, String.fromUTF8?, String.fromUTF8, text.isValidUTF8]

theorem utf8_injective : Function.Injective utf8 := by
  intro left right same
  have read := fromUtf8_utf8 left
  rw [same, fromUtf8_utf8] at read
  exact (Option.some.inj read).symm

theorem utf8_append (left right : String) :
    utf8 (left ++ right) = utf8 left ++ utf8 right := by
  simp [utf8]

theorem utf8_eq_flatMap (text : String) :
    utf8 text = text.toList.flatMap String.utf8EncodeChar := by
  have encoded : text.toByteArray = text.toList.utf8Encode := by
    rw [← String.toByteArray_ofList, String.ofList_toList]
  rw [utf8, encoded]
  simp [List.utf8Encode]

/-! ## The lossy reading of text -/

variable {first : UInt8} {value : Nat}

theorem fromUtf8Lossy_of_sequence (others : Bytes) {rest : Bytes}
    (width : utf8CharWidth first = others.length + 1)
    (whole : sequenceLength first (others ++ rest) = others.length) :
    fromUtf8Lossy (first :: others ++ rest) = first :: others ++
      fromUtf8Lossy rest := by
  rw [cons_append, fromUtf8Lossy, whole, if_pos width, take_left, drop_left]

theorem toNat_ofNat_of_lt (small : value < 256) :
    (UInt8.ofNat value).toNat = value := by
  simp [Nat.mod_eq_of_lt small]

theorem isContinuation_ofNat (low : 128 ≤ value) (high : value ≤ 191) :
    isContinuation (UInt8.ofNat value) = true := by
  simp [isContinuation, le_iff_toNat_le]
  omega

theorem utf8CharWidth_ofNat (small : value < 256) : utf8CharWidth (UInt8.ofNat value) =
      if value < 128 then 1 else if value < 194 then 0
      else if value < 224 then 2 else if value < 240 then 3 else if value <
        245 then 4 else 0 := by
  simp [utf8CharWidth, lt_iff_toNat_lt, toNat_ofNat_of_lt small]

theorem secondByteFits_ofNat {first second : Nat} (small : first < 256)
    (small' : second < 256)
    (longer : ¬ utf8CharWidth (UInt8.ofNat first) < 2)
    (continues : 128 ≤ second ∧ second ≤ 191)
    (three : first = 224 → 160 ≤ second) (surrogate : first = 237 → second ≤ 159)
    (four : first = 240 → 144 ≤ second) (beyond : first = 244 → second ≤ 143) :
    secondByteFits (UInt8.ofNat first) (UInt8.ofNat second) = true := by
  have first' := toNat_ofNat_of_lt small
  simp only [secondByteFits, longer, if_false, isContinuation,
    ← UInt8.toNat_inj, UInt8.le_iff_toNat_le, first', UInt8.toNat_ofNat]
  split_ifs <;> simp <;> omega

theorem sequenceLength_of_single (single : utf8CharWidth first = 1) (rest : Bytes) :
    sequenceLength first rest = 0 := by
  cases rest with
  | nil => rfl
  | cons second rest => simp [sequenceLength, secondByteFits, single]

variable {second byte : UInt8} {text : String}

theorem sequenceLength_of_fits {others : Bytes}
    (fits : secondByteFits first second = true)
    (continues : ∀ byte ∈ others, isContinuation byte = true)
    (width : utf8CharWidth first = others.length + 2) (rest : Bytes) :
    sequenceLength first (second :: others ++ rest) = others.length + 1 := by
  have enough : others.length ≤ ((others ++ rest).takeWhile isContinuation).length := by
    rw [takeWhile_append_of_pos continues, length_append]
    exact Nat.le_add_right _ _
  rw [cons_append, sequenceLength, if_pos fits, width,
    Nat.add_sub_cancel, Nat.min_eq_left enough, Nat.add_comm]

theorem fromUtf8Lossy_of_fits (others : Bytes)
    (fits : secondByteFits first second = true)
    (continues : ∀ byte ∈ others, isContinuation byte = true)
    (width : utf8CharWidth first = others.length + 2) (rest : Bytes) :
    fromUtf8Lossy (first :: second :: others ++ rest) =
      first :: second :: others ++ fromUtf8Lossy rest :=
  fromUtf8Lossy_of_sequence (second :: others) width
    (sequenceLength_of_fits fits continues width rest)

theorem fromUtf8Lossy_utf8EncodeChar (char : Char) (rest : Bytes) :
    fromUtf8Lossy (String.utf8EncodeChar char ++ rest) =
      String.utf8EncodeChar char ++ fromUtf8Lossy rest := by
  have valid : char.val.toNat < 0xD800 ∨
      0xDFFF < char.val.toNat ∧ char.val.toNat < 0x110000 := char.valid
  unfold String.utf8EncodeChar
  generalize char.val.toNat = value at valid ⊢
  dsimp only
  split
  · have width : utf8CharWidth (ofNat value) = 1 := by
      rw [utf8CharWidth_ofNat (by omega), if_pos (by omega)]
    exact fromUtf8Lossy_of_sequence [] width (sequenceLength_of_single width rest)
  split
  · have width : utf8CharWidth (ofNat (value / 64 % 32 + 192)) = 2 := by
      rw [utf8CharWidth_ofNat (by omega)]
      split_ifs <;> omega
    apply fromUtf8Lossy_of_fits [] _ (by simp) width
    apply secondByteFits_ofNat <;> omega
  split
  · have width : utf8CharWidth (ofNat (value / 4096 % 16 + 224)) =
        3 := by
      rw [utf8CharWidth_ofNat (by omega)]
      split_ifs <;> omega
    apply fromUtf8Lossy_of_fits [ofNat (value % 64 + 128)] _ _ width
    · apply secondByteFits_ofNat <;> omega
    · intro byte member
      rw [mem_singleton.mp member]
      exact isContinuation_ofNat (by omega) (by omega)
  · have width : utf8CharWidth (ofNat (value / 262144 % 8 + 240)) =
        4 := by
      rw [utf8CharWidth_ofNat (by omega)]
      split_ifs <;> omega
    apply fromUtf8Lossy_of_fits
      [ofNat (value / 64 % 64 + 128), ofNat (value % 64 + 128)] _ _ width
    · apply secondByteFits_ofNat <;> omega
    · intro byte member
      simp only [mem_cons, not_mem_nil, or_false] at member
      rcases member with rfl | rfl
      · exact isContinuation_ofNat (by omega) (by omega)
      · exact isContinuation_ofNat (by omega) (by omega)

theorem fromUtf8Lossy_utf8 (text : String) :
    fromUtf8Lossy (utf8 text) = utf8 text := by
  rw [utf8_eq_flatMap]
  induction text.toList with
  | nil => simp [fromUtf8Lossy]
  | cons char chars ih =>
    rw [flatMap_cons, fromUtf8Lossy_utf8EncodeChar, ih]

/-- `String::from_utf8_lossy`; the lossy bytes are always text. -/
def lossyString (bytes : Bytes) : String :=
  (fromUtf8 (fromUtf8Lossy bytes)).getD ""

theorem lossyString_utf8 (text : String) : lossyString (utf8 text) = text := by
  rw [lossyString, fromUtf8Lossy_utf8, fromUtf8_utf8, Option.getD_some]

/-- A byte of an encoded character is the character itself or between 128 and
248. -/
theorem byte_of_encoded (member : byte ∈ String.utf8EncodeChar char) :
    byte.toNat = char.val.toNat ∧ byte.toNat < 128 ∨ 128 ≤ byte.toNat ∧
      byte.toNat < 248 := by
  unfold String.utf8EncodeChar at member
  generalize char.val.toNat = code at member ⊢
  dsimp only at member
  split_ifs at member <;> simp only [mem_cons, not_mem_nil, or_false] at member
  · rw [member, toNat_ofNat_of_lt (by omega)]
    omega
  · rcases member with rfl | rfl <;> rw [toNat_ofNat_of_lt (by omega)] <;> omega
  · rcases member with rfl | rfl | rfl <;> rw [toNat_ofNat_of_lt (by omega)] <;> omega
  · rcases member with rfl | rfl | rfl | rfl <;> rw [toNat_ofNat_of_lt (by omega)] <;> omega

theorem ne_0xFF_of_mem_utf8 (member : byte ∈ utf8 text) : byte ≠ 0xFF := by
  rw [utf8_eq_flatMap] at member
  obtain ⟨char, _, encoded⟩ := mem_flatMap.mp member
  rintro rfl
  have bounds := byte_of_encoded encoded
  have value : (0xFF : UInt8).toNat = 255 := rfl
  omega

theorem char_of_ascii (member : byte ∈ String.utf8EncodeChar char)
    (ascii : byte.toNat < 128) :
    char.val.toNat = byte.toNat := by
  have bounds := byte_of_encoded member
  omega

/-- An ASCII byte of a text is a character of it. -/
theorem mem_of_ascii (member : byte ∈ utf8 text) (code : char.val.toNat = byte.toNat)
    (ascii : byte.toNat < 128) : char ∈ text.toList := by
  rw [utf8_eq_flatMap] at member
  obtain ⟨other, inside, encoded⟩ := mem_flatMap.mp member
  have same : other = char :=
    Char.ext (UInt32.toNat_inj.mp ((char_of_ascii encoded ascii).trans code.symm))
  exact same ▸ inside

/-! ## The characters of a text -/

/-- A character is a first byte, which tells the length, and the bytes that
continue it. -/
theorem utf8EncodeChar_shape (char : Char) : ∃ first others,
    String.utf8EncodeChar char = first :: others ∧
      utf8CharWidth first = others.length + 1 ∧
      ∀ byte ∈ others, isContinuation byte = true := by
  have valid : char.val.toNat < 0xD800 ∨
      0xDFFF < char.val.toNat ∧ char.val.toNat < 0x110000 := char.valid
  have continued : ∀ value, isContinuation (ofNat (value % 64 + 128)) = true :=
    fun value => isContinuation_ofNat (by omega) (by omega)
  unfold String.utf8EncodeChar
  generalize char.val.toNat = value at valid ⊢
  dsimp only
  split_ifs
  all_goals
    refine ⟨_, _, rfl, ?_, fun byte member => by fin_cases member <;> exact continued _⟩
    rw [utf8CharWidth_ofNat (by omega)]
    dsimp only [List.length]
    split_ifs <;> omega

theorem utf8CharWidth_of_continuation (continues : isContinuation first = true) :
    utf8CharWidth first = 0 := by
  simp only [isContinuation, decide_eq_true_eq, le_iff_toNat_le] at continues
  obtain ⟨low, high⟩ := continues
  have high : first.toNat ≤ 191 := high
  simp only [utf8CharWidth, lt_iff_toNat_lt]
  rw [if_neg (by simpa using low), if_pos (by simp; omega)]

theorem utf8EncodeChar_injective : Function.Injective String.utf8EncodeChar := by
  intro left right same
  have texts : utf8 (String.ofList [left]) = utf8 (String.ofList [right]) := by
    rw [utf8_eq_flatMap, utf8_eq_flatMap]
    simp [same]
  simpa using utf8_injective texts

/-- A text begins with another one if its bytes do. -/
theorem encode_prefix_iff :
    left.flatMap String.utf8EncodeChar <+: right.flatMap String.utf8EncodeChar ↔
      left <+: right := by
  induction left generalizing right with
  | nil => simp
  | cons char left ih =>
    obtain ⟨first, others, encoded, width, _⟩ := utf8EncodeChar_shape char
    cases right with
    | nil => simp
    | cons other right =>
      obtain ⟨first', others', encoded', width', _⟩ := utf8EncodeChar_shape other
      rw [flatMap_cons, flatMap_cons, cons_prefix_cons, ← ih]
      constructor
      · rintro ⟨rest, whole⟩
        rw [encoded, encoded', append_assoc] at whole
        obtain ⟨rfl, tails⟩ := List.cons.inj whole
        obtain ⟨rfl, rests⟩ := append_inj tails (by omega)
        exact ⟨utf8EncodeChar_injective (encoded.trans encoded'.symm), rest, rests⟩
      · rintro ⟨rfl, rest⟩
        exact (prefix_append_right_inj _).mpr rest

/-- A text does not begin in the middle of a character. -/
theorem encode_suffix_of_continued {chars : List Char} {others rest : Bytes}
    (continues : ∀ byte ∈ others, isContinuation byte = true)
    (ends : chars.flatMap String.utf8EncodeChar <:+ others ++ rest) :
    chars.flatMap String.utf8EncodeChar <:+ rest := by
  induction others with
  | nil => exact ends
  | cons byte others ih =>
    obtain ⟨continued, continues⟩ := forall_mem_cons.mp continues
    rcases suffix_cons_iff.mp ends with whole | shorter
    · cases chars with
      | nil => simp at whole
      | cons char chars =>
        obtain ⟨first, others, encoded, width, _⟩ := utf8EncodeChar_shape char
        rw [flatMap_cons, encoded] at whole
        obtain ⟨rfl, _⟩ := List.cons.inj whole
        rw [utf8CharWidth_of_continuation continued] at width
        cases width
    · exact ih continues shorter

/-- A text ends with another one if its bytes do. -/
theorem encode_suffix_iff :
    left.flatMap String.utf8EncodeChar <:+ right.flatMap String.utf8EncodeChar ↔
      left <:+ right := by
  constructor
  · intro ends
    induction right with
    | nil =>
      rw [flatMap_nil, suffix_nil] at ends
      have shorter :
          left.flatMap String.utf8EncodeChar <+: [].flatMap String.utf8EncodeChar := by
        rw [ends]
        exact nil_prefix
      rw [prefix_nil.mp (encode_prefix_iff.mp shorter)]
    | cons char right ih =>
      obtain ⟨first, others, encoded, _, continues⟩ := utf8EncodeChar_shape char
      rw [flatMap_cons, encoded, cons_append, suffix_cons_iff] at ends
      rcases ends with whole | shorter
      · rw [← cons_append, ← encoded, ← flatMap_cons] at whole
        have same : utf8 (String.ofList left) = utf8 (String.ofList (char :: right)) := by
          rw [utf8_eq_flatMap, utf8_eq_flatMap]
          simpa using whole
        rw [String.ofList_injective (utf8_injective same)]
      · exact (ih (encode_suffix_of_continued continues shorter)).trans (suffix_cons _ _)
  · rintro ⟨front, rfl⟩
    rw [flatMap_append]
    exact suffix_append _ _

end ApexStore
