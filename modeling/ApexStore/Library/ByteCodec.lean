import ApexStore.Library.ByteOrder

/-!
# Self-delimiting byte codecs

A decoder consumes a prefix of its input and returns the rest.  `RoundTrips`
says that decoding what the encoder wrote gives the value back and leaves the
rest untouched; the combinators below keep this law, so a record codec is a
chain of them.

Variable-length integers are little-endian groups of seven bits with a
continuation bit.  The decoder for a fixed-width integer accepts at most
`maxBytes` groups and bounds the last of them by `maxLast`.
-/

namespace ApexStore

open UInt8

abbrev Decoder (α : Type) := Bytes → Option (α × Bytes)

/-- On the values in `domain`, `decode` undoes `encode` and consumes no more
than what `encode` wrote. -/
def RoundTrips {α : Type} (encode : α → Bytes) (decode : Decoder α)
    (domain : α → Prop) : Prop :=
  ∀ value rest, domain value → decode (encode value ++ rest) = some (value, rest)

/-- Fixed-width little-endian bytes; higher bytes are cut off. -/
def leBytes : Nat → Nat → Bytes
  | 0, _ => []
  | width + 1, number => UInt8.ofNat number :: leBytes width (number / 256)

def leNat : Bytes → Nat
  | [] => 0
  | byte :: rest => byte.toNat + 256 * leNat rest

@[simp] theorem length_leBytes (width number : Nat) :
    (leBytes width number).length = width := by
  induction width generalizing number with
  | zero => rfl
  | succ width ih => simp [leBytes, ih]

variable {number : Nat}

theorem leNat_leBytes {width : Nat} (bound : number < 256 ^ width) :
    leNat (leBytes width number) = number := by
  induction width generalizing number with
  | zero =>
    have zero : number = 0 := by omega
    simp [zero, leBytes, leNat]
  | succ width ih =>
    have high : number / 256 < 256 ^ width := by
      rw [Nat.div_lt_iff_lt_mul (by decide)]
      simpa [Nat.pow_succ] using bound
    simp only [leBytes, leNat, toNat_ofNat', ih high]
    omega

theorem leBytes_leNat (bytes : Bytes) :
    leBytes bytes.length (leNat bytes) = bytes := by
  induction bytes with
  | nil => rfl
  | cons byte rest ih =>
    have low : (byte.toNat + 256 * leNat rest) / 256 = leNat rest := by
      have bound := byte.toNat_lt
      omega
    have digit : UInt8.ofNat (byte.toNat + 256 * leNat rest) = byte := by
      rw [← UInt8.toNat_inj, UInt8.toNat_ofNat']
      omega
    rw [List.length_cons, leNat, leBytes, low, digit, ih]

def encodeVarint (number : Nat) : Bytes :=
  if number < 128 then [UInt8.ofNat number]
  else UInt8.ofNat (number % 128 + 128) :: encodeVarint (number / 128)

/-- Decode a varint of at most `maxBytes` bytes whose last permitted byte may
be at most `maxLast`. -/
def decodeVarint (maxLast : Nat) : Nat → Decoder Nat
  | 0, _ => none
  | _ + 1, [] => none
  | remaining + 1, byte :: rest =>
    if byte.toNat < 128 then
      if remaining = 0 ∧ maxLast < byte.toNat then none
      else some (byte.toNat, rest)
    else
      match decodeVarint maxLast remaining rest with
      | some (high, rest) => some (byte.toNat - 128 + 128 * high, rest)
      | none => none

theorem decodeVarint_encodeVarint {maxLast : Nat} (small : maxLast < 128)
    (remaining number : Nat) (rest : Bytes)
    (bound : number < 128 ^ remaining * (maxLast + 1)) :
    decodeVarint maxLast (remaining + 1) (encodeVarint number ++ rest) =
      some (number, rest) := by
  induction remaining generalizing number with
  | zero =>
    have single : number < 128 := by omega
    have byte : (ofNat number).toNat = number := by
      rw [toNat_ofNat']
      omega
    have allowed : ¬ maxLast < number := by omega
    rw [encodeVarint, if_pos single]
    simp [decodeVarint, byte, single, allowed]
  | succ remaining ih =>
    rw [encodeVarint]
    by_cases single : number < 128
    · have byte : (ofNat number).toNat = number := by
        rw [toNat_ofNat']
        omega
      simp [decodeVarint, byte, single]
    · have byte : (ofNat (number % 128 + 128)).toNat = number % 128 + 128 := by
        rw [toNat_ofNat']
        omega
      have continued : ¬ number % 128 + 128 < 128 := by omega
      have highBound : number / 128 < 128 ^ remaining * (maxLast + 1) := by
        rw [Nat.div_lt_iff_lt_mul (by decide)]
        calc
          number < 128 ^ (remaining + 1) * (maxLast + 1) := bound
          _ = 128 ^ remaining * (maxLast + 1) * 128 := by ring
      rw [if_neg single, List.cons_append, decodeVarint, byte, if_neg continued,
        ih _ highBound]
      simp only [Option.some.injEq, Prod.mk.injEq, and_true]
      omega

theorem length_encodeVarint_of_lt_128 (small : number < 128) :
    (encodeVarint number).length = 1 := by
  rw [encodeVarint, if_pos small]
  rfl

theorem length_encodeVarint_of_lt_16384 (large : 128 ≤ number)
    (small : number < 16384) :
    (encodeVarint number).length = 2 := by
  have high : number / 128 < 128 := by omega
  rw [encodeVarint, if_neg (by omega), List.length_cons, length_encodeVarint_of_lt_128 high]

def decodeLength : Decoder Nat := decodeVarint 1 10

theorem decodeLength_roundTrips :
    RoundTrips encodeVarint decodeLength (· < 2 ^ 64) := by
  intro number rest bound
  apply decodeVarint_encodeVarint (by decide)
  omega

def decodeU128 : Decoder (Fin (2 ^ 128)) := fun input =>
  match decodeVarint 3 19 input with
  | some (number, rest) =>
    if inside : number < 2 ^ 128 then some (⟨number, inside⟩, rest) else none
  | none => none

def encodeU128 (number : Fin (2 ^ 128)) : Bytes := encodeVarint number.val

theorem decodeU128_roundTrips : RoundTrips encodeU128 decodeU128 (fun _ => True) := by
  intro number rest _
  have decoded : decodeVarint 3 19 (encodeVarint number.val ++ rest) = some (number.val, rest) := by
    apply decodeVarint_encodeVarint (by decide)
    omega
  simp [decodeU128, encodeU128, decoded]

def encodeBytes (bytes : Bytes) : Bytes :=
  encodeVarint bytes.length ++ bytes

def decodeBytes : Decoder Bytes := fun input =>
  match decodeLength input with
  | some (length, rest) =>
    if length ≤ rest.length then some (rest.take length, rest.drop length)
    else none
  | none => none

theorem decodeBytes_roundTrips :
    RoundTrips encodeBytes decodeBytes (·.length < 2 ^ 64) := by
  intro bytes rest bound
  have decoded := decodeLength_roundTrips bytes.length (bytes ++ rest) bound
  simp only [decodeBytes, encodeBytes, List.append_assoc, decoded]
  simp

def encodeString (text : String) : Bytes :=
  encodeBytes text.toByteArray.data.toList

def decodeString : Decoder String := fun input =>
  match decodeBytes input with
  | some (bytes, rest) =>
    match String.fromUTF8? ⟨bytes.toArray⟩ with
    | some text => some (text, rest)
    | none => none
  | none => none

theorem decodeString_roundTrips : RoundTrips encodeString decodeString
      (fun text => text.utf8ByteSize < 2 ^ 64) := by
  intro text rest bound
  have sizeBound : text.toByteArray.data.toList.length < 2 ^ 64 := by
    simpa using bound
  have decoded := decodeBytes_roundTrips _ rest sizeBound
  have valid : String.fromUTF8? text.toByteArray = some text := by
    simp [String.fromUTF8?, String.fromUTF8, text.isValidUTF8]
  simp only [decodeString, encodeString, decoded]
  simp [valid]

def encodeBool : Bool → Bytes
  | false => [0]
  | true => [1]

def decodeBool : Decoder Bool
  | 0 :: rest => some (false, rest)
  | 1 :: rest => some (true, rest)
  | _ => none

theorem decodeBool_roundTrips : RoundTrips encodeBool decodeBool (fun _ => True) := by
  intro flag rest _
  cases flag <;> rfl

section Option

variable {α : Type}

def encodeOption (encode : α → Bytes) : Option α → Bytes
  | none => [0]
  | some value => 1 :: encode value

def decodeOption (decode : Decoder α) : Decoder (Option α)
  | 0 :: rest => some (none, rest)
  | 1 :: rest =>
    match decode rest with
    | some (value, rest) => some (some value, rest)
    | none => none
  | _ => none

theorem decodeOption_roundTrips {encode : α → Bytes} {decode : Decoder α}
    {domain : α → Prop} (inner : RoundTrips encode decode domain) :
    RoundTrips (encodeOption encode) (decodeOption decode)
      (fun value => ∀ present ∈ value, domain present) := by
  intro value rest inside
  cases value with
  | none => rfl
  | some present =>
    simp [encodeOption, decodeOption, inner present rest (inside present rfl)]

end Option

end ApexStore
