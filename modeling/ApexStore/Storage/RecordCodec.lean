import ApexStore.Library.ByteCodec
import ApexStore.Core.LogRecord

/-!
# The serialised form of a log record

`infra::codec` serialises with postcard: the fields of a structure in order,
lengths and `u128` values as varints, byte strings and names behind their
length, options behind a one-byte tag.  Decoding ignores trailing bytes.

Frames of the log written by older versions of the engine lack the later
fields; `decodeV0` and `decodeV1` read those and supply the defaults of the
conversions to `LogRecord`.
-/

namespace ApexStore

namespace LogRecord

def encode (record : LogRecord) : Bytes :=
  encodeBytes record.key ++ encodeBytes record.value ++
    encodeU128 record.timestamp ++ encodeBool record.isDeleted ++
    encodeOption encodeString record.columnFamily ++
      encodeOption encodeU128 record.expiresAt ++
    encodeOption encodeBytes record.rangeStart ++ encodeOption encodeBytes record.rangeEnd

def decode (input : Bytes) : Option LogRecord := do
  let (key, input) ← decodeBytes input
  let (value, input) ← decodeBytes input
  let (timestamp, input) ← decodeU128 input
  let (isDeleted, input) ← decodeBool input
  let (columnFamily, input) ← decodeOption decodeString input
  let (expiresAt, input) ← decodeOption decodeU128 input
  let (rangeStart, input) ← decodeOption decodeBytes input
  let (rangeEnd, _) ← decodeOption decodeBytes input
  return { key, value, timestamp, isDeleted, columnFamily, expiresAt
           rangeStart, rangeEnd }

/-- `decode::<LogRecordV0>` followed by `LogRecord::from`. -/
def decodeV0 (input : Bytes) : Option LogRecord := do
  let (key, input) ← decodeBytes input
  let (value, input) ← decodeBytes input
  let (timestamp, input) ← decodeU128 input
  let (isDeleted, _) ← decodeBool input
  return { key, value, timestamp, isDeleted, columnFamily := none
           expiresAt := none, rangeStart := none, rangeEnd := none }

/-- `decode::<LogRecordV1>` followed by `LogRecord::from`. -/
def decodeV1 (input : Bytes) : Option LogRecord := do
  let (key, input) ← decodeBytes input
  let (value, input) ← decodeBytes input
  let (timestamp, input) ← decodeU128 input
  let (isDeleted, input) ← decodeBool input
  let (columnFamily, _) ← decodeOption decodeString input
  return { key, value, timestamp, isDeleted, columnFamily
           expiresAt := none, rangeStart := none, rangeEnd := none }

/-- Every length in the record fits the 64-bit lengths of the format. -/
structure Encodable (record : LogRecord) : Prop where
  key : record.key.length < 2 ^ 64
  value : record.value.length < 2 ^ 64
  columnFamily : ∀ name ∈ record.columnFamily, name.utf8ByteSize < 2 ^ 64
  rangeStart : ∀ start ∈ record.rangeStart, start.length < 2 ^ 64
  rangeEnd : ∀ stop ∈ record.rangeEnd, stop.length < 2 ^ 64

private theorem length_le_encodeBytes (bytes : Bytes) :
    bytes.length ≤ (encodeBytes bytes).length := by
  simp [encodeBytes]

private theorem length_le_encodeString (text : String) :
    text.utf8ByteSize ≤ (encodeString text).length :=
  length_le_encodeBytes text.toByteArray.data.toList

private theorem length_le_encodeOption {α : Type} {encode : α → Bytes} {size : α → Nat}
    (grows : ∀ value, size value ≤ (encode value).length) {value : Option α}
    {present : α}
    (member : present ∈ value) :
    size present ≤ (encodeOption encode value).length := by
  cases member
  exact (grows present).trans (Nat.le_succ _)

variable {record : LogRecord}

theorem encodable_of_length (bound : record.encode.length < 2 ^ 64) :
    record.Encodable := by
  simp only [encode, List.length_append] at bound
  refine ⟨?_, ?_, ?_, ?_, ?_⟩
  · have grows := length_le_encodeBytes record.key
    omega
  · have grows := length_le_encodeBytes record.value
    omega
  · intro name member
    have grows := length_le_encodeOption length_le_encodeString member
    omega
  · intro start member
    have grows := length_le_encodeOption length_le_encodeBytes member
    omega
  · intro stop member
    have grows := length_le_encodeOption length_le_encodeBytes member
    omega

theorem decode_encode (encodable : record.Encodable) :
    decode record.encode = some record := by
  have u128Option := decodeOption_roundTrips decodeU128_roundTrips
  have bytesOption := decodeOption_roundTrips decodeBytes_roundTrips
  have nameOption := decodeOption_roundTrips decodeString_roundTrips
  -- The last field is followed by nothing; give it an explicit empty rest.
  have last := bytesOption record.rangeEnd [] encodable.rangeEnd
  rw [List.append_nil] at last
  simp only [decode, encode, List.append_assoc, Option.bind_eq_bind,
    decodeBytes_roundTrips _ _ encodable.key, Option.bind_some,
    decodeBytes_roundTrips _ _ encodable.value, decodeU128_roundTrips _ _ trivial,
    decodeBool_roundTrips _ _ trivial, nameOption _ _ encodable.columnFamily,
    u128Option record.expiresAt _ (fun _ _ => trivial),
      bytesOption _ _ encodable.rangeStart, last]
  rfl

end LogRecord

end ApexStore
