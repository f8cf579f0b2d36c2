import Mathlib

/-!
# SHA-256

The hash function over lists of bytes, on natural numbers below `2 ^ 32`, and
its text in hexadecimal digits.
-/

namespace ApexStore.Sha256

open List

def roundConstants : List Nat :=
  [0x428a2f98, 0x71374491, 0xb5c0fbcf, 0xe9b5dba5, 0x3956c25b, 0x59f111f1, 0x923f82a4,
    0xab1c5ed5, 0xd807aa98, 0x12835b01, 0x243185be, 0x550c7dc3, 0x72be5d74, 0x80deb1fe,
    0x9bdc06a7, 0xc19bf174, 0xe49b69c1, 0xefbe4786, 0x0fc19dc6, 0x240ca1cc, 0x2de92c6f,
    0x4a7484aa, 0x5cb0a9dc, 0x76f988da, 0x983e5152, 0xa831c66d, 0xb00327c8, 0xbf597fc7,
    0xc6e00bf3, 0xd5a79147, 0x06ca6351, 0x14292967, 0x27b70a85, 0x2e1b2138, 0x4d2c6dfc,
    0x53380d13, 0x650a7354, 0x766a0abb, 0x81c2c92e, 0x92722c85, 0xa2bfe8a1, 0xa81a664b,
    0xc24b8b70, 0xc76c51a3, 0xd192e819, 0xd6990624, 0xf40e3585, 0x106aa070, 0x19a4c116,
    0x1e376c08, 0x2748774c, 0x34b0bcb5, 0x391c0cb3, 0x4ed8aa4a, 0x5b9cca4f, 0x682e6ff3,
    0x748f82ee, 0x78a5636f, 0x84c87814, 0x8cc70208, 0x90befffa, 0xa4506ceb, 0xbef9a3f7,
    0xc67178f2]

def rotateRight (word count : Nat) : Nat :=
  word >>> count ||| word <<< (32 - count) % 2 ^ 32

/-- The working variables, and the hash between two blocks. -/
structure Words where
  (a b c d e f g h : Nat)

def Words.initial : Words :=
  ⟨0x6a09e667, 0xbb67ae85, 0x3c6ef372, 0xa54ff53a, 0x510e527f, 0x9b05688c, 0x1f83d9ab,
    0x5be0cd19⟩

def Words.round (words : Words) (input : Nat × Nat) : Words :=
  let sum1 := rotateRight words.e 6 ^^^ rotateRight words.e 11 ^^^ rotateRight words.e 25
  let choice := (words.e &&& words.f) ^^^ ((2 ^ 32 - 1 - words.e) &&& words.g)
  let temp1 := words.h + sum1 + choice + input.1 + input.2
  let sum0 := rotateRight words.a 2 ^^^ rotateRight words.a 13 ^^^ rotateRight words.a 22
  let majority := (words.a &&& words.b) ^^^ (words.a &&& words.c) ^^^ (words.b &&& words.c)
  ⟨(temp1 + sum0 + majority) % 2 ^ 32, words.a, words.b, words.c,
    (words.d + temp1) % 2 ^ 32, words.e, words.f, words.g⟩

/-- The message schedule, last word first. -/
def extend : Nat → List Nat → List Nat
  | 0, schedule => schedule
  | count + 1, schedule =>
    let word (back : Nat) := schedule.getD (back - 1) 0
    let small0 := rotateRight (word 15) 7 ^^^ rotateRight (word 15) 18 ^^^ (word 15 >>> 3)
    let small1 := rotateRight (word 2) 17 ^^^ rotateRight (word 2) 19 ^^^ (word 2 >>> 10)
    extend count ((word 16 + small0 + word 7 + small1) % 2 ^ 32 :: schedule)

def bigEndian (bytes : List UInt8) : Nat :=
  bytes.foldl (fun value byte => value * 256 + byte.toNat) 0

def compress (words : Words) (block : List UInt8) : Words :=
  let message := (range 16).map (fun index => bigEndian ((block.drop (4 * index)).take 4))
  let schedule := (extend 48 message.reverse).reverse
  let after := (roundConstants.zip schedule).foldl Words.round words
  ⟨(words.a + after.a) % 2 ^ 32, (words.b + after.b) % 2 ^ 32, (words.c + after.c) % 2 ^ 32,
    (words.d + after.d) % 2 ^ 32, (words.e + after.e) % 2 ^ 32, (words.f + after.f) % 2 ^ 32,
    (words.g + after.g) % 2 ^ 32, (words.h + after.h) % 2 ^ 32⟩

/-- A one, zeros up to the last eight bytes of a block, and the length in
bits. -/
def pad (message : List UInt8) : List UInt8 :=
  let zeros : List UInt8 := replicate ((119 - message.length % 64) % 64) 0
  let length : List UInt8 :=
    (range 8).map (fun index => .ofNat ((message.length * 8) >>> (8 * (7 - index))))
  message ++ 0x80 :: zeros ++ length

def digest (message : List UInt8) : Words :=
  let padded := pad message
  (range (padded.length / 64)).foldl
    (fun words index => compress words ((padded.drop (64 * index)).take 64)) .initial

def hexDigits : List Char :=
  ['0', '1', '2', '3', '4', '5', '6', '7', '8', '9', 'a', 'b', 'c', 'd', 'e', 'f']

def hexWord (word : Nat) : List Char :=
  (range 8).map (fun index => hexDigits.getD (word >>> (4 * (7 - index)) % 16) '0')

/-- `format!("{:x}", digest)`. -/
def hex (message : List UInt8) : String :=
  let words := digest message
  .ofList ([words.a, words.b, words.c, words.d, words.e, words.f, words.g, words.h].flatMap
    hexWord)

example : hex [97, 98, 99] =
    "ba7816bf8f01cfea414140de5dae2223b00361a396177a9cb410ff61f20015ad" := by decide +kernel

theorem length_toList_hex (message : List UInt8) :
    (hex message).toList.length = 64 := by
  simp [hex, hexWord]

theorem mem_hexDigits_of_mem_hex {message : List UInt8} {char : Char}
    (member : char ∈ (hex message).toList) : char ∈ hexDigits := by
  rw [hex, String.toList_ofList, mem_flatMap] at member
  obtain ⟨word, _, member⟩ := member
  obtain ⟨index, _, rfl⟩ := mem_map.mp member
  have below : word >>> (4 * (7 - index)) % 16 < hexDigits.length := Nat.mod_lt _ (by decide)
  rw [getD_eq_getElem?_getD, getElem?_eq_getElem below]
  exact getElem_mem below

end ApexStore.Sha256
