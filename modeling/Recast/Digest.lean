/-!
# Digests

The SHA-256 digest of the bytes of a text, written in lower-case hexadecimal digits.
-/

namespace Recast

/-- The 32 bytes that stand for a text. -/
structure Digest where
  bytes : List UInt8
deriving DecidableEq, Repr, Inhabited

namespace Digest

/-- The first 32 bits of the fractional parts of the cube roots of the first 64 primes. -/
def roundConstants : List UInt32 := [
  0x428a2f98, 0x71374491, 0xb5c0fbcf, 0xe9b5dba5, 0x3956c25b, 0x59f111f1, 0x923f82a4, 0xab1c5ed5,
  0xd807aa98, 0x12835b01, 0x243185be, 0x550c7dc3, 0x72be5d74, 0x80deb1fe, 0x9bdc06a7, 0xc19bf174,
  0xe49b69c1, 0xefbe4786, 0x0fc19dc6, 0x240ca1cc, 0x2de92c6f, 0x4a7484aa, 0x5cb0a9dc, 0x76f988da,
  0x983e5152, 0xa831c66d, 0xb00327c8, 0xbf597fc7, 0xc6e00bf3, 0xd5a79147, 0x06ca6351, 0x14292967,
  0x27b70a85, 0x2e1b2138, 0x4d2c6dfc, 0x53380d13, 0x650a7354, 0x766a0abb, 0x81c2c92e, 0x92722c85,
  0xa2bfe8a1, 0xa81a664b, 0xc24b8b70, 0xc76c51a3, 0xd192e819, 0xd6990624, 0xf40e3585, 0x106aa070,
  0x19a4c116, 0x1e376c08, 0x2748774c, 0x34b0bcb5, 0x391c0cb3, 0x4ed8aa4a, 0x5b9cca4f, 0x682e6ff3,
  0x748f82ee, 0x78a5636f, 0x84c87814, 0x8cc70208, 0x90befffa, 0xa4506ceb, 0xbef9a3f7, 0xc67178f2]

/-- The eight words that carry a digest from block to block. -/
structure Words where
  a : UInt32
  b : UInt32
  c : UInt32
  d : UInt32
  e : UInt32
  f : UInt32
  g : UInt32
  h : UInt32

/-- The first 32 bits of the fractional parts of the square roots of the first eight primes. -/
def Words.start : Words :=
  ⟨0x6a09e667, 0xbb67ae85, 0x3c6ef372, 0xa54ff53a, 0x510e527f, 0x9b05688c, 0x1f83d9ab, 0x5be0cd19⟩

/-- Adds word by word, modulo 2 ^ 32. -/
def Words.add (x y : Words) : Words :=
  ⟨x.a + y.a, x.b + y.b, x.c + y.c, x.d + y.d, x.e + y.e, x.f + y.f, x.g + y.g, x.h + y.h⟩

def Words.toList (w : Words) : List UInt32 :=
  [w.a, w.b, w.c, w.d, w.e, w.f, w.g, w.h]

/-- Rotation to the right. -/
def rotate (x amount : UInt32) : UInt32 :=
  (x >>> amount) ||| (x <<< (32 - amount))

/-- The bytes of a number below 256 ^ n, highest first. -/
def bigEndian : Nat → Nat → List UInt8
  | 0, _ => []
  | n + 1, x => bigEndian n (x / 256) ++ [UInt8.ofNat (x % 256)]

/-- A message followed by the bit one, zeros and its length in bits, a multiple of 64 bytes in all. -/
def pad (message : List UInt8) : List UInt8 :=
  message ++ 0x80 :: List.replicate ((119 - message.length % 64) % 64) 0 ++ bigEndian 8 (8 * message.length)

/-- Reads bytes as words of four. -/
def words : List UInt8 → List UInt32
  | a :: b :: c :: d :: rest =>
    ((a.toUInt32 <<< 24) ||| (b.toUInt32 <<< 16) ||| (c.toUInt32 <<< 8) ||| d.toUInt32) :: words rest
  | _ => []

/-- The next word of a schedule of which the last sixteen words are given, newest first. -/
def scheduled (window : List UInt32) : UInt32 :=
  let word (back : Nat) := window.getD (back - 1) 0
  let x := word 15
  let y := word 2
  (rotate x 7 ^^^ rotate x 18 ^^^ (x >>> 3)) + (rotate y 17 ^^^ rotate y 19 ^^^ (y >>> 10)) + word 7 + word 16

/-- A schedule, newest word first, with `n` more words. -/
def extendSchedule : Nat → List UInt32 → List UInt32
  | 0, schedule => schedule
  | n + 1, schedule => extendSchedule n (scheduled (schedule.take 16) :: schedule)

/-- One round, with the sum of its constant and its word of the schedule. -/
def step (w : Words) (input : UInt32) : Words :=
  let choice := (w.e &&& w.f) ^^^ (~~~w.e &&& w.g)
  let majority := (w.a &&& w.b) ^^^ (w.a &&& w.c) ^^^ (w.b &&& w.c)
  let t₁ := w.h + (rotate w.e 6 ^^^ rotate w.e 11 ^^^ rotate w.e 25) + choice + input
  let t₂ := (rotate w.a 2 ^^^ rotate w.a 13 ^^^ rotate w.a 22) + majority
  ⟨t₁ + t₂, w.a, w.b, w.c, w.d + t₁, w.e, w.f, w.g⟩

/-- Takes one block of sixteen words in. -/
def absorb (w : Words) (block : List UInt32) : Words :=
  let schedule := (extendSchedule 48 block.reverse).reverse
  w.add ((List.zipWith (· + ·) roundConstants schedule).foldl step w)

/-- Takes `n` blocks in. -/
def absorbAll : Nat → Words → List UInt32 → Words
  | 0, w, _ => w
  | n + 1, w, input => absorbAll n (absorb w (input.take 16)) (input.drop 16)

/-- The digest of a message. -/
def ofBytes (message : List UInt8) : Digest :=
  let input := words (pad message)
  ⟨(absorbAll (input.length / 16) Words.start input).toList.flatMap fun word => bigEndian 4 word.toNat⟩

/-- The digest of the UTF-8 bytes of a text. -/
def of (text : String) : Digest :=
  ofBytes text.toUTF8.toList

/-- A byte as two hexadecimal digits. -/
def hexByte (byte : UInt8) : List Char :=
  [Nat.digitChar (byte.toNat / 16), Nat.digitChar (byte.toNat % 16)]

/-- All bytes in hexadecimal digits. -/
def hex (digest : Digest) : String :=
  String.ofList (digest.bytes.flatMap hexByte)

/-- The first twelve hexadecimal digits. -/
def short (digest : Digest) : String :=
  String.ofList ((digest.bytes.flatMap hexByte).take 12)

end Digest

end Recast
