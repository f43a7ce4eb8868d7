import Gloss.Text.Hex

/-!
# Digests

The SHA-256 digest of a text in UTF-8, as 64 hexadecimal digits. Digests identify contents
and configurations, so they have to be the same in every process. Several texts are digested
as one, joined by the unit separator, which keeps `ab, c` apart from `a, bc`.
-/

namespace Gloss

namespace Sha256

/-- The eight words of the running hash. -/
structure State where
  /-- First word. -/
  a : UInt32
  /-- Second word. -/
  b : UInt32
  /-- Third word. -/
  c : UInt32
  /-- Fourth word. -/
  d : UInt32
  /-- Fifth word. -/
  e : UInt32
  /-- Sixth word. -/
  f : UInt32
  /-- Seventh word. -/
  g : UInt32
  /-- Eighth word. -/
  h : UInt32

/-- The hash of nothing: fractional parts of the square roots of the first eight primes. -/
def State.initial : State :=
  ⟨0x6a09e667, 0xbb67ae85, 0x3c6ef372, 0xa54ff53a, 0x510e527f, 0x9b05688c, 0x1f83d9ab,
    0x5be0cd19⟩

/-- The constants of the 64 rounds: fractional parts of the cube roots of primes. -/
def roundConstants : List UInt32 :=
  [0x428a2f98, 0x71374491, 0xb5c0fbcf, 0xe9b5dba5, 0x3956c25b, 0x59f111f1, 0x923f82a4, 0xab1c5ed5,
   0xd807aa98, 0x12835b01, 0x243185be, 0x550c7dc3, 0x72be5d74, 0x80deb1fe, 0x9bdc06a7, 0xc19bf174,
   0xe49b69c1, 0xefbe4786, 0x0fc19dc6, 0x240ca1cc, 0x2de92c6f, 0x4a7484aa, 0x5cb0a9dc, 0x76f988da,
   0x983e5152, 0xa831c66d, 0xb00327c8, 0xbf597fc7, 0xc6e00bf3, 0xd5a79147, 0x06ca6351, 0x14292967,
   0x27b70a85, 0x2e1b2138, 0x4d2c6dfc, 0x53380d13, 0x650a7354, 0x766a0abb, 0x81c2c92e, 0x92722c85,
   0xa2bfe8a1, 0xa81a664b, 0xc24b8b70, 0xc76c51a3, 0xd192e819, 0xd6990624, 0xf40e3585, 0x106aa070,
   0x19a4c116, 0x1e376c08, 0x2748774c, 0x34b0bcb5, 0x391c0cb3, 0x4ed8aa4a, 0x5b9cca4f, 0x682e6ff3,
   0x748f82ee, 0x78a5636f, 0x84c87814, 0x8cc70208, 0x90befffa, 0xa4506ceb, 0xbef9a3f7, 0xc67178f2]

/-- Rotates a word to the right. -/
def rotate (x : UInt32) (n : UInt32) : UInt32 := (x >>> n) ||| (x <<< (32 - n))

/-- One round, with its constant and message word. -/
def round (s : State) (constant word : UInt32) : State :=
  let choice := (s.e &&& s.f) ^^^ (~~~s.e &&& s.g)
  let majority := (s.a &&& s.b) ^^^ (s.a &&& s.c) ^^^ (s.b &&& s.c)
  let first := s.h + (rotate s.e 6 ^^^ rotate s.e 11 ^^^ rotate s.e 25) + choice + constant + word
  let second := (rotate s.a 2 ^^^ rotate s.a 13 ^^^ rotate s.a 22) + majority
  ⟨first + second, s.a, s.b, s.c, s.d + first, s.e, s.f, s.g⟩

/-- Extends message words, newest first, by `count` more. -/
def extend : (count : Nat) → List UInt32 → List UInt32
  | 0, words => words
  | count + 1, words =>
    let x := words.getD 1 0
    let y := words.getD 14 0
    let word := (rotate x 17 ^^^ rotate x 19 ^^^ (x >>> 10)) + words.getD 6 0 +
      (rotate y 7 ^^^ rotate y 18 ^^^ (y >>> 3)) + words.getD 15 0
    extend count (word :: words)

/-- Mixes a block of sixteen words into the hash. -/
def compress (s : State) (block : List UInt32) : State :=
  let schedule := (extend 48 block.reverse).reverse
  let t := (roundConstants.zip schedule).foldl (fun s (constant, word) => round s constant word) s
  ⟨s.a + t.a, s.b + t.b, s.c + t.c, s.d + t.d, s.e + t.e, s.f + t.f, s.g + t.g, s.h + t.h⟩

/-- Mixes all blocks into the hash; there are no more blocks than `fuel`. -/
def absorb : (fuel : Nat) → State → List UInt32 → State
  | 0, s, _ => s
  | fuel + 1, s, words =>
    if words.isEmpty then s else absorb fuel (compress s (words.take 16)) (words.drop 16)

/-- The big-endian words of bytes. -/
def wordsOf : List UInt8 → List UInt32
  | a :: b :: c :: d :: rest =>
    ((a.toUInt32 <<< 24) ||| (b.toUInt32 <<< 16) ||| (c.toUInt32 <<< 8) ||| d.toUInt32) ::
      wordsOf rest
  | _ => []

/-- The bytes of a number, highest first. -/
def bytesOf (n : Nat) : (count : Nat) → List UInt8
  | 0 => []
  | count + 1 => bytesOf (n / 256) count ++ [UInt8.ofNat (n % 256)]

/-- A message with a one bit, zero bits up to whole blocks, and its length in bits. -/
def padded (message : List UInt8) : List UInt8 :=
  let zeros := (119 - message.length % 64) % 64
  message ++ 0x80 :: List.replicate zeros 0 ++ bytesOf (8 * message.length) 8

/-- The hash of bytes, in hexadecimal digits. -/
def hexHash (message : List UInt8) : Text :=
  let words := wordsOf (padded message)
  let s := absorb words.length State.initial words
  [s.a, s.b, s.c, s.d, s.e, s.f, s.g, s.h].flatMap fun w => Text.ofHex w.toNat 8

end Sha256

namespace Digest

/-- The digest of a text. A text has no lone surrogates, so each of its characters has an
encoding in UTF-8; the digests of ill-formed texts are not described. -/
def ofText (t : Text) : Text := Sha256.hexHash (t.flatMap String.utf8EncodeChar)

/-- The character between texts that are digested together. -/
def unitSeparator : Char := '\x1f'

/-- The digest of several texts together. -/
def ofTexts (parts : List Text) : Text := ofText (Text.join [unitSeparator] parts)

/-- The beginning of a digest: so many digits, or all but so many if the number is negative. -/
def shorten (digest : Text) : Int → Text
  | .ofNat n => digest.take n
  | .negSucc n => digest.take (digest.length - (n + 1))

end Digest

end Gloss
