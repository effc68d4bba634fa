import CodeAtlas.Text.Utf8

/-!
# Checksums

The SHA-256 digest of some bytes, in hexadecimal digits. Contents with different checksums differ.
-/

namespace CodeAtlas.Checksum

/-- Fractional parts of the cube roots of the first 64 primes. -/
def roundConstants : List UInt32 := [
    0x428a2f98, 0x71374491, 0xb5c0fbcf, 0xe9b5dba5, 0x3956c25b, 0x59f111f1,
    0x923f82a4, 0xab1c5ed5, 0xd807aa98, 0x12835b01, 0x243185be, 0x550c7dc3,
    0x72be5d74, 0x80deb1fe, 0x9bdc06a7, 0xc19bf174, 0xe49b69c1, 0xefbe4786,
    0x0fc19dc6, 0x240ca1cc, 0x2de92c6f, 0x4a7484aa, 0x5cb0a9dc, 0x76f988da,
    0x983e5152, 0xa831c66d, 0xb00327c8, 0xbf597fc7, 0xc6e00bf3, 0xd5a79147,
    0x06ca6351, 0x14292967, 0x27b70a85, 0x2e1b2138, 0x4d2c6dfc, 0x53380d13,
    0x650a7354, 0x766a0abb, 0x81c2c92e, 0x92722c85, 0xa2bfe8a1, 0xa81a664b,
    0xc24b8b70, 0xc76c51a3, 0xd192e819, 0xd6990624, 0xf40e3585, 0x106aa070,
    0x19a4c116, 0x1e376c08, 0x2748774c, 0x34b0bcb5, 0x391c0cb3, 0x4ed8aa4a,
    0x5b9cca4f, 0x682e6ff3, 0x748f82ee, 0x78a5636f, 0x84c87814, 0x8cc70208,
    0x90befffa, 0xa4506ceb, 0xbef9a3f7, 0xc67178f2 ]

structure State where
  a : UInt32
  b : UInt32
  c : UInt32
  d : UInt32
  e : UInt32
  f : UInt32
  g : UInt32
  h : UInt32
  deriving DecidableEq, Repr

/-- Fractional parts of the square roots of the first 8 primes. -/
def initial : State :=
  ⟨0x6a09e667, 0xbb67ae85, 0x3c6ef372, 0xa54ff53a,
    0x510e527f, 0x9b05688c, 0x1f83d9ab, 0x5be0cd19⟩

private def rotate (x : UInt32) (n : UInt32) : UInt32 := (x >>> n) ||| (x <<< (32 - n))

private def wordOf (bs : Bytes) : UInt32 := bs.foldl (fun w b => (w <<< 8) ||| b.toUInt32) 0

/-- The first `count` pieces of `size` bytes. -/
private def pieces (size : Nat) : Nat → Bytes → List Bytes
  | 0, _ => []
  | count + 1, bs => bs.take size :: pieces size count (bs.drop size)

private def nextWord (recent : List UInt32) : UInt32 :=
  let w (i : Nat) := recent.getD i 0
  let s0 := rotate (w 14) 7 ^^^ rotate (w 14) 18 ^^^ (w 14 >>> 3)
  let s1 := rotate (w 1) 17 ^^^ rotate (w 1) 19 ^^^ (w 1 >>> 10)
  w 15 + s0 + w 6 + s1

/-- Put `count` more words in front of a schedule that has the latest word first. -/
private def extendSchedule : Nat → List UInt32 → List UInt32
  | 0, recent => recent
  | count + 1, recent => extendSchedule count (nextWord recent :: recent)

/-- The 64 words that a block of 64 bytes gives. -/
def schedule (block : Bytes) : List UInt32 :=
  (extendSchedule 48 ((pieces 4 16 block).map wordOf).reverse).reverse

private def round (s : State) (k : UInt32 × UInt32) : State :=
  let s1 := rotate s.e 6 ^^^ rotate s.e 11 ^^^ rotate s.e 25
  let choice := (s.e &&& s.f) ^^^ ((~~~ s.e) &&& s.g)
  let t1 := s.h + s1 + choice + k.1 + k.2
  let s0 := rotate s.a 2 ^^^ rotate s.a 13 ^^^ rotate s.a 22
  let majority := (s.a &&& s.b) ^^^ (s.a &&& s.c) ^^^ (s.b &&& s.c)
  ⟨t1 + (s0 + majority), s.a, s.b, s.c, s.d + t1, s.e, s.f, s.g⟩

def compress (s : State) (block : Bytes) : State :=
  let t := (roundConstants.zip (schedule block)).foldl round s
  ⟨s.a + t.a, s.b + t.b, s.c + t.c, s.d + t.d, s.e + t.e, s.f + t.f, s.g + t.g, s.h + t.h⟩

private def bigEndian : Nat → Nat → Bytes
  | 0, _ => []
  | count + 1, n => bigEndian count (n / 256) ++ [(n % 256).toUInt8]

/-- The bytes with a one bit, zeros and their length in bits, a multiple of 64 bytes. -/
def padded (bs : Bytes) : Bytes :=
  bs ++ 0x80 :: List.replicate ((119 - bs.length % 64) % 64) 0 ++ bigEndian 8 (8 * bs.length)

private def hexWord (w : UInt32) : Text :=
  (bigEndian 4 w.toNat).flatMap fun b =>
    [Nat.digitChar (b.toNat / 16), Nat.digitChar (b.toNat % 16)]

/-- The digest of some bytes in lower-case hexadecimal digits. -/
def ofBytes (bs : Bytes) : Text :=
  let message := padded bs
  let s := (pieces 64 (message.length / 64) message).foldl compress initial
  [s.a, s.b, s.c, s.d, s.e, s.f, s.g, s.h].flatMap hexWord

end CodeAtlas.Checksum
