/-!
# SHA-256

The hash on byte lists, by structural recursion throughout.

* `pad`: the message, a one bit, zeros up to a whole number of 64-byte blocks, the bit length.
* `compress`: sixty-four rounds over one block.  The schedule starts with the sixteen words of the
  block, and each further word comes from four of the sixteen before it.
* `hash`: the eight words after the last block.
-/

namespace ExclusionAlgebra.Digest.Sha256

/-! ## Words -/

def rotate (w : UInt32) (n : UInt32) : UInt32 := (w >>> n) ||| (w <<< (32 - n))

/-- The four bytes of a word, most significant first, joined. -/
def wordOfBytes (a b c d : UInt8) : UInt32 :=
  (a.toUInt32 <<< 24) ||| (b.toUInt32 <<< 16) ||| (c.toUInt32 <<< 8) ||| d.toUInt32

/-- Bytes in groups of four.  A last incomplete group is dropped; padded messages have none. -/
def words : List UInt8 → List UInt32
  | a :: b :: c :: d :: rest => wordOfBytes a b c d :: words rest
  | _ => []

/-! ## Padding -/

/-- How many zero bytes fill the last block, between the one bit and the length. -/
def zeroCount (size : Nat) : Nat := (119 - size % 64) % 64

/-- The bit length of a message of `size` bytes, in eight bytes. -/
def lengthBytes (size : Nat) : List UInt8 :=
  [56, 48, 40, 32, 24, 16, 8, 0].map fun shift => UInt8.ofNat (8 * size / Nat.pow 2 shift)

def pad (message : List UInt8) : List UInt8 :=
  message ++ 0x80 :: (List.replicate (zeroCount message.length) 0 ++ lengthBytes message.length)

/-! ## Compression -/

structure Registers where
  a : UInt32
  b : UInt32
  c : UInt32
  d : UInt32
  e : UInt32
  f : UInt32
  g : UInt32
  h : UInt32
deriving DecidableEq, Repr

namespace Registers

def initial : Registers :=
  ⟨0x6a09e667, 0xbb67ae85, 0x3c6ef372, 0xa54ff53a, 0x510e527f, 0x9b05688c, 0x1f83d9ab, 0x5be0cd19⟩

def add (r s : Registers) : Registers :=
  ⟨r.a + s.a, r.b + s.b, r.c + s.c, r.d + s.d, r.e + s.e, r.f + s.f, r.g + s.g, r.h + s.h⟩

def toList (r : Registers) : List UInt32 := [r.a, r.b, r.c, r.d, r.e, r.f, r.g, r.h]

def round (r : Registers) (constant word : UInt32) : Registers :=
  let mixed := rotate r.e 6 ^^^ rotate r.e 11 ^^^ rotate r.e 25
  let choice := (r.e &&& r.f) ^^^ ((~~~ r.e) &&& r.g)
  let first := r.h + mixed + choice + constant + word
  let spread := rotate r.a 2 ^^^ rotate r.a 13 ^^^ rotate r.a 22
  let majority := (r.a &&& r.b) ^^^ (r.a &&& r.c) ^^^ (r.b &&& r.c)
  ⟨first + (spread + majority), r.a, r.b, r.c, r.d + first, r.e, r.f, r.g⟩

end Registers

/-- One constant a round: the fractional parts of the cube roots of the first sixty-four primes. -/
def roundConstants : List UInt32 :=
  [0x428a2f98, 0x71374491, 0xb5c0fbcf, 0xe9b5dba5, 0x3956c25b, 0x59f111f1, 0x923f82a4, 0xab1c5ed5,
   0xd807aa98, 0x12835b01, 0x243185be, 0x550c7dc3, 0x72be5d74, 0x80deb1fe, 0x9bdc06a7, 0xc19bf174,
   0xe49b69c1, 0xefbe4786, 0x0fc19dc6, 0x240ca1cc, 0x2de92c6f, 0x4a7484aa, 0x5cb0a9dc, 0x76f988da,
   0x983e5152, 0xa831c66d, 0xb00327c8, 0xbf597fc7, 0xc6e00bf3, 0xd5a79147, 0x06ca6351, 0x14292967,
   0x27b70a85, 0x2e1b2138, 0x4d2c6dfc, 0x53380d13, 0x650a7354, 0x766a0abb, 0x81c2c92e, 0x92722c85,
   0xa2bfe8a1, 0xa81a664b, 0xc24b8b70, 0xc76c51a3, 0xd192e819, 0xd6990624, 0xf40e3585, 0x106aa070,
   0x19a4c116, 0x1e376c08, 0x2748774c, 0x34b0bcb5, 0x391c0cb3, 0x4ed8aa4a, 0x5b9cca4f, 0x682e6ff3,
   0x748f82ee, 0x78a5636f, 0x84c87814, 0x8cc70208, 0x90befffa, 0xa4506ceb, 0xbef9a3f7, 0xc67178f2]

/-- The word of the schedule that follows the given ones, which come latest first. -/
def nextWord : List UInt32 → UInt32
  | _ :: w2 :: _ :: _ :: _ :: _ :: w7 :: _ :: _ :: _ :: _ :: _ :: _ :: _ :: w15 :: w16 :: _ =>
    let low := rotate w15 7 ^^^ rotate w15 18 ^^^ (w15 >>> 3)
    let high := rotate w2 17 ^^^ rotate w2 19 ^^^ (w2 >>> 10)
    high + w7 + low + w16
  | _ => 0

/-- The rounds for a list of constants.  The words of the block are used up first; `past` holds the
words that were used, latest first. -/
def rounds : List UInt32 → List UInt32 → List UInt32 → Registers → Registers
  | [], _, _, r => r
  | constant :: constants, word :: block, past, r =>
    rounds constants block (word :: past) (r.round constant word)
  | constant :: constants, [], past, r =>
    let word := nextWord past
    rounds constants [] (word :: past) (r.round constant word)

def compress (r : Registers) (block : List UInt32) : Registers :=
  r.add (rounds roundConstants block [] r)

/-! ## The hash -/

/-- Takes words in, sixteen at a time; `pending` holds the words of the unfinished block, latest
first. -/
def absorb : List UInt32 → List UInt32 → Registers → Registers
  | [], _, r => r
  | word :: rest, pending, r =>
    if pending.length = 15 then absorb rest [] (compress r (word :: pending).reverse)
    else absorb rest (word :: pending) r

def hash (message : List UInt8) : List UInt32 :=
  (absorb (words (pad message)) [] Registers.initial).toList

end ExclusionAlgebra.Digest.Sha256
