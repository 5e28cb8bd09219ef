import ExclusionAlgebra.Digest.Sha256

/-!
# Digests

A digest is the SHA-256 of a text's UTF-8 bytes in sixty-four lower-case hexadecimal digits.

* `Digest.ofText`: the digest of a text.
* `Digest.sort`: digests in ascending order, repeats kept.
-/

namespace ExclusionAlgebra

structure Digest where
  hex : String
deriving DecidableEq, Repr

namespace Digest

def utf8 : List Char → List UInt8
  | [] => []
  | c :: rest =>
    if c.toNat < 0x80 then UInt8.ofNat c.toNat :: utf8 rest
    else String.utf8EncodeChar c ++ utf8 rest

/-- The hexadecimal digit of the four lowest bits of a word. -/
def hexDigit (w : UInt32) : Char := Nat.digitChar (w &&& 0xF).toNat

def hexWords : List UInt32 → List Char
  | [] => []
  | w :: rest =>
    hexDigit (w >>> 28) :: hexDigit (w >>> 24) :: hexDigit (w >>> 20) :: hexDigit (w >>> 16) ::
      hexDigit (w >>> 12) :: hexDigit (w >>> 8) :: hexDigit (w >>> 4) :: hexDigit w ::
        hexWords rest

def ofText (text : List Char) : Digest :=
  ⟨String.ofList (hexWords (Sha256.hash (utf8 text)))⟩

def le (a b : Digest) : Bool := !decide (b.hex < a.hex)

/-- Puts a digest in front of the first that is not below it. -/
def insert (d : Digest) : List Digest → List Digest
  | [] => [d]
  | e :: rest => if d.le e then d :: e :: rest else e :: insert d rest

/-- Ascending order; equal digests are all kept. -/
def sort (digests : List Digest) : List Digest := digests.foldr insert []

end Digest

end ExclusionAlgebra
