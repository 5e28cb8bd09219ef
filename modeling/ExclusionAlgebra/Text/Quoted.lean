/-!
# Quoted text

A text between double quotes, as messages and canonical texts show it.  The quote and the backslash
stand behind a backslash, the control characters below U+0020 are named by a letter or by four
hexadecimal digits, and every other character stands for itself.

* `quote`: the quoted form of a text.
* `quoteLead`: the quoted form of the first 16-bit unit of a character.  A character beyond the
  basic plane has two units, and its first is written by its number.
-/

namespace ExclusionAlgebra.Text

/-- A number below 65536 as four hexadecimal digits. -/
def hexFour (n : Nat) : List Char :=
  [Nat.digitChar (n / 0x1000 % 16), Nat.digitChar (n / 0x100 % 16), Nat.digitChar (n / 0x10 % 16),
   Nat.digitChar (n % 16)]

/-- The letter behind the backslash, for the characters that have one. -/
def escapeLetter? (c : Char) : Option Char :=
  if c = '"' then some '"'
  else if c = '\\' then some '\\'
  else if c = '\x08' then some 'b'
  else if c = '\t' then some 't'
  else if c = '\n' then some 'n'
  else if c = '\x0c' then some 'f'
  else if c = '\r' then some 'r'
  else none

/-- A text inside quotes. -/
def escaped : List Char → List Char
  | [] => []
  | c :: rest =>
    match escapeLetter? c with
    | some letter => '\\' :: letter :: escaped rest
    | none =>
      if c.toNat < 0x20 then '\\' :: 'u' :: (hexFour c.toNat ++ escaped rest)
      else c :: escaped rest

def quote (text : List Char) : List Char := '"' :: (escaped text ++ ['"'])

/-- The first 16-bit unit of a character, between quotes. -/
def quoteLead (c : Char) : List Char :=
  if c.toNat < 0x10000 then quote [c]
  else '"' :: '\\' :: 'u' :: (hexFour (0xD800 + (c.toNat - 0x10000) / 0x400) ++ ['"'])

end ExclusionAlgebra.Text
