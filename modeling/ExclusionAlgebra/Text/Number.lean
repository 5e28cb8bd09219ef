/-!
# The text of a number

A number is held as a 64-bit binary float and written with the fewest decimal digits that read back
as that float; of several such decimals the closest is written, and an exact tie goes to the even
last digit.  Values from 10^-6 up to below 10^21 are written positionally, all others with a signed
exponent.  Zero has no sign.

* `Number.Binary.readsBack`: does a decimal lie among the reals that round to a float?
* `Number.Binary.shortest`: the chosen digits and their exponent.
* `Number.text`: the text of a decimal number after rounding to a float.

Powers are written `Nat.pow`, because `^` names another instance where Mathlib is imported.
-/

namespace ExclusionAlgebra.Text

/-- A decimal number, `mantissa * 10 ^ (-scale)`. -/
structure Number where
  mantissa : Int
  scale : Nat
deriving DecidableEq, Repr

namespace Number

/-! ## Which digits -/

/-- A positive float, `significand * 2 ^ exponent`. -/
structure Binary where
  significand : Nat
  exponent : Int
  /-- The gap to the float below is half the gap to the float above. -/
  narrowBelow : Bool
deriving DecidableEq, Repr

structure Digits where
  digits : Nat
  exponent : Int
deriving DecidableEq, Repr

/-- The order of `a * 10 ^ i` and `b * 2 ^ j`, by cross-multiplication. -/
def compareScaled (a : Nat) (i : Int) (b : Nat) (j : Int) : Ordering :=
  compare (a * Nat.pow 10 i.toNat * Nat.pow 2 (-j).toNat)
    (b * Nat.pow 2 j.toNat * Nat.pow 10 (-i).toNat)

namespace Binary

/-- The float with the given bits, which are those of a finite positive value. -/
def ofBits (bits : UInt64) : Binary :=
  let exponent : Nat := bits.toNat / Nat.pow 2 52 % Nat.pow 2 11
  let fraction : Nat := bits.toNat % Nat.pow 2 52
  if exponent = 0 then ⟨fraction, -1074, false⟩
  else ⟨Nat.pow 2 52 + fraction, (exponent : Int) - 1075, fraction = 0 && 1 < exponent⟩

/-- Does the decimal lie between the halfway points to the two neighbours?  The halfway points
belong to the interval when the significand is even. -/
def readsBack (x : Binary) (d : Digits) : Bool :=
  let low := compareScaled d.digits d.exponent
    (if x.narrowBelow then 4 * x.significand - 1 else 4 * x.significand - 2) (x.exponent - 2)
  let high := compareScaled d.digits d.exponent (4 * x.significand + 2) (x.exponent - 2)
  let closed := x.significand % 2 = 0
  (low = .gt || (closed && low = .eq)) && (high = .lt || (closed && high = .eq))

/-- The least `k` with `x < 10 ^ k`: the digits before the point of `x * 10 ^ 400`, less 400. -/
def magnitude (x : Binary) : Int :=
  let shifted := x.significand * Nat.pow 2 x.exponent.toNat * Nat.pow 10 400 /
    Nat.pow 2 (-x.exponent).toNat
  ((Nat.toDigits 10 shifted).length : Int) - 400

/-- The largest decimal on the grid `10 ^ grid` that is not above `x`. -/
def floorOn (x : Binary) (grid : Int) : Digits :=
  ⟨x.significand * Nat.pow 2 x.exponent.toNat * Nat.pow 10 (-grid).toNat /
    (Nat.pow 2 (-x.exponent).toNat * Nat.pow 10 grid.toNat), grid⟩

/-- The neighbour on the grid that reads back; of two the closer, of two equally close the even. -/
def onGrid? (x : Binary) (grid : Int) : Option Digits :=
  let below := x.floorOn grid
  let above : Digits := ⟨below.digits + 1, grid⟩
  match x.readsBack below, x.readsBack above with
  | false, false => none
  | true, false => some below
  | false, true => some above
  | true, true =>
    match compareScaled (2 * below.digits + 1) grid (2 * x.significand) x.exponent with
    | .gt => some below
    | .lt => some above
    | .eq => some (if below.digits % 2 = 0 then below else above)

/-- The first hit on the grids of one, two, up to seventeen digits, coarsest first. -/
def shortest (x : Binary) : Digits :=
  ((List.range 17).findSome? fun (n : Nat) => x.onGrid? (x.magnitude - (n + 1 : Nat))).getD
    (x.floorOn (x.magnitude - 17))

end Binary

/-! ## How they are laid out -/

def zeros (n : Nat) : List Char := List.replicate n '0'

/-- Digits without zeros at the end; the zeros go into the exponent. -/
def Digits.strip (d : Digits) : List Char × Int :=
  let all := Nat.toDigits 10 d.digits
  let kept := (all.reverse.dropWhile (· = '0')).reverse
  (kept, d.exponent + (all.length - kept.length : Nat))

/-- Lays digits out: positionally where the point falls within 21 places before or 6 places after
the first digit, else as one digit, a fraction and a signed exponent. -/
def Digits.layout (d : Digits) : List Char :=
  let (digits, exponent) := d.strip
  let count : Int := digits.length
  let point := exponent + count
  if count ≤ point ∧ point ≤ 21 then digits ++ zeros exponent.toNat
  else if 0 < point ∧ point ≤ 21 then
    digits.take point.toNat ++ '.' :: digits.drop point.toNat
  else if -6 < point ∧ point ≤ 0 then '0' :: '.' :: (zeros (-point).toNat ++ digits)
  else
    let lead := match digits with
      | [] => []
      | [digit] => [digit]
      | digit :: fraction => digit :: '.' :: fraction
    let power := point - 1
    lead ++ 'e' :: (if power < 0 then '-' else '+') :: Nat.toDigits 10 power.natAbs

def text (n : Number) : List Char :=
  let x := Float.ofScientific n.mantissa.natAbs true n.scale
  if x.toBits = 0 then ['0']
  else
    let sign := if n.mantissa < 0 then ['-'] else []
    if x.toBits.toNat / Nat.pow 2 52 % Nat.pow 2 11 = 2047 then sign ++ "Infinity".toList
    else sign ++ (Binary.ofBits x.toBits).shortest.layout

end Number

end ExclusionAlgebra.Text
