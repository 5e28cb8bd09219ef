/-!
# Instants

An instant is a count of milliseconds since the start of 1970, in universal time.

* `Instant.date`: its year, month and day.  Years are counted from March on, so that the leap day is
  the last of its year, and four hundred of them make an era of 146097 days.
* `Instant.text`: its text, `YYYY-MM-DDThh:mm:ss.fffZ`.
-/

namespace ExclusionAlgebra

namespace Instant

def padded (width n : Nat) : String :=
  let digits := Nat.toDigits 10 n
  String.ofList (List.replicate (width - digits.length) '0' ++ digits)

/-- The year, month and day of the given number of days after the first of January 1970. -/
def date (days : Nat) : Nat × Nat × Nat :=
  let shifted := days + 719468
  let inEra := shifted % 146097
  let year := (inEra - inEra / 1460 + inEra / 36524 - inEra / 146096) / 365
  let inYear := inEra - (365 * year + year / 4 - year / 100)
  let fromMarch := (5 * inYear + 2) / 153
  let day := inYear - (153 * fromMarch + 2) / 5 + 1
  let month := if fromMarch < 10 then fromMarch + 3 else fromMarch - 9
  (year + shifted / 146097 * 400 + (if month ≤ 2 then 1 else 0), month, day)

def text (milliseconds : Nat) : String :=
  let seconds := milliseconds / 1000
  let (year, month, day) := date (seconds / 86400)
  padded 4 year ++ "-" ++ padded 2 month ++ "-" ++ padded 2 day ++ "T" ++
    padded 2 (seconds / 3600 % 24) ++ ":" ++ padded 2 (seconds / 60 % 60) ++ ":" ++
    padded 2 (seconds % 60) ++ "." ++ padded 3 (milliseconds % 1000) ++ "Z"

end Instant

end ExclusionAlgebra
