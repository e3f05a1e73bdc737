import Cdcl.Decimal.Binary

/-!
# Decimals with fixed places

A floating-point number written with a fixed number of places is its exact value
rounded to the nearest decimal with that many places, a tie going to the even
neighbour.  Numbers in tables are filled up with blanks to the width of a column.
-/

namespace Cdcl.Decimal

/-- The absolute value of a binary number as a multiple of `10 ^ -places`, rounded. -/
def Binary.scaled (b : Binary) (places : Nat) : Nat :=
  scaledQuotient (b.significand * Nat.pow 10 places) 1 (-b.exponent)

/-- Fills a text with blanks on the left up to a width. -/
def padLeft (width : Nat) (s : String) : String :=
  "".pushn ' ' (width - s.length) ++ s

/-- Fills a text with blanks on the right up to a width. -/
def padRight (width : Nat) (s : String) : String := s.pushn ' ' (width - s.length)

/-- A whole number in a column of a given width. -/
def column (width n : Nat) : String := padLeft width (toString n)

/-- A whole number of units of `10 ^ -places`. -/
def unitsText (places units : Nat) : String :=
  if places = 0 then
    toString units
  else
    let digits := toString (units % Nat.pow 10 places)
    toString (units / Nat.pow 10 places) ++ "." ++
      "".pushn '0' (places - digits.length) ++ digits

/-- A floating-point number with a fixed number of places. -/
def fixed (places : Nat) (x : Float) : String :=
  match decode x with
  | .nan => "NaN"
  | .infinite negative => (if negative then "-" else "") ++ "inf"
  | .finite b => (if b.negative then "-" else "") ++ unitsText places (b.scaled places)

end Cdcl.Decimal
