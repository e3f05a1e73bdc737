import Cdcl.Decimal.Binary

/-!
# Reading numbers

Numbers as they are written on a command line.  A whole number is an optional sign
and digits.  A floating-point number is an optional sign and then `inf`, `infinity`
or `nan`, in letters of either case, or digits with an optional point among or
around them and an optional exponent; there has to be a digit besides the exponent.
Nothing may stand before or behind the number.
-/

namespace Cdcl.Decimal

/-- The value of a digit. -/
def digit? (c : Char) : Option Nat :=
  if '0' ≤ c ∧ c ≤ '9' then some (c.toNat - '0'.toNat) else none

/-- The digits at the start of a text, and what follows them. -/
def spanDigits : List Char → List Nat × List Char
  | [] => ([], [])
  | c :: cs =>
      match digit? c with
      | some d =>
          let (ds, rest) := spanDigits cs
          (d :: ds, rest)
      | none => ([], c :: cs)

/-- The number that digits stand for. -/
def ofDigits (ds : List Nat) : Nat := ds.foldl (fun n d => 10 * n + d) 0

/-- Takes a sign off; the answer is true for a minus. -/
def takeSign : List Char → Bool × List Char
  | '-' :: cs => (true, cs)
  | '+' :: cs => (false, cs)
  | cs => (false, cs)

/-- A number without a sign, all of whose characters are digits. -/
def magnitude? (cs : List Char) : Option Nat :=
  match spanDigits cs with
  | ([], _) => none
  | (ds, []) => some (ofDigits ds)
  | _ => none

/-- A whole number with an optional sign that lies in a signed word of 32 bits. -/
def int32? (s : String) : Option Int :=
  let (negative, cs) := takeSign s.toList
  match magnitude? cs with
  | some n =>
      let value : Int := if negative then -n else n
      if -0x80000000 ≤ value ∧ value < 0x80000000 then some value else none
  | none => none

/-- A whole number, possibly with a plus sign, that lies in a word of 64 bits. -/
def nat64? (s : String) : Option Nat :=
  let (negative, cs) := takeSign s.toList
  match magnitude? cs with
  | some n => if !negative && n < 0x10000000000000000 then some n else none
  | none => none

/-- Exponents beyond this bound are out of reach for any number of ordinary
length. -/
def exponentBound : Int := 400

/-- The floating-point number nearest to `m * 10 ^ k`, where `m` has `digits`
digits. -/
def ofDecimal (m digits : Nat) (k : Int) : Float :=
  if m = 0 then 0.0
  else if exponentBound < k then nearest (Nat.pow 10 400) 1
  else if k < -exponentBound - digits then 0.0
  else if 0 ≤ k then nearest (m * Nat.pow 10 k.toNat) 1
  else nearest m (Nat.pow 10 (-k).toNat)

/-- An exponent, of which nothing is left; without one it is zero. -/
def exponent? : List Char → Option Int
  | [] => some 0
  | c :: cs =>
      if c = 'e' ∨ c = 'E' then
        let (negative, cs) := takeSign cs
        (magnitude? cs).map fun n => if negative then -(n : Int) else n
      else
        none

/-- A number in digits, without a sign. -/
def decimal? (cs : List Char) : Option Float :=
  let (whole, rest) := spanDigits cs
  let (part, rest) := match rest with
    | '.' :: rest => spanDigits rest
    | rest => ([], rest)
  if whole.isEmpty && part.isEmpty then
    none
  else
    let ds := whole ++ part
    (exponent? rest).map fun k => ofDecimal (ofDigits ds) ds.length (k - part.length)

/-- A floating-point number. -/
def float? (s : String) : Option Float :=
  let (negative, cs) := takeSign s.toList
  let word := String.ofList (cs.map Char.toLower)
  let value :=
    if word = "inf" ∨ word = "infinity" then some (1.0 / 0.0)
    else if word = "nan" then some (0.0 / 0.0)
    else decimal? cs
  value.map fun x => if negative then -x else x

end Cdcl.Decimal
