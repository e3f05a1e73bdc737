/-!
# Binary numbers

A finite floating-point number is a whole number times a power of two, so it is an
exact fraction.  `decode` takes a number apart, and `nearest` finds the number
closest to a fraction; a tie goes to the even neighbour, as in `roundDiv`.

* `roundDiv_near` — the rounded quotient is off by at most one half;
* `roundDiv_exact` — a quotient without remainder is not changed.
-/

namespace Cdcl.Decimal

/-- The quotient rounded to the nearest whole number, ties to even. -/
def roundDiv (num den : Nat) : Nat :=
  let q := num / den
  let twice := 2 * (num % den)
  if den < twice ∨ (twice = den ∧ q % 2 = 1) then q + 1 else q

theorem roundDiv_near (num : Nat) {den : Nat} (h : 0 < den) :
    2 * num ≤ 2 * (den * roundDiv num den) + den ∧
      2 * (den * roundDiv num den) ≤ 2 * num + den := by
  have split := Nat.div_add_mod num den
  have small := Nat.mod_lt num h
  unfold roundDiv
  simp only
  split
  · rw [Nat.mul_add]
    omega
  · omega

theorem roundDiv_exact (q : Nat) {den : Nat} (h : 0 < den) :
    roundDiv (q * den) den = q := by
  unfold roundDiv
  simp [Nat.mul_div_cancel q h]
  omega

/-- A finite binary number: `significand * 2 ^ exponent`. -/
structure Binary where
  negative : Bool
  significand : Nat
  exponent : Int

/-- What the bits of a floating-point number stand for. -/
inductive Decoded where
  | nan
  | infinite (negative : Bool)
  | finite (b : Binary)

/-- The exponent of the smallest numbers. -/
def leastExponent : Int := -1074

/-- The fraction of a floating-point number has 52 bits. -/
def fractionSpan : Nat := 0x10000000000000

/-- The exponent of a floating-point number has 11 bits. -/
def exponentSpan : Nat := 0x800

/-- Takes a floating-point number apart. -/
def decode (x : Float) : Decoded :=
  let bits := x.toBits.toNat
  let negative := exponentSpan * fractionSpan ≤ bits
  let biased : Nat := bits / fractionSpan % exponentSpan
  let fraction : Nat := bits % fractionSpan
  if biased = exponentSpan - 1 then
    if fraction = 0 then .infinite negative else .nan
  else if biased = 0 then
    .finite ⟨negative, fraction, leastExponent⟩
  else
    .finite ⟨negative, fractionSpan + fraction, (biased : Int) - 1 + leastExponent⟩

/-- The quotient of `num` by `den * 2 ^ e`, rounded. -/
def scaledQuotient (num den : Nat) (e : Int) : Nat :=
  if 0 ≤ e then roundDiv num (den <<< e.toNat) else roundDiv (num <<< (-e).toNat) den

/-- The exponent for which a fraction has a significand of 53 bits, or the least
exponent if that is greater. -/
def ratioExponent (num den : Nat) : Int :=
  let e : Int := (num.log2 : Int) - den.log2
  let reached :=
    if 0 ≤ e then den <<< e.toNat ≤ num else den ≤ num <<< (-e).toNat
  max ((if reached then e else e - 1) - 52) leastExponent

/-- The bits of infinity. -/
def infinityBits : Nat := (exponentSpan - 1) * fractionSpan

/-- The floating-point number nearest to a positive fraction; fractions beyond all
numbers give infinity.  A significand that is rounded up to the next power of two
carries into the exponent. -/
def nearest (num den : Nat) : Float :=
  let e := ratioExponent num den
  let bits := (e - leastExponent).toNat * fractionSpan + scaledQuotient num den e
  Float.ofBits (UInt64.ofNat (min bits infinityBits))

end Cdcl.Decimal
