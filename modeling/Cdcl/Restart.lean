import Cdcl.Fault

/-!
# Restart intervals

The lengths of the rounds of a search: powers of a factor, with exponents that grow
by one from round to round, or that follow the Luby sequence

    0, 0, 1, 0, 0, 1, 2, 0, 0, 1, 0, 0, 1, 2, 3, …

`lubyExponent` finds the shortest initial segment of the sequence that ends behind
the given place; the segments have 1, 3, 7, … entries, each being the one before it
twice over and one more.  `IsLuby` states the sequence by its recurrence.
-/

namespace Cdcl.Restart

/-- Powers by repeated squaring: `r` times `x` to the power `n`. -/
def powerFrom (r x : Float) (n : Nat) : Float :=
  let r := if n % 2 = 1 then r * x else r
  if n / 2 = 0 then r else powerFrom r (x * x) (n / 2)
termination_by n
decreasing_by omega

/-- The power `x ^ n`. -/
def power (x : Float) (n : Nat) : Float := powerFrom 1.0 x n

/-- Sizes and places of the sequence are kept in signed words of 32 bits. -/
def placeSpan : Nat := 0x80000000

/-- Grows a segment of the given size and greatest exponent until it covers place
`x`. -/
def segment (x size exponent : Nat) : Except Fault (Nat × Nat) :=
  if size ≤ x then
    if 2 * size + 1 < placeSpan then
      segment x (2 * size + 1) (exponent + 1)
    else
      .error .widthExceeded
  else
    .ok (size, exponent)
termination_by x + 1 - size

/-- The entry at place `x` of a segment: the greatest exponent at the last place,
and otherwise the entry of one of the two halves. -/
def entry (size exponent x : Nat) : Except Fault Nat :=
  if size = x + 1 then
    .ok exponent
  else if (size - 1) / 2 = 0 then
    .error .overflow
  else do
    let exponent ← checkedSub exponent 1
    entry ((size - 1) / 2) exponent (x % ((size - 1) / 2))
termination_by size
decreasing_by omega

/-- The entry of the Luby sequence at place `x`. -/
def lubyExponent (x : Nat) : Except Fault Nat := do
  if x + 1 < placeSpan then
    let (size, exponent) ← segment x 1 0
    entry size exponent x
  else
    throw .widthExceeded

/-- The Luby sequence: it ends a segment of `2 ^ k - 1` entries with `k - 1`, and
behind the segment it begins anew. -/
inductive IsLuby : Nat → Nat → Prop
  | last (k : Nat) : IsLuby (Nat.pow 2 (k + 1) - 2) k
  | again {x k e : Nat} (low : Nat.pow 2 k - 1 ≤ x) (high : x < Nat.pow 2 (k + 1) - 2)
      (earlier : IsLuby (x - (Nat.pow 2 k - 1)) e) : IsLuby x e

/-- The length of round `n` as a factor: a power of `factor`. -/
def interval (luby : Bool) (factor : Float) (n : Nat) : Except Fault Float :=
  if luby then do
    return power factor (← lubyExponent n)
  else
    .ok (power factor n)

end Cdcl.Restart
