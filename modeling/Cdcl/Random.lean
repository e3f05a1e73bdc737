import Cdcl.WholePart

/-!
# Random numbers

A multiplicative generator on floating-point numbers: the seed is multiplied by
1389796 and reduced by whole multiples of 2147483647, counted in a signed word of
32 bits.  What is chosen at random is chosen with any `Generator`, of which this one is
`Generator.standard`.
-/

namespace Cdcl.Random

/-- The modulus of the generator. -/
def modulus : Float := 2147483647.0

/-- A number that is at least 0 and below 1 for the usual seeds, and the next
seed. -/
def next (seed : Float) : Float × Float :=
  let grown := seed * 1389796.0
  let whole := wholePart (grown / modulus)
  let seed := grown - Float.ofInt whole * modulus
  (seed / modulus, seed)

/-- A whole number below `n` for the usual seeds, and the next seed. -/
def below (seed : Float) (n : Nat) : Int × Float :=
  let (x, seed) := next seed
  (wholePart (x * Float.ofNat n), seed)

end Cdcl.Random

namespace Cdcl

/-- A source of random numbers: a number, or a whole number that is to be below a bound, and
the next seed. -/
structure Generator where
  next : Float → Float × Float
  below : Float → Nat → Int × Float

/-- The generator that is built in. -/
def Generator.standard : Generator := ⟨Random.next, Random.below⟩

end Cdcl
