/-!
# Whole parts

How a floating-point number becomes a signed word of 32 bits: its fraction is cut off, a
number outside the range becomes the end of the range on its side, and what is not a
number becomes zero.
-/

namespace Cdcl

/-- The whole part of a number, within the range of signed words of 32 bits. -/
def wholePart (x : Float) : Int :=
  if x < 0.0 then
    -Int.ofNat (min (-x).toUInt64.toNat 0x80000000)
  else
    Int.ofNat (min x.toUInt64.toNat 0x7fffffff)

end Cdcl
