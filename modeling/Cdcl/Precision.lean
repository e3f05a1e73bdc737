/-!
# Single and double precision

Clause activities are kept in single precision, and what is added to them or compared with
them in double precision.  `narrow` rounds to the nearest number of single precision, in a
tie to the one with an even mantissa; `widen` keeps the number.
-/

namespace Cdcl

open Float.Model (Format UnpackedFloat)

/-- The nearest number of a format.  What is not finite stays as it is. -/
def nearest (format : Format) : UnpackedFloat → UnpackedFloat
  | .finite sign mantissa exponent _ => .round format sign mantissa exponent
  | x => x

/-- The nearest number of single precision. -/
def narrow (x : Float) : Float32 :=
  let x := UnpackedFloat.unpack .binary64 x.toBits.toBitVec
  .ofBits (.ofBitVec (UnpackedFloat.pack .binary32 (nearest .binary32 x)))

/-- The same number in double precision. -/
def widen (x : Float32) : Float :=
  let x := UnpackedFloat.unpack .binary32 x.toBits.toBitVec
  .ofBits (.ofBitVec (UnpackedFloat.pack .binary64 (nearest .binary64 x)))

end Cdcl
