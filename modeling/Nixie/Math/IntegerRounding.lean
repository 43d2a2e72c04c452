import Mathlib.Algebra.Order.Floor.Ring

/-! Rounding of one equation whose value is an integer: what mixed-integer cuts are valid by. -/

namespace Nixie.Math.IntegerRounding

variable {K : Type*} [Field K] [LinearOrder K] [IsStrictOrderedRing K]

/-- What remains of a coefficient of an integer: its fractional part, or that less one. -/
def remainder [FloorRing K] (fraction coefficient : K) : K :=
  if Int.fract coefficient ≤ fraction then Int.fract coefficient else Int.fract coefficient - 1

end Nixie.Math.IntegerRounding
