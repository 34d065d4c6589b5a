import Moire.Number
import Moire.Decimal.Layout

/-!
# Machine floats as scalars

The instance of the library's numbers that runs.
-/

namespace Moire

/-- Floats compare as the hardware compares them and read in the plain layout. -/
instance : Number Float where
  ofNat := Float.ofNat
  lt x y := decide (x < y)
  le x y := decide (x ≤ y)
  eq x y := x == y
  isFinite := Float.isFinite
  toNat x := x.toUInt64.toNat
  text := Layout.plain
  fixed := Layout.fixed

/-- Floats take their functions from the machine's library. -/
instance : Scalar Float where
  sqrt := Float.sqrt
  sin := Float.sin
  cos := Float.cos
  acos := Float.acos
  exp := Float.exp
  atan2 := Float.atan2
  abs := Float.abs
  sign x :=
    if x.isNaN then x
    else if x.toBits < 0x8000000000000000 then 1 else -1
  pi := 3.141592653589793
  nearest x := x.round.toUInt64.toNat

end Moire
