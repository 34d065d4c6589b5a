/-!
# Decimals and the binary floating-point format

A `Decimal` is a coefficient times a power of ten. `Binary64` takes a machine float apart into its
sign, mantissa and exponent, so that text can be made of it, and read into it, in exact integer
arithmetic. `Binary64.nearest` is the float nearest to a fraction, a tie going to the even
mantissa.
-/

namespace Moire

/-- The number `coefficient · 10 ^ exponent`. -/
structure Decimal where
  coefficient : Nat
  exponent : Int
  deriving DecidableEq, Repr, Inhabited

/-- A float taken apart. A finite value is `mantissa · 2 ^ exponent` with its sign. -/
inductive Binary64 where
  | nan
  | infinite (negative : Bool)
  | finite (negative : Bool) (mantissa : Nat) (exponent : Int)
  deriving DecidableEq, Repr, Inhabited

/-- The quotient of two natural numbers rounded to the nearest, a tie going to the even one. -/
def roundDiv (num den : Nat) : Nat :=
  let quotient := num / den
  let rest := num % den
  if 2 * rest < den then quotient
  else if den < 2 * rest then quotient + 1
  else quotient + quotient % 2

/-- The number of decimal digits. -/
def digitCount (n : Nat) : Nat :=
  (Nat.toDigits 10 n).length

/-- The exponent of the largest power of ten that is at most `num / den`, both positive. -/
def floorLog10 (num den : Nat) : Int :=
  let guess : Int := (digitCount num : Int) - digitCount den
  let reached :=
    if 0 ≤ guess then den * Nat.pow 10 guess.toNat ≤ num
    else den ≤ num * Nat.pow 10 (-guess).toNat
  if reached then guess else guess - 1

/-- The fraction `num / den · base ^ exponent`. -/
def scaleFraction (num den base : Nat) (exponent : Int) : Nat × Nat :=
  if 0 ≤ exponent then (num * Nat.pow base exponent.toNat, den)
  else (num, den * Nat.pow base (-exponent).toNat)

namespace Binary64

/-- The exponent of the smallest positive float. -/
def minExponent : Int := -1074

/-- The largest exponent of a finite float. -/
def maxExponent : Int := 971

/-- The leading bit of the mantissa of a normal float, two to the 52. -/
def leadingBit : Nat := 4503599627370496

/-- The sign bit, two to the 63. -/
def signWeight : Nat := 9223372036854775808

/-- Read the sign, exponent and fraction fields. -/
def ofBits (bits : Nat) : Binary64 :=
  let negative := decide (signWeight ≤ bits)
  let exponent : Nat := bits / leadingBit % 2048
  let fraction : Nat := bits % leadingBit
  if exponent = 2047 then
    if fraction = 0 then .infinite negative else .nan
  else if exponent = 0 then .finite negative fraction minExponent
  else .finite negative (leadingBit + fraction) ((exponent : Int) - 1075)

/-- Pack the fields. A value that is not a number has one packing. -/
def toBits : Binary64 → Nat
  | .nan => 0x7ff8000000000000
  | .infinite negative => signBit negative + 2047 * leadingBit
  | .finite negative mantissa exponent =>
      if mantissa < leadingBit then signBit negative + mantissa
      else signBit negative + ((exponent + 1075).toNat * leadingBit + (mantissa - leadingBit))
where
  signBit (negative : Bool) : Nat := if negative then signWeight else 0

/-- Take a float apart. -/
def ofFloat (x : Float) : Binary64 :=
  ofBits x.toBits.toNat

/-- Put a float together. -/
def toFloat (x : Binary64) : Float :=
  Float.ofBits (UInt64.ofNat x.toBits)

/-- The float nearest to `num / den`, a tie going to the even mantissa and what is too large to
infinity. -/
def nearest (negative : Bool) (num den : Nat) : Binary64 :=
  if num = 0 then .finite negative 0 minExponent
  else
    let width : Int := (num.log2 : Int) - den.log2
    let low := max (width - 53) minExponent
    let (n, d) := scaleFraction num den 2 (-low)
    let exponent := if n / d < 2 * leadingBit then low else low + 1
    let (n, d) := scaleFraction num den 2 (-exponent)
    let mantissa := roundDiv n d
    let (mantissa, exponent) :=
      if mantissa = 2 * leadingBit then (leadingBit, exponent + 1) else (mantissa, exponent)
    if maxExponent < exponent then .infinite negative else .finite negative mantissa exponent

end Binary64

/-- The float nearest to a signed decimal. Exponents beyond the range of the format are cut off
before any power is taken. -/
def Decimal.toBinary64 (negative : Bool) (d : Decimal) : Binary64 :=
  let magnitude := d.exponent + digitCount d.coefficient
  if d.coefficient = 0 ∨ magnitude < -400 then .finite negative 0 Binary64.minExponent
  else if 400 < magnitude then .infinite negative
  else
    let (num, den) := scaleFraction d.coefficient 1 10 d.exponent
    Binary64.nearest negative num den

/-- The float nearest to a signed decimal. -/
def Decimal.toFloat (negative : Bool) (d : Decimal) : Float :=
  (d.toBinary64 negative).toFloat

end Moire
