/-!
# The numbers that formulas are written over

Every formula of the library is written once, over a type of numbers. `Number` holds the
arithmetic and the comparisons that counting and binning need, and `Scalar` adds the functions of
analysis. Machine floats are the instance that runs (`Moire.Number.Machine`). Exact numbers are
instances as well, which is how a law of a formula is stated without its rounding errors.
-/

namespace Moire

/-- Arithmetic together with the comparisons as they are computed. A comparison that involves a
value that is not a number is `false`. -/
class Number (α : Type) extends Add α, Sub α, Mul α, Div α, Neg α where
  /-- The value of a natural number. -/
  ofNat : Nat → α
  /-- The first value is smaller than the second. -/
  lt : α → α → Bool
  /-- The first value is at most the second. -/
  le : α → α → Bool
  /-- The two values are equal. -/
  eq : α → α → Bool
  /-- The value is a number and is not infinite. -/
  isFinite : α → Bool
  /-- The value without its fractional part, as a count: zero for what is negative or not a
  number, and at most the largest 64-bit count. -/
  toNat : α → Nat
  /-- How the value reads in messages and in keys. -/
  text : α → String
  /-- How the value reads with a given number of decimal places. -/
  fixed : Nat → α → String

/-- Numerals of a type of numbers are the values of the natural numbers. -/
instance (priority := low) {α : Type} [Number α] (n : Nat) : OfNat α n :=
  ⟨Number.ofNat n⟩

/-- Numbers with the functions of analysis and with decimal constants. -/
class Scalar (α : Type) extends Number α, OfScientific α where
  sqrt : α → α
  sin : α → α
  cos : α → α
  acos : α → α
  exp : α → α
  /-- `atan2 y x` is the angle of the point `(x, y)` in the plane. -/
  atan2 : α → α → α
  /-- The value without its sign. -/
  abs : α → α
  /-- One with the sign of the value. -/
  sign : α → α
  pi : α
  /-- The nearest count, halves going up. -/
  nearest : α → Nat

namespace Number

variable {α β : Type} [Number α]

/-- The value of an integer. -/
def ofInt : Int → α
  | .ofNat n => ofNat n
  | .negSucc n => -ofNat (n + 1)

/-- The value is one that compares with itself. -/
def isNumber (x : α) : Bool :=
  eq x x

/-- The value is finite and above zero. -/
def isPositive (x : α) : Bool :=
  isFinite x && lt 0 x

/-- The square of a value. -/
def square (x : α) : α :=
  x * x

/-- The larger of a value and zero; zero for what is not a number. -/
def nonnegative (x : α) : α :=
  if lt 0 x then x else 0

/-- The sum of a list, from the left. It starts from negative zero, which changes no value that is
added to it. -/
def sum (values : List α) : α :=
  values.foldl (· + ·) (-0)

/-- Put a value behind the entries of a descending list that are not larger than it. -/
def insertDescending (key : β → α) (x : β) : List β → List β
  | [] => [x]
  | y :: rest => if lt (key x) (key y) then y :: insertDescending key x rest else x :: y :: rest

/-- Sort by a key in ascending order. Entries of equal keys keep their order. -/
def sortBy (key : β → α) (entries : List β) : List β :=
  (entries.foldl (fun sorted x ↦ insertDescending key x sorted) []).reverse

end Number

/-- Angles in degrees, measured in radians. -/
def toRadians {α : Type} [Scalar α] (degrees : α) : α :=
  degrees * (Scalar.pi / 180)

/-- Angles in radians, measured in degrees. -/
def toDegrees {α : Type} [Scalar α] (radians : α) : α :=
  radians * (180 / Scalar.pi)

end Moire
