import Moire.Decimal.Basic

/-!
# The fewest digits that read back

`Decimal.shortest` is the decimal with the fewest digits among those that a reader takes for a
given float, and of these the one nearest to it. The reals that read back as the float form an
interval around it, whose ends belong to it exactly when the mantissa is even. For one digit, two
digits and so on, the two neighbours of the float on the decimal grid of that many digits are
tried. Where the float lies halfway between them, a `Tie` decides.
-/

namespace Moire

/-- Which of two decimals is taken that are equally near. -/
inductive Tie where
  /-- The one whose last digit is even. -/
  | even
  /-- The one farther from zero. -/
  | away
  deriving DecidableEq, Repr

/-- The reals that are read as one float, as fractions of a common denominator. -/
structure ReadingInterval where
  lower : Nat
  value : Nat
  upper : Nat
  denominator : Nat
  /-- The ends belong to the interval. -/
  closed : Bool

namespace ReadingInterval

/-- The interval of the float `mantissa · 2 ^ exponent`. Its lower half is narrower when the
mantissa is the smallest of its binade, for the floats below are then closer. -/
def ofParts (mantissa : Nat) (exponent : Int) : ReadingInterval :=
  let narrow := mantissa = Binary64.leadingBit ∧ Binary64.minExponent < exponent
  let below := if narrow then 4 * mantissa - 1 else 4 * mantissa - 2
  let (unit, denominator) := scaleFraction 1 1 2 (exponent - 2)
  { lower := below * unit
    value := 4 * mantissa * unit
    upper := (4 * mantissa + 2) * unit
    denominator
    closed := mantissa % 2 = 0 }

/-- The decimal lies in the interval. -/
def contains (interval : ReadingInterval) (d : Decimal) : Bool :=
  let (num, den) := scaleFraction d.coefficient 1 10 d.exponent
  let scaled := num * interval.denominator
  if interval.closed then
    interval.lower * den ≤ scaled && scaled ≤ interval.upper * den
  else
    interval.lower * den < scaled && scaled < interval.upper * den

/-- The neighbours of the value on the grid of multiples of `10 ^ exponent`, the nearer one
first. -/
def neighbours (interval : ReadingInterval) (tie : Tie) (exponent : Int) : List Decimal :=
  let (num, den) := scaleFraction interval.value interval.denominator 10 (-exponent)
  let low := num / den
  if 2 * (num % den) < den then [⟨low, exponent⟩, ⟨low + 1, exponent⟩]
  else if den < 2 * (num % den) then [⟨low + 1, exponent⟩, ⟨low, exponent⟩]
  else if tie = .even ∧ low % 2 = 0 then [⟨low, exponent⟩, ⟨low + 1, exponent⟩]
  else [⟨low + 1, exponent⟩, ⟨low, exponent⟩]

end ReadingInterval

/-- Move trailing zeros of the coefficient into the exponent. -/
def Decimal.strip (coefficient : Nat) (exponent : Int) : Decimal :=
  if h : coefficient ≠ 0 ∧ coefficient % 10 = 0 then
    strip (coefficient / 10) (exponent + 1)
  else ⟨coefficient, exponent⟩
termination_by coefficient
decreasing_by omega

/-- The decimal of fewest digits that reads back as the positive float
`mantissa · 2 ^ exponent`. Seventeen digits are always enough. -/
def Decimal.shortest (tie : Tie) (mantissa : Nat) (exponent : Int) : Decimal :=
  let interval := ReadingInterval.ofParts mantissa exponent
  let leading := floorLog10 interval.value interval.denominator
  let attempt (digits : Nat) : Option Decimal :=
    (interval.neighbours tie (leading - digits)).find? interval.contains
  match (List.range 17).findSome? attempt with
  | some d => Decimal.strip d.coefficient d.exponent
  | none => ⟨mantissa, exponent⟩

end Moire
