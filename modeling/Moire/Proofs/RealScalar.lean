import Mathlib.Analysis.SpecialFunctions.Complex.Arg
import Mathlib.Tactic
import Moire.Decimal.Layout
import Moire.Number
import Moire.Vec
import Moire.Word

/-!
# The reals as scalars

The exact instance of the library's numbers, in which a law of a formula is stated without its
rounding errors. Numerals of the library are casts of natural numbers; the two that differ from the
usual ones by more than their name are `zero_eq` and `one_eq`. Functions that return a count cut off
at the largest one, as they do for floats.
-/

namespace Moire

namespace RealScalar

/-- The largest count. -/
def largestCount : ℕ := countLimit - 1

/-- The nearest whole number to a nonnegative real, a half going to the even one. -/
noncomputable def roundEven (x : ℝ) : ℕ :=
  if 2 * Int.fract x < 1 then ⌊x⌋₊
  else if 1 < 2 * Int.fract x then ⌊x⌋₊ + 1
  else ⌊x⌋₊ + ⌊x⌋₊ % 2

/-- A given number of decimals. -/
noncomputable def fixedText (places : ℕ) (x : ℝ) : String :=
  Layout.signed (decide (x < 0)) (Layout.pointAt places (Nat.repr (roundEven (|x| * 10 ^ places))))

end RealScalar

open RealScalar

/-- Reals compare as they do, are all finite, and read with as many decimals as a float can
have digits. -/
noncomputable instance : Number ℝ where
  ofNat n := n
  lt x y := decide (x < y)
  le x y := decide (x ≤ y)
  eq x y := decide (x = y)
  isFinite _ := true
  toNat x := min ⌊x⌋₊ largestCount
  text := fixedText 17
  fixed := fixedText

/-- Reals take their functions from analysis. -/
noncomputable instance : Scalar ℝ where
  sqrt := Real.sqrt
  sin := Real.sin
  cos := Real.cos
  acos := Real.arccos
  exp := Real.exp
  atan2 y x := Complex.arg ⟨x, y⟩
  abs x := |x|
  sign x := if x < 0 then -1 else 1
  pi := Real.pi
  nearest x := min ⌊x + 1 / 2⌋₊ largestCount

namespace RealScalar

/-- The library's zero is zero. -/
@[simp] theorem zero_eq : (@OfNat.ofNat ℝ 0 (instOfNatOfNumber 0)) = 0 := Nat.cast_zero

/-- The library's one is one. -/
@[simp] theorem one_eq : (@OfNat.ofNat ℝ 1 (instOfNatOfNumber 1)) = 1 := Nat.cast_one

@[simp] theorem ofNat_eq (n : ℕ) : (Number.ofNat n : ℝ) = n := rfl

/-- The value of an integer is its cast. -/
@[simp] theorem ofInt_eq (n : ℤ) : (Number.ofInt n : ℝ) = n := by
  cases n with
  | ofNat n => simp [Number.ofInt]
  | negSucc n => simp [Number.ofInt, Int.negSucc_eq]

@[simp] theorem lt_eq (x y : ℝ) : Number.lt x y = decide (x < y) := rfl
@[simp] theorem le_eq (x y : ℝ) : Number.le x y = decide (x ≤ y) := rfl
@[simp] theorem isFinite_eq (x : ℝ) : Number.isFinite x = true := rfl
@[simp] theorem sqrt_eq (x : ℝ) : Scalar.sqrt x = √x := rfl
@[simp] theorem sin_eq (x : ℝ) : Scalar.sin x = Real.sin x := rfl
@[simp] theorem cos_eq (x : ℝ) : Scalar.cos x = Real.cos x := rfl
@[simp] theorem acos_eq (x : ℝ) : Scalar.acos x = Real.arccos x := rfl
@[simp] theorem pi_eq : (Scalar.pi : ℝ) = Real.pi := rfl

/-- A real is positive as a scalar when it is positive. -/
@[simp] theorem isPositive_eq (x : ℝ) : Number.isPositive x = decide (0 < x) := by
  simp [Number.isPositive]

/-- The nearest count to a whole number is the number itself, or the largest count. -/
theorem nearest_natCast_eq_min (n : ℕ) : Scalar.nearest (n : ℝ) = min n largestCount := by
  have hfloor : ⌊(n : ℝ) + 1 / 2⌋₊ = n := by
    rw [Nat.floor_eq_iff (by positivity)]
    constructor <;> norm_num
  show min ⌊(n : ℝ) + 1 / 2⌋₊ largestCount = min n largestCount
  rw [hfloor]

/-- A whole number within the range of counts is its own nearest count. -/
theorem nearest_natCast {n : ℕ} (h : n < countLimit) : Scalar.nearest (n : ℝ) = n := by
  have hle : n ≤ largestCount := by
    unfold largestCount
    omega
  rw [nearest_natCast_eq_min, Nat.min_eq_left hle]

/-- An angle turned into degrees and back is unchanged. -/
@[simp] theorem toRadians_toDegrees (x : ℝ) : toRadians (toDegrees x) = x := by
  have hpi : Real.pi ≠ 0 := Real.pi_ne_zero
  unfold toRadians toDegrees
  simp only [pi_eq]
  field_simp

end RealScalar

end Moire
