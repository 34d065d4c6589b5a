import Mathlib
import Moire.Number
import Moire.Word

/-!
# Ordered fields as numbers

Every ordered field is an exact instance of the library's numbers: nothing is rounded, all values
are finite, and comparisons are those of the order. The cast to a count goes to the largest count
that is not above the value, which is there without any further assumption on the field because
counts are bounded, `le_toNat_iff`. With any functions in the place of those of analysis an ordered
field is a type of scalars, `ExactScalar`.
-/

namespace Moire

/-- An ordered field together with how its values read. -/
class ExactField (K : Type) extends Field K, LinearOrder K, IsStrictOrderedRing K where
  /-- How a value reads in messages and in keys. -/
  text : K → String
  /-- How a value reads with a given number of decimal places. -/
  fixed : ℕ → K → String

/-- The numbers of an ordered field are computed exactly. -/
instance {K : Type} [ExactField K] : Number K where
  ofNat n := n
  lt x y := decide (x < y)
  le x y := decide (x ≤ y)
  eq x y := decide (x = y)
  isFinite _ := true
  toNat x := Nat.findGreatest (fun n ↦ (n : K) ≤ x) (countLimit - 1)
  text := ExactField.text
  fixed := ExactField.fixed

namespace ExactField

variable {K : Type} [ExactField K]

@[simp] theorem zero_eq : (@OfNat.ofNat K 0 (instOfNatOfNumber 0)) = 0 := Nat.cast_zero
@[simp] theorem one_eq : (@OfNat.ofNat K 1 (instOfNatOfNumber 1)) = 1 := Nat.cast_one
@[simp] theorem two_eq : (@OfNat.ofNat K 2 (instOfNatOfNumber 2)) = 2 := Nat.cast_ofNat
@[simp] theorem ofNat_eq (n : ℕ) : (Number.ofNat n : K) = n := rfl
@[simp] theorem lt_eq (x y : K) : Number.lt x y = decide (x < y) := rfl
@[simp] theorem eq_eq (x y : K) : Number.eq x y = decide (x = y) := rfl
@[simp] theorem isFinite_eq (x : K) : Number.isFinite x = true := rfl
@[simp] theorem isNumber_eq (x : K) : Number.isNumber x = true := decide_eq_true rfl

/-- A count is at most the cast of a value when it is at most the value. -/
theorem le_toNat_iff {x : K} (hx : 0 ≤ x) {n : ℕ} (hn : n < countLimit) :
    n ≤ Number.toNat x ↔ (n : K) ≤ x := by
  have hbound : n ≤ countLimit - 1 := Nat.le_sub_one_of_lt hn
  constructor
  · intro hle
    have hgreatest : ((Number.toNat x : ℕ) : K) ≤ x :=
      Nat.findGreatest_spec (P := fun n ↦ (n : K) ≤ x) (Nat.zero_le _) (by simpa using hx)
    exact (Nat.cast_le.mpr hle).trans hgreatest
  · exact fun hle ↦ Nat.le_findGreatest hbound hle

end ExactField

/-- An ordered field with functions in the place of those of analysis, of which nothing is
assumed. -/
class ExactScalar (K : Type) extends ExactField K, OfScientific K where
  sqrt : K → K
  sin : K → K
  cos : K → K
  acos : K → K
  exp : K → K
  atan2 : K → K → K
  abs : K → K
  sign : K → K
  pi : K
  nearest : K → ℕ

/-- The numbers of these scalars are those of the field. -/
instance {K : Type} [ExactScalar K] : Scalar K where
  sqrt := ExactScalar.sqrt
  sin := ExactScalar.sin
  cos := ExactScalar.cos
  acos := ExactScalar.acos
  exp := ExactScalar.exp
  atan2 := ExactScalar.atan2
  abs := ExactScalar.abs
  sign := ExactScalar.sign
  pi := ExactScalar.pi
  nearest := ExactScalar.nearest

/-- The rationals as scalars that can be computed with, without any functions of analysis. They read
as fractions. -/
abbrev ExactScalar.rational : ExactScalar ℚ where
  text := toString
  fixed _ := toString
  ofScientific := OfScientific.ofScientific
  sqrt := id
  sin := id
  cos := id
  acos := id
  exp := id
  atan2 y _ := y
  abs := id
  sign := id
  pi := 0
  nearest _ := 0

end Moire
