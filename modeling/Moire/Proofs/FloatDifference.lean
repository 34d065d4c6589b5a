import Mathlib
import Moire.Proofs.FloatProduct
import Moire.Proofs.RealScalar

/-!
# The sign of a difference

A difference of numbers in ascending order is not negative, `DifferenceLaws.le_sub`. For machine
floats this holds in spite of rounding: the mantissas are brought to one exponent and subtracted
exactly, rounding keeps the sign of what it rounds, and so does packing, even where the difference
leaves the range of floats. The one difference that is not a number is that of an infinity and
itself.
-/

namespace Moire

/-- Differences have the sign that the order of their terms gives them. -/
class DifferenceLaws (α : Type) [Number α] : Prop where
  le_sub {x y : α} : Number.le x y → Number.isNumber (y - x) → Number.le 0 (y - x)
  isNumber_sub {x y : α} : Number.isFinite x → Number.isFinite y → Number.isNumber (y - x)

namespace Binary64

open Float.Model (UnpackedFloat Format)
open Float.Model.UnpackedFloat (Sign decreaseExponent round normalize sub roundWithAccuracy)

/-! ## Rounded results -/

/-- What an operation can return before it is packed: a zero, or a float with a given sign bit whose
exponent may be too large. -/
inductive Rounded (negative : Bool) : UnpackedFloat → Prop where
  | zero (sign : Sign) : Rounded negative (.zero sign)
  | finite {m : ℕ} {e : ℤ} (h : Canonical m e) :
      Rounded negative (Binary64.finite negative m e).unpacked
  | infinite : Rounded negative (Binary64.infinite negative).unpacked

variable {m n : ℕ} {e f : ℤ}

namespace Rounded

variable {negative : Bool} {x : UnpackedFloat}

/-- Packing keeps the sign bit. -/
theorem pack (h : Rounded negative x) : Rounded negative (Float.Model.pack x).unpack := by
  cases h with
  | zero sign =>
      obtain ⟨bit, rfl⟩ : ∃ bit, sign = Binary64.sign bit := by
        cases sign with
        | negative => exact ⟨true, rfl⟩
        | positive => exact ⟨false, rfl⟩
      rw [← unpacked_zero bit minExponent, unpack_pack_zero]
      exact .zero _
  | finite h =>
      rw [unpack_pack negative h]
      split
      · exact .finite h
      · exact .infinite
  | infinite =>
      rw [unpack_pack_infinite]
      exact .infinite

/-- A rounded result is a number. -/
theorem compare_self (h : Rounded negative x) : x.compare x = some .eq := by
  cases h with
  | zero sign => rfl
  | finite h =>
      rename_i m e
      obtain rfl | hm := Nat.eq_zero_or_pos m
      · rfl
      rw [unpacked_finite negative hm]
      have hself : (compare e e).then (compare m m) = .eq := by
        rw [compare_eq_iff_eq.mpr rfl, compare_eq_iff_eq.mpr rfl]
        rfl
      cases negative with
      | false => exact congrArg some hself
      | true => exact congrArg (some ∘ Ordering.swap) hself
  | infinite => cases negative <;> rfl

/-- A rounded result without a sign bit is at least zero. -/
theorem zero_le (h : Rounded false x) : (UnpackedFloat.zero .positive).le x = true := by
  cases h with
  | zero sign => rfl
  | finite h =>
      rename_i m e
      obtain rfl | hm := Nat.eq_zero_or_pos m
      · rfl
      rw [unpacked_finite false hm]
      rfl
  | infinite => rfl

/-- Rounding a magnitude keeps the sign bit. -/
theorem round (negative : Bool) (hm : 0 < m) (e : ℤ) :
    Rounded negative (round Format.binary64 (sign negative) m e) := by
  set shift := (e - target m e).toNat with hshift
  have hpos : 0 < m <<< shift := by
    rw [Nat.shiftLeft_eq]
    positivity
  -- A shift keeps the value, on which alone the target depends.
  have hvalue : (m : ℚ) * 2 ^ e = (m <<< shift : ℕ) * 2 ^ (e - shift) := by
    rw [Nat.shiftLeft_eq, zpow_sub₀ two_ne_zero, zpow_natCast]
    push_cast
    field_simp
  have hle : e - shift ≤ target (m <<< shift) (e - shift) := by
    have htarget := target_le_target hm hvalue.le
    omega
  obtain ⟨n, f, hround, hcanonical, -⟩ := exists_roundWithAccuracy_eq negative hpos hle
  have hunfold : Float.Model.UnpackedFloat.round Format.binary64 (sign negative) m e =
      roundWithAccuracy Format.binary64 (sign negative) (m <<< shift) (e - shift) .exact := by
    simp only [Float.Model.UnpackedFloat.round, decreaseExponent, targetExponent_eq, ← hshift]
  rw [hunfold, hround]
  exact .finite hcanonical

/-- The sign bit of an integer is that of its rounding. -/
theorem normalize (m : ℤ) (e : ℤ) :
    Rounded (decide (m < 0)) (normalize Format.binary64 m e .positive) := by
  obtain hm | rfl | hm := lt_trichotomy m 0
  · rw [decide_eq_true hm]
    simp only [Float.Model.UnpackedFloat.normalize, show compare m 0 = .lt from
      Int.compare_eq_lt.mpr hm]
    exact round true (by omega) e
  · exact .zero .positive
  · rw [decide_eq_false hm.not_gt]
    simp only [Float.Model.UnpackedFloat.normalize, show compare m 0 = .gt from
      Int.compare_eq_gt.mpr hm]
    exact round false (by omega) e

end Rounded

/-! ## Mantissas at one exponent -/

/-- A mantissa at a smaller exponent. -/
def aligned (m : ℕ) (e common : ℤ) : ℕ := m <<< (e - common).toNat

/-- Aligning a mantissa to a lower exponent multiplies it by a power of two. -/
theorem aligned_eq (m : ℕ) (e common : ℤ) : aligned m e common = m * 2 ^ (e - common).toNat :=
  Nat.shiftLeft_eq _ _

/-- Zero stays zero. -/
theorem aligned_zero (e common : ℤ) : aligned 0 e common = 0 := by
  rw [aligned_eq, zero_mul]

/-- A mantissa other than zero stays so. -/
theorem aligned_pos (hm : 0 < m) (e common : ℤ) : 0 < aligned m e common := by
  rw [aligned_eq]
  positivity

/-- Of two positive floats the smaller one has the smaller mantissa at their common exponent. -/
theorem aligned_le (h : Canonical m e) (h' : Canonical n f)
    (hle : ((compare e f).then (compare m n)).isLE = true) :
    aligned m e (min e f) ≤ aligned n f (min e f) := by
  rw [aligned_eq, aligned_eq]
  obtain hless | rfl | hmore := lt_trichotomy e f
  · -- The larger exponent is not the least one, so that its mantissa has the leading bit.
    have hleading : leadingBit ≤ n := by
      by_contra hsmall
      have hleast := h'.eq_minExponent (by omega)
      have hmin := h.le_exponent
      omega
    have hm := h.mantissa_lt
    obtain ⟨k, hk⟩ : ∃ k, (f - min e f).toNat = k + 1 := ⟨(f - min e f).toNat - 1, by omega⟩
    rw [hk, show (e - min e f).toNat = 0 by omega, pow_zero, mul_one, pow_succ]
    have hone : 1 ≤ 2 ^ k := Nat.one_le_two_pow
    nlinarith
  · rw [compare_eq_iff_eq.mpr rfl, Ordering.eq_then, Nat.isLE_compare] at hle
    exact Nat.mul_le_mul_right _ hle
  · rw [Int.compare_eq_gt.mpr hmore] at hle
    cases hle

/-! ## Differences -/

/-- The difference of two signed mantissas at their common exponent. -/
def alignedDifference (negative : Bool) (n : ℕ) (f : ℤ) (negative' : Bool) (m : ℕ) (e : ℤ) : ℤ :=
  (sign negative).apply (aligned n f (min f e)) - (sign negative').apply (aligned m e (min f e))

/-- A difference of finite floats is rounded with the sign of the aligned mantissas. -/
theorem rounded_sub (negative negative' : Bool) (h : Canonical n f) (h' : Canonical m e) :
    Rounded (decide (alignedDifference negative n f negative' m e < 0))
      (sub Format.binary64 (finite negative n f).unpacked (finite negative' m e).unpacked) := by
  obtain rfl | hn := Nat.eq_zero_or_pos n
  · obtain rfl | hm := Nat.eq_zero_or_pos m
    · cases negative <;> cases negative' <;> exact .zero _
    · have hpos := aligned_pos hm e (min f e)
      have hsign : decide (alignedDifference negative 0 f negative' m e < 0) = !negative' := by
        cases negative <;> cases negative' <;>
          simp [alignedDifference, aligned_zero, sign, Sign.apply] <;> omega
      have hsub : sub Format.binary64 (finite negative 0 f).unpacked
          (finite negative' m e).unpacked = (finite (!negative') m e).unpacked := by
        rw [unpacked_zero, unpacked_finite _ hm, unpacked_finite _ hm]
        cases negative' <;> rfl
      rw [hsign, hsub]
      exact .finite h'
  · have hpos := aligned_pos hn f (min f e)
    obtain rfl | hm := Nat.eq_zero_or_pos m
    · have hsign : decide (alignedDifference negative n f negative' 0 e < 0) = negative := by
        cases negative <;> cases negative' <;>
          simp [alignedDifference, aligned_zero, sign, Sign.apply] <;> omega
      have hsub : sub Format.binary64 (finite negative n f).unpacked
          (finite negative' 0 e).unpacked = (finite negative n f).unpacked := by
        rw [unpacked_zero, unpacked_finite _ hn]
        rfl
      rw [hsign, hsub]
      exact .finite h
    · rw [unpacked_finite _ hn, unpacked_finite _ hm]
      exact Rounded.normalize _ _

/-- The aligned mantissas of floats in ascending order have a difference that is not negative. -/
theorem alignedDifference_nonneg {negative negative' : Bool} (h : Canonical n f)
    (h' : Canonical m e)
    (hle : (finite negative' m e).unpacked.le (finite negative n f).unpacked = true) :
    0 ≤ alignedDifference negative n f negative' m e := by
  unfold alignedDifference
  obtain rfl | hn := Nat.eq_zero_or_pos n
  · rw [aligned_zero]
    obtain rfl | hm := Nat.eq_zero_or_pos m
    · rw [aligned_zero]
      cases negative <;> cases negative' <;> decide
    · rw [unpacked_zero, unpacked_finite _ hm] at hle
      cases negative' with
      | false => cases hle
      | true => cases negative <;> simp [sign, Sign.apply]
  · obtain rfl | hm := Nat.eq_zero_or_pos m
    · rw [unpacked_zero, unpacked_finite _ hn] at hle
      cases negative with
      | true => cases hle
      | false => cases negative' <;> simp [aligned_zero, sign, Sign.apply]
    · rw [unpacked_finite _ hn, unpacked_finite _ hm] at hle
      cases negative' with
      | false =>
          cases negative with
          | true => cases hle
          | false =>
              have haligned := aligned_le h' h hle
              rw [min_comm] at haligned
              simpa [sign, Sign.apply] using haligned
      | true =>
          cases negative with
          | false =>
              simp only [sign, Sign.apply, if_true, Bool.false_eq_true, if_false]
              omega
          | true =>
              have haligned : aligned n f (min f e) ≤ aligned m e (min f e) := by
                apply aligned_le h h'
                have hswap : (compare f e).then (compare n m) =
                    ((compare e f).then (compare m n)).swap := by
                  rw [Ordering.swap_then, ← Std.OrientedOrd.eq_swap, ← Std.OrientedOrd.eq_swap]
                rw [hswap]
                exact hle
              simpa [sign, Sign.apply] using haligned

/-- The order of floats is that of their parts. -/
theorem le_eq (x y : Float) : Number.le x y = (ofFloat x).unpacked.le (ofFloat y).unpacked := by
  rw [← unpack_toModel, ← unpack_toModel]
  show decide (decide (x.toModel ≤ y.toModel) = true) = _
  rw [Bool.decide_eq_true, Bool.eq_iff_iff, decide_eq_true_iff]
  rfl

/-- The difference of floats is that of their parts, packed and unpacked. -/
theorem unpacked_sub (x y : Float) : (ofFloat (x - y)).unpacked =
    (Float.Model.pack (sub Format.binary64 (ofFloat x).unpacked (ofFloat y).unpacked)).unpack := by
  rw [← unpack_toModel, ← unpack_toModel, ← unpack_toModel]
  rfl

/-- A float is a number just if its parts are equal to themselves. -/
theorem isNumber_eq (x : Float) : Number.isNumber x =
    ((ofFloat x).unpacked.compare (ofFloat x).unpacked == some .eq) :=
  eq_eq x x

/-- A difference that is not a number before it is packed is not one afterwards. -/
theorem isNumber_sub_nan {x y : Float}
    (h : sub Format.binary64 (ofFloat y).unpacked (ofFloat x).unpacked = .notANumber) :
    Number.isNumber (y - x) = false := by
  have hparts : (ofFloat (y - x)).unpacked = .notANumber := by
    rw [unpacked_sub, h]
    exact unpack_pack_nan
  rw [isNumber_eq, hparts]
  rfl

/-- Finite parts are finite. -/
theorem isFinite_unpacked (negative : Bool) (m : ℕ) (e : ℤ) :
    (finite negative m e).unpacked.isFinite = true := by
  obtain rfl | hm := Nat.eq_zero_or_pos m
  · rfl
  · rw [unpacked_finite _ hm]
    rfl

/-- To take away what is below everything leaves positive infinity. -/
theorem rounded_sub_infinite {x : UnpackedFloat} (hx : x.isFinite = true) {negative : Bool}
    (hle : (infinite negative).unpacked.le x = true) :
    Rounded false (sub Format.binary64 x (infinite negative).unpacked) := by
  cases x with
  | notANumber | infinity => cases hx
  | zero | finite =>
      cases negative with
      | false => cases hle
      | true => exact .infinite

/-- What is above everything stays positive infinity. -/
theorem rounded_infinite_sub {x : UnpackedFloat} (hx : x.isFinite = true) {negative : Bool}
    (hle : x.le (infinite negative).unpacked = true) :
    Rounded false (sub Format.binary64 (infinite negative).unpacked x) := by
  cases x with
  | notANumber | infinity => cases hx
  | zero | finite =>
      cases negative with
      | false => exact .infinite
      | true => cases hle

/-- A difference of floats in ascending order has no sign bit, if it is a number. -/
theorem rounded_sub_of_le {x y : Float} (h : Number.le x y = true)
    (hnumber : Number.isNumber (y - x) = true) :
    Rounded false (sub Format.binary64 (ofFloat y).unpacked (ofFloat x).unpacked) := by
  rw [le_eq] at h
  cases hx : ofFloat x with
  | nan =>
      rw [hx] at h
      cases h
  | infinite negative =>
      rw [hx] at h
      cases hy : ofFloat y with
      | nan =>
          rw [hy] at h
          cases negative <;> cases h
      | infinite negative' =>
          cases negative <;> cases negative'
          · rw [isNumber_sub_nan (by rw [hx, hy]; rfl)] at hnumber
            cases hnumber
          · rw [hy] at h
            cases h
          · exact .infinite
          · rw [isNumber_sub_nan (by rw [hx, hy]; rfl)] at hnumber
            cases hnumber
      | finite negative' n f =>
          rw [hy] at h
          exact rounded_sub_infinite (isFinite_unpacked ..) h
  | finite negative m e =>
      rw [hx] at h
      cases hy : ofFloat y with
      | nan =>
          rw [hy] at h
          obtain rfl | hm := Nat.eq_zero_or_pos m
          · cases h
          · rw [unpacked_finite _ hm] at h
            cases h
      | infinite negative' =>
          rw [hy] at h
          exact rounded_infinite_sub (isFinite_unpacked ..) h
      | finite negative' n f =>
          rw [hy] at h
          have hcanonical := (legal_ofFloat hx).toCanonical
          have hcanonical' := (legal_ofFloat hy).toCanonical
          have hnonneg := alignedDifference_nonneg hcanonical' hcanonical h
          have hrounded := rounded_sub negative' negative hcanonical' hcanonical
          rwa [decide_eq_false hnonneg.not_gt] at hrounded

/-- The difference of two floats in order is not negative, if it is a number. -/
theorem le_sub {x y : Float} (h : Number.le x y = true) (hnumber : Number.isNumber (y - x) = true) :
    Number.le 0 (y - x) = true := by
  have hzero : ofFloat 0 = finite false 0 minExponent := by decide
  rw [le_eq, hzero, unpacked_zero, unpacked_sub]
  exact (rounded_sub_of_le h hnumber).pack.zero_le

/-- The difference of two finite floats is a number. -/
theorem isNumber_sub {x y : Float} (hx : Number.isFinite x = true) (hy : Number.isFinite y = true) :
    Number.isNumber (y - x) = true := by
  replace hx : x.toModel.unpack.isFinite = true := hx
  replace hy : y.toModel.unpack.isFinite = true := hy
  rw [unpack_toModel] at hx hy
  rw [isNumber_eq, unpacked_sub, beq_iff_eq]
  cases hpx : ofFloat x with
  | nan =>
      rw [hpx] at hx
      cases hx
  | infinite negative =>
      rw [hpx] at hx
      cases hx
  | finite negative m e =>
      cases hpy : ofFloat y with
      | nan =>
          rw [hpy] at hy
          cases hy
      | infinite negative' =>
          rw [hpy] at hy
          cases hy
      | finite negative' n f =>
          exact (rounded_sub negative' negative (legal_ofFloat hpy).toCanonical
            (legal_ofFloat hpx).toCanonical).pack.compare_self

end Binary64

/-- Exact differences have the sign of the order. -/
instance : DifferenceLaws ℝ where
  le_sub {x y} h _ := by
    have hle : x ≤ y := of_decide_eq_true h
    rw [RealScalar.le_eq, RealScalar.zero_eq]
    exact decide_eq_true (sub_nonneg.mpr hle)
  isNumber_sub _ _ := decide_eq_true rfl

/-- The differences of machine floats have it in spite of rounding. -/
instance : DifferenceLaws Float where
  le_sub := Binary64.le_sub
  isNumber_sub := Binary64.isNumber_sub

end Moire
