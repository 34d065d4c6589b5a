import Mathlib
import Moire.Proofs.ExactField
import Moire.Proofs.FloatDifference
import Moire.Proofs.RealScalar

/-!
# The order of numbers

What is computed of two numbers is how they compare in a linear order, `Number.Ranked`. Over an
exact type of numbers this is the order of the type itself. Machine floats are ranked by their sign,
exponent and mantissa, in this order (`Binary64.compare_rank`), where both zeros have one rank; what
is not a number has none.
-/

namespace Moire

/-- Values that are numbers compare by their ranks in a linear order. -/
class Number.Ranked (α : Type) [Number α] : Prop where
  exists_rank : ∃ (γ : Type) (_ : LinearOrder γ) (rank : α → γ), ∀ x y : α,
    Number.isNumber x = true → Number.isNumber y = true →
      (Number.lt x y = true ↔ rank x < rank y) ∧ (Number.le x y = true ↔ rank x ≤ rank y) ∧
        (Number.eq x y = true ↔ rank x = rank y)

instance : Number.Ranked ℝ where
  exists_rank := ⟨ℝ, inferInstance, id, fun _ _ _ _ ↦
    ⟨decide_eq_true_iff, decide_eq_true_iff, decide_eq_true_iff⟩⟩

instance {K : Type} [ExactField K] : Number.Ranked K where
  exists_rank := ⟨K, inferInstance, id, fun _ _ _ _ ↦
    ⟨decide_eq_true_iff, decide_eq_true_iff, decide_eq_true_iff⟩⟩

namespace Number.Ranked

variable {α : Type} [Number α] [Ranked α] {x y z : α}

/-- What is less is at most. -/
theorem le_of_lt (hx : isNumber x = true) (hy : isNumber y = true) (h : lt x y = true) :
    le x y = true := by
  obtain ⟨γ, _, rank, hrank⟩ := exists_rank (α := α)
  obtain ⟨hlt, hle, -⟩ := hrank x y hx hy
  exact hle.mpr (hlt.mp h).le

/-- Numbers that are not less are at least. -/
theorem le_of_not_lt (hx : isNumber x = true) (hy : isNumber y = true) (h : ¬ lt x y = true) :
    le y x = true := by
  obtain ⟨γ, _, rank, hrank⟩ := exists_rank (α := α)
  exact (hrank y x hy hx).2.1.mpr (not_lt.mp (mt (hrank x y hx hy).1.mpr h))

/-- The order of numbers is transitive. -/
theorem le_trans (hx : isNumber x = true) (hy : isNumber y = true) (hz : isNumber z = true)
    (hxy : le x y = true) (hyz : le y z = true) : le x z = true := by
  obtain ⟨γ, _, rank, hrank⟩ := exists_rank (α := α)
  have hxy' := (hrank x y hx hy).2.1.mp hxy
  have hyz' := (hrank y z hy hz).2.1.mp hyz
  exact (hrank x z hx hz).2.1.mpr (hxy'.trans hyz')

/-- Numbers that are equal to a third one are not told apart. -/
theorem not_lt_of_eq (hx : isNumber x = true) (hy : isNumber y = true) (hz : isNumber z = true)
    (hxz : eq x z = true) (hyz : eq y z = true) : lt x y = false := by
  obtain ⟨γ, _, rank, hrank⟩ := exists_rank (α := α)
  have hsame := ((hrank x z hx hz).2.2.mp hxz).trans ((hrank y z hy hz).2.2.mp hyz).symm
  rw [Bool.eq_false_iff, ne_eq, (hrank x y hx hy).1, hsame]
  exact lt_irrefl _

end Number.Ranked

/-! ## Machine floats -/

namespace Binary64

open Float.Model (UnpackedFloat)

/-- The rank of a number: its sign with the infinities at the ends, then its exponent, then its
mantissa. Below zero they count backwards. -/
def rank : UnpackedFloat → ℤ ×ₗ ℤ ×ₗ ℤ
  | .infinity .negative => toLex (-2, toLex (0, 0))
  | .finite .negative m e _ => toLex (-1, toLex (-e, -(m : ℤ)))
  | .zero _ | .notANumber => toLex (0, toLex (0, 0))
  | .finite .positive m e _ => toLex (1, toLex (e, (m : ℤ)))
  | .infinity .positive => toLex (2, toLex (0, 0))

/-- Counts compare as the integers they are. -/
theorem compare_natCast (m n : ℕ) : compare (m : ℤ) (n : ℤ) = compare m n := by
  rcases lt_trichotomy m n with h | rfl | h
  · rw [compare_lt_iff_lt.mpr h, compare_lt_iff_lt.mpr (Int.ofNat_lt.mpr h)]
  · rw [compare_eq_iff_eq.mpr rfl, compare_eq_iff_eq.mpr rfl]
  · rw [compare_gt_iff_gt.mpr h, compare_gt_iff_gt.mpr (Int.ofNat_lt.mpr h)]

/-- Opposites compare the other way. -/
theorem compare_neg_neg (a b : ℤ) : compare (-a) (-b) = (compare a b).swap := by
  rcases lt_trichotomy a b with h | rfl | h
  · rw [compare_lt_iff_lt.mpr h, compare_gt_iff_gt.mpr (neg_lt_neg h)]
    rfl
  · rw [compare_eq_iff_eq.mpr rfl, compare_eq_iff_eq.mpr rfl]
    rfl
  · rw [compare_gt_iff_gt.mpr h, compare_lt_iff_lt.mpr (neg_lt_neg h)]
    rfl

/-- Numbers compare by their ranks. -/
theorem compare_rank {x y : UnpackedFloat} (hx : x ≠ .notANumber) (hy : y ≠ .notANumber) :
    x.compare y = some (compare (rank x) (rank y)) := by
  -- Exponents and mantissas matter only for two finite numbers of one sign.
  rcases x with s | _ | s | ⟨s, m, e, hm⟩ <;> rcases y with t | _ | t | ⟨t, n, f, hn⟩ <;>
    (try contradiction) <;> (try cases s) <;> (try cases t) <;> (try rfl)
  · show some _ = some ((compare (-e) (-f)).then (compare (-(m : ℤ)) (-(n : ℤ))))
    rw [compare_neg_neg, compare_neg_neg, compare_natCast, ← Ordering.swap_then]
  · show some _ = some ((compare e f).then (compare (m : ℤ) (n : ℤ)))
    rw [compare_natCast]

/-- The parts of a number are those of a number. -/
theorem ne_notANumber {x : Float} (h : Number.isNumber x = true) :
    (ofFloat x).unpacked ≠ .notANumber := by
  intro hnan
  rw [isNumber_eq, hnan] at h
  cases h

end Binary64

instance : Number.Ranked Float where
  exists_rank := by
    refine ⟨ℤ ×ₗ ℤ ×ₗ ℤ, inferInstance, fun x ↦ Binary64.rank (Binary64.ofFloat x).unpacked,
      fun x y hx hy ↦ ?_⟩
    have hcompare := Binary64.compare_rank (Binary64.ne_notANumber hx) (Binary64.ne_notANumber hy)
    rw [Binary64.lt_eq, Binary64.le_eq, Binary64.eq_eq, Float.Model.UnpackedFloat.le, hcompare]
    simp only [beq_iff_eq, Option.some.injEq, compare_lt_iff_lt, compare_eq_iff_eq, Option.any_some,
      Ordering.isLE_iff_ne_gt, compare_le_iff_le, and_self, iff_self]

end Moire
