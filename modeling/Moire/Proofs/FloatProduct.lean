import Moire.Proofs.FloatParts
import Moire.Proofs.PathLength

/-!
# Counts from products of floats

The number of points on a side of a path is its length times a density, without the places behind
the point. Here the product of two floats is followed through its rounding, its packing and its
conversion to a count, and the count is shown not to fall when a factor that is not negative rises
(`productCount_mono`). Hence one of two densities gives every side at least as many points as the
other (`denser_total`). Rounding keeps the order because an extended mantissa, with the two bits
that it keeps of what was shifted out, tells on which side of the middle a value lies
(`Represents`).
-/

namespace Moire.Binary64

open Float.Model (UnpackedFloat Format totalExponent)
open Float.Model.UnpackedFloat

/-! ## Rounding a mantissa -/

/-- The rational that an extended mantissa stands for: the mantissa itself, a value below or above
the middle between it and the next one, or the middle. -/
def Represents (em : ExtendedMantissa) (q : ℚ) : Prop :=
  match em.roundBit, em.stickyBit with
  | false, false => q = em.mantissa
  | false, true => em.mantissa < q ∧ q < em.mantissa + 1 / 2
  | true, false => q = em.mantissa + 1 / 2
  | true, true => em.mantissa + 1 / 2 < q ∧ q < em.mantissa + 1

/-- A mantissa from which nothing was shifted out stands for itself. -/
theorem represents_exact (m : ℕ) :
    Represents (ExtendedMantissa.ofMantissaAndAccuracy m .exact) m := rfl

/-- The rational lies between the mantissa and the next one. -/
theorem Represents.bounds {em : ExtendedMantissa} {q : ℚ} (h : Represents em q) :
    em.mantissa ≤ q ∧ q < em.mantissa + 1 := by
  obtain ⟨m, round, sticky⟩ := em
  cases round <;> cases sticky <;> simp only [Represents] at h ⊢ <;> constructor <;> linarith

/-- The mantissa is the integer part of the rational it stands for. -/
theorem Represents.floor_eq {em : ExtendedMantissa} {q : ℚ} (h : Represents em q) :
    ⌊q⌋ = em.mantissa :=
  Int.floor_eq_iff.mpr (by exact_mod_cast h.bounds)

/-- A bit that is shifted out stays known as far as rounding needs it. -/
theorem Represents.shiftRightOne {em : ExtendedMantissa} {q : ℚ} (h : Represents em q) :
    Represents em.shiftRightOne (q / 2) := by
  obtain ⟨m, round, sticky⟩ := em
  have hm : (m : ℚ) = 2 * (m / 2 : ℕ) + (m % 2 : ℕ) := by exact_mod_cast (Nat.div_add_mod m 2).symm
  obtain hbit | hbit : m % 2 = 0 ∨ m % 2 = 1 := by omega
  all_goals
    rw [hbit] at hm
    cases round <;> cases sticky <;>
      simp [Represents, ExtendedMantissa.shiftRightOne, hbit] at h ⊢ <;>
      (try constructor) <;> push_cast at hm <;> linarith

/-- Shifting to the right divides what is stood for by a power of two. -/
theorem Represents.shiftRight {em : ExtendedMantissa} {q : ℚ} (h : Represents em q) (n : ℕ) :
    Represents (em >>> n) (q / 2 ^ n) := by
  induction n with
  | zero =>
      rw [pow_zero, div_one]
      exact h
  | succ n ih =>
      rw [pow_succ, ← div_div]
      exact ih.shiftRightOne

/-- Rounding never goes below the mantissa. -/
theorem le_roundedMantissa (em : ExtendedMantissa) : em.mantissa ≤ em.roundedMantissa := by
  obtain ⟨m, round, sticky⟩ := em
  cases round <;> cases sticky <;>
    simp [ExtendedMantissa.roundedMantissa, ExtendedMantissa.accuracy, Accuracy.roundToNearestEven]

/-- Rounding goes at most to the next mantissa. -/
theorem roundedMantissa_le (em : ExtendedMantissa) : em.roundedMantissa ≤ em.mantissa + 1 := by
  obtain ⟨m, round, sticky⟩ := em
  cases round <;> cases sticky <;>
    simp only [ExtendedMantissa.roundedMantissa, ExtendedMantissa.accuracy,
      Accuracy.roundToNearestEven] <;> omega

/-- Rounding keeps the order. -/
theorem Represents.rounded_le {em em' : ExtendedMantissa} {q q' : ℚ} (h : Represents em q)
    (h' : Represents em' q') (hle : q ≤ q') : em.roundedMantissa ≤ em'.roundedMantissa := by
  have hmantissa : em.mantissa ≤ em'.mantissa := by
    have hless : (em.mantissa : ℚ) < em'.mantissa + 1 := by linarith [h.bounds.1, h'.bounds.2]
    exact Nat.lt_add_one_iff.mp (by exact_mod_cast hless)
  obtain hless | heq := hmantissa.lt_or_eq
  · have hup := roundedMantissa_le em
    have hdown := le_roundedMantissa em'
    omega
  · -- With the same mantissa the order is that of the two bits.
    obtain ⟨m, round, sticky⟩ := em
    obtain ⟨m', round', sticky'⟩ := em'
    obtain rfl : m = m' := heq
    cases round <;> cases sticky <;> cases round' <;> cases sticky' <;>
      simp only [Represents] at h h' <;>
      simp only [ExtendedMantissa.roundedMantissa, ExtendedMantissa.accuracy,
          Accuracy.roundToNearestEven] <;> first | omega | (exfalso; linarith)

/-! ## Rounding to the format -/

/-- The exponent of the unit to which `m · 2 ^ e` is rounded. -/
def target (m : ℕ) (e : ℤ) : ℤ := max (Nat.log2 m + e - 52) minExponent

/-- The library rounds to the unit `target` gives. -/
theorem targetExponent_eq (m : ℕ) (e : ℤ) :
    Format.binary64.targetExponent (totalExponent m e) = target m e := by
  have hbits : (Format.binary64.mantissaBits : ℤ) = 53 := rfl
  have hleast : Format.binary64.minExponent = minExponent := rfl
  rw [Format.targetExponent, totalExponent, hbits, hleast, target]
  congr 1
  omega

/-- The mantissa after the shift to the unit, with what was shifted out. -/
def shifted (m : ℕ) (e : ℤ) : ExtendedMantissa :=
  ExtendedMantissa.ofMantissaAndAccuracy m .exact >>> (target m e - e).toNat

/-- The value to which `m · 2 ^ e` is rounded. -/
def rounded (m : ℕ) (e : ℤ) : ℚ := (shifted m e).roundedMantissa * 2 ^ target m e

variable {m n : ℕ} {e f : ℤ}

/-- The shifted mantissa stands for the value counted in units of the target. -/
theorem represents_shifted (h : e ≤ target m e) :
    Represents (shifted m e) (m * 2 ^ e / 2 ^ target m e) := by
  have hshift : ((target m e - e).toNat : ℤ) = target m e - e := by omega
  have hvalue : (m : ℚ) * 2 ^ e / 2 ^ target m e = m / 2 ^ (target m e - e).toNat := by
    rw [← zpow_natCast, hshift, zpow_sub₀ two_ne_zero]
    field_simp
  rw [hvalue]
  exact (represents_exact m).shiftRight _

/-- A value is below the power of two after its leading bit. -/
theorem lt_pow_log2 (m : ℕ) (e : ℤ) : (m : ℚ) * 2 ^ e < 2 ^ (Nat.log2 m + 1 + e) := by
  have hlog : (m : ℚ) < 2 ^ (Nat.log2 m + 1) := by exact_mod_cast Nat.lt_log2_self
  rw [zpow_add₀ two_ne_zero]
  gcongr
  exact_mod_cast hlog

/-- A value other than zero is at least the power of two of its leading bit. -/
theorem pow_log2_le (hm : 0 < m) (e : ℤ) : (2 : ℚ) ^ (Nat.log2 m + e) ≤ m * 2 ^ e := by
  have hlog : (2 : ℚ) ^ Nat.log2 m ≤ m := by exact_mod_cast Nat.log2_self_le hm.ne'
  rw [zpow_add₀ two_ne_zero]
  gcongr
  exact_mod_cast hlog

/-- What is rounded is less than the largest mantissa and one. -/
theorem lt_pow_target (m : ℕ) (e : ℤ) : (m : ℚ) * 2 ^ e < 2 ^ (target m e + 53) :=
  (lt_pow_log2 m e).trans_le (zpow_le_zpow_right₀ one_le_two (by unfold target; omega))

/-- Above the least exponent, what is rounded has a leading bit. -/
theorem pow_target_le (hm : 0 < m) (h : minExponent < target m e) :
    (2 : ℚ) ^ (target m e + 52) ≤ m * 2 ^ e := by
  have htarget : target m e = Nat.log2 m + e - 52 := by
    unfold target at h ⊢
    omega
  rw [htarget, sub_add_cancel]
  exact pow_log2_le hm e

/-- A larger value is rounded to a unit that is at least as large. -/
theorem target_le_target (hm : 0 < m) (hle : (m : ℚ) * 2 ^ e ≤ n * 2 ^ f) :
    target m e ≤ target n f := by
  have hless : (2 : ℚ) ^ (Nat.log2 m + e) < 2 ^ (Nat.log2 n + 1 + f) :=
    ((pow_log2_le hm e).trans hle).trans_lt (lt_pow_log2 n f)
  have hlog := (zpow_lt_zpow_iff_right₀ one_lt_two).mp hless
  unfold target
  omega

/-- A rounded mantissa is at most the one that needs the next exponent. -/
theorem roundedMantissa_shifted_le (h : e ≤ target m e) :
    (shifted m e).roundedMantissa ≤ 2 * leadingBit := by
  have hle : (m : ℚ) * 2 ^ e / 2 ^ target m e ≤ (2 * leadingBit : ℕ) := by
    rw [div_le_iff₀ (by positivity)]
    refine (lt_pow_target m e).le.trans_eq ?_
    rw [zpow_add₀ two_ne_zero, mul_comm]
    norm_num [leadingBit]
  exact (represents_shifted h).rounded_le (represents_exact _) hle

/-- Above the least exponent a rounded mantissa has its leading bit. -/
theorem le_roundedMantissa_shifted (hm : 0 < m) (h : e ≤ target m e)
    (hmin : minExponent < target m e) : leadingBit ≤ (shifted m e).roundedMantissa := by
  have hle : ((leadingBit : ℕ) : ℚ) ≤ m * 2 ^ e / 2 ^ target m e := by
    rw [le_div_iff₀ (by positivity)]
    refine le_of_eq_of_le ?_ (pow_target_le hm hmin)
    rw [zpow_add₀ two_ne_zero, mul_comm]
    norm_num [leadingBit]
  exact (represents_exact _).rounded_le (represents_shifted h) hle

/-- Rounding to the format keeps the order. -/
theorem rounded_le_rounded (hm : 0 < m) (hn : 0 < n) (h : e ≤ target m e) (h' : f ≤ target n f)
    (hle : (m : ℚ) * 2 ^ e ≤ n * 2 ^ f) : rounded m e ≤ rounded n f := by
  obtain hless | heq := (target_le_target hm hle).lt_or_eq
  · -- The units differ, so a power of two lies between the two values.
    have hup : rounded m e ≤ 2 ^ (target m e + 53) := by
      have hmost : ((shifted m e).roundedMantissa : ℚ) ≤ (2 * leadingBit : ℕ) := by
        exact_mod_cast roundedMantissa_shifted_le h
      rw [zpow_add₀ two_ne_zero, mul_comm, rounded]
      gcongr
      exact hmost.trans (by norm_num [leadingBit])
    have hdown : (2 : ℚ) ^ (target n f + 52) ≤ rounded n f := by
      have hmin : minExponent < target n f := lt_of_le_of_lt (by unfold target; omega) hless
      have hleast : ((leadingBit : ℕ) : ℚ) ≤ (shifted n f).roundedMantissa := by
        exact_mod_cast le_roundedMantissa_shifted hn h' hmin
      rw [zpow_add₀ two_ne_zero, mul_comm, rounded]
      gcongr
      exact le_trans (by norm_num [leadingBit]) hleast
    exact hup.trans (le_trans (zpow_le_zpow_right₀ one_le_two (by omega)) hdown)
  · have hmantissa : (shifted m e).roundedMantissa ≤ (shifted n f).roundedMantissa := by
      refine (represents_shifted h).rounded_le (represents_shifted h') ?_
      rw [heq]
      gcongr
    rw [rounded, rounded, heq]
    gcongr

/-! ## Rounded floats -/

/-- No unit is below the least exponent of the format. -/
theorem minExponent_le_target (m : ℕ) (e : ℤ) : minExponent ≤ target m e := le_max_right _ _

/-- The shift of the library ends at `shifted` and `target`. -/
theorem shiftToTargetExponent_eq (h : e ≤ target m e) :
    shiftToTargetExponent Format.binary64 m e .exact = (shifted m e, target m e) := by
  have hexponent : e + (target m e - e).toNat = target m e := by omega
  simp only [shiftToTargetExponent, shiftToExponent, targetExponent_eq, hexponent]
  rfl

/-- A mantissa that fits is not shifted. -/
theorem shiftToTargetExponent_fitting (hm : m < 2 * leadingBit) (he : minExponent ≤ e) :
    shiftToTargetExponent Format.binary64 m e .exact =
      (ExtendedMantissa.ofMantissaAndAccuracy m .exact, e) := by
  have hlog : Nat.log2 m ≤ 52 := by
    by_cases hzero : m = 0
    · simp [hzero]
    · have := (Nat.log2_lt hzero).mpr (show m < 2 ^ 53 from hm)
      omega
  have hshift : (target m e - e).toNat = 0 := by
    unfold target
    omega
  simp only [shiftToTargetExponent, shiftToExponent, targetExponent_eq, hshift, Nat.cast_zero,
    add_zero]
  rfl

/-- A mantissa that rounding has carried over is halved. -/
theorem shiftToTargetExponent_carried (he : minExponent ≤ e) :
    shiftToTargetExponent Format.binary64 (2 * leadingBit) e .exact =
      (ExtendedMantissa.ofMantissaAndAccuracy leadingBit .exact, e + 1) := by
  have hlog : Nat.log2 (2 * leadingBit) = 53 := by decide
  have hshift : (target (2 * leadingBit) e - e).toNat = 1 := by
    unfold target
    rw [hlog]
    omega
  simp only [shiftToTargetExponent, shiftToExponent, targetExponent_eq, hshift]
  rfl

/-- Rounding returns a float of the format with the rounded value. -/
theorem exists_roundWithAccuracy_eq (negative : Bool) (hm : 0 < m) (h : e ≤ target m e) :
    ∃ n f, roundWithAccuracy Format.binary64 (sign negative) m e .exact =
        (finite negative n f).unpacked ∧ Canonical n f ∧ (n : ℚ) * 2 ^ f = rounded m e := by
  have hmin := minExponent_le_target m e
  obtain hless | hcarry := (roundedMantissa_shifted_le h).lt_or_eq
  · refine ⟨(shifted m e).roundedMantissa, target m e, ?_, ⟨hless, hmin, fun hsmall ↦ ?_⟩, rfl⟩
    · simp only [roundWithAccuracy, shiftToTargetExponent_eq h,
        shiftToTargetExponent_fitting hless hmin]
      rfl
    · by_contra hmore
      have hleading := le_roundedMantissa_shifted hm h (by omega)
      omega
  · refine ⟨leadingBit, target m e + 1, ?_, ⟨by decide, by omega, fun hsmall ↦ by omega⟩, ?_⟩
    · simp only [roundWithAccuracy, shiftToTargetExponent_eq h, hcarry,
        shiftToTargetExponent_carried hmin]
      rfl
    · rw [rounded, hcarry, zpow_add_one₀ two_ne_zero]
      push_cast
      ring

/-- The bits that are packed for a finite float: infinity when the exponent is too large, and else
those of a normal or of a subnormal number. -/
theorem pack_finite (negative : Bool) (hm : m ≠ 0) (e : ℤ) :
    UnpackedFloat.pack Format.binary64 (finite negative m e).unpacked =
      if 2048 ≤ (e + 1075).toNat + 1 then packedInfinity Format.binary64 (sign negative)
      else if m.log2 + 1 = 53 then packComponents Format.binary64 (sign negative)
        (BitVec.ofNat _ (e + 1075).toNat) (BitVec.ofNat _ m)
      else packComponents Format.binary64 (sign negative) 0#_ (BitVec.ofNat _ m) := by
  have hbiased : (e + Format.binary64.exponentBias +
      Format.binary64.mantissaBitsWithoutImplicit).toNat = (e + 1075).toNat := by
    have hbias : (Format.binary64.exponentBias : ℤ) = 1023 := rfl
    have hwidth : (Format.binary64.mantissaBitsWithoutImplicit : ℤ) = 52 := rfl
    rw [hbias, hwidth, add_assoc]
    norm_num
  simp only [unpacked, dif_neg hm, UnpackedFloat.pack, hbiased]
  rfl

/-- A zero of either sign is read back from its bits. -/
theorem unpack_pack_zero (negative : Bool) :
    (Float.Model.pack (finite negative 0 minExponent).unpacked).unpack =
      (finite negative 0 minExponent).unpacked := by
  have hpack : UnpackedFloat.pack Format.binary64 (finite negative 0 minExponent).unpacked =
      packComponents Format.binary64 (sign negative) 0#_ 0#_ := rfl
  rw [unpack_of_pack_eq hpack, BitVec.toNat_zero, BitVec.toNat_zero,
    ofBits_fields negative (by decide) (by decide)]
  rfl

/-- An infinity of either sign is read back from its bits. -/
theorem unpack_pack_infinite (negative : Bool) :
    (Float.Model.pack (infinite negative).unpacked).unpack = (infinite negative).unpacked := by
  have hpack : UnpackedFloat.pack Format.binary64 (infinite negative).unpacked =
      packComponents Format.binary64 (sign negative) (-1#_) 0#_ := rfl
  have hfields := ofBits_fields negative (show 2047 < 2048 by decide)
    (show 0 < leadingBit by decide)
  rw [unpack_of_pack_eq hpack]
  exact congrArg unpacked hfields

/-- What is not a number is read back from its bits. -/
theorem unpack_pack_nan : (Float.Model.pack nan.unpacked).unpack = nan.unpacked := by
  have hpack : UnpackedFloat.pack Format.binary64 nan.unpacked =
      packComponents Format.binary64 (sign false) (-1#_) (1#_ <<< 51) := rfl
  have hfields := ofBits_fields false (show 2047 < 2048 by decide)
    (show 2251799813685248 < leadingBit by decide)
  rw [unpack_of_pack_eq hpack]
  exact congrArg unpacked hfields

/-- A float of the format is packed without loss, unless its exponent is too large. -/
theorem unpack_pack (negative : Bool) (h : Canonical m e) :
    (Float.Model.pack (finite negative m e).unpacked).unpack =
      if e ≤ maxExponent then (finite negative m e).unpacked else (infinite negative).unpacked := by
  have hmin := h.le_exponent
  have hm := h.mantissa_lt
  by_cases hzero : m = 0
  · subst hzero
    obtain rfl := h.eq_minExponent (by decide)
    rw [if_pos (by decide), unpack_pack_zero]
  have hpack := pack_finite negative hzero e
  unfold minExponent at hmin
  by_cases hlarge : e ≤ maxExponent
  · rw [if_pos hlarge]
    unfold maxExponent at hlarge
    rw [if_neg (by omega)] at hpack
    by_cases hleading : leadingBit ≤ m
    · have hlog : m.log2 + 1 = 53 := by
        have hlow := (Nat.le_log2 hzero).mpr (show 2 ^ 52 ≤ m from hleading)
        have hhigh := (Nat.log2_lt hzero).mpr (show m < 2 ^ 53 from hm)
        omega
      have hexponent : (e + 1075).toNat % 2 ^ 11 = (e + 1075).toNat := Nat.mod_eq_of_lt (by omega)
      have hmantissa : m % 2 ^ 52 = m - leadingBit := by
        unfold leadingBit at *
        omega
      rw [if_pos hlog] at hpack
      rw [unpack_of_pack_eq hpack, BitVec.toNat_ofNat, BitVec.toNat_ofNat, hexponent, hmantissa,
        ofBits_fields negative (by omega) (by omega), if_neg (by omega), if_neg (by omega),
        Nat.add_sub_cancel' hleading, Int.toNat_of_nonneg (by omega), add_sub_cancel_right]
    · have hsmall : m < 2 ^ 52 := not_le.mp hleading
      have hlog : ¬ m.log2 + 1 = 53 := by
        have hhigh := (Nat.log2_lt hzero).mpr hsmall
        omega
      obtain rfl := h.eq_minExponent hsmall
      rw [if_neg hlog] at hpack
      rw [unpack_of_pack_eq hpack, BitVec.toNat_zero, BitVec.toNat_ofNat,
        Nat.mod_eq_of_lt hsmall, ofBits_fields negative (by decide) hsmall]
      rfl
  · rw [if_neg hlarge]
    unfold maxExponent at hlarge
    rw [if_pos (by omega)] at hpack
    rw [unpack_of_pack_eq hpack]
    exact congrArg unpacked (ofBits_fields negative (by decide) (by decide))

/-! ## Counts -/

/-- The largest count of 64 bits. -/
def maxCount : ℕ := 18446744073709551615

/-- The conversion to a count saturates at both ends. -/
theorem toNat_toUInt64 (x : UnpackedFloat) :
    x.toUInt64.toNat = min (x.toInt 0 maxCount).toNat maxCount := by
  show (UInt64.ofNatClamp (x.toInt 0 maxCount).toNat).toNat = _
  have hsize : UInt64.size = maxCount + 1 := rfl
  unfold UInt64.ofNatClamp
  split <;>
  · rw [UInt64.toNat_ofNatLT]
    omega

/-- To cut off the places behind the point is to take the floor. -/
theorem roundToInt_eq (s : Sign) (m : ℕ) (e : ℤ) :
    roundToInt s m e = s.apply ⌊(m : ℚ) * 2 ^ e⌋ := by
  set up := (e - 0).toNat with hup
  set down := (0 - (e - up)).toNat with hdown
  have hvalue : ((m <<< up : ℕ) : ℚ) / 2 ^ down = m * 2 ^ e := by
    rw [Nat.shiftLeft_eq]
    push_cast
    rw [mul_div_assoc, ← zpow_natCast, ← zpow_natCast, ← zpow_sub₀ two_ne_zero]
    congr 2
    omega
  have hrepresents := (represents_exact (m <<< up)).shiftRight down
  rw [hvalue] at hrepresents
  rw [hrepresents.floor_eq]
  rfl

/-- The count of a float, given its parts: the floor of what is positive, as far as it fits. -/
theorem toUInt64_finite (negative : Bool) (m : ℕ) (e : ℤ) :
    (finite negative m e).unpacked.toUInt64.toNat =
      if negative then 0 else min ⌊(m : ℚ) * 2 ^ e⌋.toNat maxCount := by
  rw [toNat_toUInt64]
  by_cases hm : m = 0
  · subst hm
    cases negative <;> simp [unpacked, UnpackedFloat.toInt]
  · have hfloor : 0 ≤ ⌊(m : ℚ) * 2 ^ e⌋ := Int.floor_nonneg.mpr (by positivity)
    simp only [unpacked, dif_neg hm, UnpackedFloat.toInt, roundToInt_eq]
    cases negative <;> simp [sign, Sign.apply]
    omega

/-- Positive infinity counts as the largest count and negative infinity as none. -/
theorem toUInt64_infinite (negative : Bool) :
    (infinite negative).unpacked.toUInt64.toNat = if negative then 0 else maxCount := by
  rw [toNat_toUInt64]
  cases negative <;> rfl

/-- An infinity that was packed counts as the infinity itself. -/
theorem toUInt64_pack_infinite (negative : Bool) :
    (Float.Model.pack (infinite negative).unpacked).unpack.toUInt64.toNat =
      if negative then 0 else maxCount := by
  rw [unpack_pack_infinite, toUInt64_infinite]

/-- What is not a number counts as none. -/
theorem toUInt64_pack_nan : (Float.Model.pack nan.unpacked).unpack.toUInt64.toNat = 0 := by
  rw [unpack_pack_nan]
  rfl

/-- The count of a float of the format, even if its exponent is too large. -/
theorem toUInt64_pack (negative : Bool) (h : Canonical m e) :
    (Float.Model.pack (finite negative m e).unpacked).unpack.toUInt64.toNat =
      if negative then 0 else min ⌊(m : ℚ) * 2 ^ e⌋.toNat maxCount := by
  rw [unpack_pack negative h]
  split
  next => exact toUInt64_finite negative m e
  next hlarge =>
    have hleading : leadingBit ≤ m := by
      by_contra hsmall
      have hleast := h.eq_minExponent (by omega)
      exact hlarge (hleast ▸ by decide)
    have hmany : (maxCount : ℚ) ≤ m * 2 ^ e := by
      have hpow : (2 : ℚ) ^ (12 : ℤ) ≤ 2 ^ e :=
        zpow_le_zpow_right₀ one_le_two (by unfold maxExponent at hlarge; omega)
      calc (maxCount : ℚ) ≤ leadingBit * 2 ^ (12 : ℤ) := by norm_num [maxCount, leadingBit]
        _ ≤ m * 2 ^ e := by gcongr
    have hfloor : (maxCount : ℤ) ≤ ⌊(m : ℚ) * 2 ^ e⌋ := Int.le_floor.mpr (by exact_mod_cast hmany)
    rw [toUInt64_infinite, min_eq_right (by omega)]

/-! ## Products -/

/-- The count of a product, given the parts of its factors. -/
def productCount (x y : Binary64) : ℕ :=
  (Float.Model.pack (mul Format.binary64 x.unpacked y.unpacked)).unpack.toUInt64.toNat

/-- The count of a product of floats is that of the parts of its factors. -/
theorem toNat_mul (x y : Float) : Number.toNat (x * y) = productCount (ofFloat x) (ofFloat y) := by
  rw [productCount, ← unpack_toModel, ← unpack_toModel]
  rfl

/-- The parts are those of zero, of a positive float or of positive infinity. -/
inductive IsNonnegative : Binary64 → Prop
  | zero (negative : Bool) (e : ℤ) : IsNonnegative (finite negative 0 e)
  | positive {m : ℕ} {e : ℤ} (hm : 0 < m) (h : Legal m e) : IsNonnegative (finite false m e)
  | infinite : IsNonnegative (infinite false)

/-- The value of what is not negative. -/
def height : Binary64 → WithTop ℚ
  | nan => 0
  | infinite _ => ⊤
  | finite _ m e => ((m * 2 ^ e : ℚ) : WithTop ℚ)

/-- The exponents of two legal factors add up to no more than the unit of their product. -/
theorem target_mul (h : Legal m e) (h' : Legal n f) (hm : 0 < m) (hn : 0 < n) :
    e + f ≤ target (m * n) (e + f) := by
  obtain hlarge | ⟨hsmall, hsmall'⟩ : leadingBit ≤ m * n ∨ m < leadingBit ∧ n < leadingBit := by
    by_cases hleading : leadingBit ≤ m
    · exact Or.inl (hleading.trans (Nat.le_mul_of_pos_right m hn))
    by_cases hleading' : leadingBit ≤ n
    · exact Or.inl (hleading'.trans (Nat.le_mul_of_pos_left n hm))
    · exact Or.inr ⟨not_le.mp hleading, not_le.mp hleading'⟩
  · have hlog := (Nat.le_log2 (Nat.mul_pos hm hn).ne').mpr (show 2 ^ 52 ≤ m * n from hlarge)
    unfold target
    omega
  · obtain rfl := h.eq_minExponent hsmall
    obtain rfl := h'.eq_minExponent hsmall'
    exact le_trans (by decide) (minExponent_le_target _ _)

/-- The sign of a product is negative when exactly one of the factors is. -/
theorem sign_mul (negative negative' : Bool) :
    sign negative * sign negative' = sign (negative != negative') := by
  cases negative <;> cases negative' <;> rfl

/-- The count of a product of finite floats. -/
theorem productCount_finite (negative : Bool) (h : Legal m e) (h' : Legal n f) (hm : 0 < m)
    (hn : 0 < n) :
    productCount (finite negative m e) (finite false n f) =
      if negative then 0 else min ⌊rounded (m * n) (e + f)⌋.toNat maxCount := by
  obtain ⟨k, g, hround, hcanonical, hvalue⟩ :=
    exists_roundWithAccuracy_eq negative (Nat.mul_pos hm hn) (target_mul h h' hm hn)
  have hmul : mul Format.binary64 (finite negative m e).unpacked (finite false n f).unpacked =
      (finite negative k g).unpacked := by
    rw [← hround]
    rw [unpacked_finite negative hm, unpacked_finite false hn, mul, sign_mul, Bool.bne_false]
  rw [productCount, hmul, toUInt64_pack negative hcanonical, hvalue]

/-- A zero of either sign counts as none. -/
theorem toUInt64_pack_zero (negative : Bool) :
    (Float.Model.pack (zero (sign negative))).unpack.toUInt64.toNat = 0 := by
  have hcanonical : Canonical 0 minExponent := ⟨by decide, le_rfl, fun _ ↦ rfl⟩
  rw [← unpacked_zero negative minExponent, toUInt64_pack negative hcanonical]
  simp

/-- Nothing is counted when the second factor is zero. -/
theorem productCount_zero (x : Binary64) (negative : Bool) (e : ℤ) :
    productCount x (finite negative 0 e) = 0 := by
  rw [productCount, unpacked_zero]
  cases x with
  | nan => exact toUInt64_pack_nan
  | infinite negative' => exact toUInt64_pack_nan
  | finite negative' m e =>
      obtain rfl | hm := Nat.eq_zero_or_pos m
      · rw [unpacked_zero, mul, sign_mul, toUInt64_pack_zero]
      · rw [unpacked_finite _ hm, mul, sign_mul, toUInt64_pack_zero]

/-- Nothing is counted when the first factor is zero. -/
theorem zero_productCount (negative : Bool) (e : ℤ) (y : Binary64) :
    productCount (finite negative 0 e) y = 0 := by
  rw [productCount, unpacked_zero]
  cases y with
  | nan => exact toUInt64_pack_nan
  | infinite negative' => exact toUInt64_pack_nan
  | finite negative' m e =>
      obtain rfl | hm := Nat.eq_zero_or_pos m
      · rw [unpacked_zero, mul, sign_mul, toUInt64_pack_zero]
      · rw [unpacked_finite _ hm, mul, sign_mul, toUInt64_pack_zero]

/-- Nothing is counted when the first factor is not a number. -/
theorem nan_productCount (y : Binary64) : productCount nan y = 0 := toUInt64_pack_nan

/-- A finite number other than zero, times infinity, counts by its sign alone. -/
theorem productCount_infinite (negative : Bool) (hm : 0 < m) (e : ℤ) :
    productCount (finite negative m e) (infinite false) = if negative then 0 else maxCount := by
  rw [productCount, ← toUInt64_pack_infinite]
  rw [unpacked_finite negative hm, unpacked, mul, sign_mul, Bool.bne_false, unpacked]

/-- An infinity, times what is not zero, counts by its sign alone. -/
theorem infinite_productCount (negative : Bool) {y : Binary64} (hy : IsNonnegative y)
    (hne : y.height ≠ 0) :
    productCount (infinite negative) y = if negative then 0 else maxCount := by
  rw [productCount, ← toUInt64_pack_infinite]
  cases hy with
  | zero => simp [height] at hne
  | positive hm h => rw [unpacked_finite false hm, unpacked, mul, sign_mul, Bool.bne_false]
  | infinite => simp only [unpacked, mul, sign_mul, Bool.bne_false]

/-- No height is negative. -/
theorem height_nonneg (x : Binary64) : 0 ≤ x.height := by
  cases x with
  | nan => exact le_rfl
  | infinite => exact le_top
  | finite negative m e => exact WithTop.coe_le_coe.mpr (by positivity)

/-- Only the two zeros have no height. -/
theorem IsNonnegative.eq_zero {x : Binary64} (h : IsNonnegative x) (hzero : x.height = 0) :
    ∃ negative e, x = finite negative 0 e := by
  cases h with
  | zero negative e => exact ⟨negative, e, rfl⟩
  | @positive m e hm h =>
      have hvalue : (m * 2 ^ e : ℚ) = 0 := WithTop.coe_eq_zero.mp hzero
      have hpos : (0 : ℚ) < m * 2 ^ e := by positivity
      exact absurd hvalue hpos.ne'
  | infinite => exact absurd hzero WithTop.top_ne_zero

/-- The count of a product does not fall when the second factor rises. -/
theorem productCount_mono {x y z : Binary64}
    (hx : ∀ negative m e, x = finite negative m e → Legal m e) (hy : IsNonnegative y)
    (hz : IsNonnegative z) (hle : y.height ≤ z.height) : productCount x y ≤ productCount x z := by
  by_cases hzero : y.height = 0
  · obtain ⟨negative, e, rfl⟩ := hy.eq_zero hzero
    rw [productCount_zero]
    exact Nat.zero_le _
  have hzero' : z.height ≠ 0 := fun h ↦ hzero (le_antisymm (h ▸ hle) (height_nonneg y))
  cases x with
  | nan => rw [nan_productCount, nan_productCount]
  | infinite negative =>
      rw [infinite_productCount negative hy hzero, infinite_productCount negative hz hzero']
  | finite negative m e =>
      have hlegal := hx negative m e rfl
      obtain rfl | hm := Nat.eq_zero_or_pos m
      · rw [zero_productCount, zero_productCount]
      cases hz with
      | zero => simp [height] at hzero'
      | infinite =>
          rw [productCount_infinite negative hm]
          cases hy with
          | zero => simp [height] at hzero
          | infinite => rw [productCount_infinite negative hm]
          | positive hn hlegal' =>
              rw [productCount_finite negative hlegal hlegal' hm hn]
              split
              · exact le_rfl
              · exact min_le_right _ _
      | @positive k g hk hlegal'' =>
          cases hy with
          | zero => simp [height] at hzero
          | infinite => exact absurd (top_le_iff.mp hle) WithTop.coe_ne_top
          | @positive n f hn hlegal' =>
              have hfactor : (n : ℚ) * 2 ^ f ≤ k * 2 ^ g := WithTop.coe_le_coe.mp hle
              have hproduct : ((m * n : ℕ) : ℚ) * 2 ^ (e + f) ≤ (m * k : ℕ) * 2 ^ (e + g) := by
                have hpos : (0 : ℚ) < m * 2 ^ e := by positivity
                rw [zpow_add₀ two_ne_zero, zpow_add₀ two_ne_zero]
                push_cast
                nlinarith
              have hrounded := rounded_le_rounded (Nat.mul_pos hm hn) (Nat.mul_pos hm hk)
                (target_mul hlegal hlegal' hm hn) (target_mul hlegal hlegal'' hm hk) hproduct
              have hfloor := Int.floor_le_floor hrounded
              rw [productCount_finite negative hlegal hlegal' hm hn,
                productCount_finite negative hlegal hlegal'' hm hk]
              split
              · exact le_rfl
              · omega

/-! ## Floats that are not negative -/

/-- What is above zero is a positive float or positive infinity. -/
theorem positive_of_zero_lt {x : Float} (h : Number.lt 0 x = true) :
    ofFloat x = infinite false ∨ ∃ m e, 0 < m ∧ ofFloat x = finite false m e := by
  have hzero : ofFloat 0 = finite false 0 minExponent := by decide
  rw [lt_eq, hzero, unpacked_zero, beq_iff_eq] at h
  cases hx : ofFloat x with
  | nan =>
      rw [hx] at h
      cases h
  | infinite negative =>
      rw [hx] at h
      cases negative with
      | false => exact Or.inl rfl
      | true => cases h
  | finite negative m e =>
      rw [hx] at h
      obtain rfl | hm := Nat.eq_zero_or_pos m
      · cases h
      rw [unpacked_finite negative hm] at h
      cases negative with
      | false => exact Or.inr ⟨m, e, hm, rfl⟩
      | true => cases h

/-- The scalar made nonnegative has the parts of a nonnegative float. -/
theorem isNonnegative_nonnegative (x : Float) : IsNonnegative (ofFloat (Number.nonnegative x)) := by
  unfold Number.nonnegative
  split
  next hpos =>
    obtain hparts | ⟨m, e, hm, hparts⟩ := positive_of_zero_lt hpos
    · exact hparts ▸ .infinite
    · exact hparts ▸ .positive hm (legal_ofFloat hparts)
  next =>
    have hzero : ofFloat (Number.ofNat 0) = finite false 0 minExponent := by decide
    exact hzero ▸ .zero false minExponent

/-- A float that a positive one equals is that float. -/
theorem eq_of_isPositive {x y : Float} (hx : Number.isPositive x = true)
    (h : Number.eq x y = true) : y = x := by
  obtain ⟨hfinite, hpos⟩ := Bool.and_eq_true_iff.mp hx
  apply ofFloat_injective
  obtain hparts | ⟨m, e, hm, hparts⟩ := positive_of_zero_lt hpos
  · replace hfinite : x.toModel.unpack.isFinite = true := hfinite
    rw [unpack_toModel, hparts] at hfinite
    cases hfinite
  rw [eq_eq, hparts, unpacked_finite false hm, beq_iff_eq] at h
  rw [hparts]
  cases hy : ofFloat y with
  | nan =>
      rw [hy] at h
      cases h
  | infinite negative =>
      rw [hy] at h
      cases negative <;> cases h
  | finite negative n f =>
      rw [hy] at h
      obtain rfl | hn := Nat.eq_zero_or_pos n
      · cases h
      rw [unpacked_finite negative hn] at h
      cases negative with
      | true => cases h
      | false =>
          obtain ⟨hexponent, hmantissa⟩ := Ordering.then_eq_eq.mp (Option.some.inj h)
          rw [Std.LawfulEqCmp.eq_of_compare hexponent, Std.LawfulEqCmp.eq_of_compare hmantissa]

/-- Of two densities one gives every length at least as many points as the other. -/
theorem denser_total (d d' : Float) :
    Denser (Number.nonnegative d) (Number.nonnegative d') ∨
      Denser (Number.nonnegative d') (Number.nonnegative d) := by
  have hdenser : ∀ d d' : Float, (ofFloat (Number.nonnegative d)).height ≤
      (ofFloat (Number.nonnegative d')).height →
      Denser (Number.nonnegative d) (Number.nonnegative d') := by
    intro d d' hle x
    rw [toNat_mul, toNat_mul]
    exact productCount_mono (fun _ _ _ ↦ legal_ofFloat) (isNonnegative_nonnegative d)
      (isNonnegative_nonnegative d') hle
  exact (le_total _ _).imp (hdenser d d') (hdenser d' d)

end Moire.Binary64
