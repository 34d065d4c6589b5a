import Mathlib
import Moire.Proofs.FloatParts

/-!
# The nearest float is the one that reads the number

`Binary64.nearest` finds an exponent from the lengths of numerator and denominator, corrects it by
one, and rounds to a mantissa. The exponent is the one at which the number has a mantissa of full
length, or the smallest one (`nearestExponent_spec`), and rounding then gives a float that owns the
number, `exists_nearest_eq`. Since there is only one such float, a decimal that belongs to a float
is read as that float, `Decimal.toFloat_eq`.
-/

namespace Moire

/-! ## Rounding a quotient -/

/-- A rounded quotient is at most a half away from the quotient, and less than that if it is odd. -/
theorem roundDiv_spec (num : ℕ) {den : ℕ} (hden : 0 < den) :
    |(roundDiv num den : ℚ) - num / den| ≤ 1 / 2 ∧
      (roundDiv num den % 2 = 1 → |(roundDiv num den : ℚ) - num / den| < 1 / 2) := by
  have hden' : (0 : ℚ) < den := by exact_mod_cast hden
  have hrest : ((num % den : ℕ) : ℚ) / den < 1 := by
    rw [div_lt_one hden']
    exact_mod_cast Nat.mod_lt num hden
  have hnonneg : 0 ≤ ((num % den : ℕ) : ℚ) / den := by positivity
  rw [div_eq_floor_add hden]
  unfold roundDiv
  dsimp only
  split
  next hless =>
    have hhalf : ((num % den : ℕ) : ℚ) / den < 1 / 2 := by
      rw [div_lt_iff₀ hden']
      have : (2 : ℚ) * (num % den : ℕ) < den := by exact_mod_cast hless
      linarith
    have hlt : |((num / den : ℕ) : ℚ) - ((num / den : ℕ) + (num % den : ℕ) / den)| < 1 / 2 := by
      rw [abs_lt]
      constructor <;> linarith
    exact ⟨hlt.le, fun _ ↦ hlt⟩
  next hnot =>
    split
    next hmore =>
      have hhalf : 1 / 2 < ((num % den : ℕ) : ℚ) / den := by
        rw [lt_div_iff₀ hden']
        have : (den : ℚ) < 2 * (num % den : ℕ) := by exact_mod_cast hmore
        linarith
      have hlt : |((num / den + 1 : ℕ) : ℚ) - ((num / den : ℕ) + (num % den : ℕ) / den)| <
          1 / 2 := by
        push_cast
        rw [abs_lt]
        constructor <;> linarith
      exact ⟨hlt.le, fun _ ↦ hlt⟩
    next hnotMore =>
      -- A tie goes to the even one, so that nothing is asked of an odd one.
      have hhalf : ((num % den : ℕ) : ℚ) / den = 1 / 2 := by
        rw [div_eq_iff hden'.ne']
        have : (2 : ℚ) * (num % den : ℕ) = den := by
          exact_mod_cast (show 2 * (num % den) = den by omega)
        linarith
      refine ⟨?_, fun hodd ↦ by omega⟩
      rw [hhalf]
      rcases Nat.mod_two_eq_zero_or_one (num / den) with heven | hodd
      · rw [heven, Nat.add_zero, abs_le]
        constructor <;> linarith
      · rw [hodd, abs_le]
        push_cast
        constructor <;> linarith

namespace Binary64

/-! ## The exponent -/

/-- The exponent that is rounded at. -/
def nearestExponent (num den : ℕ) : ℤ :=
  let low := max ((num.log2 : ℤ) - den.log2 - 53) minExponent
  let scaled := scaleFraction num den 2 (-low)
  if scaled.1 / scaled.2 < 2 * leadingBit then low else low + 1

/-- The lengths of numerator and denominator tell the quotient up to a factor of two. -/
theorem log2_bounds {num den : ℕ} (hnum : 0 < num) (hden : 0 < den) :
    (2 : ℚ) ^ ((num.log2 : ℤ) - den.log2 - 1) < num / den ∧
      (num : ℚ) / den < 2 ^ ((num.log2 : ℤ) - den.log2 + 1) := by
  have hden' : (0 : ℚ) < den := by exact_mod_cast hden
  have hnumLow : (2 : ℚ) ^ (num.log2 : ℤ) ≤ num := by
    rw [zpow_natCast]
    exact_mod_cast Nat.log2_self_le hnum.ne'
  have hnumHigh : (num : ℚ) < 2 ^ ((num.log2 : ℤ) + 1) := by
    rw [← Nat.cast_succ, zpow_natCast]
    exact_mod_cast Nat.lt_log2_self
  have hdenLow : (2 : ℚ) ^ (den.log2 : ℤ) ≤ den := by
    rw [zpow_natCast]
    exact_mod_cast Nat.log2_self_le hden.ne'
  have hdenHigh : (den : ℚ) < 2 ^ ((den.log2 : ℤ) + 1) := by
    rw [← Nat.cast_succ, zpow_natCast]
    exact_mod_cast Nat.lt_log2_self
  constructor
  · rw [lt_div_iff₀ hden']
    calc (2 : ℚ) ^ ((num.log2 : ℤ) - den.log2 - 1) * den
        < 2 ^ ((num.log2 : ℤ) - den.log2 - 1) * 2 ^ ((den.log2 : ℤ) + 1) := by gcongr
      _ = 2 ^ (num.log2 : ℤ) := by
          rw [← zpow_add₀ two_ne_zero]
          congr 1
          ring
      _ ≤ num := hnumLow
  · rw [div_lt_iff₀ hden']
    calc (num : ℚ) < 2 ^ ((num.log2 : ℤ) + 1) := hnumHigh
      _ = 2 ^ ((num.log2 : ℤ) - den.log2 + 1) * 2 ^ (den.log2 : ℤ) := by
          rw [← zpow_add₀ two_ne_zero]
          congr 1
          ring
      _ ≤ 2 ^ ((num.log2 : ℤ) - den.log2 + 1) * den := by gcongr

/-- A fraction scaled for an exponent. -/
theorem scaleFraction_two_neg (num den : ℕ) (e : ℤ) :
    ((scaleFraction num den 2 (-e)).1 : ℚ) / (scaleFraction num den 2 (-e)).2 =
      num / den / 2 ^ e := by
  rw [scaleFraction_value two_pos, Nat.cast_ofNat, zpow_neg, ← div_eq_mul_inv]

/-- The scaled quotient is below a number when the quotient is below the scaled number. -/
theorem scaled_lt_iff (num : ℕ) {den : ℕ} (hden : 0 < den) (e : ℤ) (bound : ℕ) :
    (scaleFraction num den 2 (-e)).1 / (scaleFraction num den 2 (-e)).2 < bound ↔
      (num : ℚ) / den < bound * 2 ^ e := by
  have hpos : 0 < (scaleFraction num den 2 (-e)).2 := scaleFraction_pos hden two_pos _
  have hpos' : (0 : ℚ) < (scaleFraction num den 2 (-e)).2 := by exact_mod_cast hpos
  have hpow : (0 : ℚ) < 2 ^ e := by positivity
  rw [Nat.div_lt_iff_lt_mul hpos, ← div_lt_iff₀ hpow, ← scaleFraction_two_neg,
    div_lt_iff₀ hpos']
  exact_mod_cast Iff.rfl

/-- At the exponent the number has a mantissa of full length, unless the exponent is the smallest.
-/
theorem nearestExponent_spec {num den : ℕ} (hnum : 0 < num) (hden : 0 < den) :
    minExponent ≤ nearestExponent num den ∧
      (num : ℚ) / den < 2 * leadingBit * 2 ^ nearestExponent num den ∧
      (nearestExponent num den = minExponent ∨
        leadingBit * 2 ^ nearestExponent num den ≤ (num : ℚ) / den) := by
  obtain ⟨hlow, hhigh⟩ := log2_bounds hnum hden
  have hleading : (leadingBit : ℚ) = 2 ^ (52 : ℤ) := by norm_num [leadingBit]
  unfold nearestExponent
  set width : ℤ := (num.log2 : ℤ) - den.log2 with hwidth
  set low := max (width - 53) minExponent with hlowDef
  have hmin : minExponent ≤ low := le_max_right _ _
  have htest := scaled_lt_iff num hden low (2 * leadingBit)
  push_cast at htest
  dsimp only
  split
  next hless =>
    refine ⟨hmin, htest.mp hless, ?_⟩
    rcases max_choice (width - 53) minExponent with heq | heq
    · right
      rw [hlowDef, heq, hleading, ← zpow_add₀ two_ne_zero,
        show 52 + (width - 53) = width - 1 by ring]
      exact hlow.le
    · exact Or.inl heq
  next hmore =>
    rw [htest, not_lt] at hmore
    refine ⟨hmin.trans (by omega), ?_, Or.inr ?_⟩
    · calc (num : ℚ) / den < 2 ^ (width + 1) := hhigh
        _ ≤ 2 ^ (low + 54) := by
            have hle : width - 53 ≤ low := le_max_left _ _
            exact zpow_le_zpow_right₀ one_le_two (by omega)
        _ = 2 * leadingBit * 2 ^ (low + 1) := by
            rw [hleading, show low + 54 = 1 + 52 + (low + 1) by ring, zpow_add₀ two_ne_zero,
              zpow_add₀ two_ne_zero, zpow_one]
    · rw [zpow_add_one₀ two_ne_zero]
      calc (leadingBit : ℚ) * (2 ^ low * 2) = 2 * leadingBit * 2 ^ low := by ring
        _ ≤ num / den := hmore

/-! ## The mantissa -/

/-- What lies within half a unit of a mantissa is read as that mantissa, if the number has a
mantissa of full length at every exponent but the smallest. -/
theorem reads_of_round {m : ℕ} {e : ℤ} {q : ℚ} (hq : 0 ≤ q)
    (hclose : |(m : ℚ) - q / 2 ^ e| ≤ 1 / 2)
    (hodd : m % 2 = 1 → |(m : ℚ) - q / 2 ^ e| < 1 / 2)
    (hfull : e = minExponent ∨ leadingBit * 2 ^ e ≤ q) : Reads m e q := by
  have hpos : (0 : ℚ) < 2 ^ (e - 2) := by positivity
  have hpow := two_zpow_eq e
  set x := q / 2 ^ e with hx
  have hscaled : q = 4 * x * 2 ^ (e - 2) := by
    rw [hx, hpow]
    field_simp
  have hlower : (lowerEnd m e : ℚ) ≤ 4 * x ∧ (m % 2 = 1 → (lowerEnd m e : ℚ) < 4 * x) := by
    unfold lowerEnd
    split
    next hnarrow =>
      -- Here the interval is cut short, but the number is not below the float.
      have hreached : (m : ℚ) ≤ x := by
        rw [hx, le_div_iff₀ (by positivity), hnarrow.1]
        exact hfull.resolve_left hnarrow.2.ne'
      have hbit : 1 ≤ m := hnarrow.1 ▸ (by decide)
      rw [Nat.cast_sub (by omega)]
      push_cast
      exact ⟨by linarith, fun _ ↦ by linarith⟩
    next =>
      rcases Nat.eq_zero_or_pos m with rfl | hm
      · have hnonneg : 0 ≤ x := by positivity
        exact ⟨by simpa using hnonneg, fun hone ↦ by simp at hone⟩
      · rw [Nat.cast_sub (by omega)]
        push_cast
        refine ⟨by linarith [(abs_le.mp hclose).2], fun hone ↦ ?_⟩
        linarith [(abs_lt.mp (hodd hone)).2]
  rw [hscaled]
  refine ⟨by gcongr; exact hlower.1, ?_, fun hone ↦ ⟨by gcongr; exact hlower.2 hone, ?_⟩⟩
  · gcongr
    push_cast
    linarith [(abs_le.mp hclose).1]
  · gcongr
    push_cast
    linarith [(abs_lt.mp (hodd hone)).1]

/-- What rounds up to the next power of two is read as that power. -/
theorem reads_of_round_up {e : ℤ} {q : ℚ} (hmin : minExponent ≤ e)
    (hclose : |((2 * leadingBit : ℕ) : ℚ) - q / 2 ^ e| ≤ 1 / 2)
    (hless : q < 2 * leadingBit * 2 ^ e) : Reads leadingBit (e + 1) q := by
  have hpos : (0 : ℚ) < 2 ^ e := by positivity
  have hpow : (2 : ℚ) ^ (e + 1 - 2) = 2 ^ e / 2 := by
    rw [show e + 1 - 2 = e - 1 by ring, zpow_sub_one₀ two_ne_zero, div_eq_mul_inv]
  have hend : lowerEnd leadingBit (e + 1) = 4 * leadingBit - 1 := if_pos ⟨rfl, by omega⟩
  have hlow : 2 * leadingBit - 1 / 2 ≤ q / 2 ^ e := by
    have hdifference := (abs_le.mp hclose).2
    push_cast at hdifference
    linarith
  rw [le_div_iff₀ hpos] at hlow
  refine ⟨?_, ?_, fun hodd ↦ absurd hodd (by decide)⟩
  · rw [hend, hpow, Nat.cast_sub (by decide)]
    push_cast
    linarith
  · rw [hpow]
    push_cast
    linarith

/-- The rounding of a number, by its mantissa. -/
theorem nearest_of_pos {num den : ℕ} (hnum : 0 < num) (negative : Bool) :
    nearest negative num den =
      let e := nearestExponent num den
      let scaled := scaleFraction num den 2 (-e)
      let m := roundDiv scaled.1 scaled.2
      let parts := if m = 2 * leadingBit then (leadingBit, e + 1) else (m, e)
      if maxExponent < parts.2 then .infinite negative else .finite negative parts.1 parts.2 :=
  if_neg hnum.ne'

/-- The nearest float owns the number, unless it is too large. -/
theorem exists_nearest_eq {num den : ℕ} (hnum : 0 < num) (hden : 0 < den) (negative : Bool) :
    ∃ m e, Canonical m e ∧ Reads m e ((num : ℚ) / den) ∧ nearest negative num den =
      if maxExponent < e then .infinite negative else .finite negative m e := by
  obtain ⟨hmin, hless, hfull⟩ := nearestExponent_spec hnum hden
  rw [nearest_of_pos hnum]
  set e := nearestExponent num den with he
  have hpos : (0 : ℚ) < 2 ^ e := by positivity
  obtain ⟨hclose, hodd⟩ := roundDiv_spec (scaleFraction num den 2 (-e)).1
    (scaleFraction_pos hden two_pos (-e))
  rw [scaleFraction_two_neg] at hclose hodd
  dsimp only
  set m := roundDiv (scaleFraction num den 2 (-e)).1 (scaleFraction num den 2 (-e)).2 with hm
  by_cases htop : m = 2 * leadingBit
  · refine ⟨leadingBit, e + 1, ⟨by decide, by omega, fun h ↦ absurd h (lt_irrefl _)⟩,
      reads_of_round_up hmin (htop ▸ hclose) hless, ?_⟩
    rw [if_pos htop]
  · have hbelow : m < 2 * leadingBit := by
      have hx : (num : ℚ) / den / 2 ^ e < 2 * leadingBit := by rwa [div_lt_iff₀ hpos]
      have hreal : (m : ℚ) < (2 * leadingBit + 1 : ℕ) := by
        push_cast
        linarith [(abs_le.mp hclose).2]
      have hnat : m < 2 * leadingBit + 1 := by exact_mod_cast hreal
      omega
    have hleast : m < leadingBit → e = minExponent := by
      intro hsmall
      refine hfull.resolve_right fun hreached ↦ ?_
      have hx : (leadingBit : ℚ) ≤ num / den / 2 ^ e := by rwa [le_div_iff₀ hpos]
      have hnext : (m : ℚ) + 1 ≤ leadingBit := by exact_mod_cast hsmall
      linarith [(abs_le.mp hclose).1]
    refine ⟨m, e, ⟨hbelow, hmin, hleast⟩, reads_of_round (by positivity) hclose hodd hfull, ?_⟩
    rw [if_neg htop]

/-- The lower end of the interval of a float above zero is above zero. -/
theorem two_le_lowerEnd {m : ℕ} (hm : 0 < m) (e : ℤ) : 2 ≤ lowerEnd m e := by
  unfold lowerEnd
  split <;> omega

/-- What is read as a float with a mantissa is positive. -/
theorem Reads.pos {m : ℕ} {e : ℤ} {q : ℚ} (hm : 0 < m) (h : Reads m e q) : 0 < q := by
  have hend : 0 < lowerEnd m e := two_pos.trans_le (two_le_lowerEnd hm e)
  exact lt_of_lt_of_le (by positivity) h.lower_le

/-- The nearest float to a number that belongs to a float is that float. -/
theorem nearest_eq {num den : ℕ} (hden : 0 < den) {m : ℕ} {e : ℤ} (h : Legal m e) (hm : 0 < m)
    (hreads : Reads m e ((num : ℚ) / den)) (negative : Bool) :
    nearest negative num den = .finite negative m e := by
  have hnum : 0 < num := by
    refine Nat.pos_of_ne_zero fun hzero ↦ ?_
    have hpos := hreads.pos hm
    rw [hzero, Nat.cast_zero, zero_div] at hpos
    exact lt_irrefl _ hpos
  obtain ⟨n, f, hcanonical, hreads', heq⟩ := exists_nearest_eq hnum hden negative
  obtain ⟨rfl, rfl⟩ := hreads.unique h.toCanonical hcanonical hreads'
  rw [heq, if_neg (not_lt.mpr h.exponent_le)]

/-! ## Floats put together again -/

/-- A float is put together from its bits again. -/
theorem ofBits_toBits (x : Float) : Float.ofBits x.toBits = x := by
  apply eq_of_toBits_eq
  apply UInt64.toBitVec_inj.mp
  exact Float.Model.UnpackedFloat.pack_unpack_of_valid x.toModel.valid

/-- A number that was taken apart is put together again. -/
theorem toFloat_ofFloat {x : Float} (h : ofFloat x ≠ .nan) : (ofFloat x).toFloat = x := by
  unfold toFloat
  have hbits : (ofFloat x).toBits = x.toBits.toNat := toBits_ofBits (toNat_toBits_lt x) h
  rw [hbits, UInt64.ofNat_toNat, ofBits_toBits]

end Binary64

/-! ## Decimals -/

namespace Decimal

open Binary64

/-- A decimal is below the power of ten after its leading digit. -/
theorem value_lt_pow (d : Decimal) : d.value < 10 ^ (d.exponent + digitCount d.coefficient) := by
  have hless : (d.coefficient : ℚ) < 10 ^ digitCount d.coefficient := by
    exact_mod_cast lt_pow_digitCount d.coefficient
  rw [value, add_comm, zpow_add₀ (by norm_num), zpow_natCast]
  gcongr

/-- A decimal other than zero is at least the power of ten of its leading digit. -/
theorem pow_le_value {d : Decimal} (hd : 0 < d.coefficient) :
    10 ^ (d.exponent + digitCount d.coefficient - 1) ≤ d.value := by
  have hcount : 1 ≤ digitCount d.coefficient := Nat.length_toDigits_pos
  have hle : (10 : ℚ) ^ (digitCount d.coefficient - 1) ≤ d.coefficient := by
    exact_mod_cast pow_le_of_digitCount hd
  calc (10 : ℚ) ^ (d.exponent + digitCount d.coefficient - 1)
      = 10 ^ (digitCount d.coefficient - 1) * 10 ^ d.exponent := by
        rw [← zpow_natCast, ← zpow_add₀ (by norm_num)]
        congr 1
        omega
    _ ≤ d.coefficient * 10 ^ d.exponent := by gcongr

/-- What is read as a float is not so small or so large that it is cut off. -/
theorem magnitude_bounds {d : Decimal} {m : ℕ} {e : ℤ} (h : Legal m e) (hm : 0 < m)
    (hreads : Reads m e d.value) (hd : 0 < d.coefficient) :
    -400 ≤ d.exponent + digitCount d.coefficient ∧
      d.exponent + digitCount d.coefficient ≤ 400 := by
  constructor
  · by_contra hsmall
    have hlow : (2 : ℚ) ^ (-1076 : ℤ) ≤ d.value := by
      have hexponent : (-1076 : ℤ) ≤ e - 2 := by
        have hleast := h.le_exponent
        unfold minExponent at hleast
        omega
      calc (2 : ℚ) ^ (-1076 : ℤ) ≤ 2 ^ (e - 2) := zpow_le_zpow_right₀ one_le_two hexponent
        _ ≤ lowerEnd m e * 2 ^ (e - 2) := by
            refine le_mul_of_one_le_left (by positivity) ?_
            exact_mod_cast one_le_two.trans (two_le_lowerEnd hm e)
        _ ≤ d.value := hreads.lower_le
    have hhigh : d.value < 10 ^ (-400 : ℤ) :=
      d.value_lt_pow.trans_le (zpow_le_zpow_right₀ (by norm_num) (by omega))
    have hpowers : (10 : ℚ) ^ (-400 : ℤ) ≤ 2 ^ (-1076 : ℤ) := by
      rw [zpow_neg, zpow_neg, inv_le_inv₀ (by positivity) (by positivity)]
      exact_mod_cast (show 2 ^ 1076 ≤ 10 ^ 400 by decide +kernel)
    exact absurd hlow (not_le.mpr (hhigh.trans_le hpowers))
  · by_contra hlarge
    have hhigh : d.value ≤ 2 ^ (1027 : ℤ) := by
      have hexponent : e - 2 ≤ 972 := by
        have hmost := h.exponent_le
        unfold maxExponent at hmost
        omega
      have hmantissa : 4 * m + 2 ≤ 2 ^ 55 := by
        have hmost := h.mantissa_lt
        unfold leadingBit at hmost
        omega
      calc d.value ≤ (4 * m + 2 : ℕ) * 2 ^ (e - 2) := hreads.le_upper
        _ ≤ (2 ^ 55 : ℕ) * 2 ^ (972 : ℤ) := by
            gcongr
            exact one_le_two
        _ = 2 ^ (1027 : ℤ) := by
            rw [show ((2 ^ 55 : ℕ) : ℚ) = 2 ^ (55 : ℤ) by norm_num, ← zpow_add₀ two_ne_zero]
            rfl
    have hlow : (10 : ℚ) ^ (400 : ℤ) ≤ d.value :=
      (zpow_le_zpow_right₀ (by norm_num) (by omega)).trans (pow_le_value hd)
    have hpowers : (2 : ℚ) ^ (1027 : ℤ) < 10 ^ (400 : ℤ) := by
      exact_mod_cast (show 2 ^ 1027 < 10 ^ 400 by decide +kernel)
    exact absurd (hlow.trans hhigh) (not_le.mpr hpowers)

/-- A decimal that belongs to a float is read as that float. -/
theorem toBinary64_eq {d : Decimal} {m : ℕ} {e : ℤ} (h : Legal m e) (hm : 0 < m)
    (hreads : Reads m e d.value) (negative : Bool) :
    d.toBinary64 negative = .finite negative m e := by
  have hcoefficient : d.coefficient ≠ 0 := by
    intro hzero
    have hpos := hreads.pos hm
    rw [value, hzero, Nat.cast_zero, zero_mul] at hpos
    exact lt_irrefl _ hpos
  obtain ⟨hlow, hhigh⟩ := magnitude_bounds h hm hreads (Nat.pos_of_ne_zero hcoefficient)
  have hvalue : ((scaleFraction d.coefficient 1 10 d.exponent).1 : ℚ) /
      (scaleFraction d.coefficient 1 10 d.exponent).2 = d.value := by
    rw [scaleFraction_value (by norm_num), value]
    norm_num
  unfold toBinary64
  dsimp only
  rw [if_neg (by omega), if_neg (by omega)]
  exact nearest_eq (scaleFraction_pos one_pos (by norm_num) _) h hm (hvalue ▸ hreads) negative

/-- A decimal that belongs to a float is read as that float, with its sign. -/
theorem toFloat_eq {x : Float} {negative : Bool} {m : ℕ} {e : ℤ}
    (hx : ofFloat x = .finite negative m e) (hm : 0 < m) {d : Decimal}
    (hreads : Reads m e d.value) : d.toFloat negative = x := by
  rw [toFloat, toBinary64_eq (legal_ofFloat hx) hm hreads, ← hx]
  exact toFloat_ofFloat (by rw [hx]; exact Binary64.noConfusion)

/-- Nothing is read as zero with the sign in front of it. -/
theorem toFloat_zero {x : Float} {negative : Bool} {e : ℤ}
    (hx : ofFloat x = .finite negative 0 e) {d : Decimal} (hd : d.coefficient = 0) :
    d.toFloat negative = x := by
  have he : e = minExponent := (legal_ofFloat hx).eq_minExponent (by decide)
  have hparts : d.toBinary64 negative = .finite negative 0 minExponent := if_pos (Or.inl hd)
  rw [toFloat, hparts, ← he, ← hx]
  exact toFloat_ofFloat (by rw [hx]; exact Binary64.noConfusion)

end Decimal

end Moire
