import Mathlib.Tactic
import Moire.Decimal.Shortest

/-!
# The shortest decimal of a float is read as that float

A float `mantissa · 2 ^ exponent` owns the rationals that are read as it, `Reads`. Floats of the
format, `Canonical`, own disjoint sets (`Reads.unique`). The main statement, `reads_shortest`, is
that the shortest decimal of a float belongs to it: a decimal that was found has been tested, and
with seventeen digits one is found, because the nearest decimal is then closer than the nearest end
of the interval.
-/

namespace Moire

/-! ## Fractions and decimals as rationals -/

/-- The rational number that a decimal stands for. -/
def Decimal.value (d : Decimal) : ℚ := d.coefficient * 10 ^ d.exponent

/-- The scaled denominator is positive. -/
theorem scaleFraction_pos {num den base : ℕ} (hden : 0 < den) (hbase : 0 < base) (e : ℤ) :
    0 < (scaleFraction num den base e).2 := by
  unfold scaleFraction
  split
  · exact hden
  · exact Nat.mul_pos hden (Nat.pow_pos hbase)

/-- A scaled fraction is the fraction times the power. -/
theorem scaleFraction_value {num den base : ℕ} (hbase : 0 < base) (e : ℤ) :
    ((scaleFraction num den base e).1 : ℚ) / (scaleFraction num den base e).2 =
      num / den * (base : ℚ) ^ e := by
  have hbase' : (base : ℚ) ≠ 0 := by exact_mod_cast hbase.ne'
  unfold scaleFraction
  split
  next hsign =>
    obtain ⟨n, rfl⟩ := Int.eq_ofNat_of_zero_le hsign
    simp only [Int.toNat_natCast, Nat.pow_eq, zpow_natCast]
    push_cast
    ring
  next hsign =>
    obtain ⟨n, hn⟩ := Int.eq_ofNat_of_zero_le (show 0 ≤ -e by omega)
    obtain rfl : e = -n := by omega
    simp only [neg_neg, Int.toNat_natCast, Nat.pow_eq, zpow_neg, zpow_natCast]
    push_cast
    rw [div_mul_eq_div_div, div_eq_mul_inv (num / den : ℚ)]

/-- A quotient is its whole part and the rest. -/
theorem div_eq_floor_add {num den : ℕ} (hden : 0 < den) :
    (num : ℚ) / den = (num / den : ℕ) + (num % den : ℕ) / den := by
  have hden' : (den : ℚ) ≠ 0 := by exact_mod_cast hden.ne'
  rw [div_eq_iff hden', add_mul, div_mul_cancel₀ _ hden']
  exact_mod_cast (Nat.div_add_mod' num den).symm

/-- A unit is made of four quarters. -/
theorem two_zpow_eq (e : ℤ) : (2 : ℚ) ^ e = 4 * 2 ^ (e - 2) := by
  rw [zpow_sub₀ two_ne_zero]
  norm_num
  ring

/-- Moving trailing zeros into the exponent changes nothing. -/
theorem Decimal.value_strip (coefficient : ℕ) (exponent : ℤ) :
    (Decimal.strip coefficient exponent).value = (Decimal.mk coefficient exponent).value := by
  fun_induction Decimal.strip coefficient exponent with
  | case1 coefficient exponent h ih =>
      rw [ih]
      have hten : (coefficient : ℚ) = (coefficient / 10 : ℕ) * 10 := by
        exact_mod_cast (Nat.div_mul_cancel (Nat.dvd_of_mod_eq_zero h.2)).symm
      simp only [Decimal.value]
      rw [hten, zpow_add_one₀ (by norm_num)]
      ring
  | case2 => rfl

/-! ## The decimal magnitude of a fraction -/

/-- A count is below the power of ten after its leading digit. -/
theorem lt_pow_digitCount (n : ℕ) : n < 10 ^ digitCount n :=
  (Nat.length_toDigits_le_iff (by decide) Nat.length_toDigits_pos).mp le_rfl

/-- A count other than zero is at least the power of ten of its leading digit. -/
theorem pow_le_of_digitCount {n : ℕ} (hn : 0 < n) : 10 ^ (digitCount n - 1) ≤ n := by
  by_cases hone : digitCount n ≤ 1
  · rw [Nat.sub_eq_zero_of_le hone]
    exact hn
  · have hless : ¬ digitCount n ≤ digitCount n - 1 := by omega
    exact not_lt.mp (mt (Nat.length_toDigits_le_iff (by decide) (by omega)).mpr hless)

/-- The power of ten that leads a fraction is at most the fraction. -/
theorem pow_floorLog10_le {num den : ℕ} (hnum : 0 < num) (hden : 0 < den) :
    (10 : ℚ) ^ floorLog10 num den ≤ num / den := by
  have hden' : (0 : ℚ) < den := by exact_mod_cast hden
  rw [le_div_iff₀ hden']
  unfold floorLog10
  set guess : ℤ := (digitCount num : ℤ) - digitCount den with hguess
  -- A guess that is one too large is made good by the digit counts.
  have hless : (10 : ℚ) ^ (guess - 1) * den ≤ num := by
    have hlow : (10 : ℚ) ^ (digitCount num - 1) ≤ num := by
      exact_mod_cast pow_le_of_digitCount hnum
    have hhigh : (den : ℚ) ≤ 10 ^ digitCount den := by exact_mod_cast (lt_pow_digitCount den).le
    have hcount : 1 ≤ digitCount num := Nat.length_toDigits_pos
    calc (10 : ℚ) ^ (guess - 1) * den ≤ 10 ^ (guess - 1) * 10 ^ digitCount den := by gcongr
      _ = 10 ^ (digitCount num - 1) := by
          rw [← zpow_natCast, ← zpow_natCast, ← zpow_add₀ (by norm_num)]
          congr 1
          omega
      _ ≤ num := hlow
  dsimp only
  split
  next hsign =>
    split
    next hreached =>
      obtain ⟨n, hn⟩ := Int.eq_ofNat_of_zero_le hsign
      rw [hn, Int.toNat_natCast, Nat.pow_eq, mul_comm] at hreached
      rw [hn, zpow_natCast]
      exact_mod_cast hreached
    next => exact hless
  next hsign =>
    split
    next hreached =>
      obtain ⟨n, hn⟩ := Int.eq_ofNat_of_zero_le (show 0 ≤ -guess by omega)
      rw [hn, Int.toNat_natCast, Nat.pow_eq] at hreached
      rw [show guess = -n by omega, zpow_neg, zpow_natCast, inv_mul_le_iff₀ (by positivity),
        mul_comm]
      exact_mod_cast hreached
    next => exact hless

/-! ## The rationals that are read as a float -/

namespace Binary64

/-- The mantissa and the exponent are in the form of the format. The exponent may be too large. -/
structure Canonical (mantissa : ℕ) (exponent : ℤ) : Prop where
  mantissa_lt : mantissa < 2 * leadingBit
  le_exponent : minExponent ≤ exponent
  /-- Only the smallest floats lack the leading bit. -/
  eq_minExponent : mantissa < leadingBit → exponent = minExponent

/-- The mantissa and the exponent are those of a finite float. -/
structure Legal (mantissa : ℕ) (exponent : ℤ) : Prop extends Canonical mantissa exponent where
  exponent_le : exponent ≤ maxExponent

/-- Four times the mantissa of the lower end of the reading interval. -/
def lowerEnd (mantissa : ℕ) (exponent : ℤ) : ℕ :=
  if mantissa = leadingBit ∧ minExponent < exponent then 4 * mantissa - 1 else 4 * mantissa - 2

/-- The rational is read as the float `mantissa · 2 ^ exponent`. -/
structure Reads (mantissa : ℕ) (exponent : ℤ) (q : ℚ) : Prop where
  lower_le : lowerEnd mantissa exponent * (2 : ℚ) ^ (exponent - 2) ≤ q
  le_upper : q ≤ (4 * mantissa + 2 : ℕ) * (2 : ℚ) ^ (exponent - 2)
  /-- The ends belong to the neighbours if the mantissa is odd. -/
  odd : mantissa % 2 = 1 → lowerEnd mantissa exponent * (2 : ℚ) ^ (exponent - 2) < q ∧
    q < (4 * mantissa + 2 : ℕ) * (2 : ℚ) ^ (exponent - 2)

variable {m n : ℕ} {e f : ℤ} {q : ℚ}

/-- Of two floats with the same exponent, none with a larger mantissa reads the same. -/
theorem Reads.mantissa_le (h : Canonical m e) (hm : Reads m e q) (hn : Reads n e q) : n ≤ m := by
  by_contra hless
  have hend : lowerEnd n e = 4 * n - 2 := by
    refine if_neg fun hnarrow ↦ ?_
    have hsmall := h.eq_minExponent (by omega)
    omega
  have hpos : (0 : ℚ) < 2 ^ (e - 2) := by positivity
  have hends : lowerEnd n e ≤ 4 * m + 2 := by
    have hle := hn.lower_le.trans hm.le_upper
    exact_mod_cast le_of_mul_le_mul_right hle hpos
  -- The intervals meet in an end, which belongs to the one of the two mantissas that is even.
  have hstrict : ¬ lowerEnd n e < 4 * m + 2 := by omega
  refine hstrict ?_
  have hlt : (lowerEnd n e : ℚ) * 2 ^ (e - 2) < (4 * m + 2 : ℕ) * 2 ^ (e - 2) := by
    obtain hodd | hodd : m % 2 = 1 ∨ n % 2 = 1 := by omega
    · exact hn.lower_le.trans_lt (hm.odd hodd).2
    · exact (hn.odd hodd).1.trans_le hm.le_upper
  exact_mod_cast lt_of_mul_lt_mul_right hlt hpos.le

/-- No float with a larger exponent reads the same. -/
theorem Reads.exponent_le (h : Canonical m e) (h' : Canonical n f) (hm : Reads m e q)
    (hn : Reads n f q) : f ≤ e := by
  by_contra hless
  have hpos : (0 : ℚ) < 2 ^ (e - 2) := by positivity
  have hleading : leadingBit ≤ n := by
    by_contra hsmall
    have hmin := h'.eq_minExponent (by omega)
    have hlow := h.le_exponent
    omega
  have hend : 4 * leadingBit - 1 ≤ lowerEnd n f := by
    have hlow := h.le_exponent
    unfold lowerEnd
    split <;> omega
  have hpow : (2 : ℚ) * 2 ^ (e - 2) ≤ 2 ^ (f - 2) := by
    rw [mul_comm, ← zpow_add_one₀ two_ne_zero]
    exact zpow_le_zpow_right₀ one_le_two (by omega)
  have hlower : ((8 * leadingBit - 2 : ℕ) : ℚ) * 2 ^ (e - 2) ≤ q := by
    calc ((8 * leadingBit - 2 : ℕ) : ℚ) * 2 ^ (e - 2)
        = (4 * leadingBit - 1 : ℕ) * (2 * 2 ^ (e - 2)) := by
          rw [← mul_assoc]
          norm_num [leadingBit]
      _ ≤ lowerEnd n f * 2 ^ (f - 2) := by gcongr
      _ ≤ q := hn.lower_le
  have hmax : 8 * leadingBit - 2 ≤ 4 * m + 2 := by
    exact_mod_cast le_of_mul_le_mul_right (hlower.trans hm.le_upper) hpos
  have hmantissa := h.mantissa_lt
  -- Only the largest mantissa reaches that far, and it is odd.
  have hodd : m % 2 = 1 := by
    unfold leadingBit at hmax hmantissa
    omega
  have hlt : 8 * leadingBit - 2 < 4 * m + 2 := by
    exact_mod_cast lt_of_mul_lt_mul_right (hlower.trans_lt (hm.odd hodd).2) hpos.le
  omega

/-- Every rational is read as one float at most. -/
theorem Reads.unique (h : Canonical m e) (h' : Canonical n f) (hm : Reads m e q)
    (hn : Reads n f q) : m = n ∧ e = f := by
  obtain rfl : e = f := le_antisymm (hn.exponent_le h' h hm) (hm.exponent_le h h' hn)
  exact ⟨le_antisymm (hn.mantissa_le h' hm) (hm.mantissa_le h hn), rfl⟩

/-- What is close to the float is read as it. -/
theorem reads_of_close (h : Legal m e) (hm : 0 < m)
    (hclose : |q - m * 2 ^ e| ≤ m * 2 ^ e / (2 * 10 ^ 16)) : Reads m e q := by
  obtain ⟨hlow, hhigh⟩ := abs_le.mp hclose
  have hpos : (0 : ℚ) < 2 ^ (e - 2) := by positivity
  have hpow := two_zpow_eq e
  have hbound : (m : ℚ) < 2 * leadingBit := by exact_mod_cast h.mantissa_lt
  rw [hpow] at hlow hhigh
  have hupper : q < (4 * m + 2 : ℕ) * (2 : ℚ) ^ (e - 2) := by
    have hgap : (m : ℚ) * (4 * 2 ^ (e - 2)) / (2 * 10 ^ 16) < 2 * 2 ^ (e - 2) := by
      rw [div_lt_iff₀ (by norm_num)]
      unfold leadingBit at hbound
      push_cast at hbound
      nlinarith
    push_cast
    linarith
  have hlower : lowerEnd m e * (2 : ℚ) ^ (e - 2) < q := by
    unfold lowerEnd
    split
    next hnarrow =>
      have hgap : (m : ℚ) * (4 * 2 ^ (e - 2)) / (2 * 10 ^ 16) < 2 ^ (e - 2) := by
        rw [div_lt_iff₀ (by norm_num), hnarrow.1]
        unfold leadingBit
        push_cast
        nlinarith
      rw [Nat.cast_sub (by omega)]
      push_cast
      linarith
    next =>
      have hgap : (m : ℚ) * (4 * 2 ^ (e - 2)) / (2 * 10 ^ 16) < 2 * 2 ^ (e - 2) := by
        rw [div_lt_iff₀ (by norm_num)]
        unfold leadingBit at hbound
        push_cast at hbound
        nlinarith
      rw [Nat.cast_sub (by omega)]
      push_cast
      linarith
  exact ⟨hlower.le, hupper.le, fun _ ↦ ⟨hlower, hupper⟩⟩

end Binary64

/-! ## The search for the shortest decimal -/

namespace ReadingInterval

/-- The denominator of the scaled parts is positive. -/
theorem ofParts_denominator_pos (m : ℕ) (e : ℤ) : 0 < (ofParts m e).denominator :=
  scaleFraction_pos one_pos two_pos (e - 2)

/-- The multiple of the unit of the interval. -/
theorem unit_value (m : ℕ) (e : ℤ) (n : ℕ) :
    ((n * (scaleFraction 1 1 2 (e - 2)).1 : ℕ) : ℚ) / (ofParts m e).denominator =
      n * 2 ^ (e - 2) := by
  have hunit : ((scaleFraction 1 1 2 (e - 2)).1 : ℚ) / (scaleFraction 1 1 2 (e - 2)).2 =
      2 ^ (e - 2) := by
    rw [scaleFraction_value two_pos]
    norm_num
  rw [← hunit, Nat.cast_mul, mul_div_assoc]
  rfl

/-- The scaled parts have the value of the float. -/
theorem ofParts_value (m : ℕ) (e : ℤ) :
    ((ofParts m e).value : ℚ) / (ofParts m e).denominator = m * 2 ^ e := by
  have hvalue := unit_value m e (4 * m)
  rw [two_zpow_eq]
  calc ((ofParts m e).value : ℚ) / (ofParts m e).denominator = (4 * m : ℕ) * 2 ^ (e - 2) := hvalue
    _ = m * (4 * 2 ^ (e - 2)) := by push_cast; ring

/-- The test of a decimal is whether it is read as the float. -/
theorem contains_iff (m : ℕ) (e : ℤ) (d : Decimal) :
    (ofParts m e).contains d = true ↔ Binary64.Reads m e d.value := by
  set num := (scaleFraction d.coefficient 1 10 d.exponent).1 with hnum
  set den := (scaleFraction d.coefficient 1 10 d.exponent).2 with hden
  set denominator := (ofParts m e).denominator with hdenominator
  have hden' : (0 : ℚ) < den := by exact_mod_cast scaleFraction_pos one_pos (by norm_num) _
  have hdenominator' : (0 : ℚ) < denominator := by exact_mod_cast ofParts_denominator_pos m e
  have hvalue : (num : ℚ) / den = d.value := by
    rw [hnum, hden, scaleFraction_value (by norm_num), Decimal.value]
    norm_num
  have hlower : ((ofParts m e).lower : ℚ) / denominator =
      Binary64.lowerEnd m e * 2 ^ (e - 2) := unit_value m e (Binary64.lowerEnd m e)
  have hupper : ((ofParts m e).upper : ℚ) / denominator = (4 * m + 2 : ℕ) * 2 ^ (e - 2) :=
    unit_value m e (4 * m + 2)
  have hle : ∀ {a b : ℕ}, a * den ≤ b * denominator ↔ (a : ℚ) / denominator ≤ (b : ℚ) / den := by
    intro a b
    rw [div_le_div_iff₀ hdenominator' hden']
    exact_mod_cast Iff.rfl
  have hle' : ∀ {a b : ℕ}, b * denominator ≤ a * den ↔ (b : ℚ) / den ≤ (a : ℚ) / denominator := by
    intro a b
    rw [div_le_div_iff₀ hden' hdenominator']
    exact_mod_cast Iff.rfl
  show (if (ofParts m e).closed then
      decide ((ofParts m e).lower * den ≤ num * denominator) &&
        decide (num * denominator ≤ (ofParts m e).upper * den)
    else decide ((ofParts m e).lower * den < num * denominator) &&
      decide (num * denominator < (ofParts m e).upper * den)) = true ↔ _
  have hclosed : (ofParts m e).closed = decide (m % 2 = 0) := rfl
  by_cases heven : m % 2 = 0
  · rw [if_pos (by rw [hclosed, decide_eq_true heven]), Bool.and_eq_true, decide_eq_true_eq,
      decide_eq_true_eq, hle, hle', hvalue, hlower, hupper]
    exact ⟨fun h ↦ ⟨h.1, h.2, fun hodd ↦ by omega⟩, fun h ↦ ⟨h.lower_le, h.le_upper⟩⟩
  · rw [if_neg (by rw [hclosed, decide_eq_false heven]; exact Bool.false_ne_true),
      Bool.and_eq_true, decide_eq_true_eq, decide_eq_true_eq, ← not_le, ← not_le, hle, hle', hvalue,
      hlower, hupper, not_le, not_le]
    exact ⟨fun h ↦ ⟨h.1.le, h.2.le, fun _ ↦ h⟩, fun h ↦ h.odd (by omega)⟩

/-- The first neighbour on a grid is at most half a step away. -/
theorem exists_near_neighbour (interval : ReadingInterval) (hpos : 0 < interval.denominator)
    (tie : Tie) (exponent : ℤ) :
    ∃ d rest, interval.neighbours tie exponent = d :: rest ∧
      |d.value - interval.value / interval.denominator| ≤ 10 ^ exponent / 2 := by
  set num := (scaleFraction interval.value interval.denominator 10 (-exponent)).1 with hnum
  set den := (scaleFraction interval.value interval.denominator 10 (-exponent)).2 with hden
  have hden' : (0 : ℚ) < den := by exact_mod_cast scaleFraction_pos hpos (by norm_num) _
  have hten : (0 : ℚ) < 10 ^ exponent := by positivity
  have hvalue : (interval.value : ℚ) / interval.denominator = num / den * 10 ^ exponent := by
    rw [hnum, hden, scaleFraction_value (by norm_num), zpow_neg, Nat.cast_ofNat,
      inv_mul_cancel_right₀ hten.ne']
  have hquotient : (num : ℚ) / den = (num / den : ℕ) + (num % den : ℕ) / den :=
    div_eq_floor_add (scaleFraction_pos hpos (by norm_num) _)
  set low := num / den with hlow
  set rest := num % den with hrest
  have hfraction : 0 ≤ (rest : ℚ) / den := by positivity
  have hnear : ∀ (n : ℕ), |(n : ℚ) - (low + rest / den)| ≤ 1 / 2 →
      |(Decimal.mk n exponent).value - interval.value / interval.denominator| ≤
        10 ^ exponent / 2 := by
    intro n hn
    rw [hvalue, hquotient, Decimal.value, ← sub_mul, abs_mul, abs_of_pos hten]
    calc |(n : ℚ) - (low + rest / den)| * 10 ^ exponent ≤ 1 / 2 * 10 ^ exponent := by gcongr
      _ = 10 ^ exponent / 2 := by ring
  have hdown : 2 * rest ≤ den → |(low : ℚ) - (low + rest / den)| ≤ 1 / 2 := by
    intro hless
    have hhalf : (rest : ℚ) / den ≤ 1 / 2 := by
      rw [div_le_iff₀ hden']
      have hless' : (2 * rest : ℚ) ≤ den := by exact_mod_cast hless
      linarith
    rw [abs_le]
    constructor <;> linarith
  have hup : den ≤ 2 * rest → |((low + 1 : ℕ) : ℚ) - (low + rest / den)| ≤ 1 / 2 := by
    intro hmore
    have hhalf : 1 / 2 ≤ (rest : ℚ) / den := by
      rw [le_div_iff₀ hden']
      have hmore' : (den : ℚ) ≤ 2 * rest := by exact_mod_cast hmore
      linarith
    have hless : (rest : ℚ) / den ≤ 1 := by
      rw [div_le_one hden']
      exact_mod_cast (Nat.mod_lt num (by exact_mod_cast hden')).le
    push_cast
    rw [abs_le]
    constructor <;> linarith
  show ∃ d rest', (if 2 * rest < den then _ else if den < 2 * rest then _ else
    if tie = .even ∧ low % 2 = 0 then _ else _) = d :: rest' ∧ _
  split
  next h => exact ⟨_, _, rfl, hnear low (hdown h.le)⟩
  next h =>
    split
    next h' => exact ⟨_, _, rfl, hnear (low + 1) (hup h'.le)⟩
    next h' =>
      split
      · exact ⟨_, _, rfl, hnear low (hdown (by omega))⟩
      · exact ⟨_, _, rfl, hnear (low + 1) (hup (by omega))⟩

end ReadingInterval

/-- The shortest decimal of a positive float is read as that float. -/
theorem reads_shortest {m : ℕ} {e : ℤ} (h : Binary64.Legal m e) (hm : 0 < m) (tie : Tie) :
    Binary64.Reads m e (Decimal.shortest tie m e).value := by
  unfold Decimal.shortest
  set interval := ReadingInterval.ofParts m e with hinterval
  set leading := floorLog10 interval.value interval.denominator with hleading
  dsimp only
  split
  next d hfound =>
    obtain ⟨digits, -, hattempt⟩ := List.exists_of_findSome?_eq_some hfound
    rw [Decimal.value_strip, ← ReadingInterval.contains_iff]
    exact List.find?_some hattempt
  next hnone =>
    -- With seventeen digits the nearest decimal is close enough.
    have hattempt := List.findSome?_eq_none_iff.mp hnone 16 (by decide)
    obtain ⟨d, rest, hneighbours, hclose⟩ := interval.exists_near_neighbour
      (ReadingInterval.ofParts_denominator_pos m e) tie (leading - (16 : ℕ))
    have hrefused := List.find?_eq_none.mp hattempt d (hneighbours ▸ List.mem_cons_self)
    refine absurd ?_ hrefused
    rw [hinterval, ReadingInterval.contains_iff]
    rw [ReadingInterval.ofParts_value] at hclose
    refine Binary64.reads_of_close h hm (hclose.trans ?_)
    have hvalue : 0 < interval.value := by
      refine Nat.pos_of_ne_zero fun hzero ↦ ?_
      have hfraction := ReadingInterval.ofParts_value m e
      rw [← hinterval, hzero, Nat.cast_zero, zero_div] at hfraction
      have hpos : (0 : ℚ) < m * 2 ^ e := by positivity
      exact hpos.ne hfraction
    have hlow : (10 : ℚ) ^ leading ≤ m * 2 ^ e := by
      rw [← ReadingInterval.ofParts_value]
      exact pow_floorLog10_le hvalue (ReadingInterval.ofParts_denominator_pos m e)
    rw [zpow_sub₀ (by norm_num), zpow_natCast, div_div, mul_comm ((10 : ℚ) ^ 16)]
    gcongr

end Moire
