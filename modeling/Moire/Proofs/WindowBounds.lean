import Mathlib
import Moire.Bands.Window
import Moire.Proofs.BandSelection

/-!
# Windows with any bounds

The bounds of a window come from a configuration and can be any signed 64-bit integers. Over the
integers a window is answered or refused, `Spectrum.exactWindow`, and so is the request of the
library as long as both ends of the window can be computed. The ends are added up before they are
compared, so a bound close to the largest integer breaks the request down where it should be
refused, and the number of valence bands is lost for the lowest integer,
`Spectrum.window_of_any_bounds`.
-/

namespace Moire

/-- A word does not hold the result of the operation. -/
theorem Word.check_eq_breakDown {word : Word} (operation : WordOperation) {x : ℤ}
    (h : word.highest < x) : word.check operation x = breakDown (.overflow operation) := by
  rw [Word.check, if_neg]
  rw [Word.holds_iff, not_and]
  exact fun _ ↦ not_le.mpr h

/-- A machine integer is within the bounds of its word. -/
theorem Word.signed64_bounds (x : Int64) :
    Word.signed64.lowest ≤ x.toInt ∧ x.toInt ≤ Word.signed64.highest :=
  ⟨x.le_toInt, Int.le_of_lt_add_one x.toInt_lt⟩

/-- The numbers of a range that lie between two of its bounds. -/
theorem filter_range_between {a b n : ℕ} (hab : a ≤ b) (hbn : b ≤ n) :
    (List.range n).filter (fun i ↦ a ≤ i ∧ i < b) = ((List.range n).drop a).take (b - a) := by
  -- The range in three parts, of which the middle one is kept.
  have hsplit : List.range n =
      List.range' 0 a ++ (List.range' a (b - a) ++ List.range' b (n - b)) := by
    have hrest : List.range' a (b - a) ++ List.range' b (n - b) = List.range' a (n - a) := by
      rw [show n - a = (b - a) + (n - b) by omega, ← List.range'_append_1,
        show a + (b - a) = b by omega]
    have hall := List.range'_append_1 (s := 0) (m := a) (n := n - a)
    rw [Nat.zero_add, Nat.add_sub_cancel' (hab.trans hbn)] at hall
    rw [hrest, List.range_eq_range', hall]
  have hbelow : (List.range' 0 a).filter (fun i ↦ a ≤ i ∧ i < b) = [] := by
    refine List.filter_eq_nil_iff.mpr fun i hi ↦ ?_
    rw [List.mem_range'_1] at hi
    simp only [decide_eq_true_eq]
    omega
  have hwithin :
      (List.range' a (b - a)).filter (fun i ↦ a ≤ i ∧ i < b) = List.range' a (b - a) := by
    refine List.filter_eq_self.mpr fun i hi ↦ ?_
    rw [List.mem_range'_1] at hi
    simp only [decide_eq_true_eq]
    omega
  have habove : (List.range' b (n - b)).filter (fun i ↦ a ≤ i ∧ i < b) = [] := by
    refine List.filter_eq_nil_iff.mpr fun i hi ↦ ?_
    rw [List.mem_range'_1] at hi
    simp only [decide_eq_true_eq]
    omega
  rw [hsplit, List.filter_append, List.filter_append, hbelow, hwithin, habove, List.nil_append,
    List.append_nil, List.drop_left' List.length_range', List.take_left' List.length_range']

namespace Spectrum

variable {α : Type} [Number α]

/-! ## Windows over the integers -/

/-- The window is not empty and lies within the spectrum. -/
def Encloses (spectrum : Spectrum α) (lower upper : ℤ) : Prop :=
  lower < upper ∧ 0 ≤ spectrum.mid + lower ∧ spectrum.mid + upper ≤ spectrum.size

instance (spectrum : Spectrum α) (lower upper : ℤ) : Decidable (spectrum.Encloses lower upper) :=
  inferInstanceAs (Decidable (_ ∧ _))

/-- The energies of all bands whose index lies within the window. -/
def energiesWithin (spectrum : Spectrum α) (lower upper : ℤ) : List α :=
  ((List.range spectrum.size).filter fun i : ℕ ↦
    spectrum.mid + lower ≤ i ∧ i < spectrum.mid + upper).map spectrum.energy

/-- The answer to a request for a window, over the integers. -/
def exactWindow (spectrum : Spectrum α) (lower upper : ℤ) : Outcome (List α) :=
  if spectrum.Encloses lower upper then .ok (spectrum.energiesWithin lower upper)
  else refuse "band_window"
    s!"window [{lower}, {upper}) does not fit {spectrum.size} bands around {spectrum.mid}"

variable {spectrum : Spectrum α} {lower upper : ℤ}

/-- The energies are those of the levels in order. -/
theorem energies_eq_map : spectrum.energies = (List.range spectrum.size).map spectrum.energy := by
  refine List.ext_getElem? fun i ↦ ?_
  by_cases hi : i < spectrum.size
  · rw [energies_getElem? hi, List.getElem?_map, List.getElem?_range hi, Option.map_some]
  · rw [List.getElem?_eq_none (length_energies.trans_le (not_lt.mp hi)),
      List.getElem?_eq_none (by simpa using hi)]

/-- The bands of a window stand one behind the other in the spectrum. -/
theorem energiesWithin_eq (h : spectrum.Encloses lower upper) :
    spectrum.energiesWithin lower upper =
      (spectrum.energies.drop (spectrum.mid + lower).toNat).take (upper - lower).toNat := by
  obtain ⟨hlt, hstart, hstop⟩ := h
  obtain ⟨a, ha⟩ := Int.eq_ofNat_of_zero_le hstart
  obtain ⟨b, hb⟩ := Int.eq_ofNat_of_zero_le (show 0 ≤ spectrum.mid + upper by omega)
  have hfilter : (List.range spectrum.size).filter (fun i : ℕ ↦
      decide (spectrum.mid + lower ≤ i ∧ i < spectrum.mid + upper)) =
        ((List.range spectrum.size).drop a).take (b - a) := by
    rw [ha, hb, ← filter_range_between (show a ≤ b by omega) (show b ≤ spectrum.size by omega)]
    simp only [Nat.cast_le, Nat.cast_lt]
  rw [energiesWithin, hfilter, energies_eq_map, ← List.map_drop, ← List.map_take, ha,
    Int.toNat_natCast, show (upper - lower).toNat = b - a by omega]

/-! ## Windows in machine integers -/

/-- A window whose ends can be computed is answered as over the integers. -/
theorem window_of_le (hlower : Word.signed64.lowest ≤ lower) (hupper : Word.signed64.lowest ≤ upper)
    (h : spectrum.mid + max lower upper ≤ Word.signed64.highest) :
    spectrum.window lower upper = spectrum.exactWindow lower upper := by
  have hstart : Word.signed64.add spectrum.mid lower = .ok (spectrum.mid + lower) :=
    Word.check_eq_ok .add (by omega) (by omega)
  have hstop : Word.signed64.add spectrum.mid upper = .ok (spectrum.mid + upper) :=
    Word.check_eq_ok .add (by omega) (by omega)
  unfold window exactWindow
  rw [hstart, hstop]
  dsimp only [Bind.bind, Except.bind]
  by_cases hfits : spectrum.Encloses lower upper
  · rw [if_pos hfits, energiesWithin_eq hfits, if_neg]
    · rw [show spectrum.mid + upper - (spectrum.mid + lower) = upper - lower by omega]
      rfl
    · obtain ⟨hlt, hfirst, hlast⟩ := hfits
      omega
  · rw [if_neg hfits, if_pos]
    · rfl
    · by_contra hwithin
      exact hfits ⟨by omega, by omega, by omega⟩

omit [Number α] in
/-- A window with an end that cannot be computed breaks the request down. -/
theorem window_of_gt (hlower : Word.signed64.lowest ≤ lower)
    (h : Word.signed64.highest < spectrum.mid + max lower upper) :
    spectrum.window lower upper = breakDown (.overflow .add) := by
  unfold window
  by_cases hfirst : Word.signed64.highest < spectrum.mid + lower
  · rw [Word.add, Word.check_eq_breakDown .add hfirst]
    rfl
  · have hstart : Word.signed64.add spectrum.mid lower = .ok (spectrum.mid + lower) :=
      Word.check_eq_ok .add (by omega) (by omega)
    have hstop : Word.signed64.add spectrum.mid upper = breakDown (.overflow .add) :=
      Word.check_eq_breakDown .add (by omega)
    rw [hstart, hstop]
    rfl

/-- No spectrum in memory has room for a window with such an end. -/
theorem exactWindow_of_gt (hsize : spectrum.size < memoryLimit)
    (h : Word.signed64.highest < spectrum.mid + max lower upper) :
    spectrum.exactWindow lower upper = refuse "band_window"
      s!"window [{lower}, {upper}) does not fit {spectrum.size} bands around {spectrum.mid}" := by
  rw [exactWindow, if_neg]
  rintro ⟨hlt, -, hlast⟩
  have hhighest : Word.signed64.highest = 9223372036854775807 := rfl
  unfold memoryLimit at hsize
  omega

end Spectrum

/-- The number of valence bands of a window, unless its lower bound is the lowest integer. -/
theorem BandWindow.valenceCount_of_gt {window : BandWindow}
    (hlow : Word.signed64.lowest < window.lower) (hhigh : window.lower ≤ Word.signed64.highest) :
    window.valenceCount = .ok (max (-window.lower) 0).toNat := by
  have hlowest : Word.signed64.lowest = -9223372036854775808 := rfl
  have hhighest : Word.signed64.highest = 9223372036854775807 := rfl
  have hneg : Word.signed64.neg window.lower = .ok (-window.lower) :=
    Word.check_eq_ok .negate (by omega) (by omega)
  rw [valenceCount, hneg]
  exact congrArg Except.ok (show (-window.lower).toNat = _ by omega)

variable {α : Type} [Number α]

/-- For all signed 64-bit bounds, a window of bands is answered as over the integers if both of its
ends can be computed. If an end is too large for a machine integer, the request breaks down, though
no spectrum in memory holds such a window and it should have been refused. The number of valence
bands is the lower bound without its sign, or zero, but for the lowest integer, which cannot be
negated. -/
theorem Spectrum.window_of_any_bounds (spectrum : Spectrum α) (lower upper : Int64) :
    (spectrum.mid + max lower.toInt upper.toInt ≤ Word.signed64.highest →
      spectrum.window lower.toInt upper.toInt =
        spectrum.exactWindow lower.toInt upper.toInt) ∧
    (Word.signed64.highest < spectrum.mid + max lower.toInt upper.toInt →
      spectrum.window lower.toInt upper.toInt = breakDown (.overflow .add) ∧
      (spectrum.size < memoryLimit → ∃ reason,
        spectrum.exactWindow lower.toInt upper.toInt = refuse "band_window" reason)) ∧
    (lower ≠ Int64.minValue → BandWindow.valenceCount ⟨lower.toInt, upper.toInt⟩ =
      .ok (max (-lower.toInt) 0).toNat) ∧
    (lower = Int64.minValue → BandWindow.valenceCount ⟨lower.toInt, upper.toInt⟩ =
      breakDown (.overflow .negate)) := by
  obtain ⟨hlower, hlower'⟩ := Word.signed64_bounds lower
  obtain ⟨hupper, -⟩ := Word.signed64_bounds upper
  refine ⟨window_of_le hlower hupper, fun hgt ↦ ⟨window_of_gt hlower hgt, fun hsize ↦
    ⟨_, exactWindow_of_gt hsize hgt⟩⟩, fun hne ↦ ?_, ?_⟩
  · have hlowest : lower.toInt ≠ Word.signed64.lowest := fun heq ↦ hne (Int64.toInt_inj.mp heq)
    exact BandWindow.valenceCount_of_gt (lt_of_le_of_ne hlower hlowest.symm) hlower'
  · rintro rfl
    rfl

/-- Five levels with a window around the gap, with all bands above it up to the largest integer, and
with the lowest integer as the lower bound. -/
theorem Spectrum.window_of_any_bounds_five :
    fiveLevels.mid + max (-1) 3 ≤ Word.signed64.highest ∧
    fiveLevels.window (-1) 3 = .ok [-1, 1, 1, 3] ∧
    Word.signed64.highest < fiveLevels.mid + max 0 Word.signed64.highest ∧
    fiveLevels.window 0 Word.signed64.highest = breakDown (.overflow .add) ∧
    (∃ reason, fiveLevels.exactWindow 0 Word.signed64.highest = refuse "band_window" reason) ∧
    BandWindow.valenceCount ⟨-1, 3⟩ = .ok 1 ∧
    BandWindow.valenceCount ⟨Word.signed64.lowest, 3⟩ = breakDown (.overflow .negate) := by
  have hnear : fiveLevels.mid + max (-1) 3 ≤ Word.signed64.highest := by decide
  have hfar : Word.signed64.highest < fiveLevels.mid + max 0 Word.signed64.highest := by decide
  obtain ⟨hanswer, -, hcount, -⟩ := window_of_any_bounds fiveLevels (-1) 3
  obtain ⟨-, hbreak, -⟩ := window_of_any_bounds fiveLevels 0 Int64.maxValue
  obtain ⟨-, -, -, hlowest⟩ := window_of_any_bounds fiveLevels Int64.minValue 3
  have hwindow : fiveLevels.exactWindow (-1) 3 = .ok [-1, 1, 1, 3] := rfl
  obtain ⟨hoverflow, hrefused⟩ := hbreak hfar
  exact ⟨hnear, (hanswer hnear).trans hwindow, hfar, hoverflow, hrefused (by decide),
    hcount (by decide), hlowest rfl⟩

end Moire
