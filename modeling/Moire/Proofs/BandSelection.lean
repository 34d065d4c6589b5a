import Mathlib
import Moire.Bands.Density
import Moire.Optics.Transition
import Moire.Proofs.FloatDifference
import Moire.Spectrum.Basic

/-!
# Bands on the two sides of the gap

A band is named in four ways: by its index in the spectrum, by its signed number, by its place in
the row of a window, and by its distance from the gap in a pair. The signed numbers name every index
once, `bijOn_bandIndex`. A row of a window splits into valence and conduction bands where the
spectrum does, so that all ways to pick a pair of bands pick the same two energies,
`band_pairs_agree`.
-/

namespace Moire

variable {α : Type}

namespace Spectrum

variable {spectrum : Spectrum α}

/-! ## Signed numbers -/

/-- The numbers of the bands of a spectrum with a given number of levels. -/
noncomputable def bands (n : ℕ) : Finset ℤ :=
  (Finset.Icc (-(n / 2 : ℕ) : ℤ) (n - n / 2 : ℕ)).erase 0

/-- The index that the number of a band stands for. -/
def bandPosition (n : ℕ) (band : ℤ) : ℕ :=
  (if 0 < band then (n / 2 : ℕ) + band - 1 else (n / 2 : ℕ) + band).toNat

/-- The bands are numbered from the gap, up and down, without a zeroth one. -/
theorem mem_bands {n : ℕ} {band : ℤ} :
    band ∈ bands n ↔ band ≠ 0 ∧ -(n / 2 : ℕ) ≤ band ∧ band ≤ (n - n / 2 : ℕ) := by
  rw [bands, Finset.mem_erase, Finset.mem_Icc]

/-- Every band has an index. -/
theorem bandIndex_eq {band : ℤ} (h : band ∈ bands spectrum.size) :
    spectrum.bandIndex band = .ok (bandPosition spectrum.size band) := by
  obtain ⟨hne, hlow, hhigh⟩ := mem_bands.mp h
  unfold bandIndex bandPosition mid
  rw [if_neg hne]
  split
  all_goals
    rw [if_neg (by omega)]
    rfl

/-- Every band has a position among the levels. -/
theorem bandPosition_lt {n : ℕ} {band : ℤ} (h : band ∈ bands n) : bandPosition n band < n := by
  obtain ⟨hne, hlow, hhigh⟩ := mem_bands.mp h
  unfold bandPosition
  split <;> omega

/-- Different bands have different positions. -/
theorem bandPosition_injOn (n : ℕ) : Set.InjOn (bandPosition n) (bands n) := by
  intro band hband band' hband' h
  obtain ⟨hne, hlow, hhigh⟩ := mem_bands.mp hband
  obtain ⟨hne', hlow', hhigh'⟩ := mem_bands.mp hband'
  unfold bandPosition at h
  split at h <;> split at h <;> omega

/-- The signed numbers name every index once, for even and odd numbers of levels. -/
theorem bijOn_bandPosition (n : ℕ) : Set.BijOn (bandPosition n) (bands n) (Set.Iio n) := by
  refine ⟨fun band hband ↦ bandPosition_lt hband, bandPosition_injOn n, ?_⟩
  intro index hindex
  replace hindex : index < n := hindex
  by_cases hlow : index < n / 2
  · refine ⟨index - (n / 2 : ℕ), mem_bands.mpr ⟨by omega, by omega, by omega⟩, ?_⟩
    unfold bandPosition
    split <;> omega
  · refine ⟨index - (n / 2 : ℕ) + 1, mem_bands.mpr ⟨by omega, by omega, by omega⟩, ?_⟩
    unfold bandPosition
    split <;> omega

/-- The indices of all bands are all indices. -/
theorem bijOn_bandIndex :
    Set.BijOn spectrum.bandIndex (bands spectrum.size) (Except.ok '' Set.Iio spectrum.size) := by
  have hok : Set.InjOn (Except.ok : ℕ → Outcome ℕ) (Set.Iio spectrum.size) :=
    fun _ _ _ _ h ↦ Except.ok.inj h
  exact (hok.bijOn_image.comp (bijOn_bandPosition spectrum.size)).congr fun band hband ↦
    (bandIndex_eq hband).symm

/-- The index of a conduction band that is counted from the gap. -/
theorem bandIndex_conduction {c : ℕ} (hc : 0 < c) (h : spectrum.mid + c ≤ spectrum.size) :
    spectrum.bandIndex c = .ok (spectrum.mid + c - 1) := by
  unfold mid at h
  rw [bandIndex_eq (mem_bands.mpr ⟨by omega, by omega, by omega⟩), bandPosition, mid,
    if_pos (by omega)]
  congr 1
  omega

/-- The index of a valence band that is counted from the gap. -/
theorem bandIndex_valence {v : ℕ} (hv : 0 < v) (h : v ≤ spectrum.mid) :
    spectrum.bandIndex (-v) = .ok (spectrum.mid - v) := by
  unfold mid at h
  rw [bandIndex_eq (mem_bands.mpr ⟨by omega, by omega, by omega⟩), bandPosition, mid,
    if_neg (by omega)]
  congr 1
  omega

/-- There is an energy for each level. -/
theorem length_energies : spectrum.energies.length = spectrum.size := by
  simp [energies, size]

/-! ## Pairs of bands -/

section

variable [Number α]

/-- The energy between a valence and a conduction band, both counted from the gap. -/
def pairEnergy (spectrum : Spectrum α) (v c : ℕ) : Outcome α := do
  let below ← spectrum.bandIndex (-v)
  let above ← spectrum.bandIndex c
  return spectrum.energy above - spectrum.energy below

/-- The energy of a pair is the difference of the two levels, counted from the gap. -/
theorem pairEnergy_eq {v c : ℕ} (hv : 0 < v) (hc : 0 < c) (hvalence : v ≤ spectrum.mid)
    (hconduction : spectrum.mid + c ≤ spectrum.size) :
    spectrum.pairEnergy v c =
      .ok (spectrum.energy (spectrum.mid + c - 1) - spectrum.energy (spectrum.mid - v)) := by
  rw [pairEnergy, bandIndex_valence hv hvalence, bandIndex_conduction hc hconduction]
  rfl

/-- The energies are listed in the order of the levels. -/
theorem energies_getElem? {i : ℕ} (h : i < spectrum.size) :
    spectrum.energies[i]? = some (spectrum.energy i) := by
  unfold size at h
  simp [energies, energy, h]

/-- The energy of a pair is not negative, in a spectrum in ascending order. -/
theorem le_pairEnergy [DifferenceLaws α]
    (hsorted : spectrum.energies.Pairwise fun a b ↦ Number.le a b = true) {v c : ℕ} (hv : 0 < v)
    (hc : 0 < c) (hvalence : v ≤ spectrum.mid) (hconduction : spectrum.mid + c ≤ spectrum.size)
    {d : α} (hd : spectrum.pairEnergy v c = .ok d) (hnumber : Number.isNumber d = true) :
    Number.le 0 d = true := by
  rw [pairEnergy_eq hv hc hvalence hconduction] at hd
  cases hd
  refine DifferenceLaws.le_sub ?_ hnumber
  have hbelow : spectrum.mid - v < spectrum.size := by omega
  have habove : spectrum.mid + c - 1 < spectrum.size := by omega
  obtain ⟨hi, hi'⟩ := List.getElem?_eq_some_iff.mp (energies_getElem? hbelow)
  obtain ⟨hj, hj'⟩ := List.getElem?_eq_some_iff.mp (energies_getElem? habove)
  rw [← hi', ← hj']
  exact List.pairwise_iff_getElem.mp hsorted _ _ hi hj (by omega)

/-! ## Rows of a window -/

/-- The row is the part of the spectrum that the window names. -/
structure Holds (spectrum : Spectrum α) (window : BandWindow) (row : List α) : Prop where
  lower_lt : window.lower < window.upper
  lower_ge : -spectrum.mid ≤ window.lower
  upper_le : spectrum.mid + window.upper ≤ spectrum.size
  upper_lt : spectrum.mid + window.upper < memoryLimit
  length_eq : (row.length : ℤ) = window.upper - window.lower
  getElem?_eq (i : ℕ) : i < row.length →
    row[i]? = some (spectrum.energy (spectrum.mid + window.lower + i).toNat)

variable {window : BandWindow} {row : List α}

/-- A window that is accepted lies within the spectrum. -/
theorem holds_of_window (h : spectrum.window window.lower window.upper = .ok row) :
    spectrum.Holds window row := by
  obtain ⟨start, hstart, h⟩ := bind_eq_ok.mp h
  obtain ⟨stop, hstop, h⟩ := bind_eq_ok.mp h
  obtain ⟨-, hstop_le⟩ := Word.bounds_of_check hstop
  replace hstop_le : spectrum.mid + window.upper ≤ 9223372036854775807 := hstop_le
  have hstart' : spectrum.mid + window.lower = start := Word.eq_of_check hstart
  have hstop' : spectrum.mid + window.upper = stop := Word.eq_of_check hstop
  by_cases hrefused : window.lower ≥ window.upper ∨ start < 0 ∨ stop > spectrum.size
  · rw [if_pos hrefused] at h
    cases h
  rw [if_neg hrefused] at h
  cases h
  push Not at hrefused
  obtain ⟨hlower, hstart_ge, hstop_size⟩ := hrefused
  have hlength : ((spectrum.energies.drop start.toNat).take (stop - start).toNat).length =
      (stop - start).toNat := by
    rw [List.length_take, List.length_drop, length_energies]
    omega
  refine ⟨hlower, by omega, by omega, ?_, by omega, ?_⟩
  · unfold memoryLimit
    omega
  · intro i hi
    rw [hlength] at hi
    rw [List.getElem?_take_of_lt hi, List.getElem?_drop, energies_getElem? (by omega), hstart']
    congr 2
    omega

namespace Holds

variable (h : spectrum.Holds window row)

include h

/-- The bands below the gap come first in the row. -/
theorem valenceCount_eq (hcount : spectrum.size < countLimit) :
    window.valenceCount = .ok (-window.lower).toNat := by
  have hlower := h.lower_lt
  have hge := h.lower_ge
  have hupper := h.upper_lt
  have hmid : spectrum.mid = spectrum.size / 2 := rfl
  have hneg : Word.signed64.neg window.lower = .ok (-window.lower) := by
    apply Word.check_eq_ok
    · show -9223372036854775808 ≤ -window.lower
      unfold memoryLimit at hupper
      omega
    · show -window.lower ≤ 9223372036854775807
      unfold countLimit at hcount
      omega
  exact bind_eq_ok.mpr ⟨_, hneg, rfl⟩

/-- A pair of bands within the window is one of the spectrum. -/
theorem pairEnergy_eq {v c : ℕ} (hv : 0 < v) (hc : 0 < c) (hvalence : v ≤ -window.lower)
    (hconduction : c ≤ window.upper) : spectrum.pairEnergy v c =
      .ok (spectrum.energy (spectrum.mid + c - 1) - spectrum.energy (spectrum.mid - v)) := by
  have hlower := h.lower_ge
  have hupper := h.upper_le
  exact Spectrum.pairEnergy_eq hv hc (by omega) (by omega)

/-- The energy of a conduction band stands behind those below the gap. -/
theorem getElem?_conduction {c : ℕ} (hc : 0 < c) (hlower : window.lower ≤ 0)
    (hconduction : c ≤ window.upper) :
    row[(-window.lower).toNat + c - 1]? = some (spectrum.energy (spectrum.mid + c - 1)) := by
  have hlength := h.length_eq
  rw [h.getElem?_eq _ (by omega)]
  congr 2
  omega

/-- The energies of the valence bands stand below the gap from the top down. -/
theorem getElem?_valence {v : ℕ} (hv : 0 < v) (hvalence : v ≤ -window.lower)
    (hupper : 0 ≤ window.upper) :
    row[(-window.lower).toNat - v]? = some (spectrum.energy (spectrum.mid - v)) := by
  have hlength := h.length_eq
  have hlower := h.lower_ge
  rw [h.getElem?_eq _ (by omega)]
  congr 2
  omega

end Holds

end

end Spectrum

variable [Scalar α]

/-! ## Pairs in a row -/

/-- A pair of a row has a difference if it lies within the row. -/
theorem pairDifference_eq_ok {window : BandWindow} {gap v c : ℕ} {row : List α} {d : α}
    (hv : 0 < v) (hc : 0 < c) : pairDifference window gap v c row = .ok d ↔
      v ≤ gap ∧ gap + c < countLimit ∧ gap + c ≤ row.length ∧
        d = row.getD (gap + c - 1) 0 - row.getD (gap - v) 0 := by
  unfold pairDifference
  by_cases hgap : v ≤ gap
  · rw [if_neg (by omega)]
    by_cases hword : gap + c < countLimit
    · rw [addCount, if_pos hword]
      by_cases hfits : gap + c ≤ row.length
      · simp only [hgap, hword, hfits, true_and]
        show (if gap + c > row.length then _ else _) = _ ↔ _
        rw [if_neg hfits.not_gt]
        rw [entry_getD 0 (by omega), entry_getD 0 (by omega)]
        exact ⟨fun h ↦ (Except.ok.inj h).symm, fun h ↦ congrArg Except.ok h.symm⟩
      · refine iff_of_false ?_ fun h ↦ hfits h.2.2.1
        show ¬ (if gap + c > row.length then _ else _) = _
        rw [if_pos (not_le.mp hfits)]
        exact nofun
    · rw [addCount, if_neg hword]
      exact iff_of_false nofun fun h ↦ hword h.2.1
  · rw [if_pos (by omega)]
    exact iff_of_false nofun fun h ↦ hgap h.1

/-- The differences of a single row are that of the row. -/
theorem energyDifferences_row {window : BandWindow} {v c gap : ℕ} {row ds : List α}
    (hgap : window.valenceCount = .ok gap) : energyDifferences [row] window v c = .ok ds ↔
      ∃ d, pairDifference window gap v c row = .ok d ∧ ds = [d] := by
  rw [energyDifferences, hgap]
  show [row].mapM (pairDifference window gap v c) = _ ↔ _
  rw [List.mapM_cons, List.mapM_nil, bind_eq_ok]
  refine exists_congr fun d ↦ and_congr_right fun _ ↦ ?_
  exact ⟨fun h ↦ (Except.ok.inj h).symm, fun h ↦ congrArg Except.ok h.symm⟩

/-- The conduction bands of a window, each with the valence bands, counted from the gap. -/
def BandWindow.pairs (window : BandWindow) : List (ℕ × ℕ) :=
  (List.range' 1 window.upper.toNat).product (List.range' 1 (-window.lower).toNat)

/-- The pairs of a window are those of one of its bands below the gap and one above. -/
theorem BandWindow.mem_pairs {window : BandWindow} {c v : ℕ} : (c, v) ∈ window.pairs ↔
    (0 < v ∧ 0 < c) ∧ v ≤ -window.lower ∧ c ≤ window.upper := by
  rw [pairs, List.pair_mem_product, List.mem_range'_1, List.mem_range'_1]
  omega

namespace Spectrum.Holds

variable {spectrum : Spectrum α} {window : BandWindow} {row : List α}
  (h : spectrum.Holds window row)

include h

/-- The two places of a row that a pair names hold its energies. -/
theorem pairEnergy_row {v c : ℕ} (hv : 0 < v) (hc : 0 < c) (hvalence : v ≤ -window.lower)
    (hconduction : c ≤ window.upper) : spectrum.pairEnergy v c =
      .ok (row.getD ((-window.lower).toNat + c - 1) 0 -
        row.getD ((-window.lower).toNat - v) 0) := by
  rw [h.pairEnergy_eq hv hc hvalence hconduction, List.getD_eq_getElem?_getD,
    List.getD_eq_getElem?_getD, h.getElem?_conduction hc (by omega) hconduction,
    h.getElem?_valence hv hvalence (by omega)]
  rfl

/-- A row has a difference for the pairs of bands within its window, and it is that of the
spectrum. -/
theorem energyDifferences_eq_ok (hcount : spectrum.size < countLimit) {v c : ℕ} (hv : 0 < v)
    (hc : 0 < c) {ds : List α} : energyDifferences [row] window v c = .ok ds ↔
      (v ≤ -window.lower ∧ c ≤ window.upper) ∧ ∃ d, spectrum.pairEnergy v c = .ok d ∧ ds = [d] := by
  have hlength := h.length_eq
  have hupper := h.upper_le
  have hlower := h.lower_ge
  have hlt := h.lower_lt
  rw [energyDifferences_row (h.valenceCount_eq hcount)]
  constructor
  · rintro ⟨d, hd, rfl⟩
    obtain ⟨hvalence, -, hconduction, rfl⟩ := (pairDifference_eq_ok hv hc).mp hd
    have hv' : v ≤ -window.lower := by omega
    have hc' : c ≤ window.upper := by omega
    exact ⟨⟨hv', hc'⟩, _, h.pairEnergy_row hv hc hv' hc', rfl⟩
  · rintro ⟨⟨hv', hc'⟩, d, hd, rfl⟩
    rw [h.pairEnergy_row hv hc hv' hc'] at hd
    cases hd
    exact ⟨_, (pairDifference_eq_ok hv hc).mpr ⟨by omega, by omega, by omega, rfl⟩, rfl⟩

/-! ## All pairs of a row -/

/-- The conduction bands of a row from the gap up. -/
theorem drop_eq (hlower : window.lower ≤ 0) : row.drop (-window.lower).toNat =
    (List.range' 1 window.upper.toNat).map fun c ↦ spectrum.energy (spectrum.mid + c - 1) := by
  have hlength := h.length_eq
  apply List.ext_getElem?
  intro i
  rw [List.getElem?_drop, List.getElem?_map]
  by_cases hi : i < window.upper.toNat
  · rw [List.getElem?_range' hi,
      show (-window.lower).toNat + i = (-window.lower).toNat + (i + 1) - 1 from rfl,
      h.getElem?_conduction (by omega) hlower (by omega)]
    simp [add_comm]
  · rw [List.getElem?_eq_none (by omega), List.getElem?_eq_none (by simpa using hi)]
    rfl

/-- The valence bands of a row from the gap down. -/
theorem take_eq (hlower : window.lower ≤ 0) (hupper : 0 ≤ window.upper) :
    row.take (-window.lower).toNat =
      ((List.range' 1 (-window.lower).toNat).map fun v ↦
        spectrum.energy (spectrum.mid - v)).reverse := by
  have hlength := h.length_eq
  have hge := h.lower_ge
  set gap := (-window.lower).toNat with hgap
  apply List.ext_getElem?
  intro i
  by_cases hi : i < gap
  · rw [List.getElem?_take_of_lt hi, List.getElem?_reverse (by simpa using hi), List.getElem?_map,
      List.length_map, List.length_range', List.getElem?_range' (by omega),
      h.getElem?_eq i (by omega)]
    show some _ = some _
    congr 2
    omega
  · rw [List.getElem?_eq_none (by rw [List.length_take]; omega),
      List.getElem?_eq_none (by simpa using hi)]

/-- The joint transitions of a row are the pairs of bands within its window. -/
theorem pairEnergies_perm : ((pairEnergies row (-window.lower).toNat).map Except.ok).Perm
    (window.pairs.map fun p ↦ spectrum.pairEnergy p.2 p.1) := by
  have hproduct : window.pairs.map (fun p ↦ spectrum.pairEnergy p.2 p.1) =
      (List.range' 1 window.upper.toNat).flatMap fun c ↦
        (List.range' 1 (-window.lower).toNat).map fun v ↦ spectrum.pairEnergy v c := by
    simp only [BandWindow.pairs, List.product, List.map_flatMap, List.map_map]
    rfl
  rw [hproduct]
  by_cases hlower : window.lower ≤ 0
  · rw [pairEnergies, h.drop_eq hlower, List.flatMap_map, List.map_flatMap]
    refine List.Perm.flatMap_left _ fun c hc ↦ ?_
    rw [List.mem_range'_1] at hc
    rw [h.take_eq hlower (by omega), List.map_reverse, List.map_reverse, List.map_map, List.map_map]
    refine (List.reverse_perm _).trans (List.Perm.of_eq (List.map_congr_left fun v hv ↦ ?_))
    rw [List.mem_range'_1] at hv
    exact (h.pairEnergy_eq (by omega) (by omega) (by omega) (by omega)).symm
  · -- No band of the window lies below the gap.
    have hnone : (-window.lower).toNat = 0 := by omega
    have hnil : ∀ {β γ : Type} (l : List β), (l.flatMap fun _ ↦ ([] : List γ)) = [] :=
      fun l ↦ List.flatMap_eq_nil_iff.mpr fun _ _ ↦ rfl
    simp only [pairEnergies, hnone, List.take_zero, List.map_nil, List.range'_zero, hnil]
    exact List.Perm.refl _

end Spectrum.Holds

/-- There is an energy for each pair. -/
theorem length_pairEnergies (row : List α) (gap : ℕ) :
    (pairEnergies row gap).length = pairCount row gap := by
  rw [pairEnergies, pairCount, List.length_flatMap]
  simp

omit [Scalar α] in
/-- A row has no more pairs than the square of its length. -/
theorem pairCount_le (row : List α) (gap : ℕ) : pairCount row gap ≤ row.length * row.length := by
  refine Nat.mul_le_mul ?_ ?_
  · rw [List.length_drop]
    omega
  · rw [List.length_take]
    exact Nat.min_le_right _ _

/-! ## Optical transitions -/

/-- The transition from a valence to a conduction band, both counted from the gap and from zero. -/
def Spectrum.transition (spectrum : Spectrum α) (derivatives : Derivatives α) (c v : ℕ) :
    Transition α :=
  let below := spectrum.state (spectrum.mid - 1 - v)
  let above := spectrum.state (spectrum.mid + c)
  { valence := v + 1
    conduction := c + 1
    energy := spectrum.energy (spectrum.mid + c) - spectrum.energy (spectrum.mid - 1 - v)
    velocityX := above.inner (derivatives.dx.apply below)
    velocityY := above.inner (derivatives.dy.apply below) }

/-- The energy of a transition is that of its pair of bands. -/
theorem Spectrum.pairEnergy_transition {spectrum : Spectrum α} (derivatives : Derivatives α)
    {v c : ℕ} (hv : 0 < v) (hc : 0 < c) (hvalence : v ≤ spectrum.mid)
    (hconduction : spectrum.mid + c ≤ spectrum.size) : spectrum.pairEnergy v c =
      .ok (spectrum.transition derivatives (c - 1) (v - 1)).energy := by
  rw [Spectrum.pairEnergy_eq hv hc hvalence hconduction, Spectrum.transition,
    show spectrum.mid + c - 1 = spectrum.mid + (c - 1) by omega,
    show spectrum.mid - v = spectrum.mid - 1 - (v - 1) by omega]

/-- What is listed over a range has the index it was made from. -/
theorem zipIdx_map_range {β : Type} (f : ℕ → β) (n : ℕ) :
    ((List.range n).map f).zipIdx = (List.range n).map fun i ↦ (f i, i) := by
  apply List.ext_getElem?
  intro i
  by_cases hi : i < n <;> simp [hi]

/-- An entry of rows of one length that stand one behind the other. -/
theorem getElem?_flatMap {β γ : Type} {f : β → List γ} {n j : ℕ} (hj : j < n) {xs : List β}
    (hlength : ∀ x ∈ xs, (f x).length = n) (i : ℕ) :
    (xs.flatMap f)[i * n + j]? = xs[i]?.bind fun x ↦ (f x)[j]? := by
  induction xs generalizing i with
  | nil => rfl
  | cons x rest ih =>
      have hx : (f x).length = n := hlength x List.mem_cons_self
      rw [List.flatMap_cons]
      cases i with
      | zero =>
          rw [zero_mul, zero_add, List.getElem?_append_left (hx ▸ hj)]
          rfl
      | succ i =>
          have hindex : (i + 1) * n + j = (f x).length + (i * n + j) := by
            rw [hx]
            ring
          rw [hindex, List.getElem?_append_right (Nat.le_add_right _ _), Nat.add_sub_cancel_left,
            ih fun y hy ↦ hlength y (List.mem_cons_of_mem x hy)]
          rfl

section

variable {model : BandModel α} {solve : Solver α} {k : KPoint α} {spectrum : Spectrum α}

/-- The transitions of as many bands on each side of the gap as there are. The conduction band comes
first. -/
theorem transitions_of_bands (hspectrum : model.spectrum solve k = .ok spectrum) {half : ℕ}
    (hhalf : half ≤ spectrum.mid) (hcount : spectrum.mid + half < countLimit) :
    transitions model solve half k = .ok ((List.range half).flatMap fun c ↦
      (List.range half).map fun v ↦ spectrum.transition (model.derivatives k) c v) := by
  have hsize : spectrum.mid + half ≤ spectrum.size := by
    unfold Spectrum.mid at hhalf ⊢
    omega
  have hvalence : spectrum.valence half =
      .ok ((List.range half).map fun i ↦ spectrum.mid - 1 - i) := by
    rw [Spectrum.valence, if_neg hhalf.not_gt]
    rfl
  have hconduction : spectrum.conduction half =
      .ok ((List.range half).map fun i ↦ spectrum.mid + i) := by
    refine bind_eq_ok.mpr ⟨spectrum.mid + half, if_pos hcount, ?_⟩
    rw [if_neg hsize.not_gt]
    rfl
  refine bind_eq_ok.mpr ⟨spectrum, hspectrum, bind_eq_ok.mpr ⟨_, hvalence, bind_eq_ok.mpr
    ⟨_, hconduction, congrArg Except.ok ?_⟩⟩⟩
  rw [List.map_map, zipIdx_map_range, zipIdx_map_range, List.flatMap_map]
  simp only [List.map_map]
  rfl

/-- Transitions are returned if there are as many bands, and only then. -/
theorem transitions_eq_ok_iff {half : ℕ} {list : List (Transition α)} :
    transitions model solve half k = .ok list ↔ ∃ spectrum, model.spectrum solve k = .ok spectrum ∧
      half ≤ spectrum.mid ∧ spectrum.mid + half < countLimit ∧
      list = (List.range half).flatMap fun c ↦
        (List.range half).map fun v ↦ spectrum.transition (model.derivatives k) c v := by
  constructor
  · intro hlist
    obtain ⟨spectrum, hspectrum, hbands⟩ := bind_eq_ok.mp hlist
    obtain ⟨valence, hvalence, hbands⟩ := bind_eq_ok.mp hbands
    obtain ⟨conduction, hconduction, -⟩ := bind_eq_ok.mp hbands
    have hhalf : half ≤ spectrum.mid := by
      by_contra hhalf
      rw [Spectrum.valence, if_pos (not_le.mp hhalf)] at hvalence
      cases hvalence
    have hcount : spectrum.mid + half < countLimit := by
      obtain ⟨stop, hstop, -⟩ := bind_eq_ok.mp hconduction
      by_contra hcount
      rw [addCount, if_neg hcount] at hstop
      cases hstop
    exact ⟨spectrum, hspectrum, hhalf, hcount,
      Except.ok.inj (hlist.symm.trans (transitions_of_bands hspectrum hhalf hcount))⟩
  · rintro ⟨spectrum, hspectrum, hhalf, hcount, rfl⟩
    exact transitions_of_bands hspectrum hhalf hcount

variable (hspectrum : model.spectrum solve k = .ok spectrum) (hcount : spectrum.size < countLimit)

include hspectrum hcount

/-- The transitions of a number of bands on each side of the gap, if there are as many. -/
theorem transitions_eq {half : ℕ} (hhalf : half ≤ spectrum.mid) :
    transitions model solve half k = .ok ((List.range half).flatMap fun c ↦
      (List.range half).map fun v ↦ spectrum.transition (model.derivatives k) c v) := by
  refine transitions_of_bands hspectrum hhalf ?_
  unfold Spectrum.mid at hhalf ⊢
  omega

/-- Transitions are refused if there are not as many bands. -/
theorem transitions_returns_iff (half : ℕ) :
    (∃ list, transitions model solve half k = .ok list) ↔ half ≤ spectrum.mid := by
  refine ⟨fun ⟨list, hlist⟩ ↦ ?_, fun hhalf ↦ ⟨_, transitions_eq hspectrum hcount hhalf⟩⟩
  obtain ⟨found, hfound, hhalf, -⟩ := transitions_eq_ok_iff.mp hlist
  cases hfound.symm.trans hspectrum
  exact hhalf

/-- The place of a pair of bands among the transitions. -/
theorem transitions_getElem? {half v c : ℕ} {list : List (Transition α)}
    (hlist : transitions model solve half k = .ok list) (hv : 0 < v) (hc : 0 < c)
    (hvalence : v ≤ half) (hconduction : c ≤ half) :
    list[(c - 1) * half + (v - 1)]? =
      some (spectrum.transition (model.derivatives k) (c - 1) (v - 1)) := by
  have hhalf := (transitions_returns_iff hspectrum hcount half).mp ⟨list, hlist⟩
  rw [transitions_eq hspectrum hcount hhalf] at hlist
  cases hlist
  rw [getElem?_flatMap (by omega) (fun _ _ ↦ by simp) (c - 1), List.getElem?_range (by omega)]
  show (List.map _ _)[v - 1]? = _
  rw [List.getElem?_map, List.getElem?_range (by omega)]
  rfl

end

/-- The joint transitions of a row in ascending order are not negative. -/
theorem Spectrum.Holds.le_of_mem_pairEnergies [DifferenceLaws α] {spectrum : Spectrum α}
    {window : BandWindow} {row : List α} (h : spectrum.Holds window row)
    (hsorted : spectrum.energies.Pairwise fun a b ↦ Number.le a b = true) {d : α}
    (hd : d ∈ pairEnergies row (-window.lower).toNat) :
    (Number.isNumber d = true → Number.le 0 d = true) ∧
      ((∀ e ∈ spectrum.energies, Number.isFinite e = true) → Number.isNumber d = true) := by
  have hmem : Except.ok d ∈ window.pairs.map fun p ↦ spectrum.pairEnergy p.2 p.1 :=
    h.pairEnergies_perm.mem_iff.mp (List.mem_map_of_mem hd)
  obtain ⟨⟨c, v⟩, hpair, hpairEnergy⟩ := List.mem_map.mp hmem
  obtain ⟨⟨hv, hc⟩, hvalence, hconduction⟩ := BandWindow.mem_pairs.mp hpair
  have hlower := h.lower_ge
  have hupper := h.upper_le
  have hv' : v ≤ spectrum.mid := by omega
  have hc' : spectrum.mid + c ≤ spectrum.size := by omega
  refine ⟨fun hnumber ↦ le_pairEnergy hsorted hv hc hv' hc' hpairEnergy hnumber, fun hfinite ↦ ?_⟩
  rw [Spectrum.pairEnergy_eq hv hc hv' hc'] at hpairEnergy
  cases hpairEnergy
  have hfinite' : ∀ i < spectrum.size, Number.isFinite (spectrum.energy i) = true :=
    fun i hi ↦ hfinite _ (List.mem_of_getElem? (energies_getElem? hi))
  exact DifferenceLaws.isNumber_sub (hfinite' _ (by omega)) (hfinite' _ (by omega))

/-- However a pair of bands next to the gap is picked, it has the same energy. A row of a window has
a difference for the pairs within the window and for no others; the transitions of enough bands hold
the pair at its place; and the joint transitions of the row are all these pairs, none of them
negative, if memory can hold them, as it can if it holds the states of the spectrum. -/
theorem band_pairs_agree [DifferenceLaws α] {spectrum : Spectrum α}
    (hcount : spectrum.size < countLimit)
    (hsorted : spectrum.energies.Pairwise fun a b ↦ Number.le a b = true) {window : BandWindow}
    {row : List α} (hrow : spectrum.window window.lower window.upper = .ok row) :
    ∃ gap, window.valenceCount = .ok gap ∧
      (∀ v c : ℕ, 0 < v → 0 < c →
        ((∃ ds, energyDifferences [row] window v c = .ok ds) ↔
          v ≤ -window.lower ∧ c ≤ window.upper) ∧
        (v ≤ -window.lower → c ≤ window.upper → ∃ d, spectrum.pairEnergy v c = .ok d ∧
          energyDifferences [row] window v c = .ok [d]) ∧
        ∀ (model : BandModel α) (solve : Solver α) (k : KPoint α) (half : ℕ),
          model.spectrum solve k = .ok spectrum →
          ((∃ list, transitions model solve half k = .ok list) ↔ half ≤ spectrum.mid) ∧
          ∀ list, transitions model solve half k = .ok list → max v c ≤ half →
            ∃ t, list[(c - 1) * half + (v - 1)]? = some t ∧ t.conduction = c ∧ t.valence = v ∧
              spectrum.pairEnergy v c = .ok t.energy) ∧
      (pairCount row gap * 8 < memoryLimit → ∃ differences,
        transitionEnergies row gap = .ok differences ∧
        (differences.map Except.ok).Perm
          (window.pairs.map fun p ↦ spectrum.pairEnergy p.2 p.1) ∧
        ∀ d ∈ differences, (Number.isNumber d = true → Number.le 0 d = true) ∧
          ((∀ e ∈ spectrum.energies, Number.isFinite e = true) → Number.le 0 d = true)) ∧
      (spectrum.size * spectrum.size * 16 < memoryLimit →
        pairCount row gap * 8 < memoryLimit) ∧
      (0 ≤ window.lower ∨ window.upper ≤ 0 → transitionEnergies row gap = .ok []) := by
  have h := Spectrum.holds_of_window hrow
  refine ⟨_, h.valenceCount_eq hcount, fun v c hv hc ↦ ⟨⟨?_, ?_⟩, ?_, ?_⟩, fun hmemory ↦ ?_,
    fun hstates ↦ ?_, fun houtside ↦ ?_⟩
  · rintro ⟨ds, hds⟩
    exact ((h.energyDifferences_eq_ok hcount hv hc).mp hds).1
  · rintro ⟨hvalence, hconduction⟩
    exact ⟨_, (h.energyDifferences_eq_ok hcount hv hc).mpr
      ⟨⟨hvalence, hconduction⟩, _, h.pairEnergy_eq hv hc hvalence hconduction, rfl⟩⟩
  · intro hvalence hconduction
    have hpair := h.pairEnergy_eq hv hc hvalence hconduction
    exact ⟨_, hpair, (h.energyDifferences_eq_ok hcount hv hc).mpr
      ⟨⟨hvalence, hconduction⟩, _, hpair, rfl⟩⟩
  · intro model solve k half hspectrum
    have hreturns := transitions_returns_iff hspectrum hcount half
    refine ⟨hreturns, fun list hlist hmax ↦ ?_⟩
    have hhalf := hreturns.mp ⟨list, hlist⟩
    have hmid : spectrum.mid = spectrum.size / 2 := rfl
    refine ⟨_, transitions_getElem? hspectrum hcount hlist hv hc (by omega) (by omega), ?_, ?_,
      Spectrum.pairEnergy_transition _ hv hc (by omega) (by omega)⟩
    · exact Nat.sub_add_cancel hc
    · exact Nat.sub_add_cancel hv
  · refine ⟨_, transitionEnergies_eq_ok hmemory, h.pairEnergies_perm, fun d hd ↦ ?_⟩
    obtain ⟨hle, hnumber⟩ := h.le_of_mem_pairEnergies hsorted hd
    exact ⟨hle, fun hfinite ↦ hle (hnumber hfinite)⟩
  · have hlength : row.length ≤ spectrum.size := by
      have hlength := h.length_eq
      have hlower := h.lower_ge
      have hupper := h.upper_le
      omega
    have hpairs := (pairCount_le row (-window.lower).toNat).trans (Nat.mul_le_mul hlength hlength)
    omega
  · have hpairs : window.pairs = [] := by
      refine List.eq_nil_iff_forall_not_mem.mpr fun ⟨c, v⟩ hpair ↦ ?_
      have hbounds := BandWindow.mem_pairs.mp hpair
      omega
    have hperm := h.pairEnergies_perm
    rw [hpairs, List.map_nil, List.perm_nil, List.map_eq_nil_iff] at hperm
    have hnone : pairCount row (-window.lower).toNat = 0 := by
      rw [← length_pairEnergies, hperm]
      rfl
    rw [transitionEnergies_eq_ok (by rw [hnone]; decide), hperm]

/-- Five levels, three of them above the gap. -/
def fiveLevels : Spectrum Float :=
  ⟨#[⟨-4, #[]⟩, ⟨-1, #[]⟩, ⟨1, #[]⟩, ⟨1, #[]⟩, ⟨3, #[]⟩]⟩

/-- A solver that always returns the five levels. -/
def fiveLevelSolver : Solver Float := fun _ ↦ some fiveLevels.levels.toList

/-- A model of five orbitals. -/
def fiveOrbitals : BandModel Float :=
  ⟨"orbitals", 1, 5, fun _ ↦ CMatrix.ofFn 5 5 fun _ _ ↦ Cplx.zero, (⟨1, 0⟩, ⟨0, 1⟩), 1, 1, 1, 1, 1⟩

/-- The spectrum of the five orbitals is the same at every point. -/
theorem spectrum_fiveOrbitals (k : KPoint Float) :
    fiveOrbitals.spectrum fiveLevelSolver k = .ok fiveLevels := by
  have hfinite : (CMatrix.ofFn 5 5 fun _ _ ↦ (Cplx.zero : Cplx Float)).isFinite = true := by
    decide +kernel
  have hsort : Number.sortBy Level.energy fiveLevels.levels.toList = fiveLevels.levels.toList := rfl
  show Spectrum.ofHamiltonian _ (CMatrix.ofFn 5 5 fun _ _ ↦ Cplx.zero) = _
  unfold Spectrum.ofHamiltonian
  rw [hfinite]
  exact congrArg (fun levels ↦ Except.ok (Spectrum.mk levels.toArray)) hsort

/-- One valence and three conduction bands of the five levels. -/
def oneBelow : BandWindow := ⟨-1, 3⟩

/-- An odd number of levels and a window that is not symmetric about the gap. -/
theorem band_pairs_agree_five :
    (fiveLevels.size < countLimit ∧
      fiveLevels.energies.Pairwise (fun a b ↦ Number.le a b = true) ∧
      fiveLevels.window oneBelow.lower oneBelow.upper = .ok [-1, 1, 1, 3] ∧
      fiveOrbitals.spectrum fiveLevelSolver ⟨0, 0⟩ = .ok fiveLevels) ∧
    ∃ d, fiveLevels.pairEnergy 1 2 = .ok d ∧
      energyDifferences [[-1, 1, 1, 3]] oneBelow 1 2 = .ok [d] ∧
      ∃ list t, transitions fiveOrbitals fiveLevelSolver 2 ⟨0, 0⟩ = .ok list ∧
        list[2]? = some t ∧ t.conduction = 2 ∧ t.valence = 1 ∧ t.energy = d ∧
        Number.le 0 d = true := by
  have hcount : fiveLevels.size < countLimit := by decide
  have hsorted : fiveLevels.energies.Pairwise fun a b ↦ Number.le a b = true := by decide +kernel
  have hrow : fiveLevels.window oneBelow.lower oneBelow.upper = .ok [-1, 1, 1, 3] := rfl
  have hspectrum := spectrum_fiveOrbitals ⟨0, 0⟩
  obtain ⟨gap, hgap, hpairs, hdifferences, hmemory, -⟩ := band_pairs_agree hcount hsorted hrow
  obtain ⟨differences, hreturned, hperm, hnonneg⟩ := hdifferences (hmemory (by decide))
  obtain ⟨-, hwithin, htransitions⟩ := hpairs 1 2 (by decide) (by decide)
  obtain ⟨d, hd, hdifference⟩ := hwithin (by decide) (by decide)
  obtain ⟨hreturns, hentry⟩ := htransitions _ _ _ 2 hspectrum
  obtain ⟨list, hlist⟩ := hreturns.mpr (by decide)
  obtain ⟨t, ht, hc, hv, henergy⟩ := hentry list hlist (by decide)
  have hmem : d ∈ differences := by
    have hpair : (2, 1) ∈ oneBelow.pairs := by decide
    have hok := hperm.mem_iff.mpr (List.mem_map_of_mem hpair)
    rw [hd] at hok
    exact (List.mem_map_of_injective fun _ _ h ↦ Except.ok.inj h).mp hok
  refine ⟨⟨hcount, hsorted, hrow, hspectrum⟩, d, hd, hdifference, list, t, hlist, ht, hc, hv, ?_,
    (hnonneg d hmem).2 (by decide +kernel)⟩
  exact Except.ok.inj (henergy.symm.trans hd)

end Moire
