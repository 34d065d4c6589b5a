import Mathlib
import Moire.Proofs.Breakdowns
import Moire.Proofs.HistogramBins

/-!
# What a density of states counts

The density of a bin is its count divided by the width of the bins, which is read off the edges
again. Over an ordered field the width cancels in the sum over all bins, `integral_eq`, and what
remains is the number of samples within the range, `Counts`. The samples of the joint density are
the differences of the pairs of a conduction and a valence energy, `gapPairs`, which are formed row
by row if memory can hold those of each row.
-/

namespace Moire

variable {K : Type} [ExactScalar K]

/-! ## Histograms -/

namespace Histogram

/-- The width of the bins is that of each of them. -/
theorem Sorts.binWidth_eq {histogram : Histogram K} {values : List K} {bins : ℕ} {lower upper : K}
    (h : histogram.Sorts values bins lower upper) (hbins : 0 < bins) :
    histogram.binWidth = .ok ((upper - lower) / bins) := by
  obtain ⟨low, high, hlow, hhigh, hwidth⟩ := h.spacing 0 hbins
  rw [binWidth, entry_eq_ok hhigh, entry_eq_ok hlow, ← hwidth]
  rfl

end Histogram

/-! ## Densities -/

namespace DensityOfStates

/-- The number of states that a density amounts to, per area. -/
def integral (dos : DensityOfStates K) : Outcome K := do
  let width ← dos.histogram.binWidth
  return (dos.density.map (· * width)).sum

/-- The density amounts to two states for each sample within the range, per point and area. Without
a range these are all samples. -/
structure Counts (dos : DensityOfStates K) (samples : List K) (points : ℕ)
    (range : Option (K × K)) (area : K) : Prop where
  within : ∃ low high, Histogram.Spans samples range low high ∧
    dos.integral = .ok (2 / (points * area) * samples.countP fun e ↦
      (Histogram.widen low high).1 ≤ e ∧ e ≤ (Histogram.widen low high).2)
  all : range = none → dos.integral = .ok (2 / (points * area) * samples.length)

/-- A density is a histogram with its counts divided by the width of the bins. -/
theorem ofSamples_eq {samples : List K} {points bins : ℕ} {range : Option (K × K)} (area : K)
    {histogram : Histogram K} {width : K} (hpoints : points ≠ 0)
    (hcreate : Histogram.create samples bins range = .ok histogram)
    (hwidth : histogram.binWidth = .ok width) :
    ofSamples samples points bins range area = .ok ⟨histogram.centers, histogram.counts.map
      fun count : ℕ ↦ (count : K) * (2 / (points * area) / width), histogram⟩ := by
  have hspin : (Constants.spinDegeneracy : K) = 2 := ExactField.two_eq
  unfold ofSamples
  dsimp only
  rw [if_neg hpoints, hspin]
  exact bind_eq_ok.mpr ⟨histogram, hcreate, bind_eq_ok.mpr ⟨width, hwidth, rfl⟩⟩

/-- The width of the bins cancels in the number of states. -/
theorem integral_eq (centers : List K) (weight : K) {histogram : Histogram K} {width : K}
    (hwidth : histogram.binWidth = .ok width) (hne : width ≠ 0) :
    integral ⟨centers, histogram.counts.map fun count : ℕ ↦ (count : K) * (weight / width),
      histogram⟩ = .ok (weight * histogram.total) := by
  have hbin : ∀ count : ℕ, (count : K) * (weight / width) * width = count * weight := by
    intro count
    rw [mul_assoc, div_mul_cancel₀ _ hne]
  refine bind_eq_ok.mpr ⟨width, hwidth, congrArg Except.ok ?_⟩
  simp only [List.map_map, Function.comp_def, hbin, List.sum_map_mul_right]
  rw [mul_comm, Histogram.total, ← List.sum_eq_foldl, Nat.cast_list_sum]

/-- Samples taken at some points are counted, if the bins fit into memory. -/
theorem exists_counts (samples : List K) {points bins : ℕ} (hpoints : points ≠ 0)
    (hbins : 1 ≤ bins) (hmemory : (bins + 1) * 8 < memoryLimit) {range : Option (K × K)}
    (hrange : ∀ ends ∈ range, ends.1 ≤ ends.2) (area : K) :
    ∃ dos, ofSamples samples points bins range area = .ok dos ∧
      dos.Counts samples points range area := by
  obtain ⟨low, high, histogram, hspans, hcreate, hsorts⟩ :=
    Histogram.exists_sorts samples hbins hmemory hrange
  have hwidth := hsorts.binWidth_eq hbins
  have hintegral := integral_eq histogram.centers (2 / (points * area)) hwidth
    (Histogram.width_pos hsorts.lower_lt_upper hbins).ne'
  rw [hsorts.total] at hintegral
  refine ⟨_, ofSamples_eq area hpoints hcreate hwidth, ⟨low, high, hspans, hintegral⟩,
    fun hnone ↦ ?_⟩
  subst hnone
  rw [hintegral, hspans.countP_eq]

/-- Bins that do not fit into memory break the computation down. -/
theorem ofSamples_capacity (samples : List K) {points bins : ℕ} (hpoints : points ≠ 0)
    (hbins : 1 ≤ bins) (hmemory : memoryLimit ≤ (bins + 1) * 8) {range : Option (K × K)}
    (hrange : ∀ ends ∈ range, ends.1 ≤ ends.2) (area : K) :
    ofSamples samples points bins range area = breakDown .capacityOverflow := by
  have hle := (Histogram.spans_getD samples range).le hrange
  refine ofSamples_eq_breakDown.mpr ⟨hpoints, ⟨?_, hmemory⟩, rfl⟩
  exact Histogram.valid_of_le (Nat.one_le_iff_ne_zero.mp hbins) hle

end DensityOfStates

/-! ## Pairs of bands -/

section

omit [ExactScalar K]

/-- The pairs of a conduction and a valence energy of each row, whose first entries lie below the
gap. -/
def gapPairs (valence : ℕ) (energies : List (List K)) : List (K × K) :=
  energies.flatMap fun row ↦ row.drop valence ×ˢ row.take valence

/-- There is a pair for each band below the gap and each one above, at each point. -/
theorem length_gapPairs (valence : ℕ) (energies : List (List K)) :
    (gapPairs valence energies).length =
      (energies.map fun row ↦
        min valence row.length * (row.length - min valence row.length)).sum := by
  rw [gapPairs, List.length_flatMap]
  congr 1
  refine List.map_congr_left fun row _ ↦ ?_
  rw [List.length_product, List.length_drop, List.length_take, mul_comm]
  congr 1
  omega

end

/-- The pairs of all rows have the differences of these pairs. -/
theorem flatMap_pairEnergies (valence : ℕ) (energies : List (List K)) :
    (energies.map (pairEnergies · valence)).flatten =
      (gapPairs valence energies).map fun pair ↦ pair.1 - pair.2 := by
  have hrow : ∀ row : List K, pairEnergies row valence =
      (row.drop valence ×ˢ row.take valence).map fun pair ↦ pair.1 - pair.2 := by
    intro row
    show _ = (List.product _ _).map _
    rw [List.product, List.map_flatMap]
    simp only [List.map_map, Function.comp_def]
    rfl
  simp only [gapPairs, List.map_flatMap, hrow, ← List.flatMap_def]

omit [ExactScalar K] in
/-- The valence count is the depth of the window, unless its lower end is the lowest of the word. -/
theorem valenceCount_eq {window : BandWindow} (hword : Word.signed64.holds window.lower = true)
    (hlowest : window.lower ≠ Word.signed64.lowest) :
    window.valenceCount = .ok (-window.lower).toNat := by
  have hbounds := Word.holds_iff.mp hword
  dsimp only [Word.signed64] at hbounds hlowest
  have hneg : Word.signed64.neg window.lower = .ok (-window.lower) :=
    Word.check_eq_ok .negate (by dsimp only [Word.signed64]; omega)
      (by dsimp only [Word.signed64]; omega)
  exact bind_eq_ok.mpr ⟨_, hneg, rfl⟩

/-- The lowest bound of a window has no opposite. -/
theorem valenceCount_lowest {window : BandWindow} (hlowest : window.lower = Word.signed64.lowest) :
    window.valenceCount = breakDown (.overflow .negate) := by
  refine valenceCount_eq_breakDown.mpr ⟨?_, rfl⟩
  rw [hlowest]
  rfl

section

variable {energies : List (List K)} {window : BandWindow} {valence bins : ℕ}
  {range : Option (K × K)}

/-- The joint density is that of the differences of all pairs, if memory can hold those of each
row. -/
theorem jointDensityOfStates_eq (hvalence : window.valenceCount = .ok valence)
    (hpairs : ∀ row ∈ energies, pairCount row valence * 8 < memoryLimit) (area : K) :
    jointDensityOfStates energies window bins range area = DensityOfStates.ofSamples
      ((gapPairs valence energies).map fun pair ↦ pair.1 - pair.2) energies.length bins range
      area := by
  have hdifferences : energies.mapM (transitionEnergies · valence) =
      .ok (energies.map (pairEnergies · valence)) := by
    refine mapM_eq_ok ?_
    rw [List.map_map]
    exact List.map_congr_left fun row hrow ↦ (transitionEnergies_eq_ok (hpairs row hrow)).symm
  rw [jointDensityOfStates, hvalence, ← flatMap_pairEnergies]
  show (energies.mapM (transitionEnergies · valence) >>= _) = _
  rw [hdifferences]
  rfl

/-- A row with more pairs than memory can hold breaks the joint density down. -/
theorem jointDensityOfStates_capacity (hvalence : window.valenceCount = .ok valence)
    (hpairs : ∃ row ∈ energies, memoryLimit ≤ pairCount row valence * 8) (area : K) :
    jointDensityOfStates energies window bins range area = breakDown .capacityOverflow := by
  rw [jointDensityOfStates, hvalence]
  show (energies.mapM (transitionEnergies · valence) >>= _) = _
  rw [mapM_transitionEnergies_eq_breakDown.mpr ⟨hpairs, rfl⟩]
  rfl

end

/-- The sum rules of both densities. Over some rows of energies and a range that is given in order,
the density of states amounts to two states for each energy within the range, per point and area,
and the joint density to two for each pair of bands whose difference is within the range. Both break
down if the bins do not fit into memory. The joint density also breaks down if the pairs of a row do
not, and for the one window whose lower bound has no opposite. -/
theorem density_sum_rules {energies : List (List K)} {bins : ℕ} {range : Option (K × K)}
    (hrows : energies ≠ []) (hbins : 1 ≤ bins) (hrange : ∀ ends ∈ range, ends.1 ≤ ends.2)
    (area : K) :
    ((bins + 1) * 8 < memoryLimit → ∃ dos, densityOfStates energies bins range area = .ok dos ∧
      dos.Counts energies.flatten energies.length range area) ∧
    (memoryLimit ≤ (bins + 1) * 8 →
      densityOfStates energies bins range area = breakDown .capacityOverflow) ∧
    (∀ window : BandWindow, Word.signed64.holds window.lower = true →
      window.lower ≠ Word.signed64.lowest →
      ∃ valence, window.valenceCount = .ok valence ∧
        ((bins + 1) * 8 < memoryLimit →
          (∀ row ∈ energies, pairCount row valence * 8 < memoryLimit) →
          ∃ dos, jointDensityOfStates energies window bins range area = .ok dos ∧
            dos.Counts ((gapPairs valence energies).map fun pair ↦ pair.1 - pair.2)
              energies.length range area ∧
            (gapPairs valence energies).length = (energies.map fun row ↦
              min valence row.length * (row.length - min valence row.length)).sum) ∧
        (memoryLimit ≤ (bins + 1) * 8 ∨
            (∃ row ∈ energies, memoryLimit ≤ pairCount row valence * 8) →
          jointDensityOfStates energies window bins range area = breakDown .capacityOverflow)) ∧
    ∀ window : BandWindow, window.lower = Word.signed64.lowest →
      jointDensityOfStates energies window bins range area = breakDown (.overflow .negate) := by
  have hpoints : energies.length ≠ 0 := mt List.length_eq_zero_iff.mp hrows
  refine ⟨fun hmemory ↦ ?_, fun hmemory ↦ ?_, fun window hword hlowest ↦ ?_,
    fun window hlowest ↦ ?_⟩
  · exact DensityOfStates.exists_counts energies.flatten hpoints hbins hmemory hrange area
  · exact DensityOfStates.ofSamples_capacity energies.flatten hpoints hbins hmemory hrange area
  · have hvalence := valenceCount_eq hword hlowest
    refine ⟨_, hvalence, fun hmemory hpairs ↦ ?_, fun hlarge ↦ ?_⟩
    · obtain ⟨dos, hdos, hcounts⟩ := DensityOfStates.exists_counts
        ((gapPairs (-window.lower).toNat energies).map fun pair ↦ pair.1 - pair.2) hpoints hbins
        hmemory hrange area
      exact ⟨dos, (jointDensityOfStates_eq hvalence hpairs area).trans hdos, hcounts,
        length_gapPairs _ energies⟩
    · by_cases hpairs : ∃ row ∈ energies, memoryLimit ≤ pairCount row (-window.lower).toNat * 8
      · exact jointDensityOfStates_capacity hvalence hpairs area
      · push Not at hpairs
        rw [jointDensityOfStates_eq hvalence hpairs]
        refine DensityOfStates.ofSamples_capacity _ hpoints hbins (hlarge.resolve_right ?_) hrange
          area
        rintro ⟨row, hrow, hlarge⟩
        exact absurd (hpairs row hrow) (not_lt.mpr hlarge)
  · rw [jointDensityOfStates, valenceCount_lowest hlowest]
    rfl

section

attribute [local instance] ExactScalar.rational

/-- Two rows, of three energies and of one. With one valence band the first row has two pairs and
the second has none. -/
theorem density_sum_rules_two : ∃ dos joint : DensityOfStates ℚ,
    densityOfStates [[0, 1, 3], [2]] 2 none 1 = .ok dos ∧ dos.integral = .ok 4 ∧
      jointDensityOfStates [[0, 1, 3], [2]] ⟨-1, 2⟩ 2 none 1 = .ok joint ∧
      joint.integral = .ok 2 := by
  have hrows : ([[0, 1, 3], [2]] : List (List ℚ)) ≠ [] := List.cons_ne_nil _ _
  have hrange : ∀ ends ∈ (none : Option (ℚ × ℚ)), ends.1 ≤ ends.2 := by simp
  obtain ⟨hdensity, -, hjoint, -⟩ := density_sum_rules hrows (by decide : 1 ≤ 2) hrange 1
  obtain ⟨dos, hdos, hcounts⟩ := hdensity (by decide)
  obtain ⟨valence, hvalence, hjoint, -⟩ := hjoint ⟨-1, 2⟩ rfl (by decide)
  obtain rfl : 1 = valence := Except.ok.inj hvalence
  obtain ⟨joint, hresult, hpairs, hlength⟩ := hjoint (by decide) (by decide)
  refine ⟨dos, joint, hdos, ?_, hresult, ?_⟩
  · rw [hcounts.all rfl]
    norm_num
  · rw [hpairs.all rfl, List.length_map, hlength]
    norm_num

/-- More bins than memory holds the edges of, and a window whose lower bound has no opposite. -/
theorem density_breaks_down : 1 ≤ 1152921504606846976 ∧
    densityOfStates ([[1]] : List (List ℚ)) 1152921504606846976 none 1 =
      breakDown .capacityOverflow ∧
    jointDensityOfStates ([[0, 1]] : List (List ℚ)) ⟨-9223372036854775808, 1⟩ 1 none 1 =
      breakDown (.overflow .negate) := by
  refine ⟨by decide, ?_, ?_⟩
  · exact DensityOfStates.ofSamples_capacity _ one_ne_zero (by decide) (by decide) (by simp) 1
  · rw [jointDensityOfStates, valenceCount_lowest rfl]
    rfl

end

end Moire
