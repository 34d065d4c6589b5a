import Mathlib
import Moire.Berry.Curvature
import Moire.Proofs.BandSelection
import Moire.Proofs.ComplexMatrix
import Moire.Proofs.OneWave

/-!
# The sum rule of the Berry curvature

Forward differences of a Hermitian Hamiltonian are Hermitian, so that the velocity matrix elements
of two bands, taken in either order, are conjugates of each other, `inner_apply_conj`. What one band
adds to the curvature sum of another is therefore imaginary and changes sign with their order,
`curvaturePair_re` and `curvaturePair_im_swap`. The curvature sum of a band is imaginary, and the
curvatures of all bands at a point add up to zero, `curvature_sum_rule`.
-/

namespace Moire

open Matrix RealScalar

/-! ## Matrix elements -/

namespace CVector

/-- There are only zeros beyond the end of a vector. -/
theorem get_of_size_le {v : CVector ℝ} {i : ℕ} (h : v.size ≤ i) : v.get i = Cplx.zero := by
  rw [get, Array.getD, dif_neg (by omega)]

/-- A sum over the components of two states, as far as both have any. Components outside count as
zero. -/
theorem sum_zip {f : Cplx ℝ × Cplx ℝ → ℂ} (hleft : ∀ b, f (Cplx.zero, b) = 0)
    (hright : ∀ a, f (a, Cplx.zero) = 0) {v w : CVector ℝ} {n : ℕ} (hsize : min v.size w.size ≤ n) :
    ((v.toList.zip w.toList).map f).sum = ∑ i : Fin n, f (v.get i, w.get i) := by
  have hpairs : v.toList.zip w.toList =
      List.ofFn fun i : Fin (min v.size w.size) ↦ (v.get i, w.get i) := by
    refine List.ext_getElem (by simp) fun i hi hi' ↦ ?_
    have hboth : i < v.size ∧ i < w.size := by simpa using hi
    simp [get, Array.getD, hboth.1, hboth.2]
  rw [hpairs, List.map_ofFn, List.sum_ofFn]
  show ∑ i : Fin _, f (v.get i, w.get i) = _
  rw [Fin.sum_univ_eq_sum_range (fun i ↦ f (v.get i, w.get i)),
    Fin.sum_univ_eq_sum_range (fun i ↦ f (v.get i, w.get i))]
  refine Finset.sum_subset (Finset.range_subset_range.mpr hsize) fun i _ hout ↦ ?_
  rw [Finset.mem_range, lt_min_iff, not_and_or, not_lt, not_lt] at hout
  rcases hout with hv | hw
  · rw [get_of_size_le hv, hleft]
  · rw [get_of_size_le hw, hright]

end CVector

namespace CMatrix

variable {n : ℕ} {entry : ℕ → ℕ → Cplx ℝ}

/-- The product with a state is that with its column. -/
theorem toVec_apply (w : CVector ℝ) :
    ((ofFn n n entry).apply w).toVec n = (ofFn n n entry).toMatrix n *ᵥ w.toVec n := by
  funext i
  have hrow : ((ofFn n n entry).apply w).get i =
      ((Array.ofFn fun j : Fin n ↦ entry i j).zip w).foldl
        (fun total pair ↦ total + pair.1 * pair.2) Cplx.zero := by
    simp [apply, ofFn, CVector.get, Array.getD]
  rw [CVector.toVec, hrow, CVector.toComplex_foldl_zip (fun pair ↦ pair.1 * pair.2),
    CVector.sum_zip (by simp) (by simp) (n := n) (by simp)]
  refine Finset.sum_congr rfl fun j _ ↦ ?_
  have hentry : CVector.get (Array.ofFn fun j : Fin n ↦ entry i j) j = entry i j := by
    simp [CVector.get, Array.getD]
  show (CVector.get (Array.ofFn fun j : Fin n ↦ entry i j) j * w.get j).toComplex =
    ((ofFn n n entry).get i j).toComplex * (w.get j).toComplex
  rw [hentry, get_ofFn i.isLt j.isLt, Cplx.toComplex_mul]

/-- A matrix element is that of linear algebra, whatever the sizes of the states. -/
theorem toComplex_inner_apply (v w : CVector ℝ) :
    (v.inner ((ofFn n n entry).apply w)).toComplex =
      star (v.toVec n) ⬝ᵥ ((ofFn n n entry).toMatrix n *ᵥ w.toVec n) := by
  have hsize : ((ofFn n n entry).apply w).size = n := by simp [apply, ofFn]
  rw [CVector.toComplex_inner_eq_sum, CVector.sum_zip (by simp) (by simp) (n := n) (by omega),
    ← toVec_apply]
  rfl

/-- The matrix elements of a Hermitian matrix, taken in the other order, are conjugates. -/
theorem inner_apply_conj (hhermitian : ((ofFn n n entry).toMatrix n).IsHermitian)
    (v w : CVector ℝ) :
    w.inner ((ofFn n n entry).apply v) = (v.inner ((ofFn n n entry).apply w)).conj := by
  apply Cplx.toComplex_injective
  rw [Cplx.toComplex_conj, toComplex_inner_apply, toComplex_inner_apply, star_dotProduct,
    star_mulVec, hhermitian.eq, dotProduct_mulVec]

end CMatrix

/-! ## Forward differences -/

/-- The Hamiltonian is a Hermitian matrix of the model's dimension at every point. -/
structure BandModel.IsHermitian (model : BandModel ℝ) : Prop where
  nrows_eq (k : KPoint ℝ) : (model.hamiltonian k).nrows = model.dimension
  ncols_eq (k : KPoint ℝ) : (model.hamiltonian k).ncols = model.dimension
  hermitian (k : KPoint ℝ) : ((model.hamiltonian k).toMatrix model.dimension).IsHermitian

namespace BandModel

variable {model : BandModel ℝ} (hmodel : model.IsHermitian)

include hmodel

/-- A difference of two Hamiltonians, divided by a real number, is Hermitian. -/
theorem exists_difference (k k' : KPoint ℝ) (x : ℝ) :
    ∃ entry, ((model.hamiltonian k').sub (model.hamiltonian k)).div (Cplx.ofReal x) =
        CMatrix.ofFn model.dimension model.dimension entry ∧
      ((CMatrix.ofFn model.dimension model.dimension entry).toMatrix
        model.dimension).IsHermitian := by
  set difference := (model.hamiltonian k').sub (model.hamiltonian k) with hdifference
  have hnrows : difference.nrows = model.dimension := hmodel.nrows_eq k'
  have hncols : difference.ncols = model.dimension := hmodel.ncols_eq k'
  refine ⟨fun i j ↦ difference.get i j / Cplx.ofReal x, ?_, ?_⟩
  · rw [CMatrix.div, hnrows, hncols]
  · refine Matrix.IsHermitian.ext fun i j ↦ ?_
    have hget : ∀ i j : Fin model.dimension, difference.get i j =
        (model.hamiltonian k').get i j - (model.hamiltonian k).get i j := by
      intro i j
      rw [hdifference, CMatrix.sub, hmodel.nrows_eq, hmodel.ncols_eq,
        CMatrix.get_ofFn i.isLt j.isLt]
    have hsub : ∀ z w : Cplx ℝ, (z - w).toComplex = z.toComplex - w.toComplex := fun _ _ ↦ rfl
    have hswap := (hmodel.hermitian k).apply i j
    have hswap' := (hmodel.hermitian k').apply i j
    rw [CMatrix.toMatrix_apply, CMatrix.toMatrix_apply] at hswap hswap'
    rw [CMatrix.toMatrix_apply, CMatrix.toMatrix_apply, CMatrix.get_ofFn j.isLt i.isLt,
      CMatrix.get_ofFn i.isLt j.isLt, hget, hget, Cplx.toComplex_div, Cplx.toComplex_div, hsub,
      hsub, star_div₀, star_sub, hswap, hswap', Cplx.toComplex_ofReal, Complex.star_def,
      Complex.conj_ofReal]

/-- The velocity matrix elements of two states, taken in the other order, are conjugates. -/
theorem derivatives_conj (k : KPoint ℝ) (v w : CVector ℝ) :
    w.inner ((model.derivatives k).dx.apply v) =
        (v.inner ((model.derivatives k).dx.apply w)).conj ∧
      w.inner ((model.derivatives k).dy.apply v) =
        (v.inner ((model.derivatives k).dy.apply w)).conj := by
  have hdifference : ∀ k' x, w.inner ((((model.hamiltonian k').sub (model.hamiltonian k)).div
        (Cplx.ofReal x)).apply v) =
      (v.inner ((((model.hamiltonian k').sub (model.hamiltonian k)).div
        (Cplx.ofReal x)).apply w)).conj := by
    intro k' x
    obtain ⟨entry, hentry, hhermitian⟩ := exists_difference hmodel k k' x
    rw [hentry]
    exact CMatrix.inner_apply_conj hhermitian v w
  exact ⟨hdifference _ _, hdifference _ _⟩

end BandModel

/-! ## Pairs of bands -/

section

variable {α : Type} [Scalar α]

/-- What the level `m` adds to the curvature sum of the level `n`. -/
def curvaturePair (derivatives : Derivatives α) (spectrum : Spectrum α) (n m : ℕ) : Cplx α :=
  curvatureTerm ((spectrum.state m).inner (derivatives.dx.apply (spectrum.state n)))
    ((spectrum.state m).inner (derivatives.dy.apply (spectrum.state n)))
    (spectrum.energy n - spectrum.energy m)

/-- The curvature sum of a level, over all others. -/
def curvatureSum (derivatives : Derivatives α) (spectrum : Spectrum α) (n : ℕ) : Cplx α :=
  Cplx.sum (((List.range spectrum.size).filter (· ≠ n)).map (curvaturePair derivatives spectrum n))

/-- The Berry curvature is read off the curvature sum. -/
theorem berryCurvature_eq (model : BandModel α) (solve : Solver α) (band : ℤ) (k : KPoint α) :
    berryCurvature model solve band k = (do
      let spectrum ← model.spectrum solve k
      let n ← spectrum.bandIndex band
      return (Cplx.i * curvatureSum (model.derivatives k) spectrum n).re) :=
  rfl

end

/-- What another band adds is imaginary. -/
theorem curvatureTerm_re (x y : Cplx ℝ) (gap : ℝ) : (curvatureTerm x y gap).re = 0 := by
  simp only [curvatureTerm, Cplx.divReal, Cplx.sub_re, Cplx.mul_re, Cplx.conj_re, Cplx.conj_im]
  ring

/-- It changes its sign if the two bands change their places. -/
theorem curvatureTerm_im_swap (x y : Cplx ℝ) (gap : ℝ) :
    (curvatureTerm x.conj y.conj (-gap)).im = -(curvatureTerm x y gap).im := by
  simp only [curvatureTerm, Cplx.divReal, Cplx.sub_im, Cplx.mul_im, Cplx.conj_re, Cplx.conj_im]
  ring

/-- Entries that add nothing may be left out of a sum. -/
theorem sum_filter_ne {f : ℕ → ℂ} {n : ℕ} (h : f n = 0) (entries : List ℕ) :
    ((entries.filter (· ≠ n)).map f).sum = (entries.map f).sum := by
  induction entries with
  | nil => rfl
  | cons m rest ih =>
      by_cases hm : m = n
      · simp [hm, h, ← ih]
      · simp [hm, ← ih]

/-- Sums of lists are taken as in the complex numbers. -/
theorem Cplx.toComplex_sum (terms : List (Cplx ℝ)) :
    (Cplx.sum terms).toComplex = (terms.map Cplx.toComplex).sum := by
  refine (Cplx.toComplex_foldl id terms Cplx.zero).trans ?_
  rw [Cplx.toComplex_zero, zero_add]
  rfl

section

variable {model : BandModel ℝ} (hmodel : model.IsHermitian) (k : KPoint ℝ) (spectrum : Spectrum ℝ)

include hmodel

/-- A pair of levels adds opposite amounts to the sums of the two. -/
theorem curvaturePair_im_swap (n m : ℕ) :
    (curvaturePair (model.derivatives k) spectrum m n).im =
      -(curvaturePair (model.derivatives k) spectrum n m).im := by
  obtain ⟨hx, hy⟩ := BandModel.derivatives_conj hmodel k (spectrum.state m) (spectrum.state n)
  rw [curvaturePair, hx, hy, ← neg_sub, curvatureTerm_im_swap]
  rfl

/-- The curvature sum is imaginary, and it may as well be taken over all levels: a level adds
nothing to its own. -/
theorem toComplex_curvatureSum (n : ℕ) :
    (curvatureSum (model.derivatives k) spectrum n).toComplex =
      (∑ m ∈ Finset.range spectrum.size,
        (curvaturePair (model.derivatives k) spectrum n m).im : ℝ) * Complex.I := by
  set pair := curvaturePair (model.derivatives k) spectrum n
  have hpair : ∀ m, (pair m).toComplex = ((pair m).im : ℝ) * Complex.I := by
    intro m
    have hre : (pair m).re = 0 := curvatureTerm_re _ _ _
    apply Complex.ext <;> simp [hre]
  have hself : (pair n).toComplex = 0 := by
    have hswap : (pair n).im = -(pair n).im := curvaturePair_im_swap hmodel k spectrum n n
    rw [hpair, show (pair n).im = 0 by linarith, Complex.ofReal_zero, zero_mul]
  calc (curvatureSum (model.derivatives k) spectrum n).toComplex
      = (((List.range spectrum.size).filter (· ≠ n)).map fun m ↦ (pair m).toComplex).sum := by
        rw [curvatureSum, Cplx.toComplex_sum, List.map_map]
        rfl
    _ = ((List.range spectrum.size).map fun m ↦ (pair m).toComplex).sum :=
        sum_filter_ne hself _
    _ = ∑ m ∈ Finset.range spectrum.size, (pair m).toComplex := rfl
    _ = _ := by
        rw [Complex.ofReal_sum, Finset.sum_mul]
        exact Finset.sum_congr rfl fun m _ ↦ hpair m

/-- The curvature sum is imaginary, and pairs of bands contribute to it one by one. -/
theorem curvatureSum_eq (n : ℕ) : curvatureSum (model.derivatives k) spectrum n =
    ⟨0, ∑ m ∈ Finset.range spectrum.size,
      (curvaturePair (model.derivatives k) spectrum n m).im⟩ := by
  apply Cplx.toComplex_injective
  rw [toComplex_curvatureSum hmodel k spectrum n]
  apply Complex.ext <;> simp

/-- The curvatures of all levels add up to zero. -/
theorem sum_curvaturePair :
    ∑ n ∈ Finset.range spectrum.size, ∑ m ∈ Finset.range spectrum.size,
      (curvaturePair (model.derivatives k) spectrum n m).im = 0 := by
  have hswap : ∑ n ∈ Finset.range spectrum.size, ∑ m ∈ Finset.range spectrum.size,
        (curvaturePair (model.derivatives k) spectrum m n).im =
      -∑ n ∈ Finset.range spectrum.size, ∑ m ∈ Finset.range spectrum.size,
        (curvaturePair (model.derivatives k) spectrum n m).im := by
    rw [← Finset.sum_neg_distrib]
    refine Finset.sum_congr rfl fun n _ ↦ ?_
    rw [← Finset.sum_neg_distrib]
    exact Finset.sum_congr rfl fun m _ ↦ curvaturePair_im_swap hmodel k spectrum n m
  rw [Finset.sum_comm] at hswap
  linarith

end

/-! ## The sum rule -/

/-- A sum over the bands is one over the levels. -/
theorem Spectrum.sum_bands {n : ℕ} (f : ℕ → ℝ) :
    ∑ band ∈ bands n, f (bandPosition n band) = ∑ i ∈ Finset.range n, f i := by
  have hbij := bijOn_bandPosition n
  refine Finset.sum_nbij (bandPosition n) (fun band hband ↦ ?_) hbij.injOn ?_ fun _ _ ↦ rfl
  · exact Finset.mem_range.mpr (bandPosition_lt hband)
  · rw [Finset.coe_range]
    exact hbij.surjOn

/-- The curvature sum of every band is imaginary, so that no part of it is lost, the signed numbers
of the bands name every level once, and the Berry curvatures of all bands add up to zero. Nothing is
asked of the solver: the rule holds for any levels that it returns, and a pair of levels of the same
energy adds nothing. -/
theorem curvature_sum_rule {model : BandModel ℝ} (hmodel : model.IsHermitian) {solve : Solver ℝ}
    {k : KPoint ℝ} {spectrum : Spectrum ℝ} (hspectrum : model.spectrum solve k = .ok spectrum) :
    Set.BijOn spectrum.bandIndex (Spectrum.bands spectrum.size)
        (Except.ok '' Set.Iio spectrum.size) ∧
      ∃ curvature : ℤ → ℝ,
        (∀ band ∈ Spectrum.bands spectrum.size, ∃ n, spectrum.bandIndex band = .ok n ∧
          (curvatureSum (model.derivatives k) spectrum n).re = 0 ∧
          Cplx.i * curvatureSum (model.derivatives k) spectrum n = Cplx.ofReal (curvature band) ∧
          berryCurvature model solve band k = .ok (curvature band)) ∧
        ∑ band ∈ Spectrum.bands spectrum.size, curvature band = 0 := by
  have hproduct : ∀ x : ℝ, (Cplx.i : Cplx ℝ) * ⟨0, x⟩ = Cplx.ofReal (-x) := by
    intro x
    ext <;> simp [Cplx.i]
  refine ⟨Spectrum.bijOn_bandIndex, fun band ↦ -∑ m ∈ Finset.range spectrum.size,
    (curvaturePair (model.derivatives k) spectrum (Spectrum.bandPosition spectrum.size band) m).im,
    fun band hband ↦ ?_, ?_⟩
  · have hindex := Spectrum.bandIndex_eq hband
    have hsum := curvatureSum_eq hmodel k spectrum (Spectrum.bandPosition spectrum.size band)
    refine ⟨_, hindex, by rw [hsum], by rw [hsum, hproduct], ?_⟩
    rw [berryCurvature_eq]
    refine bind_eq_ok.mpr ⟨spectrum, hspectrum, bind_eq_ok.mpr ⟨_, hindex, ?_⟩⟩
    rw [hsum, hproduct]
    rfl
  · rw [Finset.sum_neg_distrib, neg_eq_zero, ← sum_curvaturePair hmodel k spectrum]
    exact Spectrum.sum_bands fun n ↦ ∑ m ∈ Finset.range spectrum.size,
      (curvaturePair (model.derivatives k) spectrum n m).im

/-- The continuum model is Hermitian. -/
theorem Continuum.Model.isHermitian (params : Params ℝ) :
    (ofParams params).toBandModel.IsHermitian where
  nrows_eq := nrows_hamiltonian params
  ncols_eq := ncols_hamiltonian params
  hermitian := isHermitian_hamiltonian params

/-- The two bands of one wave have opposite curvatures. -/
theorem curvature_sum_rule_oneWave :
    ((Continuum.Model.ofParams (Continuum.oneWave 1)).toBandModel.IsHermitian ∧
      ∃ spectrum, (Continuum.Model.ofParams (Continuum.oneWave 1)).toBandModel.spectrum
        chiralSolver ⟨1, 2⟩ = .ok spectrum) ∧
    ∃ x : ℝ, berryCurvature (Continuum.Model.ofParams (Continuum.oneWave 1)).toBandModel
        chiralSolver 1 ⟨1, 2⟩ = .ok x ∧
      berryCurvature (Continuum.Model.ofParams (Continuum.oneWave 1)).toBandModel
        chiralSolver (-1) ⟨1, 2⟩ = .ok (-x) := by
  have hmodel := Continuum.Model.isHermitian (Continuum.oneWave 1)
  have hspectrum := Continuum.spectrum_oneWave
    (show (Continuum.oneWave 1).loopTimes = 0 from rfl) ⟨1, 2⟩
  refine ⟨⟨hmodel, _, hspectrum⟩, ?_⟩
  obtain ⟨-, curvature, hbands, hsum⟩ := curvature_sum_rule hmodel hspectrum
  have hpair : Spectrum.bands 2 = {-1, 1} := by
    ext band
    rw [Spectrum.mem_bands, Finset.mem_insert, Finset.mem_singleton]
    omega
  replace hsum : ∑ band ∈ Spectrum.bands 2, curvature band = 0 := hsum
  replace hbands : ∀ band ∈ Spectrum.bands 2, _ := hbands
  rw [hpair, Finset.sum_pair (by decide)] at hsum
  rw [hpair] at hbands
  obtain ⟨-, -, -, -, hupper⟩ := hbands 1 (by simp)
  obtain ⟨-, -, -, -, hlower⟩ := hbands (-1) (by simp)
  refine ⟨curvature 1, hupper, ?_⟩
  rw [hlower, show curvature (-1) = -curvature 1 by linarith]

end Moire
