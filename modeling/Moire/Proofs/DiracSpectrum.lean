import Mathlib
import Moire.Proofs.BandSelection
import Moire.Proofs.DecoupledLayers

/-!
# The spectrum of decoupled layers

Without tunnelling every wave of the continuum model is a Dirac electron on its own. The
characteristic polynomial of a matrix with blocks on the diagonal alone is the product of those of
the blocks, `CMatrix.charpoly_eq_prod_block`, so the energies are those of all cones,
`Continuum.exists_diracSpectrum`. They lie symmetrically about zero, and the lowest conduction band
is the lowest of the cones, `Continuum.exists_lowestCone`. At the corner of the zone this is the tip
of a cone, and at the midpoint of its side no wave is closer to its valley than half a unit, so the
slope between the two is the velocity that the model was given: `Continuum.decoupled_dirac`.
-/

namespace Moire

open Matrix Polynomial RealScalar

/-! ## Matrices of blocks on the diagonal -/

/-- The characteristic polynomial of a block diagonal is the product over the blocks. -/
theorem charpoly_blockDiagonal {ι κ : Type} [Fintype ι] [DecidableEq ι] [Fintype κ] [DecidableEq κ]
    (m : κ → Matrix ι ι ℂ) : (blockDiagonal m).charpoly = ∏ i, (m i).charpoly := by
  have hcharmatrix : (blockDiagonal m).charmatrix = blockDiagonal fun i ↦ (m i).charmatrix := by
    ext ⟨s, i⟩ ⟨t, j⟩ : 2
    by_cases hij : i = j
    · subst hij
      simp [charmatrix_apply, blockDiagonal_apply, diagonal_apply]
    · simp [blockDiagonal_apply, hij]
  rw [charpoly, hcharmatrix, det_blockDiagonal]
  rfl

/-- The components of the waves, those of one wave next to each other. -/
def componentEquiv (n : ℕ) : Fin 2 × Fin n ≃ Fin (2 * n) :=
  (Equiv.prodComm _ _).trans (finProdFinEquiv.trans (finCongr (Nat.mul_comm n 2)))

/-- The components of a wave stand side by side. -/
theorem val_componentEquiv (n : ℕ) (s : Fin 2) (i : Fin n) :
    (componentEquiv n (s, i)).val = 2 * i + s := by
  show (s : ℕ) + 2 * i = 2 * i + s
  omega

/-- The energies of a matrix of blocks on the diagonal are those of the blocks. -/
theorem CMatrix.charpoly_eq_prod_block {h : CMatrix ℝ} {n : ℕ}
    (hzero : ∀ i j, i < n → j < n → i ≠ j → h.block i j = 0) :
    (h.toMatrix (2 * n)).charpoly = ∏ i : Fin n, (h.block i i).charpoly := by
  have hmatrix : h.toMatrix (2 * n) = reindex (componentEquiv n) (componentEquiv n)
      (blockDiagonal fun i : Fin n ↦ h.block i i) := by
    ext a b
    obtain ⟨⟨s, i⟩, rfl⟩ := (componentEquiv n).surjective a
    obtain ⟨⟨t, j⟩, rfl⟩ := (componentEquiv n).surjective b
    have hentry : h.toMatrix (2 * n) (componentEquiv n (s, i)) (componentEquiv n (t, j)) =
        h.block i j s t := by
      rw [toMatrix_apply, val_componentEquiv, val_componentEquiv, block, of_apply]
    rw [hentry, reindex_apply, submatrix_apply, Equiv.symm_apply_apply, Equiv.symm_apply_apply,
      blockDiagonal_apply]
    by_cases hij : i = j
    · rw [if_pos hij, hij]
    · rw [if_neg hij, hzero i j i.isLt j.isLt fun heq ↦ hij (Fin.ext heq)]
      rfl
  rw [hmatrix, charpoly_reindex, charpoly_blockDiagonal]

/-! ## Spectra that are symmetric about zero -/

namespace Spectrum

/-- If the energies come in pairs of opposite sign, the lowest level above half filling is the
smallest of those that are not negative. -/
theorem energy_mid_of_mirrored {spectrum : Spectrum ℝ} {cones : List ℝ}
    (hsorted : spectrum.energies.Pairwise (· ≤ ·))
    (hperm : spectrum.energies.Perm (cones.map Neg.neg ++ cones)) (hnonneg : ∀ x ∈ cones, 0 ≤ x)
    {lowest : ℝ} (hmem : lowest ∈ cones) (hle : ∀ x ∈ cones, lowest ≤ x) :
    spectrum.energy spectrum.mid = lowest := by
  set upper := Number.sortBy id cones with hupper
  have hcones : upper.Perm cones := Number.sortBy_perm id cones
  have hascending : upper.Pairwise (· ≤ ·) := Number.sortBy_sorted id cones
  have henergies : spectrum.energies = (upper.map Neg.neg).reverse ++ upper := by
    refine List.Perm.eq_of_pairwise (fun _ _ _ _ hab hba ↦ le_antisymm hab hba) hsorted
      (pairwise_mirrored hascending fun x hx ↦ hnonneg x (hcones.mem_iff.mp hx)) ?_
    exact hperm.trans (((List.reverse_perm _).trans (hcones.map _)).append hcones).symm
  have hsize : spectrum.size = upper.length + upper.length := by
    have hlength := congrArg List.length henergies
    simpa [energies, size] using hlength
  -- The middle of the spectrum is where the numbers that are not negative begin.
  have hpositive : 0 < upper.length := List.length_pos_of_mem (hcones.mem_iff.mpr hmem)
  have hmid : spectrum.mid = upper.length := by
    rw [mid, hsize]
    omega
  have hfirst : spectrum.energies[spectrum.mid]? = upper[0]? := by
    rw [henergies, hmid, List.getElem?_append_right (by simp)]
    simp
  rw [energies_getElem? (by omega), List.getElem?_eq_getElem hpositive, Option.some_inj] at hfirst
  rw [hfirst]
  refine le_antisymm ?_ (hle _ (hcones.mem_iff.mp (List.getElem_mem hpositive)))
  obtain ⟨i, hi, heq⟩ := List.getElem_of_mem (hcones.mem_iff.mpr hmem)
  rw [← heq]
  rcases Nat.eq_zero_or_pos i with rfl | hpos
  · exact le_rfl
  · exact List.pairwise_iff_getElem.mp hascending 0 i hpositive hi hpos

end Spectrum

namespace Continuum

/-! ## Cones -/

/-- The product of the two entries of a Dirac matrix is the squared length of the momentum. -/
theorem diracMatrix_mul (p : KPoint ℝ) (angle : ℝ) :
    diracMatrix p angle 0 1 * diracMatrix p angle 1 0 = (p.normSq : ℝ) := by
  have hphase : Complex.exp (-(angle * Complex.I)) * Complex.exp (angle * Complex.I) = 1 := by
    rw [← Complex.exp_add, neg_add_cancel, Complex.exp_zero]
  show Complex.exp (-(angle * Complex.I)) * (p.x - p.y * Complex.I) *
    (Complex.exp (angle * Complex.I) * (p.x + p.y * Complex.I)) = ((p.x * p.x + p.y * p.y : ℝ) : ℂ)
  push_cast
  linear_combination (p.x - p.y * Complex.I) * (p.x + p.y * Complex.I) * hphase -
    p.y ^ 2 * Complex.I_sq

/-- The characteristic polynomial of the Dirac matrix of a momentum. -/
theorem charpoly_diracMatrix (epsilon : ℝ) (p : KPoint ℝ) (angle : ℝ) :
    ((epsilon : ℂ) • diracMatrix p angle).charpoly =
      X ^ 2 - C ((epsilon ^ 2 * p.normSq : ℝ) : ℂ) := by
  have hdiagonal : diracMatrix p angle 0 0 = 0 ∧ diracMatrix p angle 1 1 = 0 := ⟨rfl, rfl⟩
  have hdet : ((epsilon : ℂ) • diracMatrix p angle).det =
      -((epsilon ^ 2 * p.normSq : ℝ) : ℂ) := by
    rw [det_smul, det_fin_two, hdiagonal.1, diracMatrix_mul, Fintype.card_fin]
    push_cast
    ring
  have htrace : ((epsilon : ℂ) • diracMatrix p angle).trace = 0 := by
    rw [trace_smul, trace_fin_two, hdiagonal.1, hdiagonal.2, add_zero, smul_zero]
  rw [charpoly_fin_two, htrace, hdet, C_0, zero_mul, sub_zero, C_neg, sub_eq_add_neg]

/-- The energies of the cones of waves at a point, two of opposite sign for each wave. -/
noncomputable def diracEnergies (params : Params ℝ) (k : KPoint ℝ) (waves : List PlaneWave) :
    List ℝ :=
  waves.flatMap fun u ↦ [-coneHeight params k u, coneHeight params k u]

/-- The energies of the cones are their heights, each with both signs. -/
theorem diracEnergies_perm (params : Params ℝ) (k : KPoint ℝ) (waves : List PlaneWave) :
    (diracEnergies params k waves).Perm
      ((waves.map (coneHeight params k)).map Neg.neg ++ waves.map (coneHeight params k)) := by
  have hperm := List.map_append_flatMap_perm waves (fun u ↦ -coneHeight params k u)
    fun u ↦ [coneHeight params k u]
  rw [List.map_map, ← List.flatMap_singleton' (waves.map (coneHeight params k)), List.flatMap_map]
  exact hperm.symm

/-- The polynomial of a cone has its two energies as zeros. -/
theorem cone_factors (params : Params ℝ) (k : KPoint ℝ) (u : PlaneWave) :
    X ^ 2 - C ((params.epsilon ^ 2 * (momentum k u).normSq : ℝ) : ℂ) =
      (X - C ((-coneHeight params k u : ℝ) : ℂ)) * (X - C ((coneHeight params k u : ℝ) : ℂ)) := by
  have hnonneg : 0 ≤ (momentum k u).normSq :=
    add_nonneg (mul_self_nonneg _) (mul_self_nonneg _)
  have hsquare : params.epsilon ^ 2 * (momentum k u).normSq =
      coneHeight params k u * coneHeight params k u := by
    have hnorm : (momentum k u).norm * (momentum k u).norm = (momentum k u).normSq :=
      Real.mul_self_sqrt hnonneg
    rw [coneHeight, ← hnorm]
    ring
  rw [hsquare]
  push_cast
  rw [C_neg, C_mul]
  ring

/-- The matrix has a two-by-two block for every wave, with the levels of a cone, and nothing beside
them. -/
structure IsDiracTable (params : Params ℝ) (k : KPoint ℝ) (waves : List PlaneWave)
    (h : CMatrix ℝ) : Prop where
  nrows : h.nrows = 2 * waves.length
  ncols : h.ncols = 2 * waves.length
  charpoly {i : ℕ} {u : PlaneWave} (hi : waves[i]? = some u) : (h.block i i).charpoly =
    X ^ 2 - C ((params.epsilon ^ 2 * (momentum k u).normSq : ℝ) : ℂ)
  zero {i j : ℕ} (hi : i < waves.length) (hj : j < waves.length) (hij : i ≠ j) : h.block i j = 0

/-- Without coupling a block table is made of Dirac matrices alone. -/
theorem IsBlockTable.isDiracTable {params : Params ℝ} {k : KPoint ℝ} {waves : List PlaneWave}
    {h : CMatrix ℝ} (htable : IsBlockTable params k waves h)
    (hcoupling : params.interlayerCoupling = 0) : IsDiracTable params k waves h where
  nrows := htable.nrows
  ncols := htable.ncols
  charpoly hi := by rw [htable.dirac hi, charpoly_diracMatrix]
  zero hi hj hij := block_eq_zero hcoupling htable hi hj hij

/-- The characteristic polynomial of decoupled layers has the energies of all cones as zeros. -/
theorem IsDiracTable.charpoly_eq {params : Params ℝ} {k : KPoint ℝ} {waves : List PlaneWave}
    {h : CMatrix ℝ} (htable : IsDiracTable params k waves h) :
    (h.toMatrix h.nrows).charpoly =
      ((diracEnergies params k waves).map fun x : ℝ ↦ X - C (x : ℂ)).prod := by
  set factors : PlaneWave → ℂ[X] := fun u ↦
    (X - C ((-coneHeight params k u : ℝ) : ℂ)) * (X - C ((coneHeight params k u : ℝ) : ℂ))
    with hfactors
  have hblock : ∀ i : Fin waves.length, (h.block i i).charpoly = factors waves[i.val] := by
    intro i
    rw [htable.charpoly (List.getElem?_eq_getElem i.isLt), cone_factors]
  calc (h.toMatrix h.nrows).charpoly
      = ∏ i : Fin waves.length, (h.block i i).charpoly := by
        rw [htable.nrows, CMatrix.charpoly_eq_prod_block fun i j hi hj hij ↦ htable.zero hi hj hij]
    _ = (waves.map factors).prod := by
        rw [Finset.prod_congr rfl fun i _ ↦ hblock i, ← List.prod_ofFn, List.ofFn_getElem_eq_map]
    _ = ((diracEnergies params k waves).map fun x : ℝ ↦ X - C (x : ℂ)).prod := by
        rw [diracEnergies, List.map_flatMap, List.flatMap, List.prod_flatten, List.map_map]
        simp [Function.comp_def, hfactors]

/-! ## The lowest cone -/

/-- The origin is in every basis. -/
theorem origin_mem_grow (rounds : ℕ) : .origin ∈ (Basis.grow rounds).toList :=
  (Basis.mem_toList _).mpr ((Basis.grow_contains rounds .origin).mpr (Nat.zero_le rounds))

/-- At the corner of the zone the cone of the wave at the valley has its tip. -/
theorem norm_momentum_kBottom : (momentum kBottom .origin).norm = 0 := by
  rw [momentum_origin, Vec2.norm, Vec2.normSq, Vec2.sub_x, Vec2.sub_y, sub_self, sub_self]
  simp

/-- The squared momentum of a wave at the middle of the edge. -/
theorem normSq_momentum_mPoint (u : PlaneWave) : (momentum mPoint u).normSq =
    3 / 4 * (u.m - u.n) ^ 2 + (3 / 2 * (u.m + u.n) - (valley u.layer : KPoint ℝ).y) ^ 2 := by
  have hpoint : (mPoint : KPoint ℝ) = ⟨√3 / 2 * -1, 0⟩ := by
    rw [mPoint_eq, mul_neg_one]
  rw [hpoint, normSq_momentum]
  ring

/-- At the midpoint of the side no wave of either layer is closer to its valley than half a unit. -/
theorem half_le_norm_mPoint (u : PlaneWave) : 1 / 2 ≤ (momentum mPoint u).norm := by
  -- Along the side the distance is half a whole number that is not a multiple of three.
  obtain ⟨z, hz, hy⟩ : ∃ z : ℤ, z ≠ 0 ∧
      3 / 2 * (u.m + u.n : ℝ) - (valley u.layer : KPoint ℝ).y = z / 2 := by
    cases u.layer with
    | bottom =>
        refine ⟨3 * (u.m + u.n) + 1, by omega, ?_⟩
        rw [valley, kBottom_eq]
        push_cast
        ring
    | top =>
        refine ⟨3 * (u.m + u.n) - 1, by omega, ?_⟩
        rw [valley, kTop_eq]
        push_cast
        ring
  have hone : (1 : ℝ) ≤ (z : ℝ) ^ 2 := by
    exact_mod_cast (one_le_sq_iff_one_le_abs z).mpr (Int.one_le_abs hz)
  rw [Vec2.norm, sqrt_eq, Real.le_sqrt' one_half_pos, normSq_momentum_mPoint, hy]
  nlinarith [sq_nonneg (u.m - u.n : ℝ)]

/-- At the middle of the edge the origin is half a unit away from its valley. -/
theorem norm_momentum_mPoint : (momentum mPoint .origin).norm = 1 / 2 := by
  rw [Vec2.norm, normSq_momentum_mPoint, sqrt_eq, Real.sqrt_eq_iff_mul_self_eq_of_pos one_half_pos]
  norm_num [PlaneWave.origin, valley, kBottom_eq]

/-! ## Spectra and the velocity -/

/-- The slope of a cone is the Fermi velocity of a single layer. -/
theorem velocity_cone {params : Params ℝ} (hvalid : params.validate = .ok ()) {length : ℝ}
    (hlength : 0 < length) :
    Constants.velocity (params.epsilon * length) (length * params.kMoire) =
      params.fermiVelocity := by
  obtain ⟨-, hvelocity, -⟩ := validate_eq_ok.mp hvalid
  set units : ℝ :=
    params.kMoire * Constants.hbar * Constants.metreToAngstrom * Constants.evToMev with hunits
  have hepsilon : params.epsilon = params.fermiVelocity * units := by
    rw [Params.epsilon, hunits]
    ring
  have hne : units ≠ 0 := right_ne_zero_of_mul (hepsilon ▸ (epsilon_pos hvalid).ne')
  have hslope : params.epsilon * length / (length * params.kMoire * Constants.hbar *
      Constants.metreToAngstrom * Constants.evToMev) = params.fermiVelocity := by
    rw [show length * params.kMoire * Constants.hbar * Constants.metreToAngstrom *
      Constants.evToMev = units * length by rw [hunits]; ring, hepsilon, mul_assoc,
      mul_div_assoc, div_self (mul_ne_zero hne hlength.ne'), mul_one]
  show |_| = _
  rw [hslope, abs_of_pos hvelocity]

section

variable {params : Params ℝ} {model : Model ℝ} (hmodel : Model.create params = .ok model)
  (hcoupling : params.interlayerCoupling = 0)

include hmodel hcoupling

/-- The Hamiltonian without coupling is made of Dirac matrices alone. -/
theorem isDiracTable_hamiltonian (k : KPoint ℝ) :
    IsDiracTable params k model.basis.toList (model.hamiltonian k) := by
  obtain ⟨-, rfl⟩ := Model.create_eq_ok.mp hmodel
  exact (isBlockTable_hamiltonian params k).isDiracTable hcoupling

/-- The energies at a point are those of all cones, in ascending order. -/
theorem exists_diracSpectrum {solve : Solver ℝ} {k : KPoint ℝ}
    (hfinds : solve.FindsEnergies (model.hamiltonian k)) :
    ∃ spectrum, model.toBandModel.spectrum solve k = .ok spectrum ∧
      spectrum.energies.Pairwise (· ≤ ·) ∧
      spectrum.energies.Perm (diracEnergies params k model.basis.toList) := by
  have htable := isDiracTable_hamiltonian hmodel hcoupling k
  have hne : (model.hamiltonian k).nrows ≠ 0 := by
    obtain ⟨-, rfl⟩ := Model.create_eq_ok.mp hmodel
    have hlength := List.length_pos_of_mem (origin_mem_grow params.loopTimes)
    have hnrows : _ = 2 * (Basis.grow params.loopTimes).toList.length := htable.nrows
    omega
  obtain ⟨spectrum, hspectrum, henergies⟩ :=
    Spectrum.exists_spectrum (htable.nrows.trans htable.ncols.symm) hne hfinds
  exact ⟨spectrum, hspectrum, List.pairwise_map.mpr (Spectrum.sorted_of_ofHamiltonian hspectrum),
    Spectrum.energies_perm henergies htable.charpoly_eq⟩

/-- The lowest conduction band at a point is the cone of the wave that is closest to its valley. -/
theorem exists_lowestCone {solve : Solver ℝ} {k : KPoint ℝ}
    (hfinds : solve.FindsEnergies (model.hamiltonian k)) {u : PlaneWave}
    (hu : u ∈ model.basis.toList) (hle : ∀ v, (momentum k u).norm ≤ (momentum k v).norm) :
    ∃ spectrum, model.toBandModel.spectrum solve k = .ok spectrum ∧
      spectrum.mid = model.basis.toList.length ∧
      spectrum.energy spectrum.mid = coneHeight params k u := by
  obtain ⟨hvalid, -⟩ := Model.create_eq_ok.mp hmodel
  have hepsilon := (epsilon_pos hvalid).le
  obtain ⟨spectrum, hspectrum, hsorted, hperm⟩ := exists_diracSpectrum hmodel hcoupling hfinds
  replace hperm := hperm.trans (diracEnergies_perm params k model.basis.toList)
  have hmid : spectrum.mid = model.basis.toList.length := by
    have hlength := hperm.length_eq
    simp only [Spectrum.energies, List.length_map, List.length_append, Array.length_toList]
      at hlength
    unfold Spectrum.mid Spectrum.size
    omega
  refine ⟨spectrum, hspectrum, hmid, Spectrum.energy_mid_of_mirrored hsorted hperm ?_
    (List.mem_map_of_mem hu) ?_⟩
  · intro x hx
    obtain ⟨v, -, rfl⟩ := List.mem_map.mp hx
    exact mul_nonneg hepsilon (Real.sqrt_nonneg _)
  · intro x hx
    obtain ⟨v, -, rfl⟩ := List.mem_map.mp hx
    exact mul_le_mul_of_nonneg_left (hle v) hepsilon

/-- The slope from the corner of the zone to the midpoint of its side is that of a single layer. -/
theorem slopeVelocity_decoupled {solve : Solver ℝ}
    (hcorner : solve.FindsEnergies (model.hamiltonian kBottom))
    (hside : solve.FindsEnergies (model.hamiltonian mPoint)) :
    model.slopeVelocity solve = .ok params.fermiVelocity := by
  obtain ⟨hvalid, hparams⟩ := Model.create_eq_ok.mp hmodel
  have horigin : .origin ∈ model.basis.toList := by
    rw [hparams]
    exact origin_mem_grow params.loopTimes
  obtain ⟨first, hfirst, hmid, htip⟩ := exists_lowestCone hmodel hcoupling hcorner horigin
    fun v ↦ by
      rw [norm_momentum_kBottom]
      exact Real.sqrt_nonneg _
  obtain ⟨second, hsecond, hmid', hheight⟩ := exists_lowestCone hmodel hcoupling hside horigin
    fun v ↦ by
      rw [norm_momentum_mPoint]
      exact half_le_norm_mPoint v
  refine bind_eq_ok.mpr ⟨first, hfirst, bind_eq_ok.mpr ⟨second, hsecond, congrArg Except.ok ?_⟩⟩
  rw [← hmid.trans hmid'.symm] at hheight
  have hlength : (mPoint - kBottom : KPoint ℝ).norm = 1 / 2 := by
    rw [← momentum_origin, norm_momentum_mPoint]
  have hmoire : model.kMoire = params.kMoire := by
    rw [hparams]
    rfl
  rw [htip, hheight, coneHeight, coneHeight, norm_momentum_kBottom, norm_momentum_mPoint, mul_zero,
    sub_zero, hlength, hmoire, velocity_cone hvalid one_half_pos]

end

/-- Without tunnelling the Hamiltonian of a continuum model has a block for every wave of its basis
and nothing beside them. The levels of a block are those of a cone over the valley of the wave. A
solver that finds the energies gives the energies of all cones in ascending order, and the velocity
of the model is that of a single layer. -/
theorem decoupled_dirac {params : Params ℝ} {model : Model ℝ}
    (hmodel : Model.create params = .ok model) (hcoupling : params.interlayerCoupling = 0)
    (solve : Solver ℝ) :
    (∀ k, IsDiracTable params k model.basis.toList (model.hamiltonian k) ∧
      (solve.FindsEnergies (model.hamiltonian k) →
        ∃ spectrum, model.toBandModel.spectrum solve k = .ok spectrum ∧
          spectrum.energies.Pairwise (· ≤ ·) ∧
          spectrum.energies.Perm (model.basis.toList.flatMap fun u ↦
            [-(params.epsilon * (momentum k u).norm), params.epsilon * (momentum k u).norm]))) ∧
    (solve.FindsEnergies (model.hamiltonian kBottom) →
      solve.FindsEnergies (model.hamiltonian mPoint) →
      model.slopeVelocity solve = .ok params.fermiVelocity) :=
  ⟨fun k ↦ ⟨isDiracTable_hamiltonian hmodel hcoupling k, exists_diracSpectrum hmodel hcoupling⟩,
    slopeVelocity_decoupled hmodel hcoupling⟩

/-- The levels of the waves are all levels of decoupled layers. -/
theorem findsEnergies_coneSolver {params : Params ℝ} (hvalid : params.validate = .ok ())
    (hcoupling : params.interlayerCoupling = 0) (k : KPoint ℝ) :
    coneSolver.FindsEnergies ((Model.ofParams params).hamiltonian k) := by
  have htable := isBlockTable_hamiltonian params k
  set waves := (Basis.grow params.loopTimes).toList
  set h := (Model.ofParams params).hamiltonian k
  have hhalf : h.nrows / 2 = waves.length := by
    rw [htable.nrows, Nat.mul_div_cancel_left _ two_pos]
  have henergies : ∀ sign : ℝ, (List.range waves.length).map (fun i ↦ (coneLevel h i sign).energy) =
      waves.map fun u ↦ sign * coneHeight params k u := by
    intro sign
    refine List.ext_getElem (by simp) fun i hi hi' ↦ ?_
    have hwave := List.getElem?_eq_getElem (by simpa using hi' : i < waves.length)
    rw [List.getElem_map, List.getElem_map, List.getElem_range,
      energy_coneLevel htable (epsilon_pos hvalid).le hwave]
  refine ⟨_, rfl, ?_⟩
  set levels := (List.range (h.nrows / 2)).reverse.map (coneLevel h · (-1)) ++
    (List.range (h.nrows / 2)).map (coneLevel h · 1) with hlevels
  have hperm : (levels.map Level.energy).Perm (diracEnergies params k waves) := by
    refine List.Perm.trans ?_ (diracEnergies_perm params k waves).symm
    rw [hlevels, hhalf, List.map_append, List.map_map, List.map_map, List.map_map]
    refine (((List.reverse_perm _).map _).trans (.of_eq ?_)).append (.of_eq ?_)
    · refine (henergies (-1)).trans (List.map_congr_left fun u _ ↦ ?_)
      exact neg_one_mul _
    · refine (henergies 1).trans (List.map_congr_left fun u _ ↦ ?_)
      exact one_mul _
  rw [CMatrix.HasEnergies, (htable.isDiracTable hcoupling).charpoly_eq,
    ← (hperm.map fun x : ℝ ↦ X - C (x : ℂ)).prod_eq, List.map_map]
  rfl

/-- A model of ten waves in two rounds, at an angle of sixty degrees. -/
theorem decoupled_dirac_ten :
    ∃ model : Model ℝ, Model.create ⟨60, 3, 0, 1, 2, 1⟩ = .ok model ∧ model.basis.size = 10 ∧
      coneSolver.FindsEnergies (model.hamiltonian kBottom) ∧
      coneSolver.FindsEnergies (model.hamiltonian mPoint) ∧
      model.slopeVelocity coneSolver = .ok 3 := by
  have hvalid : (⟨60, 3, 0, 1, 2, 1⟩ : Params ℝ).validate = .ok () :=
    validate_eq_ok.mpr (by norm_num)
  have hmodel : Model.create (⟨60, 3, 0, 1, 2, 1⟩ : Params ℝ) =
      .ok (.ofParams ⟨60, 3, 0, 1, 2, 1⟩) := Model.create_eq_ok.mpr ⟨hvalid, rfl⟩
  have hfinds := findsEnergies_coneSolver hvalid rfl
  exact ⟨_, hmodel, rfl, hfinds kBottom, hfinds mPoint,
    (decoupled_dirac hmodel rfl coneSolver).2 (hfinds kBottom) (hfinds mPoint)⟩

end Continuum

end Moire
