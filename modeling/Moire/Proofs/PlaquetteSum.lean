import Mathlib
import Moire.Berry.Chern
import Moire.LatticeModel
import Moire.Proofs.BandGauge
import Moire.Proofs.Evaluation

/-!
# The plaquette sum is an integer

The links of a grid are unit complex numbers, and the product of all plaquettes telescopes to the
links of the boundary, `prod_plaquettes`. Opposite sides of the boundary carry the same states up to
phases, which cancel around the torus, `prod_plaquettes_eq_one`. The phases around the plaquettes
therefore add up to whole turns, `exists_int_sum_arg`. `plaquette_integer` is the conclusion for the
program: where the grid fits into memory, the Chern number is returned and is an integer.
-/

namespace Moire

open Matrix RealScalar Finset Polynomial

/-! ## Links of a torus -/

section

variable {G : Type} [CommGroup G]

/-- The product of the four links around a plaquette, as they are taken. -/
def plaquetteOf (U₁ U₂ : ℕ → ℕ → G) (i j : ℕ) : G :=
  U₁ i j * U₂ (i + 1) j / (U₁ i (j + 1) * U₂ i j)

/-- The links inside a grid cancel. -/
theorem prod_plaquettes (n : ℕ) (U₁ U₂ : ℕ → ℕ → G) :
    ∏ i ∈ range n, ∏ j ∈ range n, plaquetteOf U₁ U₂ i j =
      (∏ i ∈ range n, U₁ i 0 / U₁ i n) * ∏ j ∈ range n, U₂ n j / U₂ 0 j := by
  -- The first links cancel along the columns of cells, the second ones along the rows.
  have hsplit : ∀ i j, plaquetteOf U₁ U₂ i j =
      U₁ i j / U₁ i (j + 1) * (U₂ (i + 1) j / U₂ i j) := fun i j ↦ mul_div_mul_comm _ _ _ _
  simp only [hsplit, prod_mul_distrib]
  congr 1
  · exact prod_congr rfl fun i _ ↦ prod_range_div' (U₁ i) n
  · rw [prod_comm]
    exact prod_congr rfl fun j _ ↦ prod_range_div (fun i ↦ U₂ i j) n

/-- Around a torus all links cancel. -/
theorem prod_plaquettes_eq_one {n : ℕ} {U₁ U₂ : ℕ → ℕ → G} (c e : ℕ → G)
    (hc : ∀ i < n, U₁ i n = (c i)⁻¹ * c (i + 1) * U₁ i 0)
    (he : ∀ j < n, U₂ n j = (e j)⁻¹ * e (j + 1) * U₂ 0 j) (hcorner : c n * e 0 = e n * c 0) :
    ∏ i ∈ range n, ∏ j ∈ range n, plaquetteOf U₁ U₂ i j = 1 := by
  have hfirst : ∏ i ∈ range n, U₁ i 0 / U₁ i n = c 0 / c n := by
    rw [← prod_range_div' c n]
    refine prod_congr rfl fun i hi ↦ ?_
    rw [hc i (mem_range.mp hi), div_mul_cancel_right, mul_inv, inv_inv, div_eq_mul_inv]
  have hsecond : ∏ j ∈ range n, U₂ n j / U₂ 0 j = e n / e 0 := by
    rw [← prod_range_div e n]
    refine prod_congr rfl fun j hj ↦ ?_
    rw [he j (mem_range.mp hj), mul_div_cancel_right, div_eq_mul_inv, mul_comm]
  rw [prod_plaquettes, hfirst, hsecond, div_mul_div_comm, mul_comm (c 0), ← hcorner,
    div_self']

end

/-- Phases whose product is one add up to whole turns. -/
theorem exists_int_sum_arg {ι : Type} {s : Finset ι} {z : ι → Circle} (h : ∏ i ∈ s, z i = 1) :
    ∃ turns : ℤ, ∑ i ∈ s, Complex.arg (z i) = turns * (2 * Real.pi) := by
  have hexp : Circle.exp (∑ i ∈ s, Complex.arg (z i)) = ∏ i ∈ s, z i := by
    clear h
    induction s using Finset.cons_induction with
    | empty => exact Circle.exp_zero
    | cons i s hi ih => rw [sum_cons, prod_cons, Circle.exp_add, Circle.exp_arg, ih]
  exact Circle.exp_eq_one.mp (hexp.trans h)

/-! ## The corners of a grid -/

/-- The point with integer coordinates along the `n`-th parts of two vectors. -/
noncomputable def refinedPoint (v₁ v₂ : KPoint ℝ) (n : ℕ) (a b : ℤ) : KPoint ℝ :=
  (v₁ * (a : ℝ) + v₂ * (b : ℝ)) / (n : ℝ)

/-- The two vectors can change places. -/
theorem refinedPoint_swap (v₁ v₂ : KPoint ℝ) (n : ℕ) (a b : ℤ) :
    refinedPoint v₁ v₂ n a b = refinedPoint v₂ v₁ n b a := by
  ext <;> simp only [refinedPoint, Vec2.add_x, Vec2.add_y, Vec2.mul_x, Vec2.mul_y, Vec2.div_x,
    Vec2.div_y] <;> ring

/-- A step along the first vector. -/
theorem refinedPoint_add_first (v₁ v₂ : KPoint ℝ) (n : ℕ) (a b : ℤ) :
    refinedPoint v₁ v₂ n a b + v₁ / (n : ℝ) = refinedPoint v₁ v₂ n (a + 1) b := by
  ext <;> simp only [refinedPoint, Vec2.add_x, Vec2.add_y, Vec2.mul_x, Vec2.mul_y, Vec2.div_x,
    Vec2.div_y] <;> push_cast <;> ring

/-- A step along the second vector. -/
theorem refinedPoint_add_second (v₁ v₂ : KPoint ℝ) (n : ℕ) (a b : ℤ) :
    refinedPoint v₁ v₂ n a b + v₂ / (n : ℝ) = refinedPoint v₁ v₂ n a (b + 1) := by
  rw [refinedPoint_swap, refinedPoint_add_first, refinedPoint_swap]

/-- The corner of the cells of a grid with given coordinates, in cells. -/
noncomputable def corner (v₁ v₂ : KPoint ℝ) (n i j : ℕ) : KPoint ℝ :=
  v₁ * (i / n : ℝ) + v₂ * (j / n : ℝ)

section

variable (v₁ v₂ : KPoint ℝ) (n i j : ℕ)

/-- The corners are points of the refined lattice. -/
theorem corner_eq_refinedPoint : corner v₁ v₂ n i j = refinedPoint v₁ v₂ n i j := by
  ext <;> simp only [corner, refinedPoint, Vec2.add_x, Vec2.add_y, Vec2.mul_x, Vec2.mul_y,
    Vec2.div_x, Vec2.div_y, Int.cast_natCast] <;> ring

/-- A step along the first vector leads to the next row. -/
theorem corner_add_first : corner v₁ v₂ n i j + v₁ / (n : ℝ) = corner v₁ v₂ n (i + 1) j := by
  rw [corner_eq_refinedPoint, corner_eq_refinedPoint, refinedPoint_add_first, Nat.cast_succ]

/-- A step along the second vector leads to the next column. -/
theorem corner_add_second : corner v₁ v₂ n i j + v₂ / (n : ℝ) = corner v₁ v₂ n i (j + 1) := by
  rw [corner_eq_refinedPoint, corner_eq_refinedPoint, refinedPoint_add_second, Nat.cast_succ]

/-- The two vectors can change places. -/
theorem corner_swap : corner v₁ v₂ n i j = corner v₂ v₁ n j i := by
  rw [corner_eq_refinedPoint, corner_eq_refinedPoint, refinedPoint_swap]

variable {n} (hn : n ≠ 0)

include hn

/-- The last corners of the rows are the first ones, one step of the zone away. -/
theorem corner_last_first : corner v₁ v₂ n n j = corner v₁ v₂ n 0 j + v₁ := by
  have hone : (n : ℝ) / n = 1 := div_self (Nat.cast_ne_zero.mpr hn)
  ext <;> simp only [corner, Vec2.add_x, Vec2.add_y, Vec2.mul_x, Vec2.mul_y, hone, Nat.cast_zero]
    <;> ring

/-- The last corners of the columns are the first ones, one step of the zone away. -/
theorem corner_last_second : corner v₁ v₂ n i n = corner v₁ v₂ n i 0 + v₂ := by
  rw [corner_swap, corner_last_first v₂ v₁ i hn, corner_swap]

end

/-- The grid consists of the first corners of the cells. -/
theorem uniformGrid_eq {v₁ v₂ : KPoint ℝ} {n : ℕ} (hroom : n * n * pointSize < memoryLimit) :
    uniformGrid v₁ v₂ n = .ok ((List.range n ×ˢ List.range n).map fun cell ↦
      corner v₁ v₂ n cell.1 cell.2) := by
  have hcount : n * n < countLimit := by
    unfold memoryLimit pointSize at hroom
    unfold countLimit
    omega
  refine bind_eq_ok.mpr ⟨n * n, mulCount_eq_ok hcount, bind_eq_ok.mpr ⟨(), reserve_eq_ok hroom, ?_⟩⟩
  refine congrArg Except.ok ?_
  show _ = ((List.range n).flatMap fun i ↦ (List.range n).map (Prod.mk i)).map _
  rw [List.map_flatMap]
  simp only [List.map_map]
  rfl

/-- There is no grid of more points than memory can hold. -/
theorem uniformGrid_eq_fault {v₁ v₂ : KPoint ℝ} {n : ℕ}
    (hroom : memoryLimit ≤ n * n * pointSize) :
    uniformGrid v₁ v₂ n = breakDown
      (if countLimit ≤ n * n then .overflow .multiply else .capacityOverflow) := by
  unfold uniformGrid
  -- The points are counted before memory is asked for, so that this fault comes first.
  by_cases hcount : countLimit ≤ n * n
  · rw [if_pos hcount, mulCount, if_neg (not_lt.mpr hcount)]
    rfl
  · rw [if_neg hcount, mulCount_eq_ok (not_le.mp hcount)]
    show (reserve (n * n) pointSize >>= fun _ ↦ _) = _
    rw [reserve, if_neg (not_lt.mpr hroom)]
    rfl

/-- Over the reals the sum of a list is the usual one. -/
theorem sum_eq (values : List ℝ) : Number.sum values = values.sum := by
  unfold Number.sum
  rw [List.sum_eq_foldl, zero_eq, neg_zero]

/-! ## Links of states -/

/-- The least overlap that is accepted is positive. -/
theorem overlapThreshold_pos : (0 : ℝ) < overlapThreshold := by
  unfold overlapThreshold
  norm_num

/-- The link of two states is the direction of their overlap. -/
theorem link_eq_ok {n : ℕ} {a b : CVector ℝ} (ha : a.size = n) (hb : b.size = n)
    (hoverlap : overlapThreshold ≤ (a.inner b).norm) :
    ∃ z, link a b = .ok z ∧ z.toComplex = unitPart (star (a.toVec n) ⬝ᵥ b.toVec n) ∧
      star (a.toVec n) ⬝ᵥ b.toVec n ≠ 0 := by
  have hne : star (a.toVec n) ⬝ᵥ b.toVec n ≠ 0 := by
    rw [← CVector.toComplex_inner ha hb, ← norm_ne_zero_iff, ← Cplx.norm_eq]
    exact (overlapThreshold_pos.trans_le hoverlap).ne'
  refine ⟨(a.inner b).divReal (a.inner b).norm, ?_, ?_, hne⟩
  · exact if_neg fun hlt ↦ absurd (of_decide_eq_true hlt) (not_lt.mpr hoverlap)
  · rw [coe_unitPart hne, Cplx.toComplex_divReal, Cplx.norm_eq, CVector.toComplex_inner ha hb]

/-- The direction of the overlap of two columns. -/
noncomputable def overlapPhase {m : ℕ} (x y : Fin m → ℂ) : Circle := unitPart (star x ⬝ᵥ y)

section

variable {m n : ℕ} {d d₁ d₂ : Fin m → ℂ}

/-- Phases of two states come out of the phase of their overlap, the first one inverted. -/
theorem overlapPhase_gauge (hd : ∀ j, ‖d j‖ = 1) (c c' : Circle) {x y : Fin m → ℂ}
    (hne : star x ⬝ᵥ y ≠ 0) :
    overlapPhase (gauge c d x) (gauge c' d y) = c⁻¹ * c' * overlapPhase x y := by
  rw [overlapPhase, inner_gauge hd, unitPart_mul _ hne, overlapPhase]

/-- The two ways across the zone to its last corner need the same phases. -/
theorem phases_eq_of_gauge {c c' e e' : Circle} {x : Fin m → ℂ} (hd₁ : ∀ j, ‖d₁ j‖ = 1)
    (hd₂ : ∀ j, ‖d₂ j‖ = 1) (hx : x ≠ 0)
    (h : gauge c d₂ (gauge e d₁ x) = gauge e' d₁ (gauge c' d₂ x)) : c * e = e' * c' := by
  obtain ⟨j, hj⟩ := Function.ne_iff.mp hx
  have hone : d₁ j * d₂ j * x j ≠ 0 := by
    refine mul_ne_zero (mul_ne_zero ?_ ?_) hj <;> rw [← norm_ne_zero_iff]
    · simp [hd₁ j]
    · simp [hd₂ j]
  have hentry := congrFun h j
  simp only [gauge] at hentry
  apply Circle.ext
  rw [Circle.coe_mul, Circle.coe_mul]
  refine mul_right_cancel₀ hone ?_
  linear_combination hentry

/-- States on a torus: those on the last row and on the last column are the moved states of the
first row and of the first column. The phases around the cells then multiply to one. -/
theorem prod_overlapPhases {u : ℕ → ℕ → Fin m → ℂ} {c e : ℕ → Circle} (hd₁ : ∀ j, ‖d₁ j‖ = 1)
    (hd₂ : ∀ j, ‖d₂ j‖ = 1) (hu : u 0 0 ≠ 0)
    (hne₁ : ∀ i < n, star (u i 0) ⬝ᵥ u (i + 1) 0 ≠ 0)
    (hne₂ : ∀ j < n, star (u 0 j) ⬝ᵥ u 0 (j + 1) ≠ 0)
    (hc : ∀ i ≤ n, u i n = gauge (c i) d₂ (u i 0)) (he : ∀ j ≤ n, u n j = gauge (e j) d₁ (u 0 j)) :
    ∏ i ∈ range n, ∏ j ∈ range n, plaquetteOf (fun i j ↦ overlapPhase (u i j) (u (i + 1) j))
      (fun i j ↦ overlapPhase (u i j) (u i (j + 1))) i j = 1 := by
  refine prod_plaquettes_eq_one c e (fun i hi ↦ ?_) (fun j hj ↦ ?_) ?_
  · rw [hc i hi.le, hc (i + 1) hi, overlapPhase_gauge hd₂ _ _ (hne₁ i hi)]
  · rw [he j hj.le, he (j + 1) hj, overlapPhase_gauge hd₁ _ _ (hne₂ j hj)]
  · apply phases_eq_of_gauge hd₁ hd₂ hu
    rw [← he 0 n.zero_le, ← hc n le_rfl, ← hc 0 n.zero_le, ← he n le_rfl]

end

/-! ## The phases around the cells -/

namespace BandModel

/-- The grid resolves a band: its levels are known at all corners of the cells, the band is simple
at the points of the grid, and the overlaps along the sides of the cells do not vanish. -/
structure ResolvesBand (model : BandModel ℝ) (solve : Solver ℝ) (band : ℤ) (n : ℕ)
    (level : ℕ → ℕ → Level ℝ) : Prop where
  nrows : ∀ k, (model.hamiltonian k).nrows = model.dimension
  solves : ∀ i ≤ n, ∀ j ≤ n, model.SolvesBand solve band
    (corner model.gridVectors.1 model.gridVectors.2 n i j) (level i j)
  simple : ∀ i < n, ∀ j < n, IsSimple ((model.hamiltonian
    (corner model.gridVectors.1 model.gridVectors.2 n i j)).toMatrix model.dimension)
      (level i j).energy
  overlap₁ : ∀ i < n, ∀ j ≤ n,
    overlapThreshold ≤ ((level i j).state.inner (level (i + 1) j).state).norm
  overlap₂ : ∀ i ≤ n, ∀ j < n,
    overlapThreshold ≤ ((level i j).state.inner (level i (j + 1)).state).norm

/-- The column of the state at a corner. -/
noncomputable def column (model : BandModel ℝ) (level : ℕ → ℕ → Level ℝ) (i j : ℕ) :
    Fin model.dimension → ℂ :=
  (level i j).state.toVec model.dimension

/-- The product of the links around a cell. -/
noncomputable def cellPhase (model : BandModel ℝ) (level : ℕ → ℕ → Level ℝ) (i j : ℕ) : Circle :=
  plaquetteOf (fun i j ↦ overlapPhase (model.column level i j) (model.column level (i + 1) j))
    (fun i j ↦ overlapPhase (model.column level i j) (model.column level i (j + 1))) i j

namespace ResolvesBand

variable {model : BandModel ℝ} {solve : Solver ℝ} {band : ℤ} {n : ℕ} {level : ℕ → ℕ → Level ℝ}
  (h : model.ResolvesBand solve band n level)

include h

/-- Every state on the lattice has a component for each orbital. -/
theorem size_eq {i j : ℕ} (hi : i ≤ n) (hj : j ≤ n) : (level i j).state.size = model.dimension :=
  (h.solves i hi j hj).isEigen.size

/-- The phase around a cell is the angle of the product of its links, backwards. -/
theorem plaquettePhase_eq {i j : ℕ} (hi : i < n) (hj : j < n) :
    plaquettePhase model solve (model.gridVectors.1 / (n : ℝ)) (model.gridVectors.2 / (n : ℝ)) band
        (corner model.gridVectors.1 model.gridVectors.2 n i j) =
      .ok (-Complex.arg (model.cellPhase level i j)) := by
  obtain ⟨z₁, hz₁, hu₁, -⟩ := link_eq_ok (h.size_eq hi.le hj.le) (h.size_eq hi hj.le)
    (h.overlap₁ i hi j hj.le)
  obtain ⟨z₂, hz₂, hu₂, -⟩ := link_eq_ok (h.size_eq hi hj.le) (h.size_eq hi hj)
    (h.overlap₂ (i + 1) hi j hj)
  obtain ⟨z₃, hz₃, hu₃, -⟩ := link_eq_ok (h.size_eq hi.le hj) (h.size_eq hi hj)
    (h.overlap₁ i hi (j + 1) hj)
  obtain ⟨z₄, hz₄, hu₄, -⟩ := link_eq_ok (h.size_eq hi.le hj.le) (h.size_eq hi.le hj)
    (h.overlap₂ i hi.le j hj)
  have hvalue : (0 : ℝ) - (z₁ * z₂ / (z₃ * z₄)).arg =
      -Complex.arg (model.cellPhase level i j) := by
    rw [zero_sub, Cplx.arg_eq, Cplx.toComplex_div, Cplx.toComplex_mul, Cplx.toComplex_mul, hu₁, hu₂,
      hu₃, hu₄]
    rfl
  unfold plaquettePhase
  rw [corner_add_first, corner_add_second, corner_add_second]
  refine bind_eq_ok.mpr ⟨_, (h.solves i hi.le j hj.le).stateAt_eq, ?_⟩
  refine bind_eq_ok.mpr ⟨_, (h.solves (i + 1) hi j hj.le).stateAt_eq, ?_⟩
  refine bind_eq_ok.mpr ⟨_, (h.solves (i + 1) hi (j + 1) hj).stateAt_eq, ?_⟩
  refine bind_eq_ok.mpr ⟨_, (h.solves i hi.le (j + 1) hj).stateAt_eq, ?_⟩
  refine bind_eq_ok.mpr ⟨_, hz₁, bind_eq_ok.mpr ⟨_, hz₂, bind_eq_ok.mpr ⟨_, hz₃, ?_⟩⟩⟩
  refine bind_eq_ok.mpr ⟨_, hz₄, congrArg Except.ok ?_⟩
  rw [zero_eq, hvalue]

/-- Neighbours in the first direction overlap. -/
theorem overlap_ne_zero₁ {i j : ℕ} (hi : i < n) (hj : j ≤ n) :
    star (model.column level i j) ⬝ᵥ model.column level (i + 1) j ≠ 0 := by
  obtain ⟨-, -, -, hne⟩ := link_eq_ok (h.size_eq hi.le hj) (h.size_eq hi hj) (h.overlap₁ i hi j hj)
  exact hne

/-- Neighbours in the second direction overlap. -/
theorem overlap_ne_zero₂ {i j : ℕ} (hi : i ≤ n) (hj : j < n) :
    star (model.column level i j) ⬝ᵥ model.column level i (j + 1) ≠ 0 := by
  obtain ⟨-, -, -, hne⟩ := link_eq_ok (h.size_eq hi hj.le) (h.size_eq hi hj) (h.overlap₂ i hi j hj)
  exact hne

/-- No state on the lattice is zero. -/
theorem column_ne_zero {i j : ℕ} (hi : i ≤ n) (hj : j ≤ n) : model.column level i j ≠ 0 := by
  intro hzero
  have hunit := (h.solves i hi j hj).isEigen.unit
  rw [show (level i j).state.toVec model.dimension = 0 from hzero, dotProduct_zero] at hunit
  exact zero_ne_one hunit

section

variable {d₁ d₂ : Fin model.dimension → ℂ} (h₁ : model.Periodic model.gridVectors.1 d₁)
  (h₂ : model.Periodic model.gridVectors.2 d₂) (hn : 0 < n)

include h₁ h₂ hn

/-- Across the zone in the first direction the states are the moved ones. -/
theorem exists_gauge₁ {j : ℕ} (hj : j ≤ n) :
    ∃ c : Circle, model.column level n j = gauge c d₁ (model.column level 0 j) := by
  have hfirst := h.solves 0 hn.le j hj
  have hlast := h.solves n le_rfl j hj
  rw [corner_last_first _ _ _ hn.ne'] at hlast
  refine hfirst.exists_gauge h.nrows h₁ hlast ?_
  -- The last row is not in the grid; there the band is simple because it is on the first row.
  rcases hj.lt_or_eq with hlt | rfl
  · exact h.simple 0 hn j hlt
  · have hzero := h.solves 0 hn.le 0 hn.le
    rw [corner_last_second _ _ _ hn.ne'] at hfirst ⊢
    exact hzero.isSimple_add h.nrows h₂ hfirst (h.simple 0 hn 0 hn)

/-- Across the zone in the second direction the states are the moved ones. -/
theorem exists_gauge₂ {i : ℕ} (hi : i ≤ n) :
    ∃ c : Circle, model.column level i n = gauge c d₂ (model.column level i 0) := by
  have hfirst := h.solves i hi 0 hn.le
  have hlast := h.solves i hi n le_rfl
  rw [corner_last_second _ _ _ hn.ne'] at hlast
  refine hfirst.exists_gauge h.nrows h₂ hlast ?_
  rcases hi.lt_or_eq with hlt | rfl
  · exact h.simple i hlt 0 hn
  · have hzero := h.solves 0 hn.le 0 hn.le
    rw [corner_last_first _ _ _ hn.ne'] at hfirst ⊢
    exact hzero.isSimple_add h.nrows h₁ hfirst (h.simple 0 hn 0 hn)

/-- The phases around the cells add up to whole turns. -/
theorem exists_turns : ∃ turns : ℤ, ∑ i ∈ range n, ∑ j ∈ range n,
    Complex.arg (model.cellPhase level i j) = turns * (2 * Real.pi) := by
  -- The states at the last corners are chosen by the solver, with phases of their own.
  choose! e he using fun j (hj : j ≤ n) ↦ h.exists_gauge₁ h₁ h₂ hn hj
  choose! c hc using fun i (hi : i ≤ n) ↦ h.exists_gauge₂ h₁ h₂ hn hi
  have hprod := prod_overlapPhases h₁.norm_eq h₂.norm_eq (h.column_ne_zero n.zero_le n.zero_le)
    (fun i hi ↦ h.overlap_ne_zero₁ hi n.zero_le) (fun j hj ↦ h.overlap_ne_zero₂ n.zero_le hj) hc he
  rw [← prod_product'] at hprod
  obtain ⟨turns, hturns⟩ := exists_int_sum_arg hprod
  rw [sum_product] at hturns
  exact ⟨turns, hturns⟩

end

end ResolvesBand

end BandModel

/-! ## The Chern number -/

namespace Chern

/-- The sum over the cells of a grid, in the order in which they are visited. -/
theorem sum_cells (n : ℕ) (f : ℕ → ℕ → ℝ) :
    ((List.range n ×ˢ List.range n).map fun cell ↦ f cell.1 cell.2).sum =
      ∑ i ∈ range n, ∑ j ∈ range n, f i j := by
  rw [← sum_product', Finset.sum, product_val, range_val, Multiset.range, Multiset.coe_product,
    Multiset.map_coe, Multiset.sum_coe]

section

variable (model : BandModel ℝ) {n : ℕ} (hn : 0 < n)

include hn

/-- A grid that fits into memory consists of the first corners of its cells. -/
theorem grid_eq_ok (hroom : n * n * pointSize < memoryLimit) :
    grid model n = .ok ((List.range n ×ˢ List.range n).map fun cell ↦
      corner model.gridVectors.1 model.gridVectors.2 n cell.1 cell.2) :=
  (if_neg hn.ne').trans (uniformGrid_eq hroom)

/-- There is no grid that does not fit into memory. -/
theorem grid_eq_fault (hroom : memoryLimit ≤ n * n * pointSize) :
    grid model n = breakDown
      (if countLimit ≤ n * n then .overflow .multiply else .capacityOverflow) :=
  (if_neg hn.ne').trans (uniformGrid_eq_fault hroom)

end

variable {model : BandModel ℝ} {solve : Solver ℝ} {band : ℤ} {kpNum : ℕ}
  {level : ℕ → ℕ → Level ℝ} {d₁ d₂ : Fin model.dimension → ℂ}

/-- Whole turns are an integer, in either orientation of the zone. -/
theorem exists_int_eq (orientation : ℝ) (turns : ℤ) : ∃ number : ℤ,
    Scalar.sign orientation * -(turns * (2 * Real.pi)) / (2 * Scalar.pi) = number := by
  have hpi : 2 * Real.pi ≠ 0 := mul_ne_zero two_ne_zero Real.pi_ne_zero
  have hcancel : Scalar.sign orientation * -(turns * (2 * Real.pi)) / (2 * Scalar.pi) =
      Scalar.sign orientation * -turns := by
    show _ / (2 * Real.pi) = _
    rw [← neg_mul, ← mul_assoc, mul_div_cancel_right₀ _ hpi]
  rw [hcancel]
  show ∃ number : ℤ, (if orientation < 0 then (-1 : ℝ) else 1) * -turns = number
  split_ifs
  · exact ⟨turns, by ring⟩
  · exact ⟨-turns, by push_cast; ring⟩

/-- Over a grid that resolves a band of a periodic model, a Chern number is returned and is an
integer if memory can hold the grid, and there is a fault if it cannot. -/
theorem plaquette_integer (evaluator : Evaluator) (hn : 1 ≤ kpNum)
    (h₁ : model.Periodic model.gridVectors.1 d₁) (h₂ : model.Periodic model.gridVectors.2 d₂)
    (h : model.ResolvesBand solve band kpNum level) :
    (kpNum * kpNum * pointSize < memoryLimit → ∃ result,
      plaquette model solve evaluator kpNum band = .ok result ∧ result.band = band ∧
        result.kpNum = kpNum ∧ result.curvature.length = kpNum * kpNum ∧
        ∃ number : ℤ, result.chern = number) ∧
    (memoryLimit ≤ kpNum * kpNum * pointSize →
      plaquette model solve evaluator kpNum band = breakDown
        (if countLimit ≤ kpNum * kpNum then .overflow .multiply else .capacityOverflow)) := by
  constructor
  · intro hroom
    have hvalues : ((List.range kpNum ×ˢ List.range kpNum).map fun cell ↦
          -Complex.arg (model.cellPhase level cell.1 cell.2)).map Except.ok =
        ((List.range kpNum ×ˢ List.range kpNum).map fun cell ↦
          corner model.gridVectors.1 model.gridVectors.2 kpNum cell.1 cell.2).map
            (plaquettePhase model solve (model.gridVectors.1 / (kpNum : ℝ))
              (model.gridVectors.2 / (kpNum : ℝ)) band) := by
      rw [List.map_map, List.map_map]
      refine List.map_congr_left fun cell hcell ↦ ?_
      obtain ⟨hi, hj⟩ := List.mem_product.mp hcell
      exact (h.plaquettePhase_eq (List.mem_range.mp hi) (List.mem_range.mp hj)).symm
    obtain ⟨turns, hturns⟩ := h.exists_turns h₁ h₂ hn
    refine ⟨_, bind_eq_ok.mpr ⟨_, grid_eq_ok model hn hroom,
      bind_eq_ok.mpr ⟨_, evaluator.evaluate_eq_ok hvalues, rfl⟩⟩, rfl, rfl, ?_, ?_⟩
    · simp [List.length_product]
    · dsimp only
      rw [sum_eq, sum_cells kpNum fun i j ↦ -Complex.arg (model.cellPhase level i j)]
      simp only [sum_neg_distrib, hturns]
      exact exists_int_eq _ turns
  · intro hroom
    unfold plaquette
    rw [grid_eq_fault model hn hroom]
    rfl

end Chern

/-! ## Diagonal Hamiltonians -/

section

variable {n : ℕ}

/-- The state in one of the orbitals. -/
noncomputable def orbitalState (n : ℕ) (s : Fin n) : CVector ℝ :=
  Array.ofFn fun t : Fin n ↦ if t = s then ⟨1, 0⟩ else ⟨0, 0⟩

/-- The state of an orbital is a unit vector. -/
theorem toVec_orbitalState (s : Fin n) : (orbitalState n s).toVec n = Pi.single s 1 := by
  ext t
  have hget : (orbitalState n s).get t = if t = s then ⟨1, 0⟩ else ⟨0, 0⟩ := by
    simp [orbitalState, CVector.get, Array.getD]
  rw [CVector.toVec, hget, Pi.single_apply]
  split <;> rfl

/-- The state of an orbital has a component for each orbital. -/
theorem size_orbitalState (s : Fin n) : (orbitalState n s).size = n := Array.size_ofFn

/-- The overlap of an orbital with itself is accepted. -/
theorem overlap_orbitalState (s : Fin n) :
    overlapThreshold ≤ ((orbitalState n s).inner (orbitalState n s)).norm := by
  have hinner := CVector.toComplex_inner (size_orbitalState s) (size_orbitalState s)
  rw [Cplx.norm_eq, hinner, toVec_orbitalState, Pi.star_single, single_dotProduct,
    Pi.single_eq_same]
  unfold overlapThreshold
  norm_num

/-- The solver for diagonal matrices. -/
noncomputable def diagonalSolver : Solver ℝ := fun h ↦
  some (List.ofFn fun s : Fin h.nrows ↦ ⟨(h.get s s).re, orbitalState h.nrows s⟩)

variable {h : CMatrix ℝ} {d : Fin n → ℝ}
  (hdiagonal : h.toMatrix n = diagonal fun s ↦ (d s : ℂ))

include hdiagonal

/-- Under a diagonal Hamiltonian each orbital is an eigenstate. -/
theorem isEigen_orbitalState (s : Fin n) : Level.IsEigen ⟨d s, orbitalState n s⟩ n h where
  size := size_orbitalState s
  eigen := by
    rw [hdiagonal, toVec_orbitalState]
    ext t
    rw [mulVec_diagonal, Pi.smul_apply, Pi.single_apply, smul_eq_mul]
    split
    · next heq => rw [heq]
    · rw [mul_zero, mul_zero]
  unit := by
    rw [toVec_orbitalState, Pi.star_single, single_dotProduct, Pi.single_eq_same, star_one, one_mul]

/-- An entry of the diagonal that occurs once is a simple energy. -/
theorem isSimple_diagonal {s : Fin n} (hd : ∀ t, t ≠ s → d t ≠ d s) :
    IsSimple (h.toMatrix n) (d s) := by
  rw [hdiagonal]
  have hsingle : ∀ x : Fin n → ℂ, (diagonal fun t ↦ (d t : ℂ)) *ᵥ x = (d s : ℂ) • x →
      ∀ t, t ≠ s → x t = 0 := by
    intro x hx t ht
    have hentry := congrFun hx t
    rw [mulVec_diagonal, Pi.smul_apply, smul_eq_mul] at hentry
    exact (mul_eq_mul_right_iff.mp hentry).resolve_left fun heq ↦
      hd t ht (Complex.ofReal_inj.mp heq)
  intro x y hx hy hne
  have hs : x s ≠ 0 := by
    intro hzero
    refine hne (funext fun t ↦ ?_)
    by_cases ht : t = s
    · rw [ht, hzero, Pi.zero_apply]
    · exact hsingle x hx t ht
  refine ⟨y s / x s, funext fun t ↦ ?_⟩
  by_cases ht : t = s
  · rw [ht, Pi.smul_apply, smul_eq_mul, div_mul_cancel₀ _ hs]
  · rw [hsingle y hy t ht, Pi.smul_apply, hsingle x hx t ht, smul_zero]

/-- Under a diagonal Hamiltonian the solver lists the orbitals with their energies. -/
theorem diagonalSolver_eq (hnrows : h.nrows = n) :
    diagonalSolver h = some (List.ofFn fun s ↦ ⟨d s, orbitalState n s⟩) := by
  subst hnrows
  refine congrArg some (congrArg List.ofFn (funext fun s ↦ ?_))
  have hentry := congrArg Complex.re (congrFun₂ hdiagonal s s)
  rw [diagonal_apply_eq, Complex.ofReal_re] at hentry
  exact congrArg (Level.mk · _) hentry

/-- The energies of a diagonal Hamiltonian are its entries. -/
theorem hasEnergies_diagonal (hnrows : h.nrows = n) :
    h.HasEnergies (List.ofFn fun s ↦ ⟨d s, orbitalState n s⟩) := by
  rw [CMatrix.HasEnergies, hnrows, hdiagonal, charpoly_diagonal, List.map_ofFn, List.prod_ofFn]
  rfl

end

/-! ## Grids of two models -/

/-- The Hamiltonian of the Chern insulator as a matrix. -/
theorem chernInsulator_toMatrix (mass : ℝ) (k : KPoint ℝ) :
    ((chernInsulator mass).hamiltonian k).toMatrix 2 =
      !![⟨mass + Real.cos k.x + Real.cos k.y, 0⟩, ⟨Real.sin k.x, -Real.sin k.y⟩;
        ⟨Real.sin k.x, Real.sin k.y⟩, ⟨-(mass + Real.cos k.x + Real.cos k.y), 0⟩] := by
  have hblock : ((chernInsulator mass).hamiltonian k).toMatrix 2 =
      ((chernInsulator mass).hamiltonian k).block 0 0 := by
    ext s t
    rw [CMatrix.block, of_apply, mul_zero, zero_add, zero_add, CMatrix.toMatrix_apply]
  rw [hblock, chernInsulator, CMatrix.block_ofBlocks one_pos one_pos]
  ext s t
  fin_cases s <;> fin_cases t <;> apply Complex.ext <;> simp [Block.toMatrix]

/-- The steps of the square zone are periods of the insulator. -/
theorem chernInsulator_periodic (mass : ℝ) :
    (chernInsulator mass).Periodic squareZone.1 1 ∧
      (chernInsulator mass).Periodic squareZone.2 1 := by
  constructor <;> refine .of_eq fun k ↦ ?_ <;>
    simp [chernInsulator, squareZone]

namespace Chern

/-- One orbital that no electron leaves. -/
noncomputable def isolatedOrbital : BandModel ℝ :=
  LatticeModel.toBandModel ⟨#[0], [], squareZone, 1, 1, 1, 1, 0⟩

/-- The Hamiltonian of the isolated orbital is zero. -/
theorem isolatedOrbital_toMatrix (k : KPoint ℝ) :
    (isolatedOrbital.hamiltonian k).toMatrix 1 = diagonal fun _ ↦ ((0 : ℝ) : ℂ) := by
  ext i j
  fin_cases i
  fin_cases j
  exact Cplx.toComplex_ofReal 0

/-- The band of the isolated orbital is resolved on every lattice. -/
theorem isolatedOrbital_resolves (n : ℕ) : isolatedOrbital.ResolvesBand diagonalSolver 1 n
    fun _ _ ↦ ⟨0, orbitalState 1 0⟩ := by
  refine ⟨fun _ ↦ rfl, fun i _ j _ ↦ ⟨?_, isEigen_orbitalState (isolatedOrbital_toMatrix _) 0⟩,
    fun i _ j _ ↦ ?_, fun _ _ _ _ ↦ overlap_orbitalState 0, fun _ _ _ _ ↦ overlap_orbitalState 0⟩
  · have hdiagonal := isolatedOrbital_toMatrix (corner squareZone.1 squareZone.2 n i j)
    exact ⟨⟨#[⟨0, orbitalState 1 0⟩]⟩, 0, Spectrum.ofHamiltonian_eq_ok.mpr ⟨rfl, one_ne_zero, _,
      diagonalSolver_eq hdiagonal rfl, rfl⟩, hasEnergies_diagonal hdiagonal rfl, rfl, rfl⟩
  · exact isSimple_diagonal (isolatedOrbital_toMatrix _) fun t ht ↦
      absurd (Subsingleton.elim t 0) ht

/-- A resolved band whose grid has more points than can be counted. -/
theorem plaquette_overflow :
    isolatedOrbital.Periodic isolatedOrbital.gridVectors.1 1 ∧
    isolatedOrbital.Periodic isolatedOrbital.gridVectors.2 1 ∧
    isolatedOrbital.ResolvesBand diagonalSolver 1 4294967296 (fun _ _ ↦ ⟨0, orbitalState 1 0⟩) ∧
    plaquette isolatedOrbital diagonalSolver ⟨1⟩ 4294967296 1 =
      breakDown (.overflow .multiply) := by
  refine ⟨.of_eq fun _ ↦ rfl, .of_eq fun _ ↦ rfl, isolatedOrbital_resolves _, ?_⟩
  unfold plaquette
  rw [grid_eq_fault isolatedOrbital (by norm_num) (by norm_num [memoryLimit, pointSize])]
  rfl

/-- The upper energy of the insulator of mass three at the corners of two by two cells. -/
noncomputable def insulatorEnergy (i j : ℕ) : ℝ := 3 + (-1) ^ i + (-1) ^ j

/-- At the corners of the two-by-two lattice the insulator has a gap. -/
theorem insulatorEnergy_pos (i j : ℕ) : 0 < insulatorEnergy i j := by
  unfold insulatorEnergy
  rcases neg_one_pow_eq_or ℝ i with hi | hi <;> rcases neg_one_pow_eq_or ℝ j with hj | hj <;>
    rw [hi, hj] <;> norm_num

/-- At the corners of the two-by-two lattice the insulator is diagonal. -/
theorem insulator_toMatrix (i j : ℕ) :
    ((chernInsulator (3 : ℝ)).hamiltonian (corner squareZone.1 squareZone.2 2 i j)).toMatrix 2 =
      diagonal fun s ↦ ((![insulatorEnergy i j, -insulatorEnergy i j] s : ℝ) : ℂ) := by
  have hx : (corner squareZone.1 squareZone.2 2 i j).x = i * Real.pi := by
    simp [corner, squareZone]
    ring
  have hy : (corner squareZone.1 squareZone.2 2 i j).y = j * Real.pi := by
    simp [corner, squareZone]
    ring
  rw [chernInsulator_toMatrix, hx, hy, Real.cos_nat_mul_pi, Real.cos_nat_mul_pi,
    Real.sin_nat_mul_pi, Real.sin_nat_mul_pi, ← insulatorEnergy]
  ext s t
  fin_cases s <;> fin_cases t <;> simp [Complex.ext_iff]

/-- The two levels at a corner, in ascending order. -/
noncomputable def insulatorLevels (i j : ℕ) : List (Level ℝ) :=
  [⟨-insulatorEnergy i j, orbitalState 2 1⟩, ⟨insulatorEnergy i j, orbitalState 2 0⟩]

/-- Sorting puts the lower level of the insulator first. -/
theorem sortBy_insulator (i j : ℕ) : Number.sortBy Level.energy (List.ofFn fun s : Fin 2 ↦
    (⟨![insulatorEnergy i j, -insulatorEnergy i j] s, orbitalState 2 s⟩ : Level ℝ)) =
      insulatorLevels i j := by
  have hlt : Number.lt (-insulatorEnergy i j) (insulatorEnergy i j) = true :=
    decide_eq_true (neg_lt_self (insulatorEnergy_pos i j))
  simp [Number.sortBy, Number.insertDescending, hlt, insulatorLevels]

/-- The spectrum of the insulator at the corners of the two-by-two lattice. -/
theorem spectrum_insulator (i j : ℕ) :
    (chernInsulator (3 : ℝ)).spectrum diagonalSolver (corner squareZone.1 squareZone.2 2 i j) =
      .ok ⟨(insulatorLevels i j).toArray⟩ := by
  refine Spectrum.ofHamiltonian_eq_ok.mpr ⟨rfl, two_ne_zero, _,
    diagonalSolver_eq (insulator_toMatrix i j) rfl, ?_⟩
  rw [sortBy_insulator]

/-- The lower band of the insulator is resolved on the two-by-two lattice. -/
theorem insulator_resolves : (chernInsulator (3 : ℝ)).ResolvesBand diagonalSolver (-1) 2
    fun i j ↦ ⟨-insulatorEnergy i j, orbitalState 2 1⟩ := by
  refine ⟨fun _ ↦ rfl, fun i _ j _ ↦ ⟨?_, isEigen_orbitalState (insulator_toMatrix i j) 1⟩,
    fun i _ j _ ↦ isSimple_diagonal (s := 1) (insulator_toMatrix i j) fun t ht ↦ ?_,
    fun _ _ _ _ ↦ overlap_orbitalState 1, fun _ _ _ _ ↦ overlap_orbitalState 1⟩
  · refine ⟨⟨(insulatorLevels i j).toArray⟩, 0, spectrum_insulator i j, ?_, ?_, rfl⟩
    · have hperm := Number.sortBy_perm Level.energy (List.ofFn fun s : Fin 2 ↦
        (⟨![insulatorEnergy i j, -insulatorEnergy i j] s, orbitalState 2 s⟩ : Level ℝ))
      rw [sortBy_insulator] at hperm
      exact (hasEnergies_diagonal (insulator_toMatrix i j) rfl).perm hperm
    · simp [Spectrum.bandIndex, Spectrum.mid, Spectrum.size, insulatorLevels]
      rfl
  · have hpos := insulatorEnergy_pos i j
    fin_cases t
    · simp
      linarith
    · exact absurd rfl ht

/-- Two by two cells for the lower band of an insulator. -/
theorem plaquette_integer_insulator : ∃ result,
    plaquette (chernInsulator (3 : ℝ)) diagonalSolver ⟨1⟩ 2 (-1) = .ok result ∧
      result.band = -1 ∧ result.kpNum = 2 ∧ result.curvature.length = 4 ∧
      ∃ number : ℤ, result.chern = number :=
  (plaquette_integer ⟨1⟩ one_le_two (chernInsulator_periodic 3).1 (chernInsulator_periodic 3).2
    insulator_resolves).1 (by decide)

end Chern

end Moire
