import Mathlib.Analysis.SpecialFunctions.Complex.Arg
import Mathlib.LinearAlgebra.Matrix.Charpoly.Coeff
import Mathlib.LinearAlgebra.Matrix.Hermitian
import Mathlib.LinearAlgebra.UnitaryGroup
import Mathlib.Tactic
import Moire.CMatrix
import Moire.Proofs.RealScalar

/-!
# Stored matrices as matrices of analysis

Over the reals a stored complex number is a complex number, `Cplx.toComplex`, a stored state is a
column, `CVector.toVec`, and a stored matrix is a matrix, `CMatrix.toMatrix`, or a table of
two-by-two blocks, `CMatrix.block`. The operations of the library become those of linear algebra.
A model whose Hamiltonian is conjugated by a unitary matrix keeps its characteristic polynomial,
`charpoly_conj`, which is how statements about spectra are read off.
-/

namespace Moire

open Matrix RealScalar

/-! ## Numbers -/

namespace Cplx

/-- The complex number with the same parts. -/
def toComplex (z : Cplx ℝ) : ℂ := ⟨z.re, z.im⟩

@[simp] theorem toComplex_re (z : Cplx ℝ) : z.toComplex.re = z.re := rfl
@[simp] theorem toComplex_im (z : Cplx ℝ) : z.toComplex.im = z.im := rfl

/-- A complex scalar is told by its complex number. -/
theorem toComplex_injective : Function.Injective toComplex := by
  intro z w h
  exact Cplx.ext (congrArg Complex.re h) (congrArg Complex.im h)

/-- Zero is zero. -/
@[simp] theorem toComplex_zero : (zero : Cplx ℝ).toComplex = 0 := by
  apply Complex.ext <;> simp

/-- A real scalar is the real number. -/
@[simp] theorem toComplex_ofReal (x : ℝ) : (ofReal x).toComplex = x := by
  apply Complex.ext <;> simp

/-- Sums are taken as in the complex numbers. -/
@[simp] theorem toComplex_add (z w : Cplx ℝ) :
    (z + w).toComplex = z.toComplex + w.toComplex := rfl

/-- Products are taken as in the complex numbers. -/
@[simp] theorem toComplex_mul (z w : Cplx ℝ) :
    (z * w).toComplex = z.toComplex * w.toComplex := by
  apply Complex.ext <;> simp

/-- Conjugates are taken as in the complex numbers. -/
@[simp] theorem toComplex_conj (z : Cplx ℝ) : z.conj.toComplex = star z.toComplex := rfl

/-- Modulus and angle are those of the exponential. -/
@[simp] theorem toComplex_polar (modulus angle : ℝ) :
    (polar modulus angle).toComplex = modulus * Complex.exp (angle * Complex.I) := by
  apply Complex.ext <;> simp [polar, Complex.exp_ofReal_mul_I_re, Complex.exp_ofReal_mul_I_im]

/-- Division by a real is that of the complex numbers. -/
theorem toComplex_divReal (z : Cplx ℝ) (x : ℝ) : (z.divReal x).toComplex = z.toComplex / x := by
  apply Complex.ext <;> simp [divReal]

/-- Division is that of the complex numbers, also by zero. -/
theorem toComplex_div (z w : Cplx ℝ) : (z / w).toComplex = z.toComplex / w.toComplex := by
  have hdiv : z / w = ⟨(z.re * w.re + z.im * w.im) / (w.re * w.re + w.im * w.im),
      (z.im * w.re - z.re * w.im) / (w.re * w.re + w.im * w.im)⟩ := rfl
  rw [hdiv]
  apply Complex.ext
  · simp only [toComplex_re, toComplex_im, Complex.div_re, Complex.normSq_apply]
    ring
  · simp only [toComplex_re, toComplex_im, Complex.div_im, Complex.normSq_apply]
    ring

/-- The norm is that of the complex number. -/
theorem norm_eq (z : Cplx ℝ) : z.norm = ‖z.toComplex‖ := by
  rw [Complex.norm_def, Complex.normSq_apply]
  rfl

/-- The argument is that of the complex number. -/
theorem arg_eq (z : Cplx ℝ) : z.arg = z.toComplex.arg := rfl

/-- A sum that is taken from the left is a sum. -/
theorem toComplex_foldl {β : Type} (f : β → Cplx ℝ) (entries : List β) (total : Cplx ℝ) :
    (entries.foldl (fun total entry ↦ total + f entry) total).toComplex =
      total.toComplex + (entries.map fun entry ↦ (f entry).toComplex).sum := by
  induction entries generalizing total with
  | nil => simp
  | cons entry entries ih =>
      rw [List.foldl_cons, ih]
      simp [add_assoc]

end Cplx

/-! ## States -/

namespace CVector

/-- The column of a state. -/
noncomputable def toVec (n : ℕ) (v : CVector ℝ) : Fin n → ℂ := fun i ↦ (v.get i).toComplex

/-- A sum over the components of two states, taken from the left. -/
theorem toComplex_foldl_zip (f : Cplx ℝ × Cplx ℝ → Cplx ℝ) (v w : CVector ℝ) :
    ((v.zip w).foldl (fun total pair ↦ total + f pair) Cplx.zero).toComplex =
      ((v.toList.zip w.toList).map fun pair ↦ (f pair).toComplex).sum := by
  rw [← Array.foldl_toList, Array.toList_zip, Cplx.toComplex_foldl, Cplx.toComplex_zero, zero_add]

/-- The inner product adds up what the components give. -/
theorem toComplex_inner_eq_sum (v w : CVector ℝ) : (v.inner w).toComplex =
    ((v.toList.zip w.toList).map fun pair ↦ star pair.1.toComplex * pair.2.toComplex).sum := by
  refine (toComplex_foldl_zip (fun pair ↦ pair.1.conj * pair.2) v w).trans ?_
  simp only [Cplx.toComplex_mul, Cplx.toComplex_conj]

/-- The inner product of states is that of their columns. -/
theorem toComplex_inner {n : ℕ} {v w : CVector ℝ} (hv : v.size = n) (hw : w.size = n) :
    (v.inner w).toComplex = star (v.toVec n) ⬝ᵥ w.toVec n := by
  have hpairs : v.toList.zip w.toList = List.ofFn fun i : Fin n ↦ (v.get i, w.get i) := by
    refine List.ext_getElem (by simp [hv, hw]) fun i hi hi' ↦ ?_
    have hiv : i < v.size := by simp at hi; omega
    have hiw : i < w.size := by simp at hi; omega
    simp [get, Array.getD, hiv, hiw]
  rw [toComplex_inner_eq_sum, hpairs, List.map_ofFn, List.sum_ofFn]
  simp [dotProduct, toVec]

end CVector

/-! ## Matrices -/

namespace CMatrix

/-- A table depends only on the entries within its bounds. -/
theorem ofFn_congr {α : Type} {nrows ncols : ℕ} {entry entry' : ℕ → ℕ → Cplx α}
    (h : ∀ i < nrows, ∀ j < ncols, entry i j = entry' i j) :
    ofFn nrows ncols entry = ofFn nrows ncols entry' := by
  unfold ofFn
  congr 2
  funext i
  exact congrArg Array.ofFn (funext fun j ↦ h i i.isLt j j.isLt)

/-- The square matrix of the first `n` rows and columns. -/
noncomputable def toMatrix (n : ℕ) (m : CMatrix ℝ) : Matrix (Fin n) (Fin n) ℂ :=
  of fun i j ↦ (m.get i j).toComplex

@[simp] theorem toMatrix_apply (n : ℕ) (m : CMatrix ℝ) (i j : Fin n) :
    m.toMatrix n i j = (m.get i j).toComplex := rfl

/-- The two-by-two block in a row and a column of blocks. -/
noncomputable def block (m : CMatrix ℝ) (i j : ℕ) : Matrix (Fin 2) (Fin 2) ℂ :=
  of fun s t ↦ (m.get (2 * i + s) (2 * j + t)).toComplex

/-- An entry lies in the block of its halved indices. -/
theorem toMatrix_eq_block (n : ℕ) (m : CMatrix ℝ) (i j : Fin n) :
    m.toMatrix n i j = m.block (i / 2) (j / 2) ⟨i % 2, Nat.mod_lt _ two_pos⟩
      ⟨j % 2, Nat.mod_lt _ two_pos⟩ := by
  rw [toMatrix_apply, block, of_apply, Nat.div_add_mod, Nat.div_add_mod]

/-- A table of blocks is Hermitian if blocks across the diagonal are conjugate transposes. -/
theorem isHermitian_of_block {m : CMatrix ℝ} {n : ℕ}
    (hblock : ∀ i < n, ∀ j < n, (m.block i j)ᴴ = m.block j i) :
    (m.toMatrix (2 * n)).IsHermitian := by
  refine IsHermitian.ext fun a b ↦ ?_
  rw [toMatrix_eq_block, toMatrix_eq_block, ← hblock _ (by omega) _ (by omega),
    conjTranspose_apply, star_star]

end CMatrix

/-- The matrix of a block. -/
def Block.toMatrix (block : Block ℝ) : Matrix (Fin 2) (Fin 2) ℂ :=
  !![block.aa.toComplex, block.ab.toComplex; block.ba.toComplex, block.bb.toComplex]

/-- The entry of a block is the one stored in its corner of the table. -/
theorem Block.toMatrix_apply (block : Block ℝ) (i j : ℕ) (s t : Fin 2) :
    block.toMatrix s t = (block.get (2 * i + s) (2 * j + t)).toComplex := by
  fin_cases s <;> fin_cases t <;> simp [toMatrix, get, Nat.add_mod]

/-- The zero block is the zero matrix. -/
@[simp] theorem Block.toMatrix_zero : (Block.zero : Block ℝ).toMatrix = 0 := by
  ext s t
  fin_cases s <;> fin_cases t <;> simp [toMatrix, zero]

/-- Scaling a block by a real scales its matrix. -/
theorem Block.toMatrix_scale (block : Block ℝ) (x : ℝ) :
    (block.scale (Cplx.ofReal x)).toMatrix = (x : ℂ) • block.toMatrix := by
  ext s t
  fin_cases s <;> fin_cases t <;> simp [toMatrix, scale, mul_comm]

namespace CMatrix

/-- A table of blocks has the given blocks. -/
theorem block_ofBlocks {nrows ncols : ℕ} {blocks : ℕ → ℕ → Block ℝ} {i j : ℕ} (hi : i < nrows)
    (hj : j < ncols) : (ofBlocks nrows ncols blocks).block i j = (blocks i j).toMatrix := by
  ext s t
  rw [Block.toMatrix_apply _ i j, block, of_apply, ofBlocks, get_ofFn (by omega) (by omega)]
  congr 3 <;> omega

/-- The entries of the adjoint are the conjugates on the other side of the diagonal. -/
theorem get_adjoint {m : CMatrix ℝ} {i j : ℕ} (hi : i < m.ncols) (hj : j < m.nrows) :
    m.adjoint.get i j = (m.get j i).conj :=
  get_ofFn hi hj

/-- The blocks of the conjugate transpose are those across, each transposed and conjugated. -/
theorem block_adjoint {m : CMatrix ℝ} {i j : ℕ} (hi : 2 * i + 1 < m.ncols)
    (hj : 2 * j + 1 < m.nrows) : m.adjoint.block i j = (m.block j i)ᴴ := by
  ext s t
  rw [conjTranspose_apply, block, block, of_apply, of_apply,
    get_adjoint (by omega) (by omega), Cplx.toComplex_conj]

section

variable {a b c d : CMatrix ℝ} {i j p q : ℕ} (hnrows : a.nrows = 2 * p) (hncols : a.ncols = 2 * q)

include hnrows hncols

/-- Blocks above and left of the corner are those of the first matrix. -/
theorem block_fromBlocks_aa (hi : i < p) (hj : j < q) :
    (fromBlocks a b c d).block i j = a.block i j := by
  ext s t
  rw [block, block, of_apply, of_apply, fromBlocks, get_ofFn (by omega) (by omega),
    if_pos (by omega), if_pos (by omega)]

/-- Blocks above and right of the corner are those of the second matrix. -/
theorem block_fromBlocks_ab (hi : i < p) (hj : 2 * j + 1 < b.ncols) :
    (fromBlocks a b c d).block i (q + j) = b.block i j := by
  ext s t
  rw [block, block, of_apply, of_apply, fromBlocks, get_ofFn (by omega) (by omega),
    if_pos (by omega), if_neg (by omega)]
  congr 2
  omega

/-- Blocks below and left of the corner are those of the third matrix. -/
theorem block_fromBlocks_ba (hi : 2 * i + 1 < c.nrows) (hj : j < q) :
    (fromBlocks a b c d).block (p + i) j = c.block i j := by
  ext s t
  rw [block, block, of_apply, of_apply, fromBlocks, get_ofFn (by omega) (by omega),
    if_neg (by omega), if_pos (by omega)]
  congr 2
  omega

/-- Blocks below and right of the corner are those of the last matrix. -/
theorem block_fromBlocks_bb (hi : 2 * i + 1 < c.nrows) (hj : 2 * j + 1 < b.ncols) :
    (fromBlocks a b c d).block (p + i) (q + j) = d.block i j := by
  ext s t
  rw [block, block, of_apply, of_apply, fromBlocks, get_ofFn (by omega) (by omega),
    if_neg (by omega), if_neg (by omega)]
  congr 2 <;> omega

end

end CMatrix

/-! ## Conjugation -/

variable {ι : Type} [Fintype ι] [DecidableEq ι]

/-- Conjugation by a unitary matrix keeps the eigenvalues with their multiplicities. -/
theorem charpoly_conj {u : Matrix ι ι ℂ} (hu : u ∈ unitaryGroup ι ℂ) (h : Matrix ι ι ℂ) :
    (u * h * uᴴ).charpoly = h.charpoly := by
  rw [mul_assoc, charpoly_mul_comm, mul_assoc, ← star_eq_conjTranspose, mem_unitaryGroup_iff'.mp hu,
    mul_one]

/-- A number of norm one times its conjugate is one. -/
theorem mul_star_of_norm {z : ℂ} (hz : ‖z‖ = 1) : z * star z = 1 := by
  rw [Complex.star_def, Complex.mul_conj', hz, Complex.ofReal_one, one_pow]

/-- A diagonal matrix of phases is unitary. -/
theorem diagonal_mem_unitaryGroup {d : ι → ℂ} (hd : ∀ i, ‖d i‖ = 1) :
    diagonal d ∈ unitaryGroup ι ℂ := by
  rw [mem_unitaryGroup_iff, star_eq_conjTranspose, diagonal_conjTranspose, diagonal_mul_diagonal,
    ← diagonal_one]
  exact congrArg diagonal (funext fun i ↦ mul_star_of_norm (hd i))

/-- The matrix that sends each coordinate to a multiple of another one. -/
def monomial (σ : Equiv.Perm ι) (d : ι → ℂ) : Matrix ι ι ℂ :=
  of fun i j ↦ if i = σ j then d j else 0

omit [Fintype ι] in
/-- In each row a monomial matrix has one entry. -/
theorem monomial_apply (σ : Equiv.Perm ι) (d : ι → ℂ) (i j : ι) :
    monomial σ d (σ i) j = if i = j then d j else 0 := by
  simp only [monomial, of_apply, σ.injective.eq_iff]

/-- Conjugation moves an entry and multiplies it by the factors of its row and its column. -/
theorem monomial_conj_apply (σ : Equiv.Perm ι) (d : ι → ℂ) (h : Matrix ι ι ℂ) (i j : ι) :
    (monomial σ d * h * (monomial σ d)ᴴ) (σ i) (σ j) = d i * h i j * star (d j) := by
  simp only [mul_apply, conjTranspose_apply, monomial_apply, ite_mul, zero_mul, Finset.sum_ite_eq,
    Finset.mem_univ, if_true, apply_ite star, star_zero, mul_ite, mul_zero]

/-- A matrix that sends coordinates to multiples by phases is unitary. -/
theorem monomial_mem_unitaryGroup (σ : Equiv.Perm ι) {d : ι → ℂ} (hd : ∀ i, ‖d i‖ = 1) :
    monomial σ d ∈ unitaryGroup ι ℂ := by
  rw [mem_unitaryGroup_iff, star_eq_conjTranspose]
  ext i j
  obtain ⟨i, rfl⟩ := σ.surjective i
  obtain ⟨j, rfl⟩ := σ.surjective j
  have hentry := monomial_conj_apply σ d 1 i j
  rw [mul_one] at hentry
  rw [hentry]
  by_cases hij : i = j
  · subst hij
    rw [one_apply_eq, one_apply_eq, mul_one, mul_star_of_norm (hd i)]
  · rw [one_apply_ne hij, one_apply_ne (σ.injective.ne hij), mul_zero, zero_mul]

end Moire
