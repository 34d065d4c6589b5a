import Moire.Eigen.Rotation
import Moire.Spectrum.Basic

/-!
# The eigensolver

Hermitian matrices of machine floats are scaled to entries of at most one, reduced to tridiagonal
form and diagonalized.
-/

namespace Moire

/-- The largest sum of the moduli of a real and an imaginary part. -/
def CMatrix.largest (m : CMatrix Float) : Float :=
  m.rows.foldl (fun best row ↦
    row.foldl (fun best z ↦ max best (z.re.abs + z.im.abs)) best) 0

/-- The levels of a Hermitian matrix, in no particular order. -/
def hermitianSolver : Solver Float := fun m ↦ do
  let largest := m.largest
  let scale := if largest == 0 then 1 else largest
  let t := Tridiagonal.ofHermitian (.ofCMatrix m scale)
  let state ← t.diagonalize
  return (List.range m.nrows).map fun i ↦
    ⟨state.diagonal.get! i * scale, t.restore state.vectors (i * m.nrows)⟩

end Moire
