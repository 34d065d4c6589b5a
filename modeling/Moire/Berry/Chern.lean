import Moire.Berry.Curvature
import Moire.Evaluator
import Moire.Sampling.Grid

/-!
# Chern numbers

Two estimates over the same grid: the average curvature, and the sum of the phases around the cells
of the grid, which is an integer once the grid resolves the curvature.
-/

namespace Moire

/-- A Chern number with the numbers it was summed from. -/
structure ChernResult (α : Type) where
  band : Int
  kpNum : Nat
  /-- The curvature or the phase at each point of the grid. -/
  curvature : List α
  chern : α
  deriving Repr, Inhabited

namespace Chern

variable {α : Type} [Scalar α]

/-- The grid of a Chern number. -/
def grid (model : BandModel α) (kpNum : Nat) : Outcome (List (KPoint α)) := do
  if kpNum = 0 then refuse "kp_num" "Chern grid needs at least one point"
  uniformGrid model.gridVectors.1 model.gridVectors.2 kpNum

/-- The Chern number as an average of the curvature. -/
def kubo (model : BandModel α) (solve : Solver α) (evaluator : Evaluator) (kpNum : Nat)
    (band : Int) : Outcome (ChernResult α) := do
  let points ← grid model kpNum
  let curvature ← evaluator.evaluate points (berryCurvature model solve band)
  let chern := Number.sum curvature * 2 * Scalar.pi /
    (Number.ofNat points.length * model.unitCellArea)
  return { band, kpNum, curvature, chern }

/-- The Chern number as a sum of phases. -/
def plaquette (model : BandModel α) (solve : Solver α) (evaluator : Evaluator) (kpNum : Nat)
    (band : Int) : Outcome (ChernResult α) := do
  let points ← grid model kpNum
  let (v₁, v₂) := model.gridVectors
  let count : α := Number.ofNat kpNum
  let curvature ← evaluator.evaluate points
    (plaquettePhase model solve (v₁ / count) (v₂ / count) band)
  let orientation := Scalar.sign (v₁.cross v₂)
  let chern := orientation * Number.sum curvature / (2 * Scalar.pi)
  return { band, kpNum, curvature, chern }

/-- What is told before a Chern number is computed by a method. -/
def announcement (method : String) (kpNum : Nat) (band : Int) : String :=
  s!"Chern number ({method}) of band {band} on a {kpNum}² grid"

end Chern

end Moire
