import Moire.Spectrum.Basic

/-!
# Berry curvature and Berry phases

The curvature of a band at a point, from the velocity matrix elements with all other bands, and the
phase around a small parallelogram, from the overlaps of its corner states.
-/

namespace Moire

variable {α : Type} [Scalar α]

/-- What another band adds to the curvature sum, from its velocity matrix elements and the
difference of the energies. -/
def curvatureTerm (x y : Cplx α) (gap : α) : Cplx α :=
  (x.conj * y - y.conj * x).divReal (gap * gap)

/-- The Berry curvature of a band in Å². -/
def berryCurvature (model : BandModel α) (solve : Solver α) (band : Int) (k : KPoint α) :
    Outcome α := do
  let derivatives := model.derivatives k
  let spectrum ← Spectrum.ofHamiltonian solve derivatives.h
  let n ← spectrum.bandIndex band
  let dx := derivatives.dx.apply (spectrum.state n)
  let dy := derivatives.dy.apply (spectrum.state n)
  let terms := ((List.range spectrum.size).filter (· ≠ n)).map fun m ↦
    let other := spectrum.state m
    curvatureTerm (other.inner dx) (other.inner dy) (spectrum.energy n - spectrum.energy m)
  return (Cplx.i * Cplx.sum terms).re

/-- The overlap below which two states count as orthogonal. -/
def overlapThreshold : α := 2.220446049250313e-16

/-- The phase factor of the overlap of two states. -/
def link (a b : CVector α) : Outcome (Cplx α) := do
  let overlap := a.inner b
  if Number.lt overlap.norm overlapThreshold then
    fail (.numerical .aggregation "vanishing overlap between neighbouring eigenstates")
  return overlap.divReal overlap.norm

/-- The state of a band at a point. -/
def stateAt (model : BandModel α) (solve : Solver α) (band : Int) (k : KPoint α) :
    Outcome (CVector α) := do
  let spectrum ← model.spectrum solve k
  let index ← spectrum.bandIndex band
  return spectrum.state index

/-- The Berry phase around the parallelogram that two steps span at a point. -/
def plaquettePhase (model : BandModel α) (solve : Solver α) (step₁ step₂ : KPoint α) (band : Int)
    (k : KPoint α) : Outcome α := do
  let u₀₀ ← stateAt model solve band k
  let u₁₀ ← stateAt model solve band (k + step₁)
  let u₁₁ ← stateAt model solve band (k + step₁ + step₂)
  let u₀₁ ← stateAt model solve band (k + step₂)
  let product :=
    (← link u₀₀ u₁₀) * (← link u₁₀ u₁₁) / ((← link u₀₁ u₁₁) * (← link u₀₀ u₀₁))
  return 0 - product.arg

end Moire
