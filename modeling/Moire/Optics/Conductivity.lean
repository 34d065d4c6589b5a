import Moire.Optics.Absorption

/-!
# Optical conductivity

The dynamic response to a field along the first axis, in units of the conductivity of a single
layer, as an average over points of the zone.
-/

namespace Moire

open Constants

/-- The response at each photon energy. -/
structure ConductivitySpectrum (α : Type) where
  photonEnergies : List α
  response : List (Cplx α)
  /-- The real conductivity, which is minus the imaginary part of the response. -/
  sigmaXX : List α
  deriving Repr, Inhabited

namespace Conductivity

variable {α : Type} [Scalar α]

/-- What a transition adds to the response to a photon. -/
def term (eta photon : α) (t : Transition α) : Cplx α :=
  Cplx.ofReal t.velocityX.normSq / Cplx.scale t.energy ⟨t.energy - photon, eta⟩

/-- The response to each photon at a point, before normalization. -/
def row (model : BandModel α) (solve : Solver α) (half : Nat) (photons : List α) (eta : α)
    (k : KPoint α) : Outcome (List (Cplx α)) := do
  let list ← transitions model solve half k
  return photons.map fun photon ↦ Cplx.sum (list.map (term eta photon))

/-- The sums of the columns of a table of a given width. -/
def columnSums (width : Nat) (rows : List (List (Cplx α))) : List (Cplx α) :=
  rows.foldl (List.zipWith (· + ·)) (List.replicate width Cplx.zero)

/-- The factor that makes an average out of a sum over a number of points. -/
def normalization (model : BandModel α) (points : Nat) : α :=
  spinDegeneracy / (Number.ofNat points * model.unitCellArea) / monolayerConductivity

/-- The spectrum of a given response. -/
def ofResponse (photons : List α) (response : List (Cplx α)) : ConductivitySpectrum α :=
  ⟨photons, response, response.map fun z ↦ -z.im⟩

/-- The conductivity spectrum. -/
def spectrum (model : BandModel α) (solve : Solver α) (evaluator : Evaluator)
    (points : List (KPoint α)) (half : Nat) (photons : List α) (eta : α) :
    Outcome (ConductivitySpectrum α) := do
  if photons.isEmpty then return ofResponse [] []
  validateSpectrum points photons eta "eta"
  let rows ← evaluator.evaluate points (row model solve half photons eta)
  let renorm := normalization model points.length
  return ofResponse photons ((columnSums photons.length rows).map (Cplx.scale renorm))

end Conductivity

end Moire
