import Moire.Constants
import Moire.Evaluator
import Moire.Optics.Transition

/-!
# Absorption

The absorption of light of given photon energies, each transition being broadened to a Lorentzian,
as an average over points of the zone.
-/

namespace Moire

open Constants

/-- Refuse what no spectrum can be taken for: no point of the zone, a width that is not positive,
or a photon energy that is not positive. -/
def validateSpectrum {α β : Type} [Scalar α] (points : List β) (photons : List α) (width : α)
    (name : String) : Outcome Unit := do
  if points.isEmpty then refuse "k_points" "spectrum needs at least one k-point"
  if !Number.isPositive width then refuse name "must be positive"
  match photons.find? fun e ↦ !Number.isPositive e with
  | some e =>
      refuse "photon_energies" (Number.text e ++ " meV is not a positive photon energy")
  | none => return ()

/-- The absorption at each photon energy. -/
structure AbsorptionSpectrum (α : Type) where
  photonEnergies : List α
  absorption : List α
  deriving Repr, Inhabited

namespace Absorption

variable {α : Type} [Scalar α]

/-- What a transition adds to the absorption of a photon. -/
def term (broadening photon : α) (t : Transition α) : α :=
  t.strength * broadening / (Number.square (t.energy - photon) + broadening * broadening) / photon

/-- The absorption of each photon at a point, before normalization. -/
def row (model : BandModel α) (solve : Solver α) (half : Nat) (photons : List α) (broadening : α)
    (k : KPoint α) : Outcome (List α) := do
  let list ← transitions model solve half k
  return photons.map fun photon ↦ Number.sum (list.map (term broadening photon))

/-- The sums of the columns of a table of a given width. -/
def columnSums (width : Nat) (rows : List (List α)) : List α :=
  rows.foldl (List.zipWith (· + ·)) (List.replicate width (-0))

/-- The factor that makes an average out of a sum over a number of points. -/
def normalization (model : BandModel α) (points : Nat) : α :=
  model.valleyDegeneracy * absorptionPrefactor / (Number.ofNat points * model.unitCellArea)

/-- The absorption spectrum. -/
def spectrum (model : BandModel α) (solve : Solver α) (evaluator : Evaluator)
    (points : List (KPoint α)) (half : Nat) (photons : List α) (broadening : α) :
    Outcome (AbsorptionSpectrum α) := do
  if photons.isEmpty then return ⟨[], []⟩
  validateSpectrum points photons broadening "broadening"
  let rows ← evaluator.evaluate points (row model solve half photons broadening)
  let renorm := normalization model points.length
  return ⟨photons, (columnSums photons.length rows).map (· * renorm)⟩

/-- What is told before an absorption spectrum is computed. -/
def announcement (half photons : Nat) (broadening : α) : String :=
  s!"Absorption: {photons} photon energies, {half} bands each side, δ = " ++
    Number.text broadening ++ " meV"

end Absorption

end Moire
