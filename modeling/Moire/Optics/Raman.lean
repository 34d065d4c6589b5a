import Moire.Evaluator
import Moire.Optics.Transition

/-!
# Resonant Raman scattering

The amplitude of each transition, resonant with the incoming and the outgoing photon, and the
intensity of their sum over a path.
-/

namespace Moire

/-- The inputs of a Raman sum. Energies are in meV. -/
structure RamanParams (α : Type) where
  photonEnergy : α
  phononEnergy : α
  gamma : α
  /-- The bands on each side of the gap. -/
  half : Nat
  /-- Only transitions between so many bands on each side count. -/
  inner : Option Nat
  deriving Repr, Inhabited

/-- Sums of Raman amplitudes. -/
structure RamanSpectrum (α : Type) where
  /-- The amplitude at each point, summed over the transitions. -/
  perK : List (Cplx α)
  /-- The amplitude of each transition, summed over the points. -/
  perTransition : List (Cplx α)
  /-- The squared modulus of the sum of all amplitudes, over the squared area. -/
  intensity : α
  deriving Repr, Inhabited

namespace Raman

variable {α : Type} [Scalar α]

/-- The amplitude of a transition. -/
def term (params : RamanParams α) (t : Transition α) : Cplx α :=
  let incoming : Cplx α := ⟨params.photonEnergy - t.energy - 0, 0 - params.gamma⟩
  let outgoing : Cplx α :=
    ⟨params.photonEnergy - t.energy - params.phononEnergy - 0, 0 - params.gamma⟩
  Cplx.ofReal t.strength / (incoming * outgoing)

/-- The amplitudes of the transitions that count, at a point. -/
def terms (model : BandModel α) (solve : Solver α) (params : RamanParams α) (k : KPoint α) :
    Outcome (List (Cplx α)) := do
  let inner := params.inner.getD params.half
  let list ← transitions model solve params.half k
  return (list.filter fun t ↦ t.valence ≤ inner && t.conduction ≤ inner).map (term params)

/-- Refuse an empty path, and a number of inner bands out of range. -/
def validate {β : Type} (points : List β) (params : RamanParams α) : Outcome Unit := do
  if points.isEmpty then refuse "k_points" "Raman sum needs at least one k-point"
  match params.inner with
  | some inner =>
      if inner = 0 ∨ inner > params.half then
        refuse "inner_transitions" s!"{inner} is not in 1..={params.half}"
  | none => return ()

/-- The amplitudes at every point, a row for each. -/
def termRows (model : BandModel α) (solve : Solver α) (evaluator : Evaluator)
    (points : List (KPoint α)) (params : RamanParams α) : Outcome (List (List (Cplx α))) := do
  validate points params
  evaluator.evaluate points (terms model solve params)

/-- The sums of a table of amplitudes whose rows are as wide as the first. -/
def ofTerms (rows : List (List (Cplx α))) (area : α) : Outcome (RamanSpectrum α) := do
  let width := (rows.head?.map List.length).getD 0
  let perTransition ← (List.range width).mapM fun i ↦ do
    let column ← rows.mapM fun row ↦ entry row i
    return Cplx.sum column
  let perK := rows.map Cplx.sum
  return { perK, perTransition, intensity := (Cplx.sum perK).normSq / Number.square area }

/-- The Raman spectrum over a list of points. -/
def spectrum (model : BandModel α) (solve : Solver α) (evaluator : Evaluator)
    (points : List (KPoint α)) (params : RamanParams α) : Outcome (RamanSpectrum α) := do
  let rows ← termRows model solve evaluator points params
  ofTerms rows model.unitCellArea

/-- What is told before a Raman sum is computed. -/
def announcement (params : RamanParams α) : String :=
  "Raman: E_photon = " ++ Number.text params.photonEnergy ++ " meV, E_phonon = " ++
    Number.text params.phononEnergy ++ " meV, γ = " ++ Number.text params.gamma ++ " meV"

end Raman

end Moire
