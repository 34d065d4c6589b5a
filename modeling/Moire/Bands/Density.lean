import Moire.Bands.Histogram
import Moire.Bands.Window
import Moire.Constants

/-!
# Densities of states

The density of states is a histogram of band energies, and the joint density one of the differences
between conduction and valence energies, both per area and energy and counting both spins. The
difference map follows a single pair of bands over the zone.
-/

namespace Moire

open Constants

/-- States per meV and Å². -/
structure DensityOfStates (α : Type) where
  /-- The middle of each bin. -/
  energies : List α
  density : List α
  histogram : Histogram α
  deriving Repr, Inhabited

variable {α : Type} [Scalar α]

/-- The density of samples taken at a number of points. -/
def DensityOfStates.ofSamples (samples : List α) (points bins : Nat) (range : Option (α × α))
    (area : α) : Outcome (DensityOfStates α) := do
  if points = 0 then refuse "k_points" "no band energies to bin"
  let histogram ← Histogram.create samples bins range
  let width ← histogram.binWidth
  let renorm := spinDegeneracy / (Number.ofNat points * area) / width
  return {
    energies := histogram.centers
    density := histogram.counts.map fun count ↦ Number.ofNat count * renorm
    histogram }

/-- The density of states of rows of energies, one row per point. -/
def densityOfStates (energies : List (List α)) (bins : Nat) (range : Option (α × α)) (area : α) :
    Outcome (DensityOfStates α) :=
  DensityOfStates.ofSamples energies.flatten energies.length bins range area

/-- The pairs of a conduction and a valence energy of a row whose first `valence` entries lie below
the gap. -/
def pairCount (row : List α) (valence : Nat) : Nat :=
  (row.drop valence).length * (row.take valence).length

/-- The differences of all these pairs. The valence energy changes fastest. -/
def pairEnergies (row : List α) (valence : Nat) : List α :=
  (row.drop valence).flatMap fun c ↦ (row.take valence).map fun v ↦ c - v

/-- The differences of all pairs of a row. Memory for all of them is asked for first. -/
def transitionEnergies (row : List α) (valence : Nat) : Outcome (List α) := do
  reserve (pairCount row valence) 8
  return pairEnergies row valence

/-- All pairs of a row have a difference if memory can hold them. -/
theorem transitionEnergies_eq_ok {row : List α} {valence : Nat}
    (h : pairCount row valence * 8 < memoryLimit) :
    transitionEnergies row valence = .ok (pairEnergies row valence) := by
  rw [transitionEnergies, reserve_eq_ok h]
  rfl

/-- The density of transitions within each row. -/
def jointDensityOfStates (energies : List (List α)) (window : BandWindow) (bins : Nat)
    (range : Option (α × α)) (area : α) : Outcome (DensityOfStates α) := do
  let valence ← window.valenceCount
  let differences ← energies.mapM (transitionEnergies · valence)
  DensityOfStates.ofSamples differences.flatten energies.length bins range area

/-- The difference of a conduction and a valence energy of a row, both counted from the gap. -/
def pairDifference (window : BandWindow) (gap valence conduction : Nat) (row : List α) :
    Outcome α := do
  let refused : Outcome α := refuse "band_pair"
    (s!"pair (v{valence}, c{conduction}) is outside window " ++
      s!"[{window.lower}, {window.upper}) of {row.length} bands")
  if valence = 0 ∨ conduction = 0 ∨ valence > gap then refused
  else
    let stop ← addCount gap conduction
    if stop > row.length then refused
    else
      let upper ← entry row (stop - 1)
      let lower ← entry row (gap - valence)
      return upper - lower

/-- The difference of one pair of bands in every row. -/
def energyDifferences (energies : List (List α)) (window : BandWindow) (valence conduction : Nat) :
    Outcome (List α) := do
  let gap ← window.valenceCount
  energies.mapM (pairDifference window gap valence conduction)

end Moire
