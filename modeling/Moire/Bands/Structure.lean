import Moire.Bands.Window
import Moire.Evaluator
import Moire.Spectrum.Basic

/-!
# Band energies and band structures

Windowed energies at many points, and along a path. A band structure may be shifted so that the
median of all its energies is zero. The routine that sorts them is a parameter, as the eigensolver
is.
-/

namespace Moire

variable {α : Type} [Scalar α]

/-- The windowed energies at a point. -/
def windowAt (model : BandModel α) (solve : Solver α) (window : BandWindow) (k : KPoint α) :
    Outcome (List α) := do
  let spectrum ← model.spectrum solve k
  spectrum.window window.lower window.upper

/-- The windowed energies at every point, a row for each. -/
def bandEnergies (model : BandModel α) (solve : Solver α) (evaluator : Evaluator)
    (points : List (KPoint α)) (window : BandWindow) : Outcome (List (List α)) :=
  evaluator.evaluate points (windowAt model solve window)

/-- The windowed energies along a path, a row for each point. Each side is a chunk of its own. -/
def pathEnergies (model : BandModel α) (solve : Solver α) (evaluator : Evaluator)
    (path : KPath α) (window : BandWindow) : Outcome (List (List α)) := do
  let rows ← evaluator.evaluateChunks path.segments (windowAt model solve window)
  return rows.flatten

/-- What is told before work along a path begins. -/
def KPath.announcement (path : KPath α) : String :=
  let route := " → ".intercalate path.labels
  s!"Band structure along {route} ({path.length} points)"

/-- A routine that sorts in ascending order. It may stop if the comparisons of the values contradict
each other, as they do for values that are not numbers. -/
abbrev Sorter (α : Type) := List α → Option (List α)

/-- Sort by insertion, which never stops. -/
def Sorter.insertion : Sorter α := fun values ↦ some (Number.sortBy id values)

/-- The median: the mean of the two middle values if their number is even. -/
def median (sort : Sorter α) (values : List α) : Outcome (Option α) :=
  if values.isEmpty then .ok none
  else
    match sort values with
    | none => breakDown .inconsistentOrder
    | some sorted => do
        let mid := sorted.length / 2
        if sorted.length % 2 = 0 then
          let below ← entry sorted (mid - 1)
          let above ← entry sorted mid
          return some ((below + above) / 2)
        else
          let middle ← entry sorted mid
          return some middle

/-- Energies along a path together with its labels. -/
structure BandStructure (α : Type) where
  /-- A row of windowed energies for each point. -/
  energies : List (List α)
  labels : List String
  labelPositions : List Nat
  /-- What was subtracted from every energy. -/
  halfFillingEnergy : α
  deriving Repr, Inhabited

/-- Attach the labels of a path to rows of energies, moving their median to zero if asked to. -/
def BandStructure.ofPathEnergies (sort : Sorter α) (energies : List (List α))
    (labels : List String) (labelPositions : List Nat) (shifted : Bool) :
    Outcome (BandStructure α) := do
  let middle ← if shifted then median sort energies.flatten else .ok none
  let shift := middle.getD 0
  let moved :=
    if Number.eq shift 0 then energies else energies.map fun row ↦ row.map (· - shift)
  return ⟨moved, labels, labelPositions, shift⟩

/-- The band structure along a path. -/
def bandStructure (model : BandModel α) (solve : Solver α) (sort : Sorter α)
    (evaluator : Evaluator) (path : KPath α) (window : BandWindow) (shifted : Bool) :
    Outcome (BandStructure α) := do
  let energies ← pathEnergies model solve evaluator path window
  BandStructure.ofPathEnergies sort energies path.labels path.labelPositions shifted

end Moire
