import Moire.Bands.Histogram
import Moire.Log
import Moire.Number.Machine
import Moire.Report.Basic

/-!
# The summary of a report

The messages that close a run: one line for each section, with the highest peak of a spectrum and
the smallest of the energy differences.
-/

namespace Moire.Report

/-- The place of a float in the order in which every float has its own: minus zero is below zero,
and what is not a number is beyond the infinities. -/
def totalOrder (x : Float) : Nat :=
  let bits := x.toBits.toNat
  if bits < Binary64.signWeight then bits + Binary64.signWeight
  else 2 * Binary64.signWeight - 1 - bits

/-- The last of the highest values with its energy. -/
def peak? (energies values : List Float) : Option (Float × Float) :=
  (energies.zip values).foldl
    (fun best (energy, value) ↦
      match best with
      | some (_, height) =>
          if totalOrder height ≤ totalOrder value then some (energy, value) else best
      | none => some (energy, value))
    none

/-- A name in front of a value, in a column of twenty characters. -/
def entry (name value : String) : String :=
  String.ofList (name.toList ++ List.replicate (20 - name.length) ' ') ++ value

/-- The peak of a density. -/
def densityLine (name : String) (dos : DensityOfStates Float) : List String :=
  match peak? dos.energies dos.density with
  | some (energy, value) =>
      [entry name ("peak " ++ Layout.scientific 6 value ++ " at " ++ Layout.fixed 2 energy ++
        " meV")]
  | none => []

/-- The peak of an absorption spectrum. -/
def absorptionLine (spectrum : AbsorptionSpectrum Float) : List String :=
  match peak? spectrum.photonEnergies spectrum.absorption with
  | some (energy, value) =>
      [entry "Absorption peak:"
        (Layout.scientific 6 value ++ " at " ++ Layout.fixed 2 energy ++ " meV")]
  | none => []

/-- The peak of a conductivity spectrum. -/
def conductivityLine (spectrum : ConductivitySpectrum Float) : List String :=
  match peak? spectrum.photonEnergies spectrum.sigmaXX with
  | some (energy, value) =>
      [entry "σ_xx / σ0 peak:"
        (Layout.fixed 6 value ++ " at " ++ Layout.fixed 2 energy ++ " meV")]
  | none => []

/-- The shape of a band structure. -/
def bandsLine (bands : BandStructure Float) : List String :=
  let width := (bands.energies.head?.map List.length).getD 0
  [entry "Bands:" (s!"{bands.energies.length} points, {width} bands, shifted by " ++
    Layout.fixed 4 bands.halfFillingEnergy ++ " meV")]

/-- A Chern number. -/
def chernLine (result : ChernResult Float) : String :=
  entry "Chern number:" (Layout.fixedSigned 4 result.chern ++
    s!" (band {result.band}, {result.kpNum}² grid)")

/-- The smallest of a list of energy differences; infinity if there is none. -/
def smallestGap (values : List Float) : Float :=
  values.foldl Histogram.least (1.0 / 0.0)

/-- The messages that close a run. -/
def summary (report : Report Float) : List String :=
  ["\n" ++ ruler, "        Results Summary", ruler,
    entry "Model:" report.model,
    entry "Twist angle:" (Layout.fixed 6 report.twistAngle ++ "°"),
    entry "Hamiltonian size:" s!"{report.dimension}",
    entry "Unit cell area:" (Layout.fixed 4 report.unitCellArea ++ " Å²")] ++
  report.bands.toList.flatMap bandsLine ++
  report.dos.toList.flatMap (densityLine "DOS:") ++
  report.jdos.toList.flatMap (densityLine "JDOS:") ++
  report.absorption.toList.flatMap absorptionLine ++
  report.conductivity.toList.flatMap conductivityLine ++
  report.raman.toList.map
    (fun raman ↦ entry "Raman intensity:" (Layout.scientific 6 raman.intensity)) ++
  report.chern.map chernLine ++
  report.fermiVelocity.toList.map
    (fun v ↦ entry "Fermi velocity:" (Layout.scientific 4 v ++ " m/s")) ++
  report.patch.toList.map (fun rows ↦ entry "Patch:" s!"{rows.length} points") ++
  report.energyDifference.toList.map
    (fun values ↦ entry "Smallest gap:"
      (Layout.fixed 4 (smallestGap values) ++ s!" meV over {values.length} points")) ++
  [ruler ++ "\n"]

end Moire.Report
