import Moire.Config.Document
import Moire.Json.Form
import Moire.Report.Basic
import Moire.Store.Array

/-!
# Reports as JSON

Every result is a record that is written as an object and read back from one. Complex numbers are
pairs. The sections of a report that are missing are written as null and may be left out in what is
read; the list of Chern numbers may not. The form of documents says how reals are read.
-/

namespace Moire

/-- A complex number. -/
def Cplx.toJson (z : Cplx Float) : Json := .reals [z.re, z.im]

/-- Read a complex number. -/
def Cplx.ofJson? (form : Json.Form) (value : Json) : Option (Cplx Float) := do
  let (re, im) ← Json.pair? form.real? value
  return ⟨re, im⟩

/-- Read a table of reals. -/
def Json.Form.table? (form : Json.Form) : Json → Option (List (List Float)) :=
  Json.list? (Json.list? form.real?)

namespace StoredArray

/-- A stored array. -/
def toJson (array : StoredArray Float) : Json :=
  .object [("shape", .counts array.shape), ("data", .reals array.data)]

/-- Read a stored array, whose shape need not fit its data. -/
def ofJson? (form : Json.Form) (value : Json) : Option (StoredArray Float) := do
  match ← value.fields? ["shape", "data"] with
  | [shape, data] =>
      return ⟨← Json.required (Json.list? Json.count?) shape,
        ← Json.required (Json.list? form.real?) data⟩
  | _ => none

end StoredArray

namespace BandStructure

/-- A band structure. -/
def toJson (bands : BandStructure Float) : Json :=
  .object [
    ("energies", .table bands.energies),
    ("labels", .strings bands.labels),
    ("label_positions", .counts bands.labelPositions),
    ("half_filling_energy", .real bands.halfFillingEnergy)]

/-- Read a band structure. -/
def ofJson? (form : Json.Form) (value : Json) : Option (BandStructure Float) := do
  match ← value.fields? ["energies", "labels", "label_positions", "half_filling_energy"] with
  | [energies, labels, positions, shift] =>
      return {
        energies := ← Json.required form.table? energies
        labels := ← Json.required (Json.list? Json.string?) labels
        labelPositions := ← Json.required (Json.list? Json.count?) positions
        halfFillingEnergy := ← Json.required form.real? shift }
  | _ => none

end BandStructure

namespace Histogram

/-- A histogram. -/
def toJson (histogram : Histogram Float) : Json :=
  .object [("edges", .reals histogram.edges), ("counts", .counts histogram.counts)]

/-- Read a histogram. -/
def ofJson? (form : Json.Form) (value : Json) : Option (Histogram Float) := do
  match ← value.fields? ["edges", "counts"] with
  | [edges, counts] =>
      return ⟨← Json.required (Json.list? form.real?) edges,
        ← Json.required (Json.list? Json.count?) counts⟩
  | _ => none

end Histogram

namespace DensityOfStates

/-- A density of states. -/
def toJson (dos : DensityOfStates Float) : Json :=
  .object [
    ("energies", .reals dos.energies),
    ("density", .reals dos.density),
    ("histogram", dos.histogram.toJson)]

/-- Read a density of states. -/
def ofJson? (form : Json.Form) (value : Json) : Option (DensityOfStates Float) := do
  match ← value.fields? ["energies", "density", "histogram"] with
  | [energies, density, histogram] =>
      return {
        energies := ← Json.required (Json.list? form.real?) energies
        density := ← Json.required (Json.list? form.real?) density
        histogram := ← Json.required (Histogram.ofJson? form) histogram }
  | _ => none

end DensityOfStates

namespace AbsorptionSpectrum

/-- An absorption spectrum. -/
def toJson (spectrum : AbsorptionSpectrum Float) : Json :=
  .object [
    ("photon_energies", .reals spectrum.photonEnergies),
    ("absorption", .reals spectrum.absorption)]

/-- Read an absorption spectrum. -/
def ofJson? (form : Json.Form) (value : Json) : Option (AbsorptionSpectrum Float) := do
  match ← value.fields? ["photon_energies", "absorption"] with
  | [photons, absorption] =>
      return ⟨← Json.required (Json.list? form.real?) photons,
        ← Json.required (Json.list? form.real?) absorption⟩
  | _ => none

end AbsorptionSpectrum

namespace ConductivitySpectrum

/-- A conductivity spectrum. -/
def toJson (spectrum : ConductivitySpectrum Float) : Json :=
  .object [
    ("photon_energies", .reals spectrum.photonEnergies),
    ("response", .array (spectrum.response.map Cplx.toJson)),
    ("sigma_xx", .reals spectrum.sigmaXX)]

/-- Read a conductivity spectrum. -/
def ofJson? (form : Json.Form) (value : Json) : Option (ConductivitySpectrum Float) := do
  match ← value.fields? ["photon_energies", "response", "sigma_xx"] with
  | [photons, response, sigma] =>
      return {
        photonEnergies := ← Json.required (Json.list? form.real?) photons
        response := ← Json.required (Json.list? (Cplx.ofJson? form)) response
        sigmaXX := ← Json.required (Json.list? form.real?) sigma }
  | _ => none

end ConductivitySpectrum

namespace RamanSpectrum

/-- A Raman spectrum. -/
def toJson (raman : RamanSpectrum Float) : Json :=
  .object [
    ("per_k", .array (raman.perK.map Cplx.toJson)),
    ("per_transition", .array (raman.perTransition.map Cplx.toJson)),
    ("intensity", .real raman.intensity)]

/-- Read a Raman spectrum. -/
def ofJson? (form : Json.Form) (value : Json) : Option (RamanSpectrum Float) := do
  match ← value.fields? ["per_k", "per_transition", "intensity"] with
  | [perK, perTransition, intensity] =>
      return {
        perK := ← Json.required (Json.list? (Cplx.ofJson? form)) perK
        perTransition := ← Json.required (Json.list? (Cplx.ofJson? form)) perTransition
        intensity := ← Json.required form.real? intensity }
  | _ => none

end RamanSpectrum

namespace ChernResult

/-- A Chern number. -/
def toJson (result : ChernResult Float) : Json :=
  .object [
    ("band", .integer result.band),
    ("kp_num", .count result.kpNum),
    ("curvature", .reals result.curvature),
    ("chern", .real result.chern)]

/-- Read a Chern number. -/
def ofJson? (form : Json.Form) (value : Json) : Option (ChernResult Float) := do
  match ← value.fields? ["band", "kp_num", "curvature", "chern"] with
  | [band, kpNum, curvature, chern] =>
      return {
        band := ← Json.required (Json.intIn? Word.signed32) band
        kpNum := ← Json.required Json.count? kpNum
        curvature := ← Json.required (Json.list? form.real?) curvature
        chern := ← Json.required form.real? chern }
  | _ => none

end ChernResult

namespace Report

/-- The names of the fields of a report in order. -/
def fieldNames : List String := [
  "model", "twist_angle", "dimension", "unit_cell_area", "bands", "dos", "jdos", "absorption",
  "conductivity", "raman", "chern", "fermi_velocity", "patch", "energy_difference"]

/-- A report. -/
def toJson (report : Report Float) : Json :=
  .object (fieldNames.zip [
    .string report.model,
    .real report.twistAngle,
    .count report.dimension,
    .real report.unitCellArea,
    .optional BandStructure.toJson report.bands,
    .optional DensityOfStates.toJson report.dos,
    .optional DensityOfStates.toJson report.jdos,
    .optional AbsorptionSpectrum.toJson report.absorption,
    .optional ConductivitySpectrum.toJson report.conductivity,
    .optional RamanSpectrum.toJson report.raman,
    .array (report.chern.map ChernResult.toJson),
    .optional .real report.fermiVelocity,
    .optional .table report.patch,
    .optional .reals report.energyDifference])

/-- Read a report. -/
def ofJson? (form : Json.Form) (value : Json) : Option (Report Float) := do
  match ← value.fields? fieldNames with
  | [model, angle, dimension, area, bands, dos, jdos, absorption, conductivity, raman, chern,
      velocity, patch, difference] =>
      return {
        model := ← Json.required Json.string? model
        twistAngle := ← Json.required form.real? angle
        dimension := ← Json.required Json.count? dimension
        unitCellArea := ← Json.required form.real? area
        bands := ← Json.nullable (BandStructure.ofJson? form) bands
        dos := ← Json.nullable (DensityOfStates.ofJson? form) dos
        jdos := ← Json.nullable (DensityOfStates.ofJson? form) jdos
        absorption := ← Json.nullable (AbsorptionSpectrum.ofJson? form) absorption
        conductivity := ← Json.nullable (ConductivitySpectrum.ofJson? form) conductivity
        raman := ← Json.nullable (RamanSpectrum.ofJson? form) raman
        chern := ← Json.required (Json.list? (ChernResult.ofJson? form)) chern
        fermiVelocity := ← Json.omissible form.optionalReal? velocity
        patch := ← Json.nullable form.table? patch
        energyDifference := ← Json.nullable (Json.list? form.real?) difference }
  | _ => none

end Report

end Moire
