import Mathlib
import Moire.Proofs.DocumentText
import Moire.Proofs.RecordReading
import Moire.Proofs.WrittenFiles

/-!
# Exported reports are read back

In any form of documents that meets the assumptions on a form, every section of a report comes back
from its document just if its reals are finite (the lemmas `recovers` of the sections). A report is
therefore read back from the file that it was exported to if all its reals are finite. Of the reals
that are not, the Fermi velocity is special: it may be missing, so that the null it is written as is
read as a missing one. Any other makes the file unreadable (`readDocument_toJson`).
-/

namespace Moire

open Json

/-! ## Sections -/

variable {form : Form}

/-- The parts are finite. -/
def Cplx.finite (z : Cplx Float) : Bool := z.re.isFinite && z.im.isFinite

/-- A complex number comes back just if its parts are finite. -/
theorem Cplx.recovers (hfinite : form.ReadsFinite) (hnull : form.RefusesNull) :
    Recovers toJson (ofJson? form) (fun _ ↦ true) finite where
  fits {z} _ := (recovers_reals hfinite hnull).fits (v := [z.re, z.im]) rfl
  reads {z} _ := by
    show (pair? form.real?
      (.array [(Json.real z.re).readBack, (Json.real z.im).readBack])).bind _ = _
    rw [pair?, (recovers_real hfinite hnull).reads rfl, (recovers_real hfinite hnull).reads rfl]
    simp only [Option.bind_eq_bind, guard_bind, ite_bind_none, Option.pure_def, Option.bind_some,
      ite_and_none]
    rfl

namespace Histogram

/-- The counts fit their words. -/
def sized (histogram : Histogram Float) : Bool := histogram.counts.all isCount

/-- All reals are finite. -/
def finite (histogram : Histogram Float) : Bool := histogram.edges.all Float.isFinite

/-- A histogram comes back just if its edges are finite. -/
theorem recovers (hfinite : form.ReadsFinite) (hnull : form.RefusesNull) :
    Recovers toJson (ofJson? form) sized finite := by
  have hreals := recovers_reals hfinite hnull
  refine recovers_record ["edges", "counts"]
    (fun histogram : Histogram Float ↦ [.reals histogram.edges, .counts histogram.counts])
    (by decide) (fun _ ↦ rfl) (fun histogram h ↦ ?_) fun histogram h ↦ ?_
  · rw [List.forall_mem_cons, List.forall_mem_singleton]
    exact ⟨hreals.fits rfl, recovers_counts.fits h⟩
  · simp only [List.map_cons, List.map_nil, hreals.required rfl,
      recovers_counts.required h, Option.bind_eq_bind, guard_bind, Option.pure_def]
    rfl

end Histogram

namespace BandStructure

/-- The positions fit their words. -/
def sized (bands : BandStructure Float) : Bool := bands.labelPositions.all isCount

/-- All reals are finite. -/
def finite (bands : BandStructure Float) : Bool :=
  (bands.energies.all fun row ↦ row.all Float.isFinite) && bands.halfFillingEnergy.isFinite

/-- A band structure comes back just if all its energies are finite. -/
theorem recovers (hfinite : form.ReadsFinite) (hnull : form.RefusesNull) :
    Recovers toJson (ofJson? form) sized finite := by
  have hreal := recovers_real hfinite hnull
  have htable := recovers_table hfinite hnull
  refine recovers_record ["energies", "labels", "label_positions", "half_filling_energy"]
    (fun bands : BandStructure Float ↦ [.table bands.energies, .strings bands.labels,
      .counts bands.labelPositions, .real bands.halfFillingEnergy])
    (by decide) (fun _ ↦ rfl) (fun bands h ↦ ?_) fun bands h ↦ ?_
  · simp only [List.forall_mem_cons, List.not_mem_nil, false_implies, implies_true, and_true]
    exact ⟨htable.fits rfl, recovers_strings.fits rfl, recovers_counts.fits h, .real _⟩
  · simp only [List.map_cons, List.map_nil, htable.required rfl,
      recovers_strings.required rfl, recovers_counts.required h, hreal.required rfl,
      Option.bind_eq_bind, guard_bind, Option.pure_def, if_true, ite_and_none]
    rfl

end BandStructure

namespace DensityOfStates

/-- The counts fit their words. -/
def sized (dos : DensityOfStates Float) : Bool := dos.histogram.sized

/-- All reals are finite. -/
def finite (dos : DensityOfStates Float) : Bool :=
  dos.energies.all Float.isFinite && (dos.density.all Float.isFinite && dos.histogram.finite)

/-- A density of states comes back just if its reals and those of its histogram are finite. -/
theorem recovers (hfinite : form.ReadsFinite) (hnull : form.RefusesNull) :
    Recovers toJson (ofJson? form) sized finite := by
  have hreals := recovers_reals hfinite hnull
  have hhistogram := Histogram.recovers hfinite hnull
  refine recovers_record ["energies", "density", "histogram"]
    (fun dos : DensityOfStates Float ↦
      [.reals dos.energies, .reals dos.density, dos.histogram.toJson])
    (by decide) (fun _ ↦ rfl) (fun dos h ↦ ?_) fun dos h ↦ ?_
  · simp only [List.forall_mem_cons, List.not_mem_nil, false_implies, implies_true, and_true]
    exact ⟨hreals.fits rfl, hreals.fits rfl, hhistogram.fits h⟩
  · simp only [List.map_cons, List.map_nil, hreals.required rfl,
      hhistogram.required h, Option.bind_eq_bind, guard_bind, Option.pure_def,
      ite_and_none]
    rfl

end DensityOfStates

namespace AbsorptionSpectrum

/-- All reals are finite. -/
def finite (spectrum : AbsorptionSpectrum Float) : Bool :=
  spectrum.photonEnergies.all Float.isFinite && spectrum.absorption.all Float.isFinite

/-- An absorption spectrum comes back just if its columns are finite. -/
theorem recovers (hfinite : form.ReadsFinite) (hnull : form.RefusesNull) :
    Recovers toJson (ofJson? form) (fun _ ↦ true) finite := by
  have hreals := recovers_reals hfinite hnull
  refine recovers_record ["photon_energies", "absorption"]
    (fun spectrum : AbsorptionSpectrum Float ↦
      [.reals spectrum.photonEnergies, .reals spectrum.absorption])
    (by decide) (fun _ ↦ rfl) (fun spectrum _ ↦ ?_) fun spectrum _ ↦ ?_
  · rw [List.forall_mem_cons, List.forall_mem_singleton]
    exact ⟨hreals.fits rfl, hreals.fits rfl⟩
  · simp only [List.map_cons, List.map_nil, hreals.required rfl, Option.bind_eq_bind,
      guard_bind, Option.pure_def, ite_and_none]
    rfl

end AbsorptionSpectrum

/-- A list of complex numbers comes back just if all of them do. -/
theorem recovers_amplitudes (hfinite : form.ReadsFinite) (hnull : form.RefusesNull) :
    Recovers (fun values ↦ .array (values.map Cplx.toJson)) (list? (Cplx.ofJson? form))
      (fun _ ↦ true) (List.all · Cplx.finite) :=
  (Cplx.recovers hfinite hnull).list.mono (fun values _ ↦ all_true values) fun _ ↦ rfl

namespace ConductivitySpectrum

/-- All reals are finite. -/
def finite (spectrum : ConductivitySpectrum Float) : Bool :=
  spectrum.photonEnergies.all Float.isFinite &&
    (spectrum.response.all Cplx.finite && spectrum.sigmaXX.all Float.isFinite)

/-- A conductivity spectrum comes back just if its columns are finite. -/
theorem recovers (hfinite : form.ReadsFinite) (hnull : form.RefusesNull) :
    Recovers toJson (ofJson? form) (fun _ ↦ true) finite := by
  have hreals := recovers_reals hfinite hnull
  have hamplitudes := recovers_amplitudes hfinite hnull
  refine recovers_record ["photon_energies", "response", "sigma_xx"]
    (fun spectrum : ConductivitySpectrum Float ↦ [.reals spectrum.photonEnergies,
      .array (spectrum.response.map Cplx.toJson), .reals spectrum.sigmaXX])
    (by decide) (fun _ ↦ rfl) (fun spectrum _ ↦ ?_) fun spectrum _ ↦ ?_
  · simp only [List.forall_mem_cons, List.not_mem_nil, false_implies, implies_true, and_true]
    exact ⟨hreals.fits rfl, hamplitudes.fits rfl, hreals.fits rfl⟩
  · simp only [List.map_cons, List.map_nil, hreals.required rfl,
      hamplitudes.required rfl, Option.bind_eq_bind, guard_bind, Option.pure_def,
      ite_and_none]
    rfl

end ConductivitySpectrum

namespace RamanSpectrum

/-- All reals are finite. -/
def finite (raman : RamanSpectrum Float) : Bool :=
  raman.perK.all Cplx.finite && (raman.perTransition.all Cplx.finite && raman.intensity.isFinite)

/-- A Raman spectrum comes back just if its numbers are finite. -/
theorem recovers (hfinite : form.ReadsFinite) (hnull : form.RefusesNull) :
    Recovers toJson (ofJson? form) (fun _ ↦ true) finite := by
  have hreal := recovers_real hfinite hnull
  have hamplitudes := recovers_amplitudes hfinite hnull
  refine recovers_record ["per_k", "per_transition", "intensity"]
    (fun raman : RamanSpectrum Float ↦ [.array (raman.perK.map Cplx.toJson),
      .array (raman.perTransition.map Cplx.toJson), .real raman.intensity])
    (by decide) (fun _ ↦ rfl) (fun raman _ ↦ ?_) fun raman _ ↦ ?_
  · simp only [List.forall_mem_cons, List.not_mem_nil, false_implies, implies_true, and_true]
    exact ⟨hamplitudes.fits rfl, hamplitudes.fits rfl, .real _⟩
  · simp only [List.map_cons, List.map_nil, hamplitudes.required rfl,
      hreal.required rfl, Option.bind_eq_bind, guard_bind, Option.pure_def, ite_and_none]
    rfl

end RamanSpectrum

namespace ChernResult

/-- The band and the points of a side fit their words. -/
def sized (result : ChernResult Float) : Bool :=
  Word.signed32.holds result.band && isCount result.kpNum

/-- All reals are finite. -/
def finite (result : ChernResult Float) : Bool :=
  result.curvature.all Float.isFinite && result.chern.isFinite

/-- A Chern result comes back just if its numbers are finite. -/
theorem recovers (hfinite : form.ReadsFinite) (hnull : form.RefusesNull) :
    Recovers toJson (ofJson? form) sized finite := by
  have hreals := recovers_reals hfinite hnull
  have hreal := recovers_real hfinite hnull
  have hword : Recovers Json.integer (intIn? Word.signed32) Word.signed32.holds fun _ ↦ true :=
    recovers_intIn (by decide) (by decide)
  refine recovers_record ["band", "kp_num", "curvature", "chern"]
    (fun result : ChernResult Float ↦ [.integer result.band, .count result.kpNum,
      .reals result.curvature, .real result.chern])
    (by decide) (fun _ ↦ rfl) (fun result h ↦ ?_) fun result h ↦ ?_
  all_goals obtain ⟨hband, hcount⟩ := Bool.and_eq_true_iff.mp h
  · simp only [List.forall_mem_cons, List.not_mem_nil, false_implies, implies_true, and_true]
    exact ⟨hword.fits hband, recovers_count.fits hcount, hreals.fits rfl, .real _⟩
  · simp only [List.map_cons, List.map_nil, hword.required hband, recovers_count.required hcount,
      hreals.required rfl, hreal.required rfl, Option.bind_eq_bind, guard_bind,
      Option.pure_def, if_true, ite_and_none]
    rfl

end ChernResult

/-! ## Reports -/

namespace Report

/-- All whole numbers fit their words. -/
def sized (report : Report Float) : Bool :=
  isCount report.dimension && report.bands.all BandStructure.sized &&
    report.dos.all DensityOfStates.sized && report.jdos.all DensityOfStates.sized &&
    report.chern.all ChernResult.sized

/-- All reals are finite, apart from the Fermi velocity. -/
def finite (report : Report Float) : Bool :=
  report.twistAngle.isFinite && report.unitCellArea.isFinite &&
    report.bands.all BandStructure.finite && report.dos.all DensityOfStates.finite &&
    report.jdos.all DensityOfStates.finite && report.absorption.all AbsorptionSpectrum.finite &&
    report.conductivity.all ConductivitySpectrum.finite &&
    report.raman.all RamanSpectrum.finite && report.chern.all ChernResult.finite &&
    (report.patch.all fun rows ↦ rows.all fun row ↦ row.all Float.isFinite) &&
    report.energyDifference.all fun values ↦ values.all Float.isFinite

/-- The report as it comes back, with a Fermi velocity that is finite. -/
def withFiniteVelocity (report : Report Float) : Report Float :=
  { report with fermiVelocity := report.fermiVelocity.filter Float.isFinite }

/-- The fields of a report as they are written. -/
def fieldValues (report : Report Float) : List Json := [
  .string report.model,
  .real report.twistAngle,
  .count report.dimension,
  .real report.unitCellArea,
  .optional BandStructure.toJson report.bands,
  .optional DensityOfStates.toJson report.dos,
  .optional DensityOfStates.toJson report.jdos,
  .optional AbsorptionSpectrum.toJson report.absorption,
  .optional ConductivitySpectrum.toJson report.conductivity,
  .optional RamanSpectrum.toJson report.raman,
  .array (report.chern.map ChernResult.toJson),
  .optional .real report.fermiVelocity,
  .optional .table report.patch,
  .optional .reals report.energyDifference]

/-- A report is written as its fields under their names. -/
theorem toJson_eq (report : Report Float) :
    report.toJson = .object (fieldNames.zip report.fieldValues) := rfl

theorem all_sized {β : Type} (v : Option β) : v.all (fun _ ↦ true) = true := by
  cases v <;> rfl

/-- The document of a report fits if its whole numbers do. -/
theorem fits_toJson (hfinite : form.ReadsFinite) (hnull : form.RefusesNull) {report : Report Float}
    (h : report.sized) : report.toJson.Fits := by
  simp only [sized, Bool.and_eq_true] at h
  obtain ⟨⟨⟨⟨hdimension, hbands⟩, hdos⟩, hjdos⟩, hchern⟩ := h
  rw [toJson_eq]
  refine fits_record fieldNames ?_
  simp only [fieldValues, List.forall_mem_cons, List.not_mem_nil, false_implies, implies_true,
    and_true]
  exact ⟨.string _, .real _, recovers_count.fits hdimension, .real _,
    (BandStructure.recovers hfinite hnull).optional_fits hbands,
    (DensityOfStates.recovers hfinite hnull).optional_fits hdos,
    (DensityOfStates.recovers hfinite hnull).optional_fits hjdos,
    (AbsorptionSpectrum.recovers hfinite hnull).optional_fits (all_sized _),
    (ConductivitySpectrum.recovers hfinite hnull).optional_fits (all_sized _),
    (RamanSpectrum.recovers hfinite hnull).optional_fits (all_sized _),
    (ChernResult.recovers hfinite hnull).list.fits hchern,
    (recovers_real hfinite hnull).optional_fits (all_sized _),
    (recovers_table hfinite hnull).optional_fits (all_sized _),
    (recovers_reals hfinite hnull).optional_fits (all_sized _)⟩

/-- A report is put together from its fields. -/
theorem ofJson?_of_fields {value : Json} {model angle dimension area bands dos jdos absorption
    conductivity raman chern velocity patch difference : Option Json}
    (h : value.fields? fieldNames = some [model, angle, dimension, area, bands, dos, jdos,
      absorption, conductivity, raman, chern, velocity, patch, difference]) :
    ofJson? form value = (do
      return {
        model := ← required string? model
        twistAngle := ← required form.real? angle
        dimension := ← required count? dimension
        unitCellArea := ← required form.real? area
        bands := ← nullable (BandStructure.ofJson? form) bands
        dos := ← nullable (DensityOfStates.ofJson? form) dos
        jdos := ← nullable (DensityOfStates.ofJson? form) jdos
        absorption := ← nullable (AbsorptionSpectrum.ofJson? form) absorption
        conductivity := ← nullable (ConductivitySpectrum.ofJson? form) conductivity
        raman := ← nullable (RamanSpectrum.ofJson? form) raman
        chern := ← required (list? (ChernResult.ofJson? form)) chern
        fermiVelocity := ← omissible form.optionalReal? velocity
        patch := ← nullable form.table? patch
        energyDifference := ← nullable (list? form.real?) difference }) := by
  rw [ofJson?, h]
  rfl

/-- A report is read back from its document, but for a Fermi velocity that is not finite. -/
theorem ofJson?_toJson (hfinite : form.ReadsFinite) (hnull : form.RefusesNull)
    {report : Report Float} (h : report.sized) :
    ofJson? form report.toJson.readBack =
      if report.finite then some report.withFiniteVelocity else none := by
  simp only [sized, Bool.and_eq_true] at h
  obtain ⟨⟨⟨⟨hdimension, hbands⟩, hdos⟩, hjdos⟩, hchern⟩ := h
  have hvelocity : omissible form.optionalReal?
      (some (optional .real report.fermiVelocity).readBack) =
        some (report.fermiVelocity.filter Float.isFinite) :=
    Form.optionalReal?_readBack hfinite hnull report.fermiVelocity
  rw [toJson_eq, ofJson?_of_fields (fields?_readBack (by decide) rfl)]
  simp only [Option.bind_eq_bind, Option.bind_some,
    recovers_string.required rfl, (recovers_real hfinite hnull).required rfl,
    recovers_count.required hdimension,
    (BandStructure.recovers hfinite hnull).nullable (fun _ h ↦ nomatch h) hbands,
    (DensityOfStates.recovers hfinite hnull).nullable (fun _ h ↦ nomatch h) hdos,
    (DensityOfStates.recovers hfinite hnull).nullable (fun _ h ↦ nomatch h) hjdos,
    (AbsorptionSpectrum.recovers hfinite hnull).nullable (fun _ h ↦ nomatch h) (all_sized _),
    (ConductivitySpectrum.recovers hfinite hnull).nullable (fun _ h ↦ nomatch h) (all_sized _),
    (RamanSpectrum.recovers hfinite hnull).nullable (fun _ h ↦ nomatch h) (all_sized _),
    (ChernResult.recovers hfinite hnull).list.required hchern, hvelocity,
    (recovers_table hfinite hnull).nullable (fun _ h ↦ nomatch h) (all_sized _),
    (recovers_reals hfinite hnull).nullable (fun _ h ↦ nomatch h) (all_sized _), guard_bind,
    Option.pure_def, if_true, ite_and_none]
  simp only [finite, Bool.and_assoc]
  rfl

/-- A report comes back unchanged if its Fermi velocity is finite. -/
theorem withFiniteVelocity_eq_iff (report : Report Float) :
    report.withFiniteVelocity = report ↔ ∀ velocity ∈ report.fermiVelocity, velocity.isFinite := by
  have hfilter : report.withFiniteVelocity = report ↔
      report.fermiVelocity.filter Float.isFinite = report.fermiVelocity := by
    refine ⟨fun h ↦ congrArg Report.fermiVelocity h, fun h ↦ ?_⟩
    rw [withFiniteVelocity, h]
  rw [hfilter]
  cases report.fermiVelocity with
  | none => simp
  | some velocity => by_cases h : velocity.isFinite = true <;> simp [Option.filter_some, h]

/-- What is read from the file that a report was exported to: the report if all its reals are
finite, the report without its Fermi velocity if only that is not finite, and an error otherwise.
Of the form of the document it is assumed that finite reals are read as they were written, that a
real which is not finite is written as null, and that null is refused for a real and read as a
missing one where it may be missing. -/
theorem readDocument_toJson {form : Form} (hfinite : form.ReadsFinite) (hwrites : form.WritesNull)
    (hrefuses : form.RefusesNull) {report : Report Float} (hsized : report.sized)
    {files written : FileTree} {path : String}
    (h : writeDocument form files path report.toJson = .ok written) :
    readDocument form written path (ofJson? form) =
        (if report.finite then .ok report.withFiniteVelocity
          else fail (.transfer path Error.undecodable)) ∧
      (readDocument form written path (ofJson? form) = .ok report ↔
        report.finite ∧ ∀ velocity ∈ report.fermiVelocity, velocity.isFinite) := by
  have hread : readDocument form written path (ofJson? form) =
      (if report.finite then .ok report.withFiniteVelocity
        else fail (.transfer path Error.undecodable)) := by
    rw [readDocument_writeDocument hfinite hwrites (fits_toJson hfinite hrefuses hsized) h,
      ofJson?_toJson hfinite hrefuses hsized]
    split <;> rfl
  refine ⟨hread, ?_⟩
  rw [hread, ← withFiniteVelocity_eq_iff]
  split
  next hall => exact ⟨fun heq ↦ ⟨hall, Except.ok.inj heq⟩, fun hsame ↦ congrArg _ hsame.2⟩
  next hnot => exact ⟨fun heq ↦ (nomatch heq), fun hsame ↦ absurd hsame.1 hnot⟩

/-! ## A report on one point -/

/-- The report on the Chern number of a grid of one point. -/
def ofPoint (curvature velocity : Float) : Report Float where
  model := "continuum"
  twistAngle := 1.5
  dimension := 14
  unitCellArea := 7643.5
  bands := none
  dos := none
  jdos := none
  absorption := none
  conductivity := none
  raman := none
  chern := [⟨1, 1, [curvature], curvature⟩]
  fermiVelocity := some velocity
  patch := none
  energyDifference := none

/-- Every document can be exported to a new file. -/
theorem writeDocument_letter (form : Form) (v : Json) :
    writeDocument form FileTree.empty "r" v =
      .ok (.folder [("r", .file (form.write v).toUTF8)]) := by
  have hlocate : FileTree.empty.locate "r" = .ok ["r"] := rfl
  have hbar : "r".endsWith "/" = false := by decide +kernel
  have hwrite : FileTree.empty.write "r" (form.write v).toUTF8 =
      .ok (.folder [("r", .file (form.write v).toUTF8)]) := by
    rw [FileTree.write, hlocate]
    simp only [hbar]
    rfl
  rw [writeDocument, hwrite]

/-- In the standard form the report on a point with an infinite Fermi velocity comes back without
it. -/
theorem readDocument_ofPoint :
    (Form.standard.ReadsFinite ∧ Form.standard.WritesNull ∧ Form.standard.RefusesNull) ∧
      (ofPoint 0.25 (1.0 / 0.0)).sized ∧
      ∃ written, writeDocument .standard FileTree.empty "r" (ofPoint 0.25 (1.0 / 0.0)).toJson =
          .ok written ∧
        readDocument .standard written "r" (ofJson? .standard) =
          .ok { ofPoint 0.25 (1.0 / 0.0) with fermiVelocity := none } := by
  have hwrite := writeDocument_letter .standard (ofPoint 0.25 (1.0 / 0.0)).toJson
  have hsized : (ofPoint 0.25 (1.0 / 0.0)).sized = true := by decide
  refine ⟨⟨readsFinite_standard, writesNull_standard, refusesNull_standard⟩, hsized, _, hwrite, ?_⟩
  have hfinite : (ofPoint 0.25 (1.0 / 0.0)).finite = true := by decide
  have hvelocity : (1.0 / 0.0 : Float).isFinite = false := by decide
  rw [(readDocument_toJson readsFinite_standard writesNull_standard refusesNull_standard hsized
    hwrite).1, if_pos hfinite, withFiniteVelocity]
  simp [ofPoint, hvelocity]

/-- In the standard form a curvature that is not a number is exported, but the file cannot be read
back. -/
theorem readDocument_curvature_nan :
    (ofPoint (0.0 / 0.0) 800000.0).sized ∧
      ∃ written, writeDocument .standard FileTree.empty "r"
          (ofPoint (0.0 / 0.0) 800000.0).toJson = .ok written ∧
        readDocument .standard written "r" (ofJson? .standard) =
          fail (.transfer "r" Error.undecodable) := by
  have hwrite := writeDocument_letter .standard (ofPoint (0.0 / 0.0) 800000.0).toJson
  have hsized : (ofPoint (0.0 / 0.0) 800000.0).sized = true := by decide
  refine ⟨hsized, _, hwrite, ?_⟩
  have hfits := fits_toJson readsFinite_standard refusesNull_standard hsized
  have hfinite : (ofPoint (0.0 / 0.0) 800000.0).finite = false := by decide
  rw [readDocument_writeDocument readsFinite_standard writesNull_standard hfits hwrite,
    ofJson?_toJson readsFinite_standard refusesNull_standard hsized, hfinite]
  rfl

end Report

end Moire
