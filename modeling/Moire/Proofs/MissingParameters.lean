import Mathlib
import Moire.Proofs.BandSelection
import Moire.Proofs.CacheTransparency
import Moire.Proofs.OneWave

/-!
# Parameters that are missing

Defaults for missing parameters stand in two places: tasks have their own, and so has the table of
`ObservableParams.default`. A task does the same with two sets of parameters from which it reads the
same values, `Task.run_congr`. The table of defaults changes none of these values but one,
`Task.readsSame_withDefaults`: a task for a spectrum takes missing photon energies for an empty
list, and the table has fifty of them. A spectrum that a task reports has as many entries as it
reads photon energies, `Task.photonCount_of_run`, which is how the exception shows.
-/

namespace Moire

variable {σ α β : Type}

/-! ## The values that a task reads -/

namespace Task

/-- The task computes a spectrum, and so it needs photon energies. -/
def IsSpectral (task : Task) : Prop := task = .absorption ∨ task = .conductivity

instance (task : Task) : Decidable task.IsSpectral := inferInstanceAs (Decidable (_ ∨ _))

section

variable [Scalar α]

/-- The task reads the same values from both sets of parameters. A missing parameter is read as the
value that the task itself has for it. -/
structure ReadsSame (task : Task) (params params' : ObservableParams α) : Prop where
  kpNum : params.kpNum.getD 70 = params'.kpNum.getD 70
  pathDensity : params.pathDensity.getD 100 = params'.pathDensity.getD 100
  bandWindow : params.bandWindow.getD .standard = params'.bandWindow.getD .standard
  shiftToHalfFilling :
    params.shiftToHalfFilling.getD true = params'.shiftToHalfFilling.getD true
  dosBins : params.dosBins.getD 200 = params'.dosBins.getD 200
  dosRange : params.dosRange = params'.dosRange
  jdosRange : params.jdosRange = params'.jdosRange
  numHalf : params.numHalf.getD 2 = params'.numHalf.getD 2
  photonEnergies : task.IsSpectral →
    params.photonEnergies.getD [] = params'.photonEnergies.getD []
  broadening : params.broadening.getD 100 = params'.broadening.getD 100
  conductivityEta : params.conductivityEta.getD 20 = params'.conductivityEta.getD 20
  ramanPhotonEnergy : params.ramanPhotonEnergy.getD 2000 = params'.ramanPhotonEnergy.getD 2000
  ramanPhononEnergy : params.ramanPhononEnergy.getD 196 = params'.ramanPhononEnergy.getD 196
  ramanGamma : params.ramanGamma.getD 100 = params'.ramanGamma.getD 100
  ramanInnerTransitions : params.ramanInnerTransitions = params'.ramanInnerTransitions
  chernBand : params.chernBand.getD 1 = params'.chernBand.getD 1
  chernKpNum : params.chernKpNum.getD 30 = params'.chernKpNum.getD 30
  fermiProportion : params.fermiProportion.getD 0.01 = params'.fermiProportion.getD 0.01
  patchRadius : params.patchRadius.getD 0.1 = params'.patchRadius.getD 0.1
  patchDensity : params.patchDensity.getD 20 = params'.patchDensity.getD 20
  transitionPair : params.transitionPair.getD (1, 1) = params'.transitionPair.getD (1, 1)

end

open TaskContext in
/-- A task does the same with parameters from which it reads the same. -/
theorem body_congr [Scalar α] [ResultCache σ α] {task : Task} {params params' : ObservableParams α}
    (h : task.ReadsSame params params') (model : TwistedModel α) (evaluator : Evaluator)
    (solve : Solver α) (sort : Sorter α) (refresh : Bool) :
    (task.body ⟨model, evaluator, solve, sort, params, refresh⟩ : Run σ α Unit) =
      task.body ⟨model, evaluator, solve, sort, params', refresh⟩ := by
  cases task with
  | bands =>
      simp only [body, runBands, density, windowKey, energiesAlong, TaskContext.bands, window,
        h.pathDensity, h.bandWindow, h.shiftToHalfFilling]
  | dos =>
      simp only [body, runDos, gridEnergies, windowKey, energiesOverGrid, energiesAt, grid, kpNum,
        TaskContext.bands, window, h.kpNum, h.bandWindow, h.dosBins, h.dosRange]
  | jdos =>
      simp only [body, runJdos, gridEnergies, windowKey, energiesOverGrid, energiesAt, grid, kpNum,
        TaskContext.bands, window, h.kpNum, h.bandWindow, h.dosBins, h.jdosRange]
  | absorption =>
      simp only [body, runAbsorption, spectrumRows, absorptionKey, absorptionRows, absorptionTable,
        grid, kpNum, half, photons, TaskContext.broadening, TaskContext.bands, h.kpNum, h.numHalf,
        h.photonEnergies (.inl rfl), h.broadening]
      rfl
  | conductivity =>
      simp only [body, runConductivity, spectrumRows, conductivityKey, conductivityRows,
        conductivityTable, grid, kpNum, half, photons, eta, TaskContext.bands, h.kpNum, h.numHalf,
        h.photonEnergies (.inr rfl), h.conductivityEta]
      rfl
  | raman =>
      simp only [body, runRaman, density, ramanKey, ramanRows, TaskContext.raman, half,
        TaskContext.bands, h.pathDensity, h.numHalf, h.ramanPhotonEnergy, h.ramanPhononEnergy,
        h.ramanGamma, h.ramanInnerTransitions]
  | chern => simp only [body, runChern, TaskContext.bands, h.chernBand, h.chernKpNum]
  | fermiVelocity => simp only [body, runFermiVelocity, h.fermiProportion]
  | patch =>
      simp only [body, runPatch, energiesAt, TaskContext.bands, window, h.patchRadius,
        h.patchDensity, h.bandWindow]
  | energyDifference =>
      simp only [body, runEnergyDifference, gridEnergies, windowKey, energiesOverGrid, energiesAt,
        grid, kpNum, TaskContext.bands, window, h.kpNum, h.bandWindow, h.transitionPair]

/-- A task runs alike with parameters that it reads as the same. -/
theorem run_congr [Scalar α] [ResultCache σ α] {task : Task} {ctx : TaskContext α}
    {params : ObservableParams α} (h : task.ReadsSame ctx.params params) :
    (task.run ctx : Run σ α Unit) = task.run { ctx with params } := by
  unfold run
  rw [show task.body ctx = task.body { ctx with params } from
    body_congr h ctx.model ctx.evaluator ctx.solve ctx.sort ctx.refresh]

/-- What is missing reads as the default that was put in its place. -/
theorem getD_or_some (given : Option β) (default : β) :
    given.getD default = (given.or (some default)).getD default := by
  cases given <;> rfl

/-- The defaults of a task are those of the table. Photon energies are asked for apart. -/
theorem readsSame_withDefaults [Scalar α] {task : Task} {params : ObservableParams α}
    {photons : Option (List α)}
    (h : task.IsSpectral → params.photonEnergies.getD [] = photons.getD []) :
    task.ReadsSame params { params.withDefaults with photonEnergies := photons } where
  kpNum := getD_or_some _ _
  pathDensity := getD_or_some _ _
  bandWindow := getD_or_some _ _
  shiftToHalfFilling := getD_or_some _ _
  dosBins := getD_or_some _ _
  dosRange := rfl
  jdosRange := rfl
  numHalf := getD_or_some _ _
  photonEnergies := h
  broadening := getD_or_some _ _
  conductivityEta := getD_or_some _ _
  ramanPhotonEnergy := getD_or_some _ _
  ramanPhononEnergy := getD_or_some _ _
  ramanGamma := getD_or_some _ _
  ramanInnerTransitions := rfl
  chernBand := getD_or_some _ _
  chernKpNum := getD_or_some _ _
  fermiProportion := getD_or_some _ _
  patchRadius := getD_or_some _ _
  patchDensity := getD_or_some _ _
  transitionPair := getD_or_some _ _

end Task

/-! ## The photon energies of a reported spectrum -/

/-- The number of photon energies in the section of a task for a spectrum. -/
def Report.photonCount (report : Report α) : Task → Option ℕ
  | .absorption => report.absorption.map (·.photonEnergies.length)
  | .conductivity => report.conductivity.map (·.photonEnergies.length)
  | _ => none

variable [Scalar α] [ResultCache σ α] {ctx : TaskContext α}

/-- The rows of a spectrum have what computed rows have, and what stored rows for the photon
energies have. -/
theorem ensures_spectrumRows {P : List (List α) → Prop} {key : String} {width : ℕ}
    {compute : Logged (List (List α))} (hcompute : Ensures compute P)
    (hstored : ∀ rows, answersPhotons ctx.photons width rows = true → P rows) :
    Ensures (Task.spectrumRows ctx key width compute : Job σ (List (List α))) P := by
  have hcomputed : Ensures (computeRows key compute : Job σ (List (List α))) P := by
    refine Ensures.bind (fun session rows hrows ↦ hcompute session.log rows hrows)
      fun rows hrows ↦ ?_
    exact (ensures_true _).bind fun _ _ ↦ (ensures_true _).bind fun _ _ ↦ ensures_pure hrows
  unfold Task.spectrumRows
  split
  · exact hcomputed
  refine (ensures_true _).bind fun found _ ↦ ?_
  cases found with
  | none => exact hcomputed
  | some array =>
      refine (ensures_true _).bind fun rows _ ↦ ?_
      split
      next hanswers => exact (ensures_true _).bind fun _ _ ↦ ensures_pure (hstored rows hanswers)
      next => exact hcomputed

/-- A spectrum has a row for each photon energy. -/
theorem IsSpectrum.length_eq {photons : List α} {rows : List (List α)}
    (h : IsSpectrum photons rows) : rows.length = photons.length := by
  simpa using congrArg List.length h.heads

/-- Rows that answer photon energies are as many. -/
theorem length_of_answersPhotons {photons : List α} {width : ℕ} {rows : List (List α)}
    (h : answersPhotons photons width rows = true) : rows.length = photons.length := by
  simp only [answersPhotons, Bool.and_eq_true, beq_iff_eq] at h
  exact h.1

namespace Task

/-- A spectrum is reported for as many photon energies as were asked for. -/
theorem photonCount_of_run {task : Task} (hspectral : task.IsSpectral) {bench : Bench σ α}
    (hok : (task.run ctx bench).1 = .ok ()) :
    (task.run ctx bench).2.report.photonCount task = some ctx.photons.length := by
  obtain ⟨log, hrun⟩ := task.run_eq ctx bench
  rw [hrun] at hok ⊢
  obtain rfl | rfl := hspectral
  · have hlength : Ensures (Run.ofJob (spectrumRows ctx ctx.absorptionKey 2 ctx.absorptionRows) :
        Run σ α _) fun rows ↦ rows.length = ctx.photons.length :=
      fun b ↦ ensures_spectrumRows
        (fun s rows hrows ↦ (ctx.isSpectrum_absorptionRows s rows hrows).length_eq)
        (fun _ ↦ length_of_answersPhotons) b.session
    obtain ⟨rows, hrows, hok⟩ := exists_of_bind_ok hok
    obtain ⟨photonEnergies, hphotons, hok⟩ := exists_of_bind_ok hok
    obtain ⟨absorption, habsorption, -⟩ := exists_of_bind_ok hok
    rw [body, runAbsorption, run_bind_ok hrows, run_bind_ok hphotons, run_bind_ok habsorption]
    simp only [Run.amend, Report.photonCount, Option.map_some, length_of_mapM_eq_ok hphotons,
      hlength _ rows hrows]
  · have hlength : Ensures
        (Run.ofJob (spectrumRows ctx ctx.conductivityKey 3 ctx.conductivityRows) : Run σ α _)
        fun rows ↦ rows.length = ctx.photons.length :=
      fun b ↦ ensures_spectrumRows
        (fun s rows hrows ↦ (ctx.isSpectrum_conductivityRows s rows hrows).length_eq)
        (fun _ ↦ length_of_answersPhotons) b.session
    obtain ⟨rows, hrows, hok⟩ := exists_of_bind_ok hok
    obtain ⟨response, hresponse, hok⟩ := exists_of_bind_ok hok
    obtain ⟨photonEnergies, hphotons, -⟩ := exists_of_bind_ok hok
    rw [body, runConductivity, run_bind_ok hrows, run_bind_ok hresponse, run_bind_ok hphotons]
    simp only [Run.amend, Report.photonCount, Conductivity.ofResponse, Option.map_some,
      length_of_mapM_eq_ok hphotons, hlength _ rows hrows]

end Task

/-! ## The two tables of defaults -/

/-- Whatever parameters are missing, a task has the same result, report, store and log with the
defaults in their place, if missing photon energies are replaced by an empty list. With the default
for photon energies in place as well it is the same for every task but one for a spectrum. There the
two differ if the photon energies are missing: the spectrum that is reported is empty, and it has
fifty photon energies with the default in place. -/
theorem run_withDefaults (ctx : TaskContext α) (task : Task) (bench : Bench σ α) :
    let filled : TaskContext α := { ctx with params := ctx.params.withDefaults }
    let dark : TaskContext α :=
      { ctx with params := { ctx.params.withDefaults with photonEnergies := some ctx.photons } }
    task.run ctx bench = task.run dark bench ∧
    (¬ (task.IsSpectral ∧ ctx.params.photonEnergies = none) →
      task.run ctx bench = task.run filled bench) ∧
    (task.IsSpectral → ctx.params.photonEnergies = none →
      ((task.run ctx bench).1 = .ok () →
        (task.run ctx bench).2.report.photonCount task = some 0) ∧
      ((task.run filled bench).1 = .ok () →
        (task.run filled bench).2.report.photonCount task = some 50)) := by
  intro filled dark
  refine ⟨?_, fun hexcept ↦ ?_, fun hspectral hmissing ↦ ⟨fun hok ↦ ?_, fun hok ↦ ?_⟩⟩
  · have hsame : task.ReadsSame ctx.params dark.params := Task.readsSame_withDefaults fun _ ↦ rfl
    exact congrFun (Task.run_congr hsame) bench
  · have hphotons : task.IsSpectral →
        ctx.params.photonEnergies.getD [] = ctx.params.withDefaults.photonEnergies.getD [] := by
      intro hspectral
      obtain ⟨photons, hgiven⟩ :=
        Option.ne_none_iff_exists'.mp fun hnone ↦ hexcept ⟨hspectral, hnone⟩
      simp only [ObservableParams.withDefaults, hgiven, Option.some_or]
    exact congrFun (Task.run_congr (Task.readsSame_withDefaults hphotons)) bench
  · have hphotons : ctx.photons = [] := by rw [TaskContext.photons, hmissing, Option.getD_none]
    rw [Task.photonCount_of_run hspectral hok, hphotons, List.length_nil]
  · have hphotons : filled.photons.length = 50 := by
      show (((ctx.params.photonEnergies.or _).getD []).length) = 50
      rw [hmissing, Option.none_or]
      exact (List.length_map _).trans List.length_range
    rw [Task.photonCount_of_run hspectral hok, hphotons]

/-! ### At one point of the zone -/

/-- Positive photon energies at some point are valid. -/
theorem validateSpectrum_of_positive {k : β} {photons : List α} {width : α} (name : String)
    (hwidth : Number.isPositive width = true)
    (hphotons : ∀ photon ∈ photons, Number.isPositive photon = true) :
    validateSpectrum [k] photons width name = .ok () := by
  have hfind : photons.find? (fun e ↦ !Number.isPositive e) = none := by
    simpa [List.find?_eq_none] using hphotons
  unfold validateSpectrum
  rw [hfind, hwidth]
  rfl

/-- The rows of an absorption spectrum whose input is valid are its table. -/
theorem TaskContext.absorptionRows_eq_ok {points : List (KPoint α)} {rows : List (List α)}
    (hgrid : ctx.grid = .ok points)
    (hvalid : validateSpectrum points ctx.photons ctx.broadening "broadening" = .ok ())
    (htable : ctx.absorptionTable points = .ok rows) : ctx.absorptionRows.result = .ok rows := by
  refine returns_bind (show _ = Except.ok points from hgrid) fun _ ↦ ?_
  split
  · refine returns_bind (show _ = Except.ok () from hvalid) fun _ ↦ returns_bind rfl fun _ ↦
      returns_bind rfl fun _ ↦ ?_
    exact htable
  · exact htable

/-- At a point with transitions there is an absorption for each photon energy. -/
theorem exists_absorptionTable {k : KPoint α}
    (hvalid : validateSpectrum [k] ctx.photons ctx.broadening "broadening" = .ok ())
    {list : List (Transition α)} (hlist : transitions ctx.bands ctx.solve ctx.half k = .ok list) :
    ∃ values, values.length = ctx.photons.length ∧
      ctx.absorptionTable [k] = .ok (ctx.photons.zipWith (fun e a ↦ [e, a]) values) := by
  by_cases hempty : ctx.photons.isEmpty = true
  · refine ⟨[], (List.length_eq_zero_iff.mpr (List.isEmpty_iff.mp hempty)).symm, ?_⟩
    refine bind_eq_ok.mpr ⟨⟨[], []⟩, if_pos hempty, ?_⟩
    rw [List.isEmpty_iff.mp hempty]
    rfl
  · have hrow : Absorption.row ctx.bands ctx.solve ctx.half ctx.photons ctx.broadening k =
        .ok (ctx.photons.map fun photon ↦
          Number.sum (list.map (Absorption.term ctx.broadening photon))) := by
      rw [Absorption.row, hlist]
      rfl
    have hrows : ctx.evaluator.evaluate [k] (Absorption.row ctx.bands ctx.solve ctx.half ctx.photons
        ctx.broadening) = .ok [_] :=
      Evaluator.evaluate_eq_ok _ (congrArg (fun row ↦ [row]) hrow.symm)
    obtain ⟨values, hvalues, hspectrum⟩ : ∃ values : List α, values.length = ctx.photons.length ∧
        Absorption.spectrum ctx.bands ctx.solve ctx.evaluator [k] ctx.half ctx.photons
          ctx.broadening = .ok ⟨ctx.photons, values⟩ := by
      refine ⟨_, ?_, (if_neg hempty).trans
        (bind_eq_ok.mpr ⟨(), hvalid, bind_eq_ok.mpr ⟨_, hrows, rfl⟩⟩)⟩
      simp [Absorption.columnSums]
    exact ⟨values, hvalues, bind_eq_ok.mpr ⟨_, hspectrum, rfl⟩⟩

/-- On an empty store an absorption spectrum that can be computed is reported. -/
theorem Task.absorption_returns {bench : Bench (MemoryStore α) α}
    (hblank : ∀ key, ResultCache.load bench.session.cache key = .ok none) {rows : List (List α)}
    (hrows : ctx.absorptionRows.result = .ok rows) (hwidth : HaveWidth 2 rows)
    (hcount : rows.length * 2 < countLimit) : (absorption.run ctx bench).1 = .ok () := by
  obtain ⟨log, hrun⟩ := absorption.run_eq ctx bench
  have harray : StoredArray.ofRows rows =
      .ok ⟨[rows.length, (rows.head?.map List.length).getD 0], rows.flatten⟩ := by
    refine StoredArray.ofRows_eq_ok_iff.mpr ⟨fun row hrow other hother ↦ ?_, ⟨by omega, ?_⟩, rfl⟩
    · rw [hwidth row hrow, hwidth other hother]
    · rw [length_flatten_of_forall hwidth]
      exact hcount
  have hmiss : (spectrumRows ctx ctx.absorptionKey 2 ctx.absorptionRows
      ⟨bench.session.cache, log⟩).1 = .ok rows := by
    have hcomputed := (computeRows_eq_ok ctx.steady_absorptionRows hrows harray ctx.absorptionKey
      ⟨bench.session.cache, log⟩).1
    obtain ⟨_, hload, -⟩ | ⟨_, _, hload, -⟩ | hrun :=
      spectrumRows_cases ctx ctx.absorptionKey 2 ctx.absorptionRows ⟨bench.session.cache, log⟩
    · cases hload.symm.trans (hblank _)
    · cases hload.symm.trans (hblank _)
    · rw [hrun]
      exact hcomputed
  have hjob : ((Run.ofJob (spectrumRows ctx ctx.absorptionKey 2 ctx.absorptionRows) :
      Run (MemoryStore α) α _) ⟨⟨bench.session.cache, log⟩, bench.report⟩).1 = .ok rows := hmiss
  rw [hrun, body]
  exact returns_bind hjob fun after ↦ congrArg Prod.fst (hwidth.absorption_eq after)

namespace Continuum

open RealScalar

/-- In the model of one wave an absorption spectrum is reported for any photon energies. -/
theorem absorption_oneWave {ctx : TaskContext ℝ}
    (hmodel : ctx.model = .continuum (.ofParams (oneWave 1))) (hsolve : ctx.solve = chiralSolver)
    (hkpNum : ctx.kpNum = 1) (hhalf : ctx.half = 1) (hbroadening : 0 < ctx.broadening)
    (hphotons : ∀ photon ∈ ctx.photons, 0 < photon)
    (hcount : ctx.photons.length * 2 < countLimit) {bench : Bench (MemoryStore ℝ) ℝ}
    (hblank : ∀ key, ResultCache.load bench.session.cache key = .ok none) :
    (Task.absorption.run ctx bench).1 = .ok () := by
  have hbands : ctx.bands = (Model.ofParams (oneWave 1)).toBandModel := by
    rw [TaskContext.bands, hmodel]
    rfl
  obtain ⟨k, hgrid⟩ : ∃ k, ctx.grid = .ok [k] := by
    rw [TaskContext.grid, hkpNum]
    exact ⟨_, rfl⟩
  obtain ⟨list, hlist⟩ : ∃ list, transitions ctx.bands ctx.solve ctx.half k = .ok list := by
    have hspectrum := spectrum_oneWave (show (oneWave 1).loopTimes = 0 from rfl) k
    rw [hbands, hsolve, hhalf]
    have hmid (a b : Level ℝ) : (⟨#[a, b]⟩ : Spectrum ℝ).mid = 1 := by
      simp [Spectrum.mid, Spectrum.size]
    refine ⟨_, transitions_of_bands hspectrum (hmid _ _).ge ?_⟩
    rw [hmid]
    decide
  have hvalid : validateSpectrum [k] ctx.photons ctx.broadening "broadening" = .ok () :=
    validateSpectrum_of_positive _ (by simpa using hbroadening) (by simpa using hphotons)
  obtain ⟨values, hvalues, htable⟩ := exists_absorptionTable hvalid hlist
  refine Task.absorption_returns hblank (TaskContext.absorptionRows_eq_ok hgrid hvalid htable) ?_ ?_
  · exact haveWidth_zipWith _ _ fun _ _ ↦ rfl
  · rw [List.length_zipWith, hvalues, min_self]
    exact hcount

end Continuum

open Continuum RealScalar in
/-- At the centre of the zone of a model with two bands the absorption spectrum is empty without
photon energies, and it has fifty entries with the defaults in place. -/
theorem run_withDefaults_onePoint :
    let params : ObservableParams ℝ :=
      { ObservableParams.empty with kpNum := some 1, numHalf := some 1 }
    let ctx : TaskContext ℝ :=
      ⟨.continuum (.ofParams (oneWave 1)), ⟨1⟩, chiralSolver, .insertion, params, false⟩
    let filled : TaskContext ℝ := { ctx with params := params.withDefaults }
    let bench : Bench (MemoryStore ℝ) ℝ := ⟨⟨MemoryStore.empty, #[]⟩, Report.create ctx.bands⟩
    Task.dos.run ctx bench = Task.dos.run filled bench ∧
    (Task.absorption.run ctx bench).1 = .ok () ∧
    (Task.absorption.run ctx bench).2.report.photonCount .absorption = some 0 ∧
    (Task.absorption.run filled bench).1 = .ok () ∧
    (Task.absorption.run filled bench).2.report.photonCount .absorption = some 50 := by
  intro params ctx filled bench
  obtain ⟨-, hsame, -⟩ := run_withDefaults ctx .dos bench
  obtain ⟨-, -, hexcept⟩ := run_withDefaults ctx .absorption bench
  have hphotons : filled.photons = (List.range 50).map fun i ↦ 20 * Number.ofNat (i + 1) := rfl
  have hok : (Task.absorption.run ctx bench).1 = .ok () := by
    have hbroadening : ctx.broadening = 100 := rfl
    have hnone : ctx.photons = [] := rfl
    refine absorption_oneWave rfl rfl rfl rfl ?_ (by simp [hnone]) (by decide)
      MemoryStore.load_empty
    rw [hbroadening]
    norm_num
  have hok' : (Task.absorption.run filled bench).1 = .ok () := by
    have hbroadening : filled.broadening = 100 := rfl
    refine absorption_oneWave rfl rfl rfl rfl ?_ ?_ ?_ MemoryStore.load_empty
    · rw [hbroadening]
      norm_num
    · rw [hphotons]
      intro photon hphoton
      obtain ⟨i, -, rfl⟩ := List.mem_map.mp hphoton
      rw [ofNat_eq]
      positivity
    · rw [hphotons, List.length_map, List.length_range]
      decide
  obtain ⟨hzero, hfifty⟩ := hexcept (by decide) rfl
  exact ⟨hsame (by decide), hok, hzero hok, hok', hfifty hok'⟩

end Moire
