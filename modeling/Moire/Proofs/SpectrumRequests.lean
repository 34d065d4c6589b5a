import Mathlib
import Moire.Proofs.AtomicRows
import Moire.Proofs.PickleRoundTrip
import Moire.Proofs.RankedNumbers

/-!
# Spectra for the photon energies that were asked for

The key of a spectrum does not name its photon energies, so what is found under it may be for
others, or be no spectrum at all. A task for a spectrum gets its rows on one of two ways
(`Task.spectrumRows_ok`): they are found and pass a check, or they are computed and saved, because
nothing was found, the check failed, or the store is to be refreshed. On both ways the rows begin
with the energies asked for and are as wide as the task needs them (`Task.spectrumRows_provides`),
so that all its lookups in them find their entries (`Task.run_spectral`). `Task.run_answersPhotons`
is the result for the report and the store.
-/

namespace Moire

/-! ## Rows for photon energies -/

section

variable {α : Type} [Number α]

/-- Every row begins with its photon energy. -/
def Answers (photons : List α) (rows : List (List α)) : Prop :=
  List.Forall₂ (fun row photon ↦ ∃ first rest, row = first :: rest ∧ Number.eq first photon = true)
    rows photons

/-- The first columns of rows that answer photon energies are equal to these, one by one. -/
theorem Answers.firsts {photons : List α} {rows : List (List α)} (h : Answers photons rows) :
    List.Forall₂ (fun first photon ↦ Number.eq first photon = true) (rows.map (·.getD 0 0))
      photons := by
  rw [List.forall₂_map_left_iff]
  refine h.imp fun row photon hrow ↦ ?_
  obtain ⟨first, rest, rfl, heq⟩ := hrow
  exact heq

/-- Rows that pass the check begin with their photon energies. -/
theorem answers_of_answersPhotons {photons : List α} {width : ℕ} {rows : List (List α)}
    (h : answersPhotons photons width rows = true) : Answers photons rows := by
  simp only [answersPhotons, Bool.and_eq_true, beq_iff_eq, List.all_eq_true] at h
  refine List.forall₂_iff_zip.mpr ⟨h.1, fun {row photon} hpair ↦ ?_⟩
  have hhead := (h.2 _ hpair).2
  cases row with
  | nil => cases hhead
  | cons first rest => exact ⟨first, rest, rfl, hhead⟩

/-- The check of stored rows, with first entries that may be missing. They are looked up only in
rows of the right width. -/
def checkedAnswers (photons : List α) (width : ℕ) (rows : List (List α)) : Outcome Bool :=
  if rows.length = photons.length then
    (rows.zip photons).allM fun pair ↦
      if pair.1.length = width then (Number.eq · pair.2) <$> entry pair.1 0 else .ok false
  else .ok false

/-- A test that never fails is made of all items. -/
theorem allM_eq_ok {β : Type} {test : β → Outcome Bool} {f : β → Bool} {items : List β}
    (h : ∀ item ∈ items, test item = .ok (f item)) : items.allM test = .ok (items.all f) := by
  induction items with
  | nil => rfl
  | cons item items ih =>
      rw [List.forall_mem_cons] at h
      rw [List.allM, h.1, List.all_cons]
      cases f item with
      | false => rfl
      | true => exact ih h.2

/-- The check never misses a first entry. -/
theorem checkedAnswers_eq {width : ℕ} (hwidth : 0 < width) (photons : List α)
    (rows : List (List α)) :
    checkedAnswers photons width rows = .ok (answersPhotons photons width rows) := by
  unfold checkedAnswers answersPhotons
  by_cases hlength : rows.length = photons.length
  · rw [if_pos hlength, beq_iff_eq.mpr hlength, Bool.true_and]
    refine allM_eq_ok fun pair _ ↦ ?_
    obtain ⟨row, photon⟩ := pair
    by_cases hrow : row.length = width
    · cases row with
      | nil => exact absurd hrow hwidth.ne
      | cons first rest =>
          dsimp only
          rw [if_pos hrow, beq_iff_eq.mpr hrow]
          rfl
    · simp [hrow]
  · simp [hlength]

end

/-- A positive float is equal to itself. -/
theorem Binary64.isNumber_of_isPositive {x : Float} (h : Number.isPositive x = true) :
    Number.isNumber x = true := by
  obtain ⟨-, hpos⟩ := Bool.and_eq_true_iff.mp h
  obtain hparts | ⟨m, e, hm, hparts⟩ := positive_of_zero_lt hpos
  · rw [isNumber_eq, hparts]
    rfl
  · rw [isNumber_eq, hparts, unpacked_finite false hm, compare_rank (by simp) (by simp)]
    simp

/-- Computed rows begin with their photon energies, which are positive. -/
theorem IsSpectrum.answers {photons : List Float} {rows : List (List Float)}
    (h : IsSpectrum photons rows) : Answers photons rows := by
  obtain ⟨hheads, hpositive⟩ := h
  induction rows generalizing photons with
  | nil =>
      obtain rfl : photons = [] := List.map_eq_nil_iff.mp hheads.symm
      exact .nil
  | cons row rows ih =>
      cases photons with
      | nil => simp at hheads
      | cons photon photons =>
          rw [List.map_cons, List.map_cons, List.cons.injEq] at hheads
          rw [List.forall_mem_cons] at hpositive
          obtain ⟨rest, rfl⟩ := List.head?_eq_some_iff.mp hheads.1
          exact .cons ⟨photon, rest, rfl, Binary64.isNumber_of_isPositive hpositive.1⟩
            (ih hheads.2 hpositive.2)

/-! ## Where the rows come from -/

/-- A step that started from one store and ended with another has left rows under a key: it found
them there and changed nothing, or it saved them. Of an array of the kind that the store keeps they
are found there again. -/
def LeavesRows {σ α : Type} [ResultCache σ α] (kept : StoredArray α → Prop) (before after : σ)
    (key : String) (rows : List (List α)) : Prop :=
  ∃ array, array.toRows = .ok rows ∧
    (ResultCache.load before key = .ok (some array) ∧ after = before ∨
      StoredArray.ofRows rows = .ok array ∧ ResultCache.save before key array = .ok after) ∧
    (kept array → ResultCache.load after key = .ok (some array))

namespace Task

/-- A task for a spectrum has found rows that pass its check, or it has computed and saved them. -/
theorem spectrumRows_ok {σ α : Type} [ResultCache σ α] [Scalar α] {ctx : TaskContext α}
    {key : String} {width : ℕ} {compute : Logged (List (List α))} {s : Session σ}
    {rows : List (List α)} (h : (spectrumRows ctx key width compute s).1 = .ok rows) :
    (∃ array, ResultCache.load s.cache key = .ok (some array) ∧ array.toRows = .ok rows ∧
      answersPhotons ctx.photons width rows = true ∧
      (spectrumRows ctx key width compute s).2.cache = s.cache) ∨
    ((compute s.log).1 = .ok rows ∧ ∃ array, StoredArray.ofRows rows = .ok array ∧
      ResultCache.save s.cache key array =
        .ok (spectrumRows ctx key width compute s).2.cache) := by
  obtain ⟨cause, -, hrun⟩ | ⟨array, log, hload, hrun, hanswers⟩ | hrun :=
    spectrumRows_cases ctx key width compute s
  · rw [hrun] at h
    cases h
  · rw [hrun] at h ⊢
    exact Or.inl ⟨array, hload, h, hanswers rows h, rfl⟩
  · rw [hrun] at h ⊢
    exact Or.inr (computeRows_ok h)

/-- The rows of a spectrum have the width that the task needs, wherever they come from. -/
theorem haveWidth_of_spectrumRows {σ α : Type} [ResultCache σ α] [Scalar α] {ctx : TaskContext α}
    {key : String} {width : ℕ} {compute : Logged (List (List α))}
    (hwidth : Ensures compute (HaveWidth width)) {s : Session σ} {rows : List (List α)}
    (h : (spectrumRows ctx key width compute s).1 = .ok rows) : HaveWidth width rows := by
  obtain ⟨-, -, -, hanswers, -⟩ | ⟨hcompute, -⟩ := spectrumRows_ok h
  · exact haveWidth_of_answersPhotons hanswers
  · exact hwidth s.log rows hcompute

variable {σ : Type} [ResultCache σ Float] {kept : StoredArray Float → Prop}
  {ctx : TaskContext Float}

/-- On every way a spectrum is for the photon energies asked for, and is in the store afterwards. -/
theorem spectrumRows_provides [KeepsSaved σ kept] {key : String} {width : ℕ}
    {compute : Logged (List (List Float))} (hspectrum : Ensures compute (IsSpectrum ctx.photons))
    {s : Session σ} {rows : List (List Float)}
    (h : (spectrumRows ctx key width compute s).1 = .ok rows) :
    Answers ctx.photons rows ∧
      LeavesRows kept s.cache (spectrumRows ctx key width compute s).2.cache key rows := by
  obtain ⟨array, hload, hrows, hanswers, hafter⟩ | ⟨hcompute, array, hpack, hsave⟩ :=
    spectrumRows_ok h
  · refine ⟨answers_of_answersPhotons hanswers, array, hrows, Or.inl ⟨hload, hafter⟩, fun _ ↦ ?_⟩
    rw [hafter, hload]
  · have hcomputed := hspectrum s.log rows hcompute
    exact ⟨hcomputed.answers, array, StoredArray.toRows_ofRows hpack hcomputed.fits,
      Or.inr ⟨hpack, hsave⟩, fun hkept ↦ KeepsSaved.load_save hkept hsave⟩

/-- A task for a spectrum ends as the step does in which it gets its rows, and then reports them. -/
theorem run_spectral (task : Task) {key : String} {width : ℕ}
    {compute : Logged (List (List Float))} {finish : List (List Float) → Run σ Float Unit}
    (change : List (List Float) → Report Float → Report Float)
    (hbody : (task.body ctx : Run σ Float Unit) =
      Run.ofJob (spectrumRows ctx key width compute) >>= finish)
    (hwidth : Ensures compute (HaveWidth width))
    (hfinish : ∀ rows, HaveWidth width rows → ∀ after : Bench σ Float,
      finish rows after = (.ok (), ⟨after.session, change rows after.report⟩))
    (bench : Bench σ Float) :
    ∃ log, (task.run ctx bench).1 =
        (fun _ ↦ ()) <$> (spectrumRows ctx key width compute ⟨bench.session.cache, log⟩).1 ∧
      ∀ rows, (spectrumRows ctx key width compute ⟨bench.session.cache, log⟩).1 = .ok rows →
        (task.run ctx bench).2 =
          ⟨(spectrumRows ctx key width compute ⟨bench.session.cache, log⟩).2,
            change rows bench.report⟩ := by
  obtain ⟨log, hrun⟩ := task.run_eq ctx bench
  rw [hrun, hbody]
  have hstep : ∀ result,
      (spectrumRows ctx key width compute ⟨bench.session.cache, log⟩).1 = result →
      ((Run.ofJob (spectrumRows ctx key width compute) : Run σ Float _)
        ⟨⟨bench.session.cache, log⟩, bench.report⟩).1 = result := fun _ h ↦ h
  refine ⟨log, ?_⟩
  rcases hrows : (spectrumRows ctx key width compute ⟨bench.session.cache, log⟩).1 with cause | rows
  · rw [run_bind_error (hstep _ hrows)]
    exact ⟨rfl, nofun⟩
  · rw [run_bind_ok (hstep _ hrows), hfinish rows (haveWidth_of_spectrumRows hwidth hrows)]
    refine ⟨rfl, fun other hother ↦ ?_⟩
    cases hother
    rfl

section

variable (ctx) (bench : Bench σ Float)

/-- The absorption ends as the step that gets its rows, and reports the two columns of them. -/
theorem run_absorption_eq : ∃ log,
    (absorption.run ctx bench).1 = (fun _ ↦ ()) <$> (spectrumRows ctx ctx.absorptionKey 2
      ctx.absorptionRows ⟨bench.session.cache, log⟩).1 ∧
    ∀ rows, (spectrumRows ctx ctx.absorptionKey 2 ctx.absorptionRows
        ⟨bench.session.cache, log⟩).1 = .ok rows →
      (absorption.run ctx bench).2 =
        ⟨(spectrumRows ctx ctx.absorptionKey 2 ctx.absorptionRows ⟨bench.session.cache, log⟩).2,
          { bench.report with
            absorption := some ⟨rows.map (·.getD 0 0), rows.map (·.getD 1 0)⟩ }⟩ :=
  run_spectral .absorption (fun rows report ↦ { report with
    absorption := some ⟨rows.map (·.getD 0 0), rows.map (·.getD 1 0)⟩ })
    rfl ctx.haveWidth_absorptionRows (fun _ h _ ↦ h.absorption_eq _) bench

/-- The conductivity ends as the step that gets its rows, and reports the three columns of them. -/
theorem run_conductivity_eq : ∃ log,
    (conductivity.run ctx bench).1 = (fun _ ↦ ()) <$> (spectrumRows ctx ctx.conductivityKey 3
      ctx.conductivityRows ⟨bench.session.cache, log⟩).1 ∧
    ∀ rows, (spectrumRows ctx ctx.conductivityKey 3 ctx.conductivityRows
        ⟨bench.session.cache, log⟩).1 = .ok rows →
      (conductivity.run ctx bench).2 =
        ⟨(spectrumRows ctx ctx.conductivityKey 3 ctx.conductivityRows ⟨bench.session.cache, log⟩).2,
          { bench.report with
            conductivity := some (Conductivity.ofResponse (rows.map (·.getD 0 0))
              (rows.map fun row ↦ ⟨row.getD 1 0, row.getD 2 0⟩)) }⟩ :=
  run_spectral .conductivity (fun rows report ↦ { report with
    conductivity := some (Conductivity.ofResponse (rows.map (·.getD 0 0))
      (rows.map fun row ↦ ⟨row.getD 1 0, row.getD 2 0⟩)) })
    rfl ctx.haveWidth_conductivityRows (fun _ h _ ↦ h.conductivity_eq _) bench

end

/-- An absorption spectrum that is stored for the photon energies asked for is reported. -/
theorem run_absorption_stored {bench : Bench σ Float} (hrefresh : ctx.refresh = false)
    {array : StoredArray Float}
    (hload : ResultCache.load bench.session.cache ctx.absorptionKey = .ok (some array))
    {rows : List (List Float)} (hrows : array.toRows = .ok rows)
    (hanswers : answersPhotons ctx.photons 2 rows = true) :
    (absorption.run ctx bench).1 = .ok () := by
  obtain ⟨log, hrun, -⟩ := run_absorption_eq ctx bench
  rw [hrun, spectrumRows_found (s := ⟨bench.session.cache, log⟩) hrefresh hload hrows,
    if_pos hanswers]
  rfl

/-- What a mapped outcome returns comes from what the outcome returned. -/
theorem exists_of_map_ok {β γ : Type} {f : β → γ} {outcome : Outcome β} {value : γ}
    (h : f <$> outcome = .ok value) : ∃ found, outcome = .ok found := by
  cases outcome with
  | error cause => cases h
  | ok found => exact ⟨found, rfl⟩

/-- Rows are put together again from their photon energies and values. -/
theorem zipWith_columns {α β : Type} [Number α] {rows : List (List α)} {value : List α → β}
    {row : α → β → List α} (h : ∀ old ∈ rows, row (old.getD 0 0) (value old) = old) :
    (rows.map (·.getD 0 0)).zipWith row (rows.map value) = rows := by
  rw [List.zipWith_map, List.zipWith_self]
  exact (List.map_congr_left h).trans (List.map_id rows)

/-- Whatever the store holds, an absorption or conductivity spectrum that is reported is for the
photon energies that were asked for, entry by entry, with a value for each. The conductivity is the
negated imaginary part of the response. No lookup in the rows misses its entry: a task whose rows
are there ends well, and so does the check of rows that are found. Afterwards the store holds the
rows of the report under the key, and they begin with the photon energies asked for. -/
theorem run_answersPhotons [KeepsSaved σ kept] (ctx : TaskContext Float) (bench : Bench σ Float) :
    ((absorption.run ctx bench).1 = .ok () →
      ∃ spectrum rows, (absorption.run ctx bench).2.report.absorption = some spectrum ∧
        List.Forall₂ (fun e photon ↦ Number.eq e photon = true) spectrum.photonEnergies
          ctx.photons ∧
        spectrum.absorption.length = ctx.photons.length ∧
        spectrum.photonEnergies.zipWith (fun e a ↦ [e, a]) spectrum.absorption = rows ∧
        Answers ctx.photons rows ∧
        LeavesRows kept bench.session.cache (absorption.run ctx bench).2.session.cache
          ctx.absorptionKey rows) ∧
    ((conductivity.run ctx bench).1 = .ok () →
      ∃ spectrum rows, (conductivity.run ctx bench).2.report.conductivity = some spectrum ∧
        List.Forall₂ (fun e photon ↦ Number.eq e photon = true) spectrum.photonEnergies
          ctx.photons ∧
        spectrum.response.length = ctx.photons.length ∧
        spectrum.sigmaXX = spectrum.response.map (fun z ↦ -z.im) ∧
        spectrum.photonEnergies.zipWith (fun e z ↦ [e, z.re, z.im]) spectrum.response = rows ∧
        Answers ctx.photons rows ∧
        LeavesRows kept bench.session.cache (conductivity.run ctx bench).2.session.cache
          ctx.conductivityKey rows) ∧
    (∃ log, (absorption.run ctx bench).1 = (fun _ ↦ ()) <$> (spectrumRows ctx ctx.absorptionKey 2
      ctx.absorptionRows ⟨bench.session.cache, log⟩).1) ∧
    (∃ log, (conductivity.run ctx bench).1 = (fun _ ↦ ()) <$> (spectrumRows ctx
      ctx.conductivityKey 3 ctx.conductivityRows ⟨bench.session.cache, log⟩).1) ∧
    ∀ width, 0 < width → ∀ rows, checkedAnswers ctx.photons width rows =
      .ok (answersPhotons ctx.photons width rows) := by
  obtain ⟨log, hrun, hafter⟩ := run_absorption_eq ctx bench
  obtain ⟨log', hrun', hafter'⟩ := run_conductivity_eq ctx bench
  refine ⟨fun hok ↦ ?_, fun hok ↦ ?_, ⟨log, hrun⟩, ⟨log', hrun'⟩,
    fun width hwidth rows ↦ checkedAnswers_eq hwidth ctx.photons rows⟩
  · obtain ⟨rows, hrows⟩ := exists_of_map_ok (hrun.symm.trans hok)
    obtain ⟨hanswers, hleaves⟩ := spectrumRows_provides ctx.isSpectrum_absorptionRows hrows
    have hwidth := haveWidth_of_spectrumRows ctx.haveWidth_absorptionRows hrows
    rw [hafter rows hrows]
    refine ⟨_, rows, rfl, hanswers.firsts, ?_, zipWith_columns fun row hrow ↦ ?_, hanswers, hleaves⟩
    · rw [List.length_map, hanswers.length_eq]
    · obtain ⟨first, value, rfl⟩ := List.length_eq_two.mp (hwidth row hrow)
      rfl
  · obtain ⟨rows, hrows⟩ := exists_of_map_ok (hrun'.symm.trans hok)
    obtain ⟨hanswers, hleaves⟩ := spectrumRows_provides ctx.isSpectrum_conductivityRows hrows
    have hwidth := haveWidth_of_spectrumRows ctx.haveWidth_conductivityRows hrows
    rw [hafter' rows hrows]
    refine ⟨_, rows, rfl, hanswers.firsts, ?_, rfl, zipWith_columns fun row hrow ↦ ?_, hanswers,
      hleaves⟩
    · exact (List.length_map _).trans hanswers.length_eq
    · obtain ⟨first, re, im, rfl⟩ := List.length_eq_three.mp (hwidth row hrow)
      rfl

/-- Without points of the grid no spectrum can be computed, but one for the two photon energies is
found in the store. -/
theorem run_answersPhotons_stored :
    let params : ObservableParams Float :=
      { ObservableParams.empty with kpNum := some 0, photonEnergies := some [1, 2] }
    let ctx : TaskContext Float :=
      ⟨.continuum (.ofParams .default), ⟨1⟩, fun _ ↦ none, .insertion, params, false⟩
    let store : MemoryStore Float :=
      MemoryStore.empty.insert ctx.absorptionKey ⟨[2, 2], [1, 0.5, 2, 0.25]⟩
    let bench : Bench (MemoryStore Float) Float := ⟨⟨store, #[]⟩, Report.create ctx.bands⟩
    (absorption.run ctx bench).1 = .ok () ∧
      ∃ spectrum rows, (absorption.run ctx bench).2.report.absorption = some spectrum ∧
        List.Forall₂ (fun e photon ↦ Number.eq e photon = true) spectrum.photonEnergies [1, 2] ∧
        spectrum.absorption.length = 2 ∧
        LeavesRows (fun _ ↦ True) store (absorption.run ctx bench).2.session.cache
          ctx.absorptionKey rows := by
  intro params ctx store bench
  have hload : ResultCache.load store ctx.absorptionKey =
      .ok (some ⟨[2, 2], [1, 0.5, 2, 0.25]⟩) :=
    congrArg Except.ok ((MemoryStore.get?_insert _ _ _ _).trans (if_pos rfl))
  have hrows : StoredArray.toRows ⟨[2, 2], [1, 0.5, 2, 0.25]⟩ =
      .ok ([[1, 0.5], [2, 0.25]] : List (List Float)) := by
    rw [StoredArray.toRows_of_pos two_pos]
    simp [chunksOf]
  have hanswers : answersPhotons ctx.photons 2 [[1, 0.5], [2, 0.25]] = true := by
    show answersPhotons ([1, 2] : List Float) 2 [[1, 0.5], [2, 0.25]] = true
    decide +kernel
  have hok : (absorption.run ctx bench).1 = .ok () :=
    run_absorption_stored rfl hload hrows hanswers
  obtain ⟨spectrum, rows, hreport, henergies, hlength, -, -, hleaves⟩ :=
    (run_answersPhotons ctx bench).1 hok
  exact ⟨hok, spectrum, rows, hreport, henergies, hlength, hleaves⟩

end Task

end Moire
