import Mathlib.Tactic
import Moire.Proofs.PackedTables
import Moire.Proofs.ResultKeys
import Moire.Proofs.TwoRuns

/-!
# Rows that are stored and loaded

A table that was packed can be unpacked again unless its rows are empty and too many. The tables
that tasks store are never of that kind: a window holds a band, a row of a spectrum begins with its
photon energy, and memory for the rows of Raman amplitudes was there when they were computed
(`Stores.fits`). The rows of a spectrum tell the photon energies that it is for
(`IsSpectrum.photons_eq`).
-/

namespace Moire

variable {α : Type}

/-! ## Values of an evaluation -/

/-- Every value of an evaluation is the value at one of the points. -/
theorem exists_of_mem_evaluate {β γ : Type} {evaluator : Evaluator} {points : List β}
    {f : β → Outcome γ} {values : List γ} (h : evaluator.evaluate points f = .ok values) :
    ∀ value ∈ values, ∃ point ∈ points, f point = .ok value := by
  intro value hvalue
  have hmem : Except.ok value ∈ points.map f :=
    Evaluator.evaluate_eq_ok_iff.mp h ▸ List.mem_map_of_mem hvalue
  exact List.mem_map.mp hmem

/-- Every value of an evaluation in chunks is the value at some point. -/
theorem exists_of_mem_evaluateChunks {β γ : Type} {evaluator : Evaluator} {chunks : List (List β)}
    {f : β → Outcome γ} {values : List (List γ)}
    (h : evaluator.evaluateChunks chunks f = .ok values) :
    ∀ value ∈ values.flatten, ∃ point, f point = .ok value := by
  intro value hvalue
  have hvalues := (collect_serial (List.Perm.refl _)).values values h
  obtain ⟨chunk, hchunk, hvalue⟩ := List.mem_flatten.mp hvalue
  have hmem : chunk.map .ok ∈ chunks.map (List.map f) := hvalues ▸ List.mem_map_of_mem hchunk
  obtain ⟨points, -, hpoints⟩ := List.mem_map.mp hmem
  have hvalue' : Except.ok value ∈ points.map f := hpoints ▸ List.mem_map_of_mem hvalue
  obtain ⟨point, -, hpoint⟩ := List.mem_map.mp hvalue'
  exact ⟨point, hpoint⟩

variable [Scalar α]

/-- A window holds at least one band, and its ends fit a word. -/
theorem length_windowAt {model : BandModel α} {solve : Solver α} {window : BandWindow}
    {k : KPoint α} {row : List α} (h : windowAt model solve window k = .ok row) :
    0 < row.length ∧ row.length < memoryLimit := by
  rw [windowAt, bind_eq_ok] at h
  obtain ⟨spectrum, -, h⟩ := h
  rw [Spectrum.window, bind_eq_ok] at h
  obtain ⟨start, hstart, h⟩ := h
  rw [bind_eq_ok] at h
  obtain ⟨stop, hstop, h⟩ := h
  by_cases hrefused : window.lower ≥ window.upper ∨ start < 0 ∨ stop > spectrum.size
  · rw [if_pos hrefused] at h
    cases h
  · rw [if_neg hrefused] at h
    cases h
    have hstart' : (spectrum.mid : ℤ) + window.lower = start := Word.eq_of_check hstart
    have hstop' : (spectrum.mid : ℤ) + window.upper = stop := Word.eq_of_check hstop
    have hbound := (Word.bounds_of_check hstop).2
    have hsize : spectrum.energies.length = spectrum.size := by
      simp [Spectrum.energies, Spectrum.size]
    rw [List.length_take, List.length_drop, hsize]
    dsimp only [Word.signed64] at hbound
    unfold memoryLimit
    omega

/-! ## Spectra -/

/-- The rows of a spectrum: each begins with its photon energy, and the energies are positive. -/
structure IsSpectrum (photons : List α) (rows : List (List α)) : Prop where
  heads : rows.map List.head? = photons.map some
  positive : ∀ photon ∈ photons, Number.isPositive photon = true

/-- The rows of a spectrum are not empty, so they are kept. -/
theorem IsSpectrum.fits {photons : List α} {rows : List (List α)} (h : IsSpectrum photons rows) :
    Fits rows := by
  refine Or.inl fun row hrow hnil ↦ ?_
  have hmem : row.head? ∈ photons.map some := h.heads ▸ List.mem_map_of_mem hrow
  simp [hnil] at hmem

/-- Rows that answer photon energies are rows for these energies. -/
theorem IsSpectrum.photons_eq [KeyLaws α] {photons asked : List α} {rows : List (List α)}
    {width : ℕ} (h : IsSpectrum photons rows) (hanswers : answersPhotons asked width rows = true) :
    asked = photons := by
  obtain ⟨hheads, hpositive⟩ := h
  simp only [answersPhotons, Bool.and_eq_true, beq_iff_eq, List.all_eq_true] at hanswers
  obtain ⟨hlength, hall⟩ := hanswers
  have hlength' : rows.length = photons.length := by simpa using congrArg List.length hheads
  apply List.ext_getElem (by omega)
  intro i hi hi'
  have hrow : i < rows.length := by omega
  have hhead : rows[i].head? = some photons[i] := by
    have hget := congrArg (·[i]?) hheads
    simpa [hrow, hi'] using hget
  have hpair : (rows[i], asked[i]) ∈ rows.zip asked := by
    rw [← List.getElem_zip (h := by rw [List.length_zip]; omega)]
    exact List.getElem_mem _
  obtain ⟨-, heq⟩ := hall _ hpair
  rw [hhead] at heq
  exact KeyLaws.eq_of_isPositive (hpositive _ (List.getElem_mem _)) heq

/-- Every row has the given width. -/
def HaveWidth (width : ℕ) (rows : List (List α)) : Prop := ∀ row ∈ rows, row.length = width

omit [Scalar α] in
/-- Rows of one width are made from two lists. -/
theorem haveWidth_zipWith {β : Type} {f : α → β → List α} {width : ℕ} (photons : List α)
    (values : List β) (hf : ∀ photon value, (f photon value).length = width) :
    HaveWidth width (photons.zipWith f values) := by
  intro row hrow
  obtain ⟨i, hi, rfl⟩ := List.getElem_of_mem hrow
  rw [List.getElem_zipWith, hf]

/-- Rows that answer photon energies have the width that was asked for. -/
theorem haveWidth_of_answersPhotons {photons : List α} {width : ℕ} {rows : List (List α)}
    (h : answersPhotons photons width rows = true) : HaveWidth width rows := by
  simp only [answersPhotons, Bool.and_eq_true, beq_iff_eq, List.all_eq_true] at h
  intro row hrow
  rw [← List.map_fst_zip h.1.le] at hrow
  obtain ⟨⟨first, photon⟩, hpair, rfl⟩ := List.mem_map.mp hrow
  exact (h.2 _ hpair).1

/-- Every lookup within the width finds its entry. -/
theorem HaveWidth.mapM_entry {width i : ℕ} {rows : List (List α)} (h : HaveWidth width rows)
    (hi : i < width) : rows.mapM (entry · i) = .ok (rows.map (·.getD i 0)) :=
  Moire.mapM_entry 0 fun row hrow ↦ (h row hrow).symm ▸ hi

/-- The response is there in every row of a conductivity spectrum. -/
theorem HaveWidth.mapM_responseEntry {rows : List (List α)} (h : HaveWidth 3 rows) :
    rows.mapM responseEntry =
      .ok (rows.map fun row ↦ (⟨row.getD 1 0, row.getD 2 0⟩ : Cplx α)) := by
  refine mapM_eq_ok ?_
  rw [List.map_map]
  refine List.map_congr_left fun row hrow ↦ ?_
  have hlength := h row hrow
  rw [responseEntry, entry_getD 0 (show 1 < row.length by omega),
    entry_getD 0 (show 2 < row.length by omega)]
  rfl

section

variable {σ : Type} {rows : List (List α)} (bench : Bench σ α)

/-- Rows of an absorption spectrum are reported. -/
theorem HaveWidth.absorption_eq (h : HaveWidth 2 rows) :
    (do
      let photonEnergies ← rows.mapM (m := Outcome) (entry · 0)
      let absorption ← rows.mapM (m := Outcome) (entry · 1)
      Run.amend ({ · with absorption := some ⟨photonEnergies, absorption⟩ }) : Run σ α Unit) bench =
      (.ok (), ⟨bench.session, { bench.report with
        absorption := some ⟨rows.map (·.getD 0 0), rows.map (·.getD 1 0)⟩ }⟩) := by
  rw [run_bind_ok (show _ = Except.ok _ from h.mapM_entry two_pos),
    run_bind_ok (show _ = Except.ok _ from h.mapM_entry one_lt_two)]
  rfl

/-- Rows of a conductivity spectrum are reported. -/
theorem HaveWidth.conductivity_eq (h : HaveWidth 3 rows) :
    (do
      let response ← rows.mapM (m := Outcome) responseEntry
      let photonEnergies ← rows.mapM (m := Outcome) (entry · 0)
      Run.amend ({ · with
        conductivity := some (Conductivity.ofResponse photonEnergies response) }) : Run σ α Unit)
        bench =
      (.ok (), ⟨bench.session, { bench.report with
        conductivity := some (Conductivity.ofResponse (rows.map (·.getD 0 0))
          (rows.map fun row ↦ ⟨row.getD 1 0, row.getD 2 0⟩)) }⟩) := by
  rw [run_bind_ok (show _ = Except.ok _ from h.mapM_responseEntry),
    run_bind_ok (show _ = Except.ok _ from h.mapM_entry three_pos)]
  rfl

end

/-- The checks before a spectrum let only positive photon energies through. -/
theorem validateSpectrum_eq_ok {β : Type} {points : List β} {photons : List α} {width : α}
    {name : String} (h : validateSpectrum points photons width name = .ok ()) :
    ∀ photon ∈ photons, Number.isPositive photon = true := by
  have hfind : photons.find? (fun e ↦ !Number.isPositive e) = none := by
    by_contra hsome
    obtain ⟨e, he⟩ := Option.ne_none_iff_exists'.mp hsome
    by_cases hpoints : points.isEmpty = true
    · simp only [validateSpectrum, if_pos hpoints] at h
      cases h
    by_cases hwidth : (!Number.isPositive width) = true
    · simp only [validateSpectrum, if_neg hpoints, if_pos hwidth] at h
      cases h
    · simp only [validateSpectrum, if_neg hpoints, if_neg hwidth, he] at h
      cases h
  simpa using hfind

/-- Adding up rows of one width gives a row of that width. -/
theorem length_foldl_zipWith {β : Type} {f : β → β → β} {rows : List (List β)} {width : ℕ}
    {init : List β} (hinit : init.length = width) (h : ∀ row ∈ rows, row.length = width) :
    (rows.foldl (List.zipWith f) init).length = width := by
  induction rows generalizing init with
  | nil => exact hinit
  | cons row rows ih =>
      rw [List.forall_mem_cons] at h
      exact ih (by rw [List.length_zipWith, hinit, h.1, min_self]) h.2

/-- A value for each photon energy makes a spectrum. -/
theorem isSpectrum_zipWith {β γ : Type} {points : List γ} {f : α → β → List α}
    (hf : ∀ photon value, (f photon value).head? = some photon) {photons : List α} {width : α}
    {name : String} (hvalid : validateSpectrum points photons width name = .ok ())
    {values : List β} (hlength : values.length = photons.length) :
    IsSpectrum photons (photons.zipWith f values) := by
  refine ⟨?_, validateSpectrum_eq_ok hvalid⟩
  clear hvalid
  induction photons generalizing values with
  | nil => rfl
  | cons photon photons ih =>
      cases values with
      | nil => simp at hlength
      | cons value values =>
          rw [List.zipWith_cons_cons, List.map_cons, List.map_cons, hf, ih (by simpa using hlength)]

/-- Rows that were computed from the transitions at each point have a value for each photon
energy. -/
theorem length_of_mem_evaluate {β : Type} {model : BandModel α} {solve : Solver α}
    {evaluator : Evaluator} {points : List (KPoint α)} {half : ℕ} {photons : List α}
    {term : List (Transition α) → α → β} {rows : List (List β)}
    (h : evaluator.evaluate points (fun k ↦ do
      let list ← transitions model solve half k
      return photons.map (term list)) = .ok rows) :
    ∀ row ∈ rows, row.length = photons.length := by
  intro row hrow
  obtain ⟨k, -, hk⟩ := exists_of_mem_evaluate h row hrow
  rw [bind_eq_ok] at hk
  obtain ⟨list, -, hk⟩ := hk
  cases hk
  exact List.length_map _

/-- The rows of an absorption spectrum begin with the photon energies. -/
theorem Absorption.isSpectrum {model : BandModel α} {solve : Solver α} {evaluator : Evaluator}
    {points : List (KPoint α)} {half : ℕ} {photons : List α} {broadening : α}
    {result : AbsorptionSpectrum α}
    (h : spectrum model solve evaluator points half photons broadening = .ok result) :
    IsSpectrum photons (result.photonEnergies.zipWith (fun e a ↦ [e, a]) result.absorption) := by
  by_cases hempty : photons.isEmpty = true
  · simp only [spectrum, if_pos hempty] at h
    cases h
    obtain rfl := List.isEmpty_iff.mp hempty
    exact ⟨rfl, by simp⟩
  · simp only [spectrum, if_neg hempty, bind_eq_ok] at h
    obtain ⟨_, hvalid, rows, hrows, h⟩ := h
    cases h
    refine isSpectrum_zipWith (fun _ _ ↦ rfl) hvalid ((List.length_map _).trans ?_)
    exact length_foldl_zipWith (List.length_replicate ..) (length_of_mem_evaluate hrows)

/-- The rows of a conductivity spectrum begin with the photon energies. -/
theorem Conductivity.isSpectrum {model : BandModel α} {solve : Solver α} {evaluator : Evaluator}
    {points : List (KPoint α)} {half : ℕ} {photons : List α} {eta : α}
    {result : ConductivitySpectrum α}
    (h : spectrum model solve evaluator points half photons eta = .ok result) :
    IsSpectrum photons
      (result.photonEnergies.zipWith (fun e z ↦ [e, z.re, z.im]) result.response) := by
  by_cases hempty : photons.isEmpty = true
  · simp only [spectrum, if_pos hempty] at h
    cases h
    obtain rfl := List.isEmpty_iff.mp hempty
    exact ⟨rfl, by simp⟩
  · simp only [spectrum, if_neg hempty, bind_eq_ok] at h
    obtain ⟨_, hvalid, rows, hrows, h⟩ := h
    cases h
    refine isSpectrum_zipWith (fun _ _ ↦ rfl) hvalid ((List.length_map _).trans ?_)
    exact length_foldl_zipWith (List.length_replicate ..) (length_of_mem_evaluate hrows)

namespace TaskContext

variable (ctx : TaskContext α)

/-- Energies at points do not depend on what was told before. -/
theorem steady_energiesAt (points : List (KPoint α)) : Steady (ctx.energiesAt points) :=
  (steady_say _).bind fun _ ↦ agree_outcome _

/-- Energies over the grid do not depend on what was told before. -/
theorem steady_energiesOverGrid : Steady ctx.energiesOverGrid :=
  Steady.bind (agree_outcome _) ctx.steady_energiesAt

/-- Energies over the grid are rows that are kept. -/
theorem fits_energiesOverGrid : Ensures ctx.energiesOverGrid Fits := by
  refine (ensures_true _).bind fun points _ ↦ (ensures_true _).bind fun _ _ ↦
    ensures_outcome fun rows hrows ↦ Or.inl fun row hrow ↦ ?_
  obtain ⟨k, -, hk⟩ := exists_of_mem_evaluate hrows row hrow
  exact List.ne_nil_of_length_pos (length_windowAt hk).1

/-- Energies along a path do not depend on what was told before. -/
theorem steady_energiesAlong (path : KPath α) : Steady (ctx.energiesAlong path) :=
  (steady_say _).bind fun _ ↦ agree_outcome _

/-- Energies along a path are rows that are kept. -/
theorem fits_energiesAlong (path : KPath α) : Ensures (ctx.energiesAlong path) Fits := by
  refine (ensures_true _).bind fun _ _ ↦ ensures_outcome fun rows hrows ↦ Or.inl fun row hrow ↦ ?_
  rw [pathEnergies, bind_eq_ok] at hrows
  obtain ⟨chunks, hchunks, hrows⟩ := hrows
  cases hrows
  obtain ⟨k, hk⟩ := exists_of_mem_evaluateChunks hchunks row hrow
  exact List.ne_nil_of_length_pos (length_windowAt hk).1

/-- The absorption rows do not depend on what was told before. -/
theorem steady_absorptionRows : Steady ctx.absorptionRows := by
  refine Steady.bind (agree_outcome _) fun points ↦ ?_
  split
  · exact Steady.bind (agree_outcome _) fun _ ↦ (steady_say _).bind fun _ ↦
      (steady_say _).bind fun _ ↦ agree_outcome _
  · exact agree_outcome _

/-- What every absorption table satisfies, the rows of the absorption task satisfy. -/
theorem ensures_absorptionRows {P : List (List α) → Prop}
    (h : ∀ points rows, ctx.absorptionTable points = .ok rows → P rows) :
    Ensures ctx.absorptionRows P := by
  refine (ensures_true _).bind fun points _ ↦ ?_
  split
  · exact (ensures_true _).bind fun _ _ ↦ (ensures_true _).bind fun _ _ ↦
      (ensures_true _).bind fun _ _ ↦ ensures_outcome (h points)
  · exact ensures_outcome (h points)

/-- The absorption rows are a spectrum for the photon energies. -/
theorem isSpectrum_absorptionRows : Ensures ctx.absorptionRows (IsSpectrum ctx.photons) := by
  refine ctx.ensures_absorptionRows fun points rows hrows ↦ ?_
  rw [absorptionTable, bind_eq_ok] at hrows
  obtain ⟨spectrum, hspectrum, hrows⟩ := hrows
  cases hrows
  exact Absorption.isSpectrum hspectrum

/-- The rows of an absorption spectrum are a photon energy and the absorption. -/
theorem haveWidth_absorptionRows : Ensures ctx.absorptionRows (HaveWidth 2) := by
  refine ctx.ensures_absorptionRows fun points rows hrows ↦ ?_
  obtain ⟨spectrum, -, hrows⟩ := bind_eq_ok.mp hrows
  cases hrows
  exact haveWidth_zipWith _ _ fun _ _ ↦ rfl

/-- The conductivity rows do not depend on what was told before. -/
theorem steady_conductivityRows : Steady ctx.conductivityRows := by
  refine Steady.bind (agree_outcome _) fun points ↦ ?_
  split
  · exact Steady.bind (agree_outcome _) fun _ ↦ (steady_say _).bind fun _ ↦ agree_outcome _
  · exact agree_outcome _

/-- What every conductivity table satisfies, the rows of the conductivity task satisfy. -/
theorem ensures_conductivityRows {P : List (List α) → Prop}
    (h : ∀ points rows, ctx.conductivityTable points = .ok rows → P rows) :
    Ensures ctx.conductivityRows P := by
  refine (ensures_true _).bind fun points _ ↦ ?_
  split
  · exact (ensures_true _).bind fun _ _ ↦ (ensures_true _).bind fun _ _ ↦
      ensures_outcome (h points)
  · exact ensures_outcome (h points)

/-- The conductivity rows are a spectrum for the photon energies. -/
theorem isSpectrum_conductivityRows : Ensures ctx.conductivityRows (IsSpectrum ctx.photons) := by
  refine ctx.ensures_conductivityRows fun points rows hrows ↦ ?_
  rw [conductivityTable, bind_eq_ok] at hrows
  obtain ⟨spectrum, hspectrum, hrows⟩ := hrows
  cases hrows
  exact Conductivity.isSpectrum hspectrum

/-- The rows of a conductivity spectrum are a photon energy and the two parts of the response. -/
theorem haveWidth_conductivityRows : Ensures ctx.conductivityRows (HaveWidth 3) := by
  refine ctx.ensures_conductivityRows fun points rows hrows ↦ ?_
  obtain ⟨spectrum, -, hrows⟩ := bind_eq_ok.mp hrows
  cases hrows
  exact haveWidth_zipWith _ _ fun _ _ ↦ rfl

/-- The Raman rows do not depend on what was told before. -/
theorem steady_ramanRows (points : List (KPoint α)) : Steady (ctx.ramanRows points) :=
  Steady.bind (agree_outcome _) fun _ ↦ (steady_say _).bind fun _ ↦ (steady_say _).bind fun _ ↦
    Steady.bind (agree_outcome _) fun _ ↦ Steady.bind (agree_outcome _) fun _ ↦ agree_outcome _

/-- Memory was there for the rows of Raman amplitudes and for the parts of each. -/
theorem ensures_ramanRows (points : List (KPoint α)) {P : List (List α) → Prop}
    (h : ∀ terms : List (List (Cplx α)), terms.length * StoredArray.rowSize < memoryLimit →
      (∀ row ∈ terms, 2 * row.length * 8 < memoryLimit) → P (terms.map splitParts)) :
    Ensures (ctx.ramanRows points) P := by
  refine (ensures_true _).bind fun _ _ ↦ (ensures_true _).bind fun _ _ ↦
    (ensures_true _).bind fun _ _ ↦ (ensures_true _).bind fun terms _ ↦ ?_
  refine Ensures.bind (P := fun _ ↦ terms.length * StoredArray.rowSize < memoryLimit)
    (ensures_outcome fun _ ↦ lt_of_reserve) fun _ hlength ↦ ensures_outcome fun rows hrows ↦ ?_
  obtain ⟨hwidth, rfl⟩ := mapM_splitRow_eq_ok hrows
  exact h terms hlength hwidth

/-- The Raman rows are rows that are kept. -/
theorem fits_ramanRows (points : List (KPoint α)) : Ensures (ctx.ramanRows points) Fits := by
  refine ctx.ensures_ramanRows points fun terms hlength _ ↦ Or.inr ?_
  rw [List.length_map]
  exact hlength

/-- A Raman sum without bands is refused if the number of inner bands is given. -/
theorem unambiguous_of_ramanRows (points : List (KPoint α)) :
    Ensures (ctx.ramanRows points) fun _ ↦ ctx.params.Unambiguous := by
  refine Ensures.bind (P := fun _ ↦ ctx.params.Unambiguous)
    (ensures_outcome fun _ hvalid ⟨_, hinner⟩ ↦ ?_) fun _ h _ _ _ ↦ h
  have hzero : ctx.raman.inner = some 0 := hinner
  rw [Raman.validate, hzero] at hvalid
  split at hvalid
  · cases hvalid
  · cases hvalid

variable {ctx}

/-- What is stored does not depend on the log. -/
theorem Stores.steady {quantity : Quantity} {density : ℕ} {compute : Logged (List (List α))}
    (h : Stores ctx quantity density compute) : Steady compute := by
  cases h with
  | energies => exact ctx.steady_energiesOverGrid
  | bands => exact ctx.steady_energiesAlong _
  | absorption => exact ctx.steady_absorptionRows
  | conductivity => exact ctx.steady_conductivityRows
  | raman => exact ctx.steady_ramanRows _

/-- What is stored can be unpacked again. -/
theorem Stores.fits {quantity : Quantity} {density : ℕ} {compute : Logged (List (List α))}
    (h : Stores ctx quantity density compute) : Ensures compute Fits := by
  cases h with
  | energies => exact ctx.fits_energiesOverGrid
  | bands => exact ctx.fits_energiesAlong _
  | absorption => exact fun s rows hrows ↦ (ctx.isSpectrum_absorptionRows s rows hrows).fits
  | conductivity => exact fun s rows hrows ↦ (ctx.isSpectrum_conductivityRows s rows hrows).fits
  | raman => exact ctx.fits_ramanRows _

/-- A stored spectrum is one for the photon energies of its context. -/
theorem Stores.isSpectrum {quantity : Quantity} {density : ℕ} {compute : Logged (List (List α))}
    (h : Stores ctx quantity density compute) (hspectral : quantity.IsSpectral) :
    Ensures compute (IsSpectrum ctx.photons) := by
  cases h with
  | energies | bands | raman => exact absurd hspectral (by decide)
  | absorption => exact ctx.isSpectrum_absorptionRows
  | conductivity => exact ctx.isSpectrum_conductivityRows

/-- Stored Raman amplitudes are those of an unambiguous request. -/
theorem Stores.unambiguous {density : ℕ} {compute : Logged (List (List α))}
    (h : Stores ctx .raman density compute) : Ensures compute fun _ ↦ ctx.params.Unambiguous := by
  cases h
  exact ctx.unambiguous_of_ramanRows _

end TaskContext

end Moire
