import Mathlib
import Moire.Proofs.BandSelection
import Moire.Proofs.Breakdowns
import Moire.Proofs.DecoupledLayers

/-!
# Raman sums over fewer bands

The transitions at a point form a square table, with the conduction band as the row. To keep only
the inner ones of it is to cut out the smaller square at its corner, in the order of the smaller
table, `Raman.filter_square`. A spectrum that is restricted to inner transitions is therefore the
spectrum of fewer bands, whatever the arithmetic. What a spectrum sums over the points and over the
transitions has the same total if sums are exact, `Cplx.sum_columns`.
-/

namespace Moire

/-! ## Exact sums -/

/-- Sums depend neither on brackets nor on the order of their terms. -/
class SumLaws (α : Type) [Number α] : Prop where
  add_assoc (x y z : α) : x + y + z = x + (y + z)
  add_comm (x y : α) : x + y = y + x
  zero_add (x : α) : 0 + x = x

instance : SumLaws ℝ where
  add_assoc := add_assoc
  add_comm := add_comm
  zero_add x := by rw [RealScalar.zero_eq, zero_add]

instance {K : Type} [ExactField K] : SumLaws K where
  add_assoc := add_assoc
  add_comm := add_comm
  zero_add x := by rw [ExactField.zero_eq, zero_add]

namespace Cplx

variable {α : Type} [Number α]

instance : Zero (Cplx α) := ⟨zero⟩

instance [SumLaws α] : AddCommMonoid (Cplx α) where
  add_assoc z w u := Cplx.ext (SumLaws.add_assoc _ _ _) (SumLaws.add_assoc _ _ _)
  add_comm z w := Cplx.ext (SumLaws.add_comm _ _) (SumLaws.add_comm _ _)
  zero_add z := Cplx.ext (SumLaws.zero_add _) (SumLaws.zero_add _)
  add_zero z := Cplx.ext ((SumLaws.add_comm _ _).trans (SumLaws.zero_add _))
    ((SumLaws.add_comm _ _).trans (SumLaws.zero_add _))
  nsmul := nsmulRec

/-- The sum from the left is the sum of the list. -/
theorem sum_eq [SumLaws α] (terms : List (Cplx α)) : sum terms = terms.sum :=
  List.sum_eq_foldl.symm

/-- A table can be summed by rows or by columns. -/
theorem sum_columns [SumLaws α] {rows : List (List (Cplx α))} {width : ℕ}
    (hwidth : ∀ row ∈ rows, row.length = width) : sum (rows.map sum) =
      sum ((List.range width).map fun i ↦ sum (rows.map fun row ↦ row.getD i zero)) := by
  have hsum : sum (α := α) = List.sum := funext sum_eq
  simp only [hsum]
  induction rows with
  | nil => simp
  | cons row rows ih =>
      have hrow : (List.range width).map (fun i ↦ row.getD i zero) = row := by
        rw [← hwidth row List.mem_cons_self]
        refine List.ext_getElem (by simp) fun i hi hi' ↦ ?_
        rw [List.getElem_map, List.getElem_range, List.getD_eq_getElem _ _ hi']
      rw [List.map_cons, List.sum_cons, ih fun other hother ↦ hwidth other (.tail row hother)]
      simp only [List.map_cons, List.sum_cons]
      rw [List.sum_map_add, hrow]

end Cplx

namespace Raman

variable {α : Type} [Scalar α]

/-! ## Inner transitions -/

/-- The rows and columns of a square table up to a number are the smaller square, in its own
order. -/
theorem filter_square {β : Type} {f : ℕ → ℕ → β} {keep : β → Bool} {n half : ℕ} (hn : n ≤ half)
    (hkeep : ∀ c v, keep (f c v) = (decide (v < n) && decide (c < n))) :
    ((List.range half).flatMap fun c ↦ (List.range half).map (f c)).filter keep =
      (List.range n).flatMap fun c ↦ (List.range n).map (f c) := by
  have hrange : (List.range half).filter (· < n) = List.range n := by
    rw [← List.Ico.zero_bot, List.Ico.filter_lt, min_eq_right hn, List.Ico.zero_bot]
  have hrow : ∀ c, ((List.range half).map (f c)).filter keep =
      if c < n then (List.range n).map (f c) else [] := by
    intro c
    rw [List.filter_map, show keep ∘ f c = _ from funext (hkeep c)]
    split
    case isTrue hc => simp only [hc, decide_true, Bool.and_true, hrange]
    case isFalse hc => simp [hc]
  obtain ⟨rest, rfl⟩ := Nat.exists_eq_add_of_le hn
  -- The rows after the smaller square are empty.
  have hrest : ((List.range rest).map (n + ·)).flatMap (fun c ↦
      if c < n then (List.range n).map (f c) else []) = [] := by
    simp
  rw [List.filter_flatMap]
  simp only [hrow]
  rw [List.range_add, List.flatMap_append, hrest, List.append_nil]
  refine List.flatMap_congr fun c hc ↦ ?_
  rw [if_pos (List.mem_range.mp hc)]

variable {model : BandModel α} {solve : Solver α} {params : RamanParams α} {k : KPoint α}

/-- The amplitudes between a number of bands on each side of the gap. -/
def amplitudes (params : RamanParams α) (derivatives : Derivatives α) (spectrum : Spectrum α)
    (n : ℕ) : List (Cplx α) :=
  (List.range n).flatMap fun c ↦ (List.range n).map fun v ↦
    term params (spectrum.transition derivatives c v)

/-- There is an amplitude for each pair of the inner bands. -/
theorem length_amplitudes (derivatives : Derivatives α) (spectrum : Spectrum α) (n : ℕ) :
    (amplitudes params derivatives spectrum n).length = n * n := by
  simp [amplitudes, List.length_flatMap]

/-- The terms at a point are the amplitudes of the inner bands, if all bands are there. -/
theorem terms_of_bands (params : RamanParams α)
    (hinner : params.inner.getD params.half ≤ params.half) {spectrum : Spectrum α}
    (hspectrum : model.spectrum solve k = .ok spectrum) (hhalf : params.half ≤ spectrum.mid)
    (hcount : spectrum.mid + params.half < countLimit) :
    terms model solve params k = .ok (amplitudes params (model.derivatives k) spectrum
      (params.inner.getD params.half)) := by
  refine bind_eq_ok.mpr ⟨_, transitions_of_bands hspectrum hhalf hcount, congrArg Except.ok ?_⟩
  rw [filter_square hinner fun _ _ ↦ rfl, List.map_flatMap]
  simp only [List.map_map]
  rfl

/-- The terms at a point are the amplitudes of the inner bands, and are there when the spectrum has
enough bands. -/
theorem terms_eq_ok_iff (hinner : params.inner.getD params.half ≤ params.half)
    {row : List (Cplx α)} : terms model solve params k = .ok row ↔
      ∃ spectrum, model.spectrum solve k = .ok spectrum ∧ params.half ≤ spectrum.mid ∧
        spectrum.mid + params.half < countLimit ∧
        row = amplitudes params (model.derivatives k) spectrum
          (params.inner.getD params.half) := by
  constructor
  · intro hrow
    obtain ⟨list, hlist, -⟩ := bind_eq_ok.mp hrow
    obtain ⟨spectrum, hspectrum, hhalf, hcount, -⟩ := transitions_eq_ok_iff.mp hlist
    exact ⟨spectrum, hspectrum, hhalf, hcount,
      Except.ok.inj (hrow.symm.trans (terms_of_bands params hinner hspectrum hhalf hcount))⟩
  · rintro ⟨spectrum, hspectrum, hhalf, hcount, rfl⟩
    exact terms_of_bands params hinner hspectrum hhalf hcount

/-! ## Spectra -/

variable {points : List (KPoint α)}

omit [Scalar α] in
/-- The request is accepted when there are points and the inner count is in range. -/
theorem validate_eq_ok_iff : validate points params = .ok () ↔
    points ≠ [] ∧ ∀ n, params.inner = some n → 1 ≤ n ∧ n ≤ params.half := by
  cases points with
  | nil =>
      refine iff_of_false (fun h ↦ ?_) fun h ↦ h.1 rfl
      cases h
  | cons k points =>
      rw [and_iff_right (List.cons_ne_nil k points), validate]
      cases params.inner with
      | none => exact iff_of_true rfl fun n h ↦ (Option.some_ne_none n h.symm).elim
      | some n =>
          simp only [Option.some.injEq, forall_eq']
          by_cases hrange : n = 0 ∨ n > params.half
          · rw [if_pos hrange]
            refine iff_of_false (fun h ↦ ?_) (by omega)
            cases h
          · rw [if_neg hrange]
            exact iff_of_true rfl (by omega)

omit [Scalar α] in
/-- An accepted inner count is at most the half. -/
theorem inner_le (hvalid : validate points params = .ok ()) :
    params.inner.getD params.half ≤ params.half := by
  cases hinner : params.inner with
  | none => exact le_rfl
  | some n => exact ((validate_eq_ok_iff.mp hvalid).2 n hinner).2

/-- The rows of the terms are as many as the points, at least one, and of one width. -/
theorem rows_shape (hvalid : validate points params = .ok ()) {rows : List (List (Cplx α))}
    (hrows : rows.map .ok = points.map (terms model solve params)) : rows ≠ [] ∧
      ∀ row ∈ rows, row.length =
        params.inner.getD params.half * params.inner.getD params.half := by
  constructor
  · rintro rfl
    exact (validate_eq_ok_iff.mp hvalid).1 (List.map_eq_nil_iff.mp hrows.symm)
  · intro row hrow
    have hmem : Except.ok row ∈ points.map (terms model solve params) :=
      hrows ▸ List.mem_map_of_mem hrow
    obtain ⟨k, -, hk⟩ := List.mem_map.mp hmem
    obtain ⟨spectrum, -, -, -, rfl⟩ := (terms_eq_ok_iff (inner_le hvalid)).mp hk
    exact length_amplitudes _ spectrum _

variable {evaluator : Evaluator}

/-- A spectrum is made of the terms at all points. -/
theorem spectrum_eq_ok_iff {s : RamanSpectrum α} :
    spectrum model solve evaluator points params = .ok s ↔
      validate points params = .ok () ∧ ∃ rows,
        rows.map .ok = points.map (terms model solve params) ∧
        ofTerms rows model.unitCellArea = .ok s := by
  constructor
  · intro h
    obtain ⟨rows, hrows, hs⟩ := bind_eq_ok.mp h
    obtain ⟨_, hvalid, hrows⟩ := bind_eq_ok.mp hrows
    exact ⟨hvalid, rows, Evaluator.evaluate_eq_ok_iff.mp hrows, hs⟩
  · rintro ⟨hvalid, rows, hrows, hs⟩
    exact bind_eq_ok.mpr ⟨rows, bind_eq_ok.mpr
      ⟨(), hvalid, Evaluator.evaluate_eq_ok_iff.mpr hrows⟩, hs⟩

/-- There is a spectrum if there are terms at all points. -/
theorem exists_spectrum (evaluator : Evaluator) (hvalid : validate points params = .ok ())
    (hterms : ∀ k ∈ points, Succeeds (terms model solve params) k) :
    ∃ s, spectrum model solve evaluator points params = .ok s := by
  obtain ⟨rows, hrows⟩ := exists_values_iff.mpr hterms
  obtain ⟨hne, hwidth⟩ := rows_shape hvalid hrows
  exact ⟨_, spectrum_eq_ok_iff.mpr ⟨hvalid, rows, hrows, ofTerms_eq hne hwidth _⟩⟩

/-- Where there is a spectrum, all bands that it needs are there. -/
theorem exists_bands {s : RamanSpectrum α}
    (hs : spectrum model solve evaluator points params = .ok s) : ∀ k ∈ points, ∃ spectrum,
      model.spectrum solve k = .ok spectrum ∧ params.half ≤ spectrum.mid ∧
        spectrum.mid + params.half < countLimit := by
  obtain ⟨hvalid, rows, hrows, -⟩ := spectrum_eq_ok_iff.mp hs
  intro k hk
  obtain ⟨row, hrow⟩ := exists_values_iff.mp ⟨rows, hrows⟩ k hk
  obtain ⟨spectrum, hspectrum, hhalf, hcount, -⟩ := (terms_eq_ok_iff (inner_le hvalid)).mp hrow
  exact ⟨spectrum, hspectrum, hhalf, hcount⟩

/-- Inputs with the same terms at all points have the same spectrum. -/
theorem spectrum_congr {other : RamanParams α}
    (hvalid : validate points params = validate points other)
    (hterms : ∀ k ∈ points, terms model solve params k = terms model solve other k) :
    spectrum model solve evaluator points params = spectrum model solve evaluator points other := by
  rw [spectrum, spectrum, termRows, termRows, hvalid, evaluator.evaluate_congr hterms]

/-- The sums over the points and over the transitions have the same total. -/
theorem total_eq [SumLaws α] {s : RamanSpectrum α}
    (hs : spectrum model solve evaluator points params = .ok s) :
    Cplx.sum s.perK = Cplx.sum s.perTransition ∧
      s.intensity = (Cplx.sum s.perTransition).normSq / Number.square model.unitCellArea := by
  obtain ⟨hvalid, rows, hrows, hsums⟩ := spectrum_eq_ok_iff.mp hs
  obtain ⟨hne, hwidth⟩ := rows_shape hvalid hrows
  rw [ofTerms_eq hne hwidth] at hsums
  cases hsums
  have htotal := Cplx.sum_columns hwidth
  exact ⟨htotal, by rw [← htotal]⟩

/-- Decoupled layers with four waves have a spectrum of up to four bands on each side. -/
theorem exists_spectrum_decoupled (evaluator : Evaluator) {points : List (KPoint ℝ)}
    (hne : points ≠ []) (photon phonon gamma : ℝ) {half : ℕ} (hhalf : half ≤ 4) :
    ∃ s, spectrum (Continuum.Model.ofParams Continuum.decoupled).toBandModel coneSolver evaluator
      points ⟨photon, phonon, gamma, half, none⟩ = .ok s := by
  refine exists_spectrum evaluator (validate_eq_ok_iff.mpr ⟨hne, nofun⟩) fun k _ ↦ ?_
  have hmid : (⟨(Number.sortBy Level.energy (Continuum.coneLevels k)).toArray⟩ :
      Spectrum ℝ).mid = 4 := congrArg (· / 2) (Continuum.length_sortBy_coneLevels k)
  have hcount : 4 + half < countLimit := by
    unfold countLimit
    omega
  exact ⟨_, terms_of_bands _ le_rfl (Continuum.spectrum_decoupled k) (hmid ▸ hhalf) (hmid ▸ hcount)⟩

/-- A spectrum that is restricted to inner transitions is the spectrum of fewer bands, and there is
no restriction if all of them are inner. Neither needs exact sums. In exact sums the total over the
points is the total over the transitions, and gives the intensity. -/
theorem spectrum_restricted {whole : RamanSpectrum α}
    (hwhole : spectrum model solve evaluator points params = .ok whole) {n : ℕ} (hn : 1 ≤ n)
    (hle : n ≤ params.half) :
    (∃ s, spectrum model solve evaluator points { params with inner := some n } = .ok s ∧
      spectrum model solve evaluator points { params with half := n, inner := none } = .ok s) ∧
    spectrum model solve evaluator points { params with inner := some params.half } =
      spectrum model solve evaluator points { params with inner := none } ∧
    (SumLaws α → ∀ points params s, spectrum model solve evaluator points params = .ok s →
      Cplx.sum s.perK = Cplx.sum s.perTransition ∧
      s.intensity = (Cplx.sum s.perTransition).normSq / Number.square model.unitCellArea) := by
  obtain ⟨hne, -⟩ := validate_eq_ok_iff.mp (spectrum_eq_ok_iff.mp hwhole).1
  have hvalid : ∀ m, 1 ≤ m → m ≤ params.half →
      validate points { params with inner := some m } = .ok () := by
    intro m hm hmhalf
    refine validate_eq_ok_iff.mpr ⟨hne, ?_⟩
    rintro _ ⟨⟩
    exact ⟨hm, hmhalf⟩
  have hnone : ∀ half, validate points { params with half, inner := none } = .ok () :=
    fun half ↦ validate_eq_ok_iff.mpr ⟨hne, nofun⟩
  -- All bands of the whole spectrum are there, so both have the amplitudes of the smaller square.
  have hterms : ∀ k ∈ points, ∃ row, terms model solve { params with inner := some n } k = .ok row ∧
      terms model solve { params with half := n, inner := none } k = .ok row := by
    intro k hk
    obtain ⟨bands, hbands, hhalf, hcount⟩ := exists_bands hwhole k hk
    refine ⟨amplitudes params (model.derivatives k) bands n, ?_, ?_⟩
    · exact terms_of_bands { params with inner := some n } hle hbands hhalf hcount
    · exact terms_of_bands { params with half := n, inner := none } le_rfl hbands (hle.trans hhalf)
        ((Nat.add_le_add_left hle _).trans_lt hcount)
  refine ⟨?_, ?_, fun _ points params s hs ↦ total_eq hs⟩
  · obtain ⟨s, hs⟩ := exists_spectrum evaluator (hvalid n hn hle) fun k hk ↦
      (hterms k hk).imp fun _ h ↦ h.1
    refine ⟨s, hs, hs ▸ spectrum_congr ((hnone n).trans (hvalid n hn hle).symm) fun k hk ↦ ?_⟩
    obtain ⟨row, hinner, hfewer⟩ := hterms k hk
    exact hfewer.trans hinner.symm
  · exact spectrum_congr ((hvalid _ (hn.trans hle) le_rfl).trans (hnone _).symm) fun _ _ ↦ rfl

/-- Three bands at two points of a model with four, restricted to two. -/
theorem spectrum_restricted_two :
    ∃ s, spectrum (Continuum.Model.ofParams Continuum.decoupled).toBandModel coneSolver ⟨2⟩
        [⟨0, 0⟩, ⟨1, 0⟩] ⟨2, 1, 1, 3, some 2⟩ = .ok s ∧
      spectrum (Continuum.Model.ofParams Continuum.decoupled).toBandModel coneSolver ⟨2⟩
        [⟨0, 0⟩, ⟨1, 0⟩] ⟨2, 1, 1, 2, none⟩ = .ok s ∧
      Cplx.sum s.perK = Cplx.sum s.perTransition := by
  obtain ⟨whole, hwhole⟩ := exists_spectrum_decoupled ⟨2⟩ (List.cons_ne_nil ⟨0, 0⟩ [⟨1, 0⟩]) 2 1 1
    (show 3 ≤ 4 by decide)
  obtain ⟨⟨s, hinner, hfewer⟩, -, htotal⟩ :=
    spectrum_restricted hwhole one_le_two (show 2 ≤ 3 by decide)
  exact ⟨s, hinner, hfewer, (htotal inferInstance _ _ s hinner).1⟩

end Raman

end Moire
