import Mathlib
import Moire.Optics.Conductivity
import Moire.Proofs.PlaquetteSum
import Moire.Proofs.RamanRestriction

/-!
# Optical spectra are averages

A spectrum sums what the transitions at each point give, adds up the columns of the table of points,
and divides by the number of points. In exact arithmetic this is an average over the points, entry
by entry, `pointAverage`, so that neither their order nor the way they were shared among workers is
seen in it, and two lists of points count by their lengths. The absorption is not negative because
no transition gives a negative part. The real conductivity is minus the imaginary part of a
quotient, which has the sign of the transition energy, `Conductivity.absorptive_term`.
-/

namespace Moire

open RealScalar Constants

/-! ## Averages over points -/

section

variable {β M N : Type} [AddCommMonoid M] [Module ℝ M] [AddCommMonoid N] [Module ℝ N]

/-- The average of a quantity over a list of points, in a given unit. -/
noncomputable def pointAverage (unit : ℝ) (f : β → M) (points : List β) : M :=
  (unit / points.length) • (points.map f).sum

variable {unit : ℝ} {f : β → M} {points others : List β}

/-- The order of the points does not matter. -/
theorem pointAverage_perm (h : points.Perm others) :
    pointAverage unit f points = pointAverage unit f others := by
  rw [pointAverage, pointAverage, h.length_eq, (h.map f).sum_eq]

/-- As many times the average as there are points is the scaled sum. -/
theorem length_smul_pointAverage (h : points ≠ []) :
    (points.length : ℝ) • pointAverage unit f points = unit • (points.map f).sum := by
  have hlength : (points.length : ℝ) ≠ 0 :=
    Nat.cast_ne_zero.mpr (List.length_pos_iff.mpr h).ne'
  rw [pointAverage, smul_smul, mul_div_cancel₀ _ hlength]

/-- Two lists of points count by their lengths. -/
theorem pointAverage_append (h : points ≠ []) (hothers : others ≠ []) :
    ((points.length : ℝ) + others.length) • pointAverage unit f (points ++ others) =
      (points.length : ℝ) • pointAverage unit f points +
        (others.length : ℝ) • pointAverage unit f others := by
  have hlength : (points.length : ℝ) + others.length = (points ++ others).length := by
    rw [List.length_append, Nat.cast_add]
  rw [hlength, length_smul_pointAverage (List.append_ne_nil_of_left_ne_nil h others),
    length_smul_pointAverage h, length_smul_pointAverage hothers, List.map_append,
    List.sum_append, smul_add]

/-- Linear maps go through averages. -/
theorem map_pointAverage (φ : M →ₗ[ℝ] N) :
    φ (pointAverage unit f points) = pointAverage unit (fun k ↦ φ (f k)) points := by
  rw [pointAverage, pointAverage, map_smul, map_list_sum, List.map_map]
  rfl

/-- An average of what is not negative is not negative. -/
theorem pointAverage_nonneg {f : β → ℝ} (hunit : 0 ≤ unit) (hf : ∀ k ∈ points, 0 ≤ f k) :
    0 ≤ pointAverage unit f points := by
  refine mul_nonneg (div_nonneg hunit (Nat.cast_nonneg _)) (List.sum_nonneg ?_)
  intro x hx
  obtain ⟨k, hk, rfl⟩ := List.mem_map.mp hx
  exact hf k hk

omit [Module ℝ M] in
/-- The columns of a table with a row for each point and a column for each photon, added to what is
there already. -/
theorem foldl_zipWith_add {γ : Type} (f : β → γ → M) (photons : List γ) (points : List β)
    (init : γ → M) :
    (points.map fun k ↦ photons.map (f k)).foldl (List.zipWith (· + ·)) (photons.map init) =
      photons.map fun photon ↦ init photon + (points.map fun k ↦ f k photon).sum := by
  induction points generalizing init with
  | nil => simp
  | cons k points ih =>
      have hstep : List.zipWith (· + ·) (photons.map init) (photons.map (f k)) =
          photons.map fun photon ↦ init photon + f k photon := by
        rw [List.zipWith_map, List.zipWith_self]
      rw [List.map_cons, List.foldl_cons, hstep, ih]
      simp only [List.map_cons, List.sum_cons, add_assoc]

omit [Module ℝ M] in
/-- The sums of the columns. -/
theorem foldl_zipWith_zero {γ : Type} (f : β → γ → M) (photons : List γ) (points : List β) :
    (points.map fun k ↦ photons.map (f k)).foldl (List.zipWith (· + ·))
      (List.replicate photons.length 0) =
      photons.map fun photon ↦ (points.map fun k ↦ f k photon).sum := by
  have hsums := foldl_zipWith_add f photons points fun _ ↦ 0
  simpa only [List.map_const', zero_add] using hsums

end

/-- Squared norms are not negative. -/
theorem Cplx.normSq_nonneg (z : Cplx ℝ) : 0 ≤ z.normSq :=
  add_nonneg (mul_self_nonneg z.re) (mul_self_nonneg z.im)

/-! ## Tables of transitions -/

section

variable {model : BandModel ℝ} {solve : Solver ℝ} {half : ℕ} {evaluator : Evaluator}
  {points : List (KPoint ℝ)}

/-- The transitions at a point, none where there are not enough bands. -/
noncomputable def BandModel.transitionsAt (model : BandModel ℝ) (solve : Solver ℝ) (half : ℕ)
    (k : KPoint ℝ) : List (Transition ℝ) :=
  (transitions model solve half k).toOption.getD []

/-- Where the transitions can be found, they are the ones that are found. -/
theorem BandModel.transitionsAt_eq {k : KPoint ℝ} {list : List (Transition ℝ)}
    (h : transitions model solve half k = .ok list) : model.transitionsAt solve half k = list := by
  rw [transitionsAt, h]
  rfl

/-- A transition at a point is there only if the transitions can be found. -/
theorem BandModel.exists_of_mem_transitionsAt {k : KPoint ℝ} {t : Transition ℝ}
    (ht : t ∈ model.transitionsAt solve half k) :
    ∃ list, transitions model solve half k = .ok list ∧ t ∈ list := by
  cases hlist : transitions model solve half k with
  | error cause =>
      rw [transitionsAt, hlist] at ht
      cases ht
  | ok list => exact ⟨list, rfl, transitionsAt_eq hlist ▸ ht⟩

/-- A table over the points has a row for each of them, if all of them have transitions. -/
theorem evaluate_transitions_eq_ok_iff {γ : Type} {f : List (Transition ℝ) → γ} {rows : List γ} :
    (evaluator.evaluate points fun k ↦ do return f (← transitions model solve half k)) =
      .ok rows ↔ (∀ k ∈ points, Succeeds (transitions model solve half) k) ∧
        rows = points.map fun k ↦ f (model.transitionsAt solve half k) := by
  -- Where there are transitions, the row is made of them.
  have hrow : ∀ {k}, Succeeds (transitions model solve half) k →
      (do return f (← transitions model solve half k) : Outcome γ) =
        .ok (f (model.transitionsAt solve half k)) := by
    rintro k ⟨list, hlist⟩
    rw [BandModel.transitionsAt_eq hlist]
    exact bind_eq_ok.mpr ⟨list, hlist, rfl⟩
  have hrows : (∀ k ∈ points, Succeeds (transitions model solve half) k) →
      (points.map fun k ↦ f (model.transitionsAt solve half k)).map .ok =
        points.map fun k ↦ (do return f (← transitions model solve half k) : Outcome γ) := by
    intro hall
    rw [List.map_map]
    exact List.map_congr_left fun k hk ↦ (hrow (hall k hk)).symm
  rw [Evaluator.evaluate_eq_ok_iff]
  constructor
  · intro h
    have hall : ∀ k ∈ points, Succeeds (transitions model solve half) k := by
      intro k hk
      obtain ⟨row, hrow⟩ := exists_values_iff.mp ⟨rows, h⟩ k hk
      obtain ⟨list, hlist, -⟩ := bind_eq_ok.mp hrow
      exact ⟨list, hlist⟩
    exact ⟨hall, List.map_injective_iff.mpr (fun _ _ ↦ Except.ok.inj) (h.trans (hrows hall).symm)⟩
  · rintro ⟨hall, rfl⟩
    exact hrows hall

variable {photons : List ℝ} {width : ℝ} {name : String}

/-- With positive energies and a positive width, a request is valid if it has a point. -/
theorem validateSpectrum_eq_ok_iff (hphotons : ∀ photon ∈ photons, 0 < photon)
    (hwidth : 0 < width) : validateSpectrum points photons width name = .ok () ↔ points ≠ [] := by
  have hfind : photons.find? (fun photon ↦ !Number.isPositive photon) = none := by
    simpa using hphotons
  have hpositive : Number.isPositive width = true := by simpa using hwidth
  cases points with
  | nil =>
      refine iff_of_false (fun h ↦ ?_) fun h ↦ h rfl
      cases h
  | cons k points =>
      refine iff_of_true ?_ (List.cons_ne_nil k points)
      unfold validateSpectrum
      rw [hfind, hpositive]
      rfl

/-- What is made of the table of a request with positive energies and a positive width. A request
for no energy at all is answered without a table. -/
theorem request_eq_ok_iff {γ S : Type} {f : List (Transition ℝ) → γ} {make : List γ → S}
    {blank s value : S} (hphotons : ∀ photon ∈ photons, 0 < photon) (hwidth : 0 < width)
    (hblank : photons = [] → blank = value)
    (hmake : make (points.map fun k ↦ f (model.transitionsAt solve half k)) = value) :
    (do
      if photons.isEmpty then return blank
      validateSpectrum points photons width name
      let rows ← evaluator.evaluate points fun k ↦ do return f (← transitions model solve half k)
      return make rows) = .ok s ↔
      (photons = [] ∨ points ≠ [] ∧ ∀ k ∈ points, Succeeds (transitions model solve half) k) ∧
        s = value := by
  cases photons with
  | nil =>
      rw [and_iff_right (Or.inl rfl), ← hblank rfl]
      exact ⟨fun h ↦ (Except.ok.inj h).symm, fun h ↦ congrArg Except.ok h.symm⟩
  | cons photon photons =>
      rw [or_iff_right (List.cons_ne_nil photon photons), ← hmake]
      constructor
      · intro h
        obtain ⟨_, hvalid, h⟩ := bind_eq_ok.mp h
        obtain ⟨rows, hrows, h⟩ := bind_eq_ok.mp h
        obtain ⟨hall, rfl⟩ := evaluate_transitions_eq_ok_iff.mp hrows
        cases h
        exact ⟨⟨(validateSpectrum_eq_ok_iff hphotons hwidth).mp hvalid, hall⟩, rfl⟩
      · rintro ⟨⟨hne, hall⟩, rfl⟩
        exact bind_eq_ok.mpr ⟨(), (validateSpectrum_eq_ok_iff hphotons hwidth).mpr hne,
          bind_eq_ok.mpr ⟨_, evaluate_transitions_eq_ok_iff.mpr ⟨hall, rfl⟩, rfl⟩⟩

end

/-! ## Averages of transitions -/

section

variable {S M : Type} [AddCommMonoid M] [Module ℝ M]

/-- A spectrum over points is there when there are transitions at all of them, and its entries, one
for each photon, are averages: neither the order of the points nor the number of workers is seen in
them, and two lists of points count by their lengths. -/
structure AveragesTransitions (model : BandModel ℝ) (solve : Solver ℝ) (half : ℕ)
    (photons : List ℝ) (spectrum : Evaluator → List (KPoint ℝ) → Outcome S)
    (entries : S → List M) : Prop where
  returns_iff (evaluator : Evaluator) (points : List (KPoint ℝ)) :
    (∃ s, spectrum evaluator points = .ok s) ↔ photons = [] ∨
      points ≠ [] ∧ ∀ k ∈ points, ∃ list, transitions model solve half k = .ok list
  length_eq {evaluator : Evaluator} {points : List (KPoint ℝ)} {s : S} :
    spectrum evaluator points = .ok s → (entries s).length = photons.length
  of_perm {evaluator other : Evaluator} {points others : List (KPoint ℝ)} {s : S} :
    points.Perm others → spectrum evaluator points = .ok s → spectrum other others = .ok s
  append {evaluator first second : Evaluator} {points others : List (KPoint ℝ)} {s s₁ s₂ : S} :
    points ≠ [] → others ≠ [] → spectrum evaluator (points ++ others) = .ok s →
    spectrum first points = .ok s₁ → spectrum second others = .ok s₂ →
    (entries s).map (((points.length : ℝ) + others.length) • ·) =
      List.zipWith (fun x y ↦ (points.length : ℝ) • x + (others.length : ℝ) • y)
        (entries s₁) (entries s₂)

variable {model : BandModel ℝ} {solve : Solver ℝ} {half : ℕ} {photons : List ℝ}
  {spectrum : Evaluator → List (KPoint ℝ) → Outcome S} {entries : S → List M}

/-- A spectrum whose entries are averages of what the points give. -/
theorem AveragesTransitions.of_values {values : List (KPoint ℝ) → S} {unit : ℝ}
    {f : KPoint ℝ → ℝ → M}
    (hspectrum : ∀ {evaluator points s}, spectrum evaluator points = .ok s ↔
      (photons = [] ∨ points ≠ [] ∧ ∀ k ∈ points, Succeeds (transitions model solve half) k) ∧
        s = values points)
    (hvalues : ∀ {points others}, points.Perm others → values points = values others)
    (hentries : ∀ points, entries (values points) =
      photons.map fun photon ↦ pointAverage unit (fun k ↦ f k photon) points) :
    AveragesTransitions model solve half photons spectrum entries where
  returns_iff evaluator points :=
    ⟨fun ⟨_, hs⟩ ↦ (hspectrum.mp hs).1, fun h ↦ ⟨_, hspectrum.mpr ⟨h, rfl⟩⟩⟩
  length_eq hs := by
    rw [(hspectrum.mp hs).2, hentries, List.length_map]
  of_perm {_ _ points others _} hperm hs := by
    obtain ⟨hreturns, rfl⟩ := hspectrum.mp hs
    refine hspectrum.mpr ⟨hreturns.imp_right fun ⟨hne, hall⟩ ↦ ⟨?_, ?_⟩, hvalues hperm⟩
    · rintro rfl
      exact hne hperm.eq_nil
    · exact fun k hk ↦ hall k (hperm.mem_iff.mpr hk)
  append {_ _ _ points others _ _ _} hne hothers hs hs₁ hs₂ := by
    rw [(hspectrum.mp hs).2, (hspectrum.mp hs₁).2, (hspectrum.mp hs₂).2, hentries, hentries,
      hentries, List.map_map, List.zipWith_map, List.zipWith_self]
    exact List.map_congr_left fun photon _ ↦ pointAverage_append hne hothers

end

/-! ## Absorption -/

namespace Absorption

variable {model : BandModel ℝ} {solve : Solver ℝ} {half : ℕ} {photons : List ℝ} {broadening : ℝ}

/-- The absorption that the transitions at the points give on average. The unit is the normalization
of a single point. -/
noncomputable def average (model : BandModel ℝ) (solve : Solver ℝ) (half : ℕ) (photons : List ℝ)
    (broadening : ℝ) (points : List (KPoint ℝ)) : AbsorptionSpectrum ℝ :=
  ⟨photons, photons.map fun photon ↦ pointAverage (normalization model 1)
    (fun k ↦ ((model.transitionsAt solve half k).map (term broadening photon)).sum) points⟩

/-- The weight of a point goes down with the number of points. -/
theorem normalization_eq (model : BandModel ℝ) (n : ℕ) :
    normalization model n = normalization model 1 / n := by
  simp only [normalization, ofNat_eq, Nat.cast_one, one_mul]
  exact div_mul_eq_div_div_swap _ _ _

/-- The column sums of a table of terms are the sums over the points. -/
theorem columnSums_eq (f : KPoint ℝ → ℝ → ℝ) (photons : List ℝ) (points : List (KPoint ℝ)) :
    columnSums photons.length (points.map fun k ↦ photons.map (f k)) =
      photons.map fun photon ↦ (points.map fun k ↦ f k photon).sum := by
  rw [columnSums, zero_eq, neg_zero]
  exact foldl_zipWith_zero f photons points

/-- A spectrum is the average over the points. -/
theorem spectrum_eq_ok_iff (hphotons : ∀ photon ∈ photons, 0 < photon) (hwidth : 0 < broadening)
    {evaluator : Evaluator} {points : List (KPoint ℝ)} {s : AbsorptionSpectrum ℝ} :
    spectrum model solve evaluator points half photons broadening = .ok s ↔
      (photons = [] ∨ points ≠ [] ∧ ∀ k ∈ points, Succeeds (transitions model solve half) k) ∧
        s = average model solve half photons broadening points := by
  refine request_eq_ok_iff hphotons hwidth ?_ ?_
  · rintro rfl
    rfl
  · rw [columnSums_eq, List.map_map]
    refine congrArg (AbsorptionSpectrum.mk photons) (List.map_congr_left fun photon _ ↦ ?_)
    simp only [sum_eq]
    rw [Function.comp_apply, normalization_eq]
    exact mul_comm _ _

/-- No transition takes away from the absorption. -/
theorem term_nonneg {photon : ℝ} (hphoton : 0 < photon) (hwidth : 0 < broadening)
    (t : Transition ℝ) : 0 ≤ term broadening photon t := by
  have hstrength : 0 ≤ t.strength := add_nonneg t.velocityX.normSq_nonneg t.velocityY.normSq_nonneg
  have hsquare : 0 ≤ Number.square (t.energy - photon) := mul_self_nonneg _
  unfold term
  positivity

/-- The prefactor is positive. -/
theorem absorptionPrefactor_pos : (0 : ℝ) < absorptionPrefactor := by
  simp only [absorptionPrefactor, elementaryCharge, hbar, speedOfLight, vacuumPermittivity, one_eq]
  norm_num

/-- No entry of an absorption spectrum is negative. -/
theorem average_nonneg (harea : 0 < model.unitCellArea) (hvalley : 0 < model.valleyDegeneracy)
    (hphotons : ∀ photon ∈ photons, 0 < photon) (hwidth : 0 < broadening)
    (points : List (KPoint ℝ)) :
    ∀ x ∈ (average model solve half photons broadening points).absorption, 0 ≤ x := by
  have hunit : 0 ≤ normalization model 1 := by
    have hprefactor := absorptionPrefactor_pos
    simp only [normalization, ofNat_eq]
    positivity
  intro x hx
  obtain ⟨photon, hphoton, rfl⟩ := List.mem_map.mp hx
  refine pointAverage_nonneg hunit fun k _ ↦ List.sum_nonneg fun y hy ↦ ?_
  obtain ⟨t, -, rfl⟩ := List.mem_map.mp hy
  exact term_nonneg (hphotons photon hphoton) hwidth t

/-- The absorption spectrum averages what its points give. -/
theorem averagesTransitions (model : BandModel ℝ) (solve : Solver ℝ) (half : ℕ)
    (hphotons : ∀ photon ∈ photons, 0 < photon) (hwidth : 0 < broadening) :
    AveragesTransitions model solve half photons
      (spectrum model solve · · half photons broadening) AbsorptionSpectrum.absorption :=
  .of_values (spectrum_eq_ok_iff hphotons hwidth)
    (fun hperm ↦ congrArg (AbsorptionSpectrum.mk photons)
      (List.map_congr_left fun _ _ ↦ pointAverage_perm hperm)) fun _ ↦ rfl

end Absorption

/-! ## Conductivity -/

namespace Cplx

/-- The zero of the complex scalars has the two zero parts. -/
theorem zero_eq : (0 : Cplx ℝ) = ⟨0, 0⟩ := Cplx.ext RealScalar.zero_eq RealScalar.zero_eq

/-- Real numbers scale both parts. -/
noncomputable instance : Module ℝ (Cplx ℝ) where
  smul := scale
  one_smul z := Cplx.ext (one_mul z.re) (one_mul z.im)
  mul_smul x y z := Cplx.ext (mul_assoc x y z.re) (mul_assoc x y z.im)
  smul_zero x := by
    rw [zero_eq]
    exact Cplx.ext (mul_zero x) (mul_zero x)
  smul_add x z w := Cplx.ext (mul_add x z.re w.re) (mul_add x z.im w.im)
  add_smul x y z := Cplx.ext (add_mul x y z.re) (add_mul x y z.im)
  zero_smul z := by
    rw [zero_eq]
    exact Cplx.ext (zero_mul z.re) (zero_mul z.im)

/-- Minus the imaginary part, which of a response is the part that absorbs. -/
noncomputable def absorptive : Cplx ℝ →ₗ[ℝ] ℝ where
  toFun z := -z.im
  map_add' z w := neg_add z.im w.im
  map_smul' x z := (mul_neg x z.im).symm

end Cplx

namespace Conductivity

variable {model : BandModel ℝ} {solve : Solver ℝ} {half : ℕ} {photons : List ℝ} {eta : ℝ}

/-- The response that the transitions at the points give on average. -/
noncomputable def average (model : BandModel ℝ) (solve : Solver ℝ) (half : ℕ) (photons : List ℝ)
    (eta : ℝ) (points : List (KPoint ℝ)) : ConductivitySpectrum ℝ :=
  ofResponse photons (photons.map fun photon ↦ pointAverage (normalization model 1)
    (fun k ↦ ((model.transitionsAt solve half k).map (term eta photon)).sum) points)

/-- The weight of a point goes down with the number of points. -/
theorem normalization_eq (model : BandModel ℝ) (n : ℕ) :
    normalization model n = normalization model 1 / n := by
  simp only [normalization, ofNat_eq, Nat.cast_one, one_mul]
  rw [div_mul_eq_div_div_swap, div_right_comm]

/-- The column sums of a table of terms are the sums over the points. -/
theorem columnSums_eq (f : KPoint ℝ → ℝ → Cplx ℝ) (photons : List ℝ) (points : List (KPoint ℝ)) :
    columnSums photons.length (points.map fun k ↦ photons.map (f k)) =
      photons.map fun photon ↦ (points.map fun k ↦ f k photon).sum :=
  foldl_zipWith_zero f photons points

/-- A spectrum is the average over the points. -/
theorem spectrum_eq_ok_iff (hphotons : ∀ photon ∈ photons, 0 < photon) (heta : 0 < eta)
    {evaluator : Evaluator} {points : List (KPoint ℝ)} {s : ConductivitySpectrum ℝ} :
    spectrum model solve evaluator points half photons eta = .ok s ↔
      (photons = [] ∨ points ≠ [] ∧ ∀ k ∈ points, Succeeds (transitions model solve half) k) ∧
        s = average model solve half photons eta points := by
  refine request_eq_ok_iff hphotons heta ?_ ?_
  · rintro rfl
    rfl
  · rw [columnSums_eq, List.map_map]
    refine congrArg (ofResponse photons) (List.map_congr_left fun photon _ ↦ ?_)
    simp only [Cplx.sum_eq]
    rw [Function.comp_apply, normalization_eq]
    rfl

/-- The part of a response that absorbs has the sign of the transition energy. -/
theorem absorptive_term (eta photon : ℝ) (t : Transition ℝ) :
    Cplx.absorptive (term eta photon t) = t.velocityX.normSq * (t.energy * eta) /
      (Cplx.scale t.energy ⟨t.energy - photon, eta⟩).normSq := by
  have him : (term eta photon t).im = ((Cplx.ofReal t.velocityX.normSq).im *
      (Cplx.scale t.energy ⟨t.energy - photon, eta⟩).re - t.velocityX.normSq * (t.energy * eta)) /
        (Cplx.scale t.energy ⟨t.energy - photon, eta⟩).normSq := rfl
  show -(term eta photon t).im = _
  -- The numerator is real, so that only the imaginary part of the denominator is left.
  rw [him, Cplx.ofReal_im, zero_eq, zero_mul, zero_sub, neg_div, neg_neg]

/-- A transition of positive energy absorbs. -/
theorem absorptive_term_nonneg (heta : 0 < eta) (photon : ℝ) {t : Transition ℝ}
    (ht : 0 < t.energy) : 0 ≤ Cplx.absorptive (term eta photon t) := by
  rw [absorptive_term]
  exact div_nonneg (mul_nonneg t.velocityX.normSq_nonneg (mul_pos ht heta).le)
    (Cplx.normSq_nonneg _)

/-- The real conductivity is an average of what absorbs. -/
theorem average_sigmaXX (points : List (KPoint ℝ)) :
    (average model solve half photons eta points).sigmaXX =
      photons.map fun photon ↦ pointAverage (normalization model 1) (fun k ↦
        ((model.transitionsAt solve half k).map fun t ↦ Cplx.absorptive (term eta photon t)).sum)
        points := by
  refine (List.map_map).trans (List.map_congr_left fun photon _ ↦ ?_)
  refine (map_pointAverage Cplx.absorptive).trans ?_
  simp only [map_list_sum, List.map_map]
  rfl

/-- No entry of the absorptive part is negative when all transitions have positive energy. -/
theorem average_nonneg (harea : 0 < model.unitCellArea) (heta : 0 < eta)
    {points : List (KPoint ℝ)}
    (henergy : ∀ k ∈ points, ∀ t ∈ model.transitionsAt solve half k, 0 < t.energy) :
    ∀ x ∈ (average model solve half photons eta points).sigmaXX, 0 ≤ x := by
  have hunit : 0 ≤ normalization model 1 := by
    have hspin : (0 : ℝ) < spinDegeneracy := two_pos
    have hmonolayer : (0 : ℝ) < monolayerConductivity := by
      unfold monolayerConductivity
      norm_num
    simp only [normalization, ofNat_eq]
    positivity
  intro x hx
  rw [average_sigmaXX] at hx
  obtain ⟨photon, -, rfl⟩ := List.mem_map.mp hx
  refine pointAverage_nonneg hunit fun k hk ↦ List.sum_nonneg fun y hy ↦ ?_
  obtain ⟨t, ht, rfl⟩ := List.mem_map.mp hy
  exact absorptive_term_nonneg heta photon (henergy k hk t ht)

/-- The order of the points does not matter. -/
theorem average_perm {points others : List (KPoint ℝ)} (h : points.Perm others) :
    average model solve half photons eta points = average model solve half photons eta others :=
  congrArg (ofResponse photons) (List.map_congr_left fun _ _ ↦ pointAverage_perm h)

/-- The conductivity spectrum averages what its points give, and so does its absorptive part. -/
theorem averagesTransitions (model : BandModel ℝ) (solve : Solver ℝ) (half : ℕ)
    (hphotons : ∀ photon ∈ photons, 0 < photon) (heta : 0 < eta) :
    AveragesTransitions model solve half photons (spectrum model solve · · half photons eta)
      ConductivitySpectrum.response ∧
    AveragesTransitions model solve half photons (spectrum model solve · · half photons eta)
      ConductivitySpectrum.sigmaXX :=
  ⟨.of_values (spectrum_eq_ok_iff hphotons heta) average_perm fun _ ↦ rfl,
    .of_values (spectrum_eq_ok_iff hphotons heta) average_perm average_sigmaXX⟩

end Conductivity

/-- Spectra of either kind are averages over the points of what the transitions there give. No entry
of the absorption is negative, and none of the real conductivity if the transitions at all points
have positive energies. -/
theorem optical_spectra_averaged (model : BandModel ℝ) (solve : Solver ℝ) (half : ℕ)
    {photons : List ℝ} {broadening eta : ℝ} (harea : 0 < model.unitCellArea)
    (hvalley : 0 < model.valleyDegeneracy) (hphotons : ∀ photon ∈ photons, 0 < photon)
    (hbroadening : 0 < broadening) (heta : 0 < eta) :
    (∀ evaluator points s,
      Absorption.spectrum model solve evaluator points half photons broadening = .ok s →
      s = Absorption.average model solve half photons broadening points ∧
      ∀ x ∈ s.absorption, 0 ≤ x) ∧
    (∀ evaluator points s,
      Conductivity.spectrum model solve evaluator points half photons eta = .ok s →
      s = Conductivity.average model solve half photons eta points ∧
      ((∀ k ∈ points, ∀ list, transitions model solve half k = .ok list →
        ∀ t ∈ list, 0 < t.energy) → ∀ x ∈ s.sigmaXX, 0 ≤ x)) ∧
    AveragesTransitions model solve half photons
      (Absorption.spectrum model solve · · half photons broadening)
      AbsorptionSpectrum.absorption ∧
    AveragesTransitions model solve half photons
      (Conductivity.spectrum model solve · · half photons eta) ConductivitySpectrum.response ∧
    AveragesTransitions model solve half photons
      (Conductivity.spectrum model solve · · half photons eta) ConductivitySpectrum.sigmaXX := by
  refine ⟨fun evaluator points s hs ↦ ?_, fun evaluator points s hs ↦ ?_,
    Absorption.averagesTransitions model solve half hphotons hbroadening,
    Conductivity.averagesTransitions model solve half hphotons heta⟩
  · obtain ⟨-, rfl⟩ := (Absorption.spectrum_eq_ok_iff hphotons hbroadening).mp hs
    exact ⟨rfl, Absorption.average_nonneg harea hvalley hphotons hbroadening points⟩
  · obtain ⟨-, rfl⟩ := (Conductivity.spectrum_eq_ok_iff hphotons heta).mp hs
    refine ⟨rfl, fun henergy ↦ Conductivity.average_nonneg harea heta fun k hk t ht ↦ ?_⟩
    obtain ⟨list, hlist, ht⟩ := BandModel.exists_of_mem_transitionsAt ht
    exact henergy k hk list hlist t ht

namespace Chern

/-- The corners of two by two cells in the zone of the insulator. -/
noncomputable def insulatorCorners (cells : List (ℕ × ℕ)) : List (KPoint ℝ) :=
  cells.map fun cell ↦ corner squareZone.1 squareZone.2 2 cell.1 cell.2

/-- At each of the corners there is one transition, over the gap. -/
theorem transitions_insulator {cells : List (ℕ × ℕ)} {k : KPoint ℝ}
    (hk : k ∈ insulatorCorners cells) : ∃ t,
      transitions (chernInsulator (3 : ℝ)) diagonalSolver 1 k = .ok [t] ∧ 0 < t.energy := by
  obtain ⟨⟨i, j⟩, -, rfl⟩ := List.mem_map.mp hk
  have hmid : (⟨(insulatorLevels i j).toArray⟩ : Spectrum ℝ).mid = 1 := by
    simp [Spectrum.mid, Spectrum.size, insulatorLevels]
  refine ⟨_, transitions_of_bands (spectrum_insulator i j) hmid.ge (by rw [hmid]; decide), ?_⟩
  simp only [Spectrum.transition, hmid]
  show 0 < insulatorEnergy i j - -insulatorEnergy i j
  linarith [insulatorEnergy_pos i j]

/-- Two photon energies for the insulator, at two corners and at one, and at all three of them. -/
theorem optical_spectra_averaged_insulator :
    let model := chernInsulator (3 : ℝ)
    let points := insulatorCorners [(0, 0), (1, 0)]
    let others := insulatorCorners [(0, 1)]
    ∃ s s₁ s₂ c,
      Absorption.spectrum model diagonalSolver ⟨2⟩ (points ++ others) 1 [5, 10] 1 = .ok s ∧
      Absorption.spectrum model diagonalSolver ⟨3⟩ (others ++ points) 1 [5, 10] 1 = .ok s ∧
      Absorption.spectrum model diagonalSolver ⟨1⟩ points 1 [5, 10] 1 = .ok s₁ ∧
      Absorption.spectrum model diagonalSolver ⟨1⟩ others 1 [5, 10] 1 = .ok s₂ ∧
      Conductivity.spectrum model diagonalSolver ⟨2⟩ points 1 [5, 10] 1 = .ok c ∧
      (∀ x ∈ s.absorption, 0 ≤ x) ∧ (∀ x ∈ c.sigmaXX, 0 ≤ x) ∧
      s.absorption.map (fun x ↦ ((2 : ℕ) + (1 : ℕ) : ℝ) * x) = List.zipWith
        (fun x y : ℝ ↦ (2 : ℕ) * x + (1 : ℕ) * y) s₁.absorption s₂.absorption := by
  intro model points others
  have hone : (0 : ℝ) < (1 : ℕ) := Nat.cast_pos.mpr one_pos
  have hphotons : ∀ photon ∈ [(5 : ℝ), 10], 0 < photon := by simp
  obtain ⟨habsorption, hconductivity, haverages, hresponses, -⟩ :=
    optical_spectra_averaged model diagonalSolver 1 hone hone hphotons one_pos one_pos
  have hreturns : ∀ {cells : List (ℕ × ℕ)}, ∀ k ∈ insulatorCorners cells,
      ∃ list, transitions model diagonalSolver 1 k = .ok list :=
    fun k hk ↦ (transitions_insulator hk).imp' (fun t ↦ [t]) fun _ ht ↦ ht.1
  obtain ⟨s₁, hs₁⟩ := (haverages.returns_iff ⟨1⟩ points).mpr (.inr ⟨List.cons_ne_nil _ _, hreturns⟩)
  obtain ⟨s₂, hs₂⟩ := (haverages.returns_iff ⟨1⟩ others).mpr (.inr ⟨List.cons_ne_nil _ _, hreturns⟩)
  obtain ⟨s, hs⟩ := (haverages.returns_iff ⟨2⟩ (points ++ others)).mpr
    (.inr ⟨List.cons_ne_nil _ _, List.forall_mem_append.mpr ⟨hreturns, hreturns⟩⟩)
  obtain ⟨c, hc⟩ := (hresponses.returns_iff ⟨2⟩ points).mpr (.inr ⟨List.cons_ne_nil _ _, hreturns⟩)
  refine ⟨s, s₁, s₂, c, hs, haverages.of_perm List.perm_append_comm hs, hs₁, hs₂, hc,
    (habsorption _ _ s hs).2, (hconductivity _ _ c hc).2 fun k hk list hlist t ht ↦ ?_,
    haverages.append (List.cons_ne_nil _ _) (List.cons_ne_nil _ _) hs hs₁ hs₂⟩
  obtain ⟨only, honly, hpos⟩ := transitions_insulator hk
  cases hlist.symm.trans honly
  exact List.mem_singleton.mp ht ▸ hpos

end Chern

end Moire
