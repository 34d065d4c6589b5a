import Mathlib
import Moire.Optics.Conductivity
import Moire.Optics.Raman
import Moire.Proofs.Evaluation
import Moire.Proofs.PlaquetteSum

/-!
# Observables do not see the phases of states

An eigenvector is determined up to a factor of modulus one, and a solver chooses one for every level
at every point. Two solvers that differ in these choices alone are run side by side
(`BandModel.SameUpToPhases`). Matrix elements between two levels then differ by a phase that belongs
to the two levels (`Spectrum.SameUpToPhases.element`), and a link of two states by the phases of its
ends (`link_turn`). `observables_gauge_invariant` says that nothing of this is left in what is
measured: around a parallelogram each phase meets its conjugate, and everywhere else only moduli and
products with a conjugate occur.
-/

namespace Moire

open RealScalar

/-! ## Outcomes side by side -/

section

variable {β γ δ ε : Type}

/-- Both computations return, and what they return is related, or they stop alike. -/
inductive Outcome.Rel (R : β → γ → Prop) : Outcome β → Outcome γ → Prop
  | ok {a : β} {b : γ} (h : R a b) : Rel R (.ok a) (.ok b)
  | error (cause : Failure) : Rel R (.error cause) (.error cause)

variable {R : β → γ → Prop} {S : δ → ε → Prop}

/-- Related outcomes stay related when both go on with steps that keep the relation. -/
theorem Outcome.Rel.bind {first : Outcome β} {second : Outcome γ} (h : Rel R first second)
    {next : β → Outcome δ} {next' : γ → Outcome ε}
    (hnext : ∀ a b, R a b → Rel S (next a) (next' b)) :
    Rel S (first >>= next) (second >>= next') := by
  cases h with
  | ok hab => exact hnext _ _ hab
  | error cause => exact .error cause

/-- A step that does not depend on the run is taken in both. -/
theorem Outcome.Rel.bind_same (first : Outcome β) {next : β → Outcome δ} {next' : β → Outcome ε}
    (hnext : ∀ a, Rel S (next a) (next' a)) : Rel S (first >>= next) (first >>= next') := by
  cases first with
  | ok a => exact hnext a
  | error cause => exact .error cause

/-- Both runs take the same branch. -/
theorem Outcome.Rel.ite {p : Prop} [Decidable p] {yes no : Outcome β} {yes' no' : Outcome γ}
    (hyes : Rel R yes yes') (hno : Rel R no no') :
    Rel R (if p then yes else no) (if p then yes' else no') := by
  split
  · exact hyes
  · exact hno

/-- A result that does not tell related values apart is the same in both runs. -/
theorem Outcome.Rel.map_eq {first : Outcome β} {second : Outcome γ} (h : Rel R first second)
    {f : β → δ} {g : γ → δ} (hfg : ∀ a b, R a b → g b = f a) :
    (do return g (← second)) = (do return f (← first) : Outcome δ) := by
  cases h with
  | ok hab => exact congrArg Except.ok (hfg _ _ hab)
  | error cause => rfl

/-- An outcome is related to itself by equality. -/
theorem Outcome.Rel.refl (outcome : Outcome β) : Rel Eq outcome outcome := by
  cases outcome with
  | ok a => exact .ok rfl
  | error cause => exact .error cause

/-- Outcomes related by equality are equal. -/
theorem Outcome.Rel.eq {first second : Outcome β} (h : Rel Eq first second) : first = second := by
  cases h with
  | ok hab => rw [hab]
  | error cause => rfl

end

/-! ## Turned states -/

/-- A number of modulus one. -/
def Cplx.IsPhase (c : Cplx ℝ) : Prop := ‖c.toComplex‖ = 1

namespace Cplx.IsPhase

variable {c d : Cplx ℝ}

/-- The conjugate of a phase times a phase is a phase. -/
theorem conj_mul (hc : c.IsPhase) (hd : d.IsPhase) : (c.conj * d).IsPhase := by
  rw [IsPhase, toComplex_mul, toComplex_conj, norm_mul, norm_star, hc, hd, one_mul]

/-- A phase does not change the squared norm. -/
theorem normSq_mul (hc : c.IsPhase) (z : Cplx ℝ) : (c * z).normSq = z.normSq := by
  have hnormSq : ∀ w : Cplx ℝ, w.normSq = Complex.normSq w.toComplex := fun _ ↦ rfl
  rw [hnormSq, hnormSq, toComplex_mul, Complex.normSq_mul, Complex.normSq_eq_norm_sq, hc, one_pow,
    one_mul]

/-- A phase does not change the norm. -/
theorem norm_mul (hc : c.IsPhase) (z : Cplx ℝ) : (c * z).norm = z.norm := by
  rw [norm, norm, hc.normSq_mul]

/-- A phase cancels against its conjugate. -/
theorem conj_mul_mul (hc : c.IsPhase) (x y : Cplx ℝ) : (c * x).conj * (c * y) = x.conj * y := by
  apply toComplex_injective
  have hunit := mul_star_of_norm hc
  simp only [toComplex_mul, toComplex_conj, star_mul']
  linear_combination star x.toComplex * y.toComplex * hunit

end Cplx.IsPhase

/-- The state with every component multiplied by a number. -/
noncomputable def CVector.turn (c : Cplx ℝ) (v : CVector ℝ) : CVector ℝ := v.map (c * ·)

/-- The phases of two states come out of their inner product, the first one conjugated. -/
theorem CVector.inner_turn (c d : Cplx ℝ) (v w : CVector ℝ) :
    (v.turn c).inner (w.turn d) = c.conj * d * v.inner w := by
  apply Cplx.toComplex_injective
  rw [Cplx.toComplex_mul, toComplex_inner_eq_sum, toComplex_inner_eq_sum, turn, turn,
    Array.toList_map, Array.toList_map, List.zip_map, List.map_map, ← List.sum_map_mul_left]
  refine congrArg List.sum (List.map_congr_left fun pair _ ↦ ?_)
  simp only [Function.comp_apply, Prod.map_fst, Prod.map_snd, Cplx.toComplex_mul,
    Cplx.toComplex_conj, star_mul']
  ring

/-- A matrix takes a turned state to the turned image. -/
theorem CMatrix.apply_turn (m : CMatrix ℝ) (c : Cplx ℝ) (v : CVector ℝ) :
    m.apply (v.turn c) = (m.apply v).turn c := by
  have hsum : ∀ row w : CVector ℝ,
      ((row.zip w).foldl (fun total (a, b) ↦ total + a * b) Cplx.zero).toComplex =
        ((row.toList.zip w.toList).map fun pair ↦
          pair.1.toComplex * pair.2.toComplex).sum := by
    intro row w
    refine (CVector.toComplex_foldl_zip (fun pair ↦ pair.1 * pair.2) row w).trans ?_
    simp only [Cplx.toComplex_mul]
  rw [apply, apply, CVector.turn, CVector.turn, Array.map_map]
  refine Array.map_congr_left fun row _ ↦ Cplx.toComplex_injective ?_
  rw [Function.comp_apply, Cplx.toComplex_mul, hsum, hsum, Array.toList_map, List.zip_map_right,
    List.map_map, ← List.sum_map_mul_left]
  refine congrArg List.sum (List.map_congr_left fun pair _ ↦ ?_)
  simp only [Function.comp_apply, Prod.map_fst, Prod.map_snd, Cplx.toComplex_mul, id]
  ring

/-- The second state is the first one, turned by a phase. -/
def CVector.SameUpToPhase (v v' : CVector ℝ) : Prop :=
  ∃ c : Cplx ℝ, c.IsPhase ∧ v' = v.turn c

/-! ## Spectra with other phases -/

/-- Spectra with the same energies in order, whose states differ by a phase each. -/
structure Spectrum.SameUpToPhases (s s' : Spectrum ℝ) : Prop where
  energies : s'.energies = s.energies
  states : ∀ i, (s.state i).SameUpToPhase (s'.state i)

/-- At a point the two solvers give the same energies and states that differ by a phase each, or
they stop alike. -/
def BandModel.SameUpToPhases (model : BandModel ℝ) (solve solve' : Solver ℝ) (k : KPoint ℝ) :
    Prop :=
  Outcome.Rel Spectrum.SameUpToPhases (model.spectrum solve k) (model.spectrum solve' k)

namespace Spectrum.SameUpToPhases

variable {s s' : Spectrum ℝ} (h : s.SameUpToPhases s')

include h

/-- Such spectra have the same number of levels. -/
theorem size_eq : s'.size = s.size := by
  have hlength := congrArg List.length h.energies
  simpa [Spectrum.energies, size] using hlength

/-- Such spectra have the same energy at each level. -/
theorem energy_eq (i : ℕ) : s'.energy i = s.energy i := by
  have hentry := congrArg (·[i]?) h.energies
  simp only [Spectrum.energies, List.getElem?_map, Array.getElem?_toList] at hentry
  rw [energy, energy, hentry]

/-- The valence bands are chosen alike. -/
theorem valence_eq (count : ℕ) : s'.valence count = s.valence count := by
  unfold valence mid
  rw [h.size_eq]

/-- The conduction bands are chosen alike. -/
theorem conduction_eq (count : ℕ) : s'.conduction count = s.conduction count := by
  unfold conduction mid
  rw [h.size_eq]

/-- The matrix elements between two levels differ by a phase that belongs to the two levels. -/
theorem element (a b : ℕ) : ∃ c : Cplx ℝ, c.IsPhase ∧ ∀ m : CMatrix ℝ,
    (s'.state a).inner (m.apply (s'.state b)) = c * (s.state a).inner (m.apply (s.state b)) := by
  obtain ⟨c, hc, ha⟩ := h.states a
  obtain ⟨d, hd, hb⟩ := h.states b
  refine ⟨c.conj * d, hc.conj_mul hd, fun m ↦ ?_⟩
  rw [ha, hb, CMatrix.apply_turn, CVector.inner_turn]

end Spectrum.SameUpToPhases

/-! ## Transitions -/

/-- The same transition, its velocity turned by a phase. -/
structure Transition.SameUpToPhase (t t' : Transition ℝ) : Prop where
  valence : t'.valence = t.valence
  conduction : t'.conduction = t.conduction
  energy : t'.energy = t.energy
  velocity : ∃ c : Cplx ℝ, c.IsPhase ∧ t'.velocityX = c * t.velocityX ∧
    t'.velocityY = c * t.velocityY

namespace Transition.SameUpToPhase

variable {t t' : Transition ℝ} (h : t.SameUpToPhase t')

include h

/-- The strength of the velocity along `x` does not see the phase. -/
theorem normSq_velocityX : t'.velocityX.normSq = t.velocityX.normSq := by
  obtain ⟨c, hc, hx, -⟩ := h.velocity
  rw [hx, hc.normSq_mul]

/-- The Raman strength does not see the phase. -/
theorem strength_eq : t'.strength = t.strength := by
  obtain ⟨c, hc, hx, hy⟩ := h.velocity
  rw [strength, strength, hx, hy, hc.normSq_mul, hc.normSq_mul]

/-- The absorption of a transition does not see the phase. -/
theorem absorption_eq (broadening photon : ℝ) :
    Absorption.term broadening photon t' = Absorption.term broadening photon t := by
  rw [Absorption.term, Absorption.term, h.strength_eq, h.energy]

/-- The conductivity of a transition does not see the phase. -/
theorem conductivity_eq (eta photon : ℝ) :
    Conductivity.term eta photon t' = Conductivity.term eta photon t := by
  rw [Conductivity.term, Conductivity.term, h.normSq_velocityX, h.energy]

/-- The Raman term of a transition does not see the phase. -/
theorem raman_eq (params : RamanParams ℝ) : Raman.term params t' = Raman.term params t := by
  unfold Raman.term
  rw [h.strength_eq, h.energy]

end Transition.SameUpToPhase

/-- What takes related entries to equal values takes related lists to equal lists. -/
theorem map_eq_of_forall₂ {β γ δ : Type} {R : β → γ → Prop} {f : β → δ} {g : γ → δ}
    {entries : List β} {entries' : List γ} (h : List.Forall₂ R entries entries')
    (hfg : ∀ a b, R a b → g b = f a) : entries'.map g = entries.map f := by
  induction h with
  | nil => rfl
  | cons hab _ ih => rw [List.map_cons, List.map_cons, hfg _ _ hab, ih]

section

variable {model : BandModel ℝ} {solve solve' : Solver ℝ} {k : KPoint ℝ}
  (h : model.SameUpToPhases solve solve' k)

include h

/-- The transitions at a point agree one by one, up to a phase each. -/
theorem transitions_rel (half : ℕ) : Outcome.Rel (List.Forall₂ Transition.SameUpToPhase)
    (transitions model solve half k) (transitions model solve' half k) := by
  refine Outcome.Rel.bind h fun s s' hs ↦ ?_
  rw [hs.valence_eq, hs.conduction_eq]
  refine Outcome.Rel.bind_same _ fun valence ↦ Outcome.Rel.bind_same _ fun conduction ↦ .ok ?_
  -- The bands are the same in both runs, so the lists are compared entry by entry.
  have hsame : List.Forall₂ Eq conduction.zipIdx conduction.zipIdx := List.forall₂_refl _
  refine List.rel_flatMap hsame fun ⟨c, i⟩ _ hfirst ↦ ?_
  subst hfirst
  dsimp only
  rw [List.zipIdx_map, List.zipIdx_map, List.map_map, List.map_map, List.forall₂_map_left_iff,
    List.forall₂_map_right_iff, List.forall₂_same]
  rintro ⟨v, j⟩ -
  obtain ⟨phase, hphase, helement⟩ := hs.element c v
  simp only [Function.comp_apply, Prod.map_apply, id, hs.energy_eq]
  exact ⟨rfl, rfl, rfl, phase, hphase, helement _, helement _⟩

/-- What is worked out from the transitions and does not see phases is the same in both runs. -/
theorem transitions_congr {δ : Type} (half : ℕ) {f : List (Transition ℝ) → δ}
    (hf : ∀ list list', List.Forall₂ Transition.SameUpToPhase list list' → f list' = f list) :
    (do return f (← transitions model solve' half k)) =
      (do return f (← transitions model solve half k) : Outcome δ) :=
  (transitions_rel h half).map_eq hf

/-- The absorption at a point does not see the phases of the states. -/
theorem Absorption.row_congr (half : ℕ) (photons : List ℝ) (broadening : ℝ) :
    row model solve' half photons broadening k = row model solve half photons broadening k :=
  transitions_congr h half fun _ _ hlist ↦ List.map_congr_left fun photon _ ↦
    congrArg Number.sum (map_eq_of_forall₂ hlist fun _ _ ht ↦ ht.absorption_eq broadening photon)

/-- The conductivity at a point does not see the phases of the states. -/
theorem Conductivity.row_congr (half : ℕ) (photons : List ℝ) (eta : ℝ) :
    row model solve' half photons eta k = row model solve half photons eta k :=
  transitions_congr h half fun _ _ hlist ↦ List.map_congr_left fun photon _ ↦
    congrArg Cplx.sum (map_eq_of_forall₂ hlist fun _ _ ht ↦ ht.conductivity_eq eta photon)

/-- The Raman terms at a point do not see the phases of the states. -/
theorem Raman.terms_congr (params : RamanParams ℝ) :
    terms model solve' params k = terms model solve params k := by
  refine transitions_congr h params.half fun list list' hlist ↦ ?_
  have hcounted : ∀ inner, List.Forall₂ Transition.SameUpToPhase
      (list.filter fun t ↦ t.valence ≤ inner && t.conduction ≤ inner)
      (list'.filter fun t ↦ t.valence ≤ inner && t.conduction ≤ inner) := by
    intro inner
    refine List.rel_filter (fun t t' ht ↦ ?_) hlist
    simp only [ht.valence, ht.conduction]
  exact map_eq_of_forall₂ (hcounted _) fun _ _ ht ↦ ht.raman_eq params

/-! ## Berry curvature and Berry phases -/

/-- The Berry curvature does not see the phases of the states. -/
theorem berryCurvature_congr (band : ℤ) :
    berryCurvature model solve' band k = berryCurvature model solve band k := by
  refine Eq.symm (Outcome.Rel.eq (Outcome.Rel.bind h fun s s' hs ↦ ?_))
  rw [Spectrum.bandIndex_congr hs.size_eq]
  refine Outcome.Rel.bind_same _ fun n ↦ .ok ?_
  rw [hs.size_eq]
  refine congrArg (fun terms : List (Cplx ℝ) ↦ (Cplx.i * Cplx.sum terms).re)
    (List.map_congr_left fun m _ ↦ ?_)
  obtain ⟨c, hc, helement⟩ := hs.element m n
  simp only [curvatureTerm, helement, hc.conj_mul_mul, hs.energy_eq]

/-- The state of a band at a point is the same up to a phase. -/
theorem stateAt_rel (band : ℤ) : Outcome.Rel CVector.SameUpToPhase
    (stateAt model solve band k) (stateAt model solve' band k) := by
  refine Outcome.Rel.bind h fun s s' hs ↦ ?_
  rw [Spectrum.bandIndex_congr hs.size_eq]
  exact Outcome.Rel.bind_same _ fun n ↦ .ok (hs.states n)

end

/-- The phase around four states. -/
def phaseAround {α : Type} [Scalar α] (u₀₀ u₁₀ u₁₁ u₀₁ : CVector α) : Outcome α := do
  let product :=
    (← link u₀₀ u₁₀) * (← link u₁₀ u₁₁) / ((← link u₀₁ u₁₁) * (← link u₀₀ u₀₁))
  return 0 - product.arg

/-- The phase of a plaquette is that around the states at its four corners. -/
theorem plaquettePhase_eq_phaseAround {α : Type} [Scalar α] (model : BandModel α)
    (solve : Solver α) (step₁ step₂ : KPoint α) (band : ℤ) (k : KPoint α) :
    plaquettePhase model solve step₁ step₂ band k = (do
      let u₀₀ ← stateAt model solve band k
      let u₁₀ ← stateAt model solve band (k + step₁)
      let u₁₁ ← stateAt model solve band (k + step₁ + step₂)
      let u₀₁ ← stateAt model solve band (k + step₂)
      phaseAround u₀₀ u₁₀ u₁₁ u₀₁) :=
  rfl

section

variable {c₀₀ c₁₀ c₁₁ c₀₁ c d : Cplx ℝ}

/-- A link is the overlap divided by its norm, unless the norm is below the threshold. -/
theorem link_eq (u v : CVector ℝ) : link u v =
    if Number.lt (u.inner v).norm overlapThreshold then
      fail (.numerical .aggregation "vanishing overlap between neighbouring eigenstates")
    else .ok ((u.inner v).divReal (u.inner v).norm) :=
  rfl

/-- A link of two states is turned by the phases of its ends, and it vanishes as it did. -/
theorem link_turn (hc : c.IsPhase) (hd : d.IsPhase) (u v : CVector ℝ) :
    Outcome.Rel (fun z z' ↦ z'.toComplex = star c.toComplex * d.toComplex * z.toComplex)
      (link u v) (link (u.turn c) (v.turn d)) := by
  rw [link_eq, link_eq, CVector.inner_turn, (hc.conj_mul hd).norm_mul]
  refine .ite (.error _) (.ok ?_)
  rw [Cplx.toComplex_divReal, Cplx.toComplex_divReal, Cplx.toComplex_mul, Cplx.toComplex_mul,
    Cplx.toComplex_conj, mul_div_assoc]

/-- Around four states each phase meets its conjugate. -/
theorem phaseAround_turn (h₀₀ : c₀₀.IsPhase) (h₁₀ : c₁₀.IsPhase) (h₁₁ : c₁₁.IsPhase)
    (h₀₁ : c₀₁.IsPhase) (u₀₀ u₁₀ u₁₁ u₀₁ : CVector ℝ) :
    phaseAround (u₀₀.turn c₀₀) (u₁₀.turn c₁₀) (u₁₁.turn c₁₁) (u₀₁.turn c₀₁) =
      phaseAround u₀₀ u₁₀ u₁₁ u₀₁ := by
  refine Eq.symm (Outcome.Rel.eq ?_)
  refine (link_turn h₀₀ h₁₀ _ _).bind fun z₁ z₁' hz₁ ↦ ?_
  refine (link_turn h₁₀ h₁₁ _ _).bind fun z₂ z₂' hz₂ ↦ ?_
  refine (link_turn h₀₁ h₁₁ _ _).bind fun z₃ z₃' hz₃ ↦ ?_
  refine (link_turn h₀₀ h₀₁ _ _).bind fun z₄ z₄' hz₄ ↦ .ok ?_
  have hne : star c₀₀.toComplex * c₁₁.toComplex ≠ 0 := by
    rw [← norm_ne_zero_iff, norm_mul, norm_star, h₀₀, h₁₁]
    norm_num
  have hproduct : z₁' * z₂' / (z₃' * z₄') = z₁ * z₂ / (z₃ * z₄) := by
    apply Cplx.toComplex_injective
    have hunit₁₀ := mul_star_of_norm h₁₀
    have hunit₀₁ := mul_star_of_norm h₀₁
    rw [Cplx.toComplex_div, Cplx.toComplex_div, Cplx.toComplex_mul, Cplx.toComplex_mul,
      Cplx.toComplex_mul, Cplx.toComplex_mul, hz₁, hz₂, hz₃, hz₄,
      ← mul_div_mul_left (z₁.toComplex * z₂.toComplex) (z₃.toComplex * z₄.toComplex) hne]
    congr 1
    · linear_combination (star c₀₀.toComplex * c₁₁.toComplex * z₁.toComplex * z₂.toComplex) *
        hunit₁₀
    · linear_combination (star c₀₀.toComplex * c₁₁.toComplex * z₃.toComplex * z₄.toComplex) *
        hunit₀₁
  rw [hproduct]

end

/-! ## Turned solvers -/

/-- The level with its state multiplied by a number. -/
noncomputable def Level.turn (c : Cplx ℝ) (level : Level ℝ) : Level ℝ :=
  ⟨level.energy, level.state.turn c⟩

/-- The solver with every state turned by a phase that its level decides. -/
noncomputable def Solver.turn (phase : Level ℝ → Cplx ℝ) (solve : Solver ℝ) : Solver ℝ := fun h ↦
  (solve h).map (List.map fun level ↦ level.turn (phase level))

/-- A spectrum with turned states is the same up to phases. -/
theorem Spectrum.sameUpToPhases_turn {phase : Level ℝ → Cplx ℝ}
    (hphase : ∀ level, (phase level).IsPhase) (levels : List (Level ℝ)) :
    SameUpToPhases ⟨levels.toArray⟩
      ⟨(levels.map fun level ↦ level.turn (phase level)).toArray⟩ where
  energies := by
    simp only [Spectrum.energies, List.map_map]
    rfl
  states i := by
    simp only [state, List.getElem?_toArray, List.getElem?_map, Option.map_map]
    cases levels[i]? with
    | none =>
      have hone : (Cplx.ofReal (1 : ℝ)).IsPhase := by
        rw [Cplx.IsPhase, Cplx.toComplex_ofReal, Complex.ofReal_one, norm_one]
      exact ⟨_, hone, Array.map_empty.symm⟩
    | some level => exact ⟨phase level, hphase level, rfl⟩

/-- A solver whose states are turned by phases gives the same spectra up to phases. -/
theorem BandModel.sameUpToPhases_turn {phase : Level ℝ → Cplx ℝ}
    (hphase : ∀ level, (phase level).IsPhase) (model : BandModel ℝ) (solve : Solver ℝ)
    (k : KPoint ℝ) : model.SameUpToPhases solve (solve.turn phase) k := by
  unfold SameUpToPhases spectrum Spectrum.ofHamiltonian
  refine .ite (.error _) (.ite (.error _) (.ite (.error _) ?_))
  unfold Solver.turn
  cases solve (model.hamiltonian k) with
  | none => exact .error _
  | some levels =>
    have henergy : ∀ level : Level ℝ, (level.turn (phase level)).energy = level.energy :=
      fun _ ↦ rfl
    refine .ok ?_
    rw [Number.sortBy_map henergy]
    exact Spectrum.sameUpToPhases_turn hphase _

/-! ## All observables -/

/-- Two solvers whose states differ by a phase for every level at every point of interest measure
the same. The transitions have the same energies and strengths, the Raman amplitudes and the Berry
curvature are the same at a point, the spectra are the same over a list of points, and the Berry
phase is the same around a parallelogram, whatever the phases at its corners are. -/
theorem observables_gauge_invariant (model : BandModel ℝ) (solve solve' : Solver ℝ) :
    (∀ k, model.SameUpToPhases solve solve' k →
      (∀ half,
        (do return (← transitions model solve' half k).map fun t ↦
          (t.valence, t.conduction, t.energy, t.strength)) =
        (do return (← transitions model solve half k).map fun t ↦
          (t.valence, t.conduction, t.energy, t.strength) : Outcome _)) ∧
      (∀ params, Raman.terms model solve' params k = Raman.terms model solve params k) ∧
      ∀ band, berryCurvature model solve' band k = berryCurvature model solve band k) ∧
    (∀ points, (∀ k ∈ points, model.SameUpToPhases solve solve' k) → ∀ evaluator,
      (∀ half photons broadening,
        Absorption.spectrum model solve' evaluator points half photons broadening =
          Absorption.spectrum model solve evaluator points half photons broadening) ∧
      (∀ half photons eta,
        Conductivity.spectrum model solve' evaluator points half photons eta =
          Conductivity.spectrum model solve evaluator points half photons eta) ∧
      ∀ params, Raman.spectrum model solve' evaluator points params =
        Raman.spectrum model solve evaluator points params) ∧
    (∀ step₁ step₂ k, model.SameUpToPhases solve solve' k →
      model.SameUpToPhases solve solve' (k + step₁) →
      model.SameUpToPhases solve solve' (k + step₁ + step₂) →
      model.SameUpToPhases solve solve' (k + step₂) →
      ∀ band, plaquettePhase model solve' step₁ step₂ band k =
        plaquettePhase model solve step₁ step₂ band k) ∧
    ∀ (u₀₀ u₁₀ u₁₁ u₀₁ : CVector ℝ) (c₀₀ c₁₀ c₁₁ c₀₁ : Cplx ℝ),
      c₀₀.IsPhase → c₁₀.IsPhase → c₁₁.IsPhase → c₀₁.IsPhase →
      phaseAround (u₀₀.turn c₀₀) (u₁₀.turn c₁₀) (u₁₁.turn c₁₁) (u₀₁.turn c₀₁) =
        phaseAround u₀₀ u₁₀ u₁₁ u₀₁ := by
  refine ⟨fun k h ↦ ⟨fun half ↦ ?_, Raman.terms_congr h, berryCurvature_congr h⟩,
    fun points h evaluator ↦ ⟨fun half photons broadening ↦ ?_, fun half photons eta ↦ ?_,
      fun params ↦ ?_⟩, fun step₁ step₂ k h₀₀ h₁₀ h₁₁ h₀₁ band ↦ ?_,
    fun _ _ _ _ _ _ _ _ h₀₀ h₁₀ h₁₁ h₀₁ ↦ phaseAround_turn h₀₀ h₁₀ h₁₁ h₀₁ _ _ _ _⟩
  · refine transitions_congr h half fun _ _ hlist ↦ map_eq_of_forall₂ hlist fun t t' ht ↦ ?_
    rw [ht.valence, ht.conduction, ht.energy, ht.strength_eq]
  · unfold Absorption.spectrum
    rw [evaluator.evaluate_congr fun k hk ↦ Absorption.row_congr (h k hk) half photons broadening]
  · unfold Conductivity.spectrum
    rw [evaluator.evaluate_congr fun k hk ↦ Conductivity.row_congr (h k hk) half photons eta]
  · unfold Raman.spectrum Raman.termRows
    rw [evaluator.evaluate_congr fun k hk ↦ Raman.terms_congr (h k hk) params]
  · rw [plaquettePhase_eq_phaseAround, plaquettePhase_eq_phaseAround]
    refine Eq.symm (Outcome.Rel.eq ?_)
    refine (stateAt_rel h₀₀ band).bind fun u₀₀ _ ⟨c₀₀, hc₀₀, hu₀₀⟩ ↦ ?_
    refine (stateAt_rel h₁₀ band).bind fun u₁₀ _ ⟨c₁₀, hc₁₀, hu₁₀⟩ ↦ ?_
    refine (stateAt_rel h₁₁ band).bind fun u₁₁ _ ⟨c₁₁, hc₁₁, hu₁₁⟩ ↦ ?_
    refine (stateAt_rel h₀₁ band).bind fun u₀₁ _ ⟨c₀₁, hc₀₁, hu₀₁⟩ ↦ ?_
    rw [hu₀₀, hu₁₀, hu₁₁, hu₀₁, phaseAround_turn hc₀₀ hc₁₀ hc₁₁ hc₀₁]
    exact .refl _

namespace Chern

/-- A quarter turn for the levels below zero, a half turn for the others. -/
noncomputable def quarterPhase (level : Level ℝ) : Cplx ℝ :=
  if level.energy < 0 then ⟨0, 1⟩ else ⟨-1, 0⟩

/-- The quarter turns are phases. -/
theorem isPhase_quarterPhase (level : Level ℝ) : (quarterPhase level).IsPhase := by
  unfold quarterPhase Cplx.IsPhase Cplx.toComplex
  split <;> simp [Complex.norm_def, Complex.normSq_apply]

/-- A solver for the insulator of mass three and the solver that it becomes by quarter and half
turns. They return different states, and the same phase around a cell. -/
theorem observables_gauge_invariant_insulator :
    let model := chernInsulator (3 : ℝ)
    let k := corner model.gridVectors.1 model.gridVectors.2 2 0 0
    let step₁ : KPoint ℝ := model.gridVectors.1 / ((2 : ℕ) : ℝ)
    let step₂ : KPoint ℝ := model.gridVectors.2 / ((2 : ℕ) : ℝ)
    diagonalSolver.turn quarterPhase (model.hamiltonian k) ≠ diagonalSolver (model.hamiltonian k) ∧
      (∃ phase, plaquettePhase model diagonalSolver step₁ step₂ (-1) k = .ok phase ∧
        plaquettePhase model (diagonalSolver.turn quarterPhase) step₁ step₂ (-1) k = .ok phase) ∧
      Absorption.spectrum model (diagonalSolver.turn quarterPhase) ⟨2⟩ [k, k + step₁] 1 [10] 1 =
        Absorption.spectrum model diagonalSolver ⟨2⟩ [k, k + step₁] 1 [10] 1 ∧
      berryCurvature model (diagonalSolver.turn quarterPhase) (-1) k =
        berryCurvature model diagonalSolver (-1) k := by
  intro model k step₁ step₂
  have hsame : ∀ q, model.SameUpToPhases diagonalSolver (diagonalSolver.turn quarterPhase) q :=
    model.sameUpToPhases_turn isPhase_quarterPhase diagonalSolver
  obtain ⟨hpoint, hspectra, hplaquette, -⟩ := observables_gauge_invariant model diagonalSolver
    (diagonalSolver.turn quarterPhase)
  have hvalue := insulator_resolves.plaquettePhase_eq two_pos two_pos
  refine ⟨fun heq ↦ ?_, ⟨_, hvalue, ?_⟩, (hspectra _ (fun q _ ↦ hsame q) ⟨2⟩).1 1 [10] 1,
    (hpoint k (hsame k)).2.2 (-1)⟩
  · have hsolve : diagonalSolver (model.hamiltonian k) = some (List.ofFn fun s ↦
        ⟨![insulatorEnergy 0 0, -insulatorEnergy 0 0] s, orbitalState 2 s⟩) :=
      diagonalSolver_eq (insulator_toMatrix 0 0) rfl
    have hpos : ¬insulatorEnergy 0 0 < 0 := (insulatorEnergy_pos 0 0).asymm
    -- The first level is above zero, and a half turn changes the sign of its state.
    rw [Solver.turn, hsolve, Option.map_some, Option.some_inj] at heq
    have hfirst := congrArg (List.map fun level : Level ℝ ↦ (level.state.get 0).re) heq
    simp [Level.turn, CVector.turn, CVector.get, orbitalState, quarterPhase, hpos] at hfirst
    norm_num at hfirst
  · exact (hplaquette step₁ step₂ k (hsame _) (hsame _) (hsame _) (hsame _) (-1)).trans hvalue

end Chern

end Moire
