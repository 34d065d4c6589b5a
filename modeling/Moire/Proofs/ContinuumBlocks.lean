import Mathlib
import Moire.Continuum.Basic
import Moire.Proofs.BasisShells
import Moire.Proofs.ComplexMatrix

/-!
# The blocks of the continuum Hamiltonian

Two plane waves are joined by a two-by-two block that depends on them alone: `waveBlock` is the
Dirac matrix of a wave with itself, the tunnelling matrix of a process or its conjugate transpose,
and zero otherwise. The Hamiltonian is put together from two layers and two rectangles between
them; `Model.block_hamiltonian` says that the result is the table of these blocks in the order of
the basis, which is what statements about the matrix start from. `hamiltonian_blocks` spells the
table out, and counts the tunnelling blocks of a wave that the last round has not added.
-/

namespace Moire

open Matrix RealScalar

/-! ## Processes -/

namespace PlaneWave

/-- The process takes the bottom wave to the top wave. -/
inductive Tunnels : Hop → PlaneWave → PlaneWave → Prop
  | same (m n : ℤ) : Tunnels .same ⟨.bottom, m, n⟩ ⟨.top, m, n⟩
  | alongPlus (m n : ℤ) : Tunnels .alongPlus ⟨.bottom, m, n⟩ ⟨.top, m + 1, n⟩
  | alongMinus (m n : ℤ) : Tunnels .alongMinus ⟨.bottom, m, n⟩ ⟨.top, m, n + 1⟩

/-- The process from a wave to another is found from their labels. -/
theorem hopTo_eq_some_iff {u v : PlaneWave} {hop : Hop} :
    u.hopTo v = some hop ↔ Tunnels hop u v := by
  constructor
  · intro h
    obtain ⟨side, m, n⟩ := u
    obtain ⟨side', m', n'⟩ := v
    unfold hopTo at h
    split_ifs at h with hlayers hsame hplus hminus
    · obtain ⟨rfl, rfl⟩ := hlayers
      cases h
      obtain ⟨rfl, rfl⟩ : m' = m ∧ n' = n := by constructor <;> dsimp at hsame <;> omega
      exact .same m' n'
    · obtain ⟨rfl, rfl⟩ := hlayers
      cases h
      obtain ⟨rfl, rfl⟩ : m' = m + 1 ∧ n' = n := by constructor <;> dsimp at hplus <;> omega
      exact .alongPlus m n'
    · obtain ⟨rfl, rfl⟩ := hlayers
      cases h
      obtain ⟨rfl, rfl⟩ : m' = m ∧ n' = n + 1 := by constructor <;> dsimp at hminus <;> omega
      exact .alongMinus m' n
  · intro h
    cases h <;> simp [hopTo]

/-- A process leads from the bottom layer to the top layer. -/
theorem Tunnels.layers {hop : Hop} {u v : PlaneWave} (h : Tunnels hop u v) :
    u.layer = .bottom ∧ v.layer = .top := by
  cases h <;> exact ⟨rfl, rfl⟩

/-- There is no process from a wave to one that is not above it. -/
theorem hopTo_eq_none {u v : PlaneWave} (h : ¬ (u.layer = .bottom ∧ v.layer = .top)) :
    u.hopTo v = none :=
  if_neg h

/-- The wave at the other end of a process. -/
def partner (hop : Hop) (u : PlaneWave) : PlaneWave :=
  match hop with
  | .same => ⟨u.layer.other, u.m, u.n⟩
  | .alongPlus => ⟨u.layer.other, u.m + direction u.layer, u.n⟩
  | .alongMinus => ⟨u.layer.other, u.m, u.n + direction u.layer⟩

/-- The wave at the other end of a process is one of the partners. -/
theorem partner_mem_partners (hop : Hop) (u : PlaneWave) : u.partner hop ∈ u.partners := by
  cases hop <;> simp [partner, partners]

/-- Every process goes to the other layer. -/
theorem layer_partner (hop : Hop) (u : PlaneWave) : (u.partner hop).layer = u.layer.other := by
  cases hop <;> rfl

/-- No process goes from a wave to itself. -/
theorem partner_ne (hop : Hop) (u : PlaneWave) : u.partner hop ≠ u := by
  intro h
  have hlayer := layer_partner hop u
  rw [h] at hlayer
  cases hu : u.layer <;> simp [hu, Layer.other] at hlayer

/-- The three processes lead to different waves. -/
theorem partner_injective (u : PlaneWave) : Function.Injective fun hop ↦ u.partner hop := by
  intro hop hop' h
  obtain ⟨side, m, n⟩ := u
  cases hop <;> cases hop' <;> cases side <;> simp [partner, direction] at h ⊢

/-- The ends of a process are partners. -/
theorem tunnels_or_iff {hop : Hop} {u v : PlaneWave} :
    Tunnels hop u v ∨ Tunnels hop v u ↔ v = u.partner hop := by
  constructor
  · rintro (h | h) <;> cases h <;> simp [partner, direction, Layer.other]
  · rintro rfl
    obtain ⟨side, m, n⟩ := u
    cases side with
    | bottom =>
        left
        cases hop with
        | same => exact .same m n
        | alongPlus => exact .alongPlus m n
        | alongMinus => exact .alongMinus m n
    | top =>
        right
        cases hop with
        | same => exact .same m n
        | alongPlus => simpa [partner, direction, Layer.other] using Tunnels.alongPlus (m + -1) n
        | alongMinus => simpa [partner, direction, Layer.other] using Tunnels.alongMinus m (n + -1)

end PlaneWave

/-! ## The order of the basis -/

/-- A list in the order of the layers is its bottom waves followed by its top waves. -/
theorem eq_filter_append_filter {waves : List PlaneWave}
    (hordered : waves.Pairwise fun v w ↦ v.layer.tag ≤ w.layer.tag) :
    waves = waves.filter (fun v ↦ v.layer = .bottom) ++ waves.filter fun v ↦ v.layer = .top := by
  induction waves with
  | nil => rfl
  | cons wave rest ih =>
      obtain ⟨hwave, hrest⟩ := List.pairwise_cons.mp hordered
      cases hlayer : wave.layer with
      | bottom => simpa [hlayer] using ih hrest
      | top =>
          have htop : ∀ v ∈ rest, v.layer = .top := by
            intro v hv
            have hle := hwave v hv
            rw [hlayer] at hle
            cases hv' : v.layer with
            | bottom => exact absurd (hv' ▸ hle) (by decide)
            | top => rfl
          have hnone : rest.filter (fun v ↦ v.layer = .bottom) = [] := by
            rw [List.filter_eq_nil_iff]
            intro v hv
            simp [htop v hv]
          have hall : rest.filter (fun v ↦ v.layer = .top) = rest := by
            rw [List.filter_eq_self]
            intro v hv
            simp [htop v hv]
          simp [hlayer, hnone, hall]

namespace Basis

/-- In order, the bottom waves come before the top waves. -/
theorem toList_eq_layers (basis : Basis) :
    basis.toList = basis.layer .bottom ++ basis.layer .top := by
  refine eq_filter_append_filter (basis.waves_ordered.imp fun h ↦ ?_)
  rcases h with h | ⟨h, -⟩
  · exact h.le
  · rw [h]

/-- No wave stands twice in a basis. -/
theorem toList_nodup (basis : Basis) : basis.toList.Nodup :=
  basis.waves_ordered.imp fun h heq ↦ by
    subst heq
    omega

/-- Different positions hold different waves. -/
theorem position_inj (basis : Basis) {i j : ℕ} {u v : PlaneWave} (hi : basis.toList[i]? = some u)
    (hj : basis.toList[j]? = some v) : i = j ↔ u = v := by
  constructor
  · rintro rfl
    exact Option.some.inj (hi.symm.trans hj)
  · rintro rfl
    exact (List.getElem?_inj (List.getElem?_eq_some_iff.mp hi).1 basis.toList_nodup).mp
      (hi.trans hj.symm)

/-- The waves of a basis are those it contains. -/
theorem mem_toList (basis : Basis) {wave : PlaneWave} :
    wave ∈ basis.toList ↔ basis.contains wave = true :=
  Std.TreeSet.mem_toList

/-- A position of the basis is one among the bottom waves or, after them, among the top waves. -/
theorem position_cases (basis : Basis) {i : ℕ} {u : PlaneWave} (h : basis.toList[i]? = some u) :
    u.layer = .bottom ∧ (basis.layer .bottom).toArray[i]? = some u ∨
      ∃ j, i = (basis.layer .bottom).toArray.size + j ∧ u.layer = .top ∧
        (basis.layer .top).toArray[j]? = some u := by
  have hlayer : ∀ {side : Layer} {j : ℕ}, (basis.layer side)[j]? = some u → u.layer = side := by
    intro side j hj
    exact of_decide_eq_true (List.mem_filter.mp (List.mem_of_getElem? hj)).2
  rw [basis.toList_eq_layers] at h
  rcases lt_or_ge i (basis.layer .bottom).length with hi | hi
  · rw [List.getElem?_append_left hi] at h
    exact .inl ⟨hlayer h, by simpa using h⟩
  · rw [List.getElem?_append_right hi] at h
    refine .inr ⟨i - (basis.layer .bottom).length, ?_, hlayer h, by simpa using h⟩
    simp only [List.size_toArray]
    omega

/-- The size of a basis is the number of its waves. -/
theorem length_toList (basis : Basis) : basis.toList.length = basis.size :=
  Std.TreeSet.length_toList

/-- Every wave is in one of the layers. -/
theorem length_layers (basis : Basis) :
    (basis.layer .bottom).length + (basis.layer .top).length = basis.size := by
  rw [← basis.length_toList, toList_eq_layers, List.length_append]

/-- The wave at the valley is there from the start. -/
theorem origin_mem_layer (rounds : ℕ) : .origin ∈ (grow rounds).layer .bottom :=
  List.mem_filter.mpr ⟨(mem_toList _).mpr ((grow_contains rounds .origin).mpr (Nat.zero_le rounds)),
    rfl⟩

/-- Every component belongs to a wave. -/
theorem half_lt_length (basis : Basis) {c : ℕ} (hc : c < 2 * basis.size) :
    c / 2 < basis.toList.length := by
  rw [basis.length_toList]
  omega

end Basis

namespace Continuum

/-! ## Accepted parameters -/

/-- A check that is followed by others passes if its condition holds and the others pass. -/
theorem check_eq_ok {cond : Bool} {name reason : String} {rest : Outcome Unit} :
    (if (!cond) = true then do refuse name reason; rest else rest) = .ok () ↔
      cond = true ∧ rest = .ok () := by
  cases cond with
  | true => simp
  | false => exact iff_of_false nofun nofun

/-- The parameters that are accepted over the reals. -/
theorem validate_eq_ok {params : Params ℝ} : params.validate = .ok () ↔
    (0 < params.twistAngle ∧ params.twistAngle < 180) ∧ 0 < params.fermiVelocity ∧
      0 < params.latticeConstant ∧ 0 < params.intervalK := by
  have hangle : (!Number.isPositive params.twistAngle || Number.le 180 params.twistAngle) =
      !decide (0 < params.twistAngle ∧ params.twistAngle < 180) := by
    have hle : Number.le 180 params.twistAngle = decide ((180 : ℝ) ≤ params.twistAngle) := rfl
    rw [isPositive_eq, hle, Bool.decide_and, Bool.not_and, ← decide_not, ← decide_not]
    simp only [not_lt]
  have hlast : (if (!Number.isPositive params.intervalK) = true then
      refuse "interval_k" "must be positive" else pure () : Outcome Unit) = .ok () ↔
        0 < params.intervalK := by
    rw [isPositive_eq]
    by_cases hstep : 0 < params.intervalK
    · simp only [hstep, decide_true]
      exact iff_of_true rfl trivial
    · simp only [hstep, decide_false]
      exact iff_of_false nofun not_false
  unfold Params.validate
  simp only [hangle, check_eq_ok, hlast]
  simp only [isPositive_eq, isFinite_eq, decide_eq_true_eq, true_and]

section

variable {α : Type} [Scalar α]

/-- The tunnelling block has two rows for each wave of the bottom layer. -/
theorem nrows_interlayer (params : Params α) : (Model.ofParams params).interlayer.nrows =
    2 * ((Basis.grow params.loopTimes).layer .bottom).length := rfl

/-- The tunnelling block has two columns for each wave of the top layer. -/
theorem ncols_interlayer (params : Params α) : (Model.ofParams params).interlayer.ncols =
    2 * ((Basis.grow params.loopTimes).layer .top).length := rfl

/-- The checks after the one of the parameters always pass: the basis has the wave at the valley,
and tunnelling is between all its waves. -/
theorem Model.create_eq (params : Params α) :
    create params = params.validate >>= fun _ ↦ .ok (ofParams params) := by
  have hbottom : ¬ ((ofParams params).basis.layer .bottom).isEmpty = true := by
    rw [List.isEmpty_iff]
    exact List.ne_nil_of_mem (Basis.origin_mem_layer params.loopTimes)
  have hsize : (ofParams params).interlayer.nrows + (ofParams params).interlayer.ncols =
      2 * (ofParams params).basis.size := by
    rw [nrows_interlayer, ncols_interlayer, ← Nat.mul_add, Basis.length_layers]
    rfl
  simp only [create, if_neg hbottom, hsize, ne_eq, not_true_eq_false, if_false]
  rfl

/-- A model that was built has accepted parameters and is the one that belongs to them. -/
theorem Model.create_eq_ok {params : Params α} {model : Model α} :
    create params = .ok model ↔ params.validate = .ok () ∧ model = ofParams params := by
  rw [create_eq, bind_eq_ok]
  constructor
  · rintro ⟨_, hvalid, h⟩
    cases h
    exact ⟨hvalid, rfl⟩
  · rintro ⟨hvalid, rfl⟩
    exact ⟨(), hvalid, rfl⟩

end

section

variable {params : Params ℝ} (hvalid : params.validate = .ok ())

include hvalid

/-- Half the twist angle is less than a right angle. -/
theorem sin_half_pos : 0 < Real.sin (toRadians params.twistAngle / 2) := by
  obtain ⟨⟨hpos, hlt⟩, -⟩ := validate_eq_ok.mp hvalid
  have hpi := Real.pi_pos
  have hangle : toRadians params.twistAngle / 2 = params.twistAngle * (Real.pi / 180) / 2 := rfl
  rw [hangle]
  apply Real.sin_pos_of_pos_of_lt_pi
  · positivity
  · nlinarith

/-- The moiré constant is positive. -/
theorem moireConstant_pos : 0 < params.moireConstant := by
  obtain ⟨-, -, hlattice, -⟩ := validate_eq_ok.mp hvalid
  have hsin := sin_half_pos hvalid
  show 0 < params.latticeConstant / (2 * Real.sin (toRadians params.twistAngle / 2))
  positivity

/-- The unit of momentum is positive. -/
theorem kMoire_pos : 0 < params.kMoire := by
  have hconstant := moireConstant_pos hvalid
  have hpi := Real.pi_pos
  show 0 < 4 * Real.pi / (3 * params.moireConstant)
  positivity

/-- The energy unit is the Fermi velocity times the momentum unit, in the units of both. -/
theorem epsilon_pos : 0 < params.epsilon := by
  obtain ⟨-, hvelocity, -⟩ := validate_eq_ok.mp hvalid
  have hmoire := kMoire_pos hvalid
  have hhbar : (0 : ℝ) < Constants.hbar := by norm_num [Constants.hbar]
  have hmetre : (0 : ℝ) < Constants.metreToAngstrom := by norm_num [Constants.metreToAngstrom]
  have hmev : (0 : ℝ) < Constants.evToMev := by norm_num [Constants.evToMev]
  unfold Params.epsilon
  positivity

end

/-! ## The moire zone -/

/-- The first reciprocal vector in closed form. -/
theorem bPlus_eq : (bPlus : KPoint ℝ) = ⟨√3 / 2, 3 / 2⟩ := by
  ext
  · rfl
  · simp only [bPlus]
    norm_num

/-- The second reciprocal vector in closed form. -/
theorem bMinus_eq : (bMinus : KPoint ℝ) = ⟨-(√3 / 2), 3 / 2⟩ := by
  ext
  · rfl
  · simp only [bMinus]
    norm_num

/-- The valley of the bottom layer in closed form. -/
theorem kBottom_eq : (kBottom : KPoint ℝ) = ⟨-(√3 / 2), -(1 / 2)⟩ := by
  ext
  · rfl
  · simp only [kBottom]
    norm_num

/-- The valley of the top layer in closed form. -/
theorem kTop_eq : (kTop : KPoint ℝ) = ⟨-(√3 / 2), 1 / 2⟩ := by
  ext
  · rfl
  · simp only [kTop]
    norm_num

/-- The middle of the edge between the two valleys in closed form. -/
theorem mPoint_eq : (mPoint : KPoint ℝ) = ⟨-(√3 / 2), 0⟩ := by
  ext
  · rfl
  · exact zero_eq

/-- The centre of the zone is the origin. -/
theorem gamma_eq : (gamma : KPoint ℝ) = ⟨0, 0⟩ := by
  ext <;> exact zero_eq

/-- The corners of the zone are one momentum unit away from its centre. -/
theorem norm_gamma_sub_kBottom : (gamma - kBottom : KPoint ℝ).norm = 1 := by
  have hsqrt : √3 * √3 = (3 : ℝ) := Real.mul_self_sqrt (by norm_num)
  rw [Vec2.norm, sqrt_eq, Real.sqrt_eq_one, Vec2.normSq, kBottom_eq]
  simp only [gamma_eq, Vec2.sub_x, Vec2.sub_y]
  linear_combination hsqrt / 4

/-! ## Blocks of two waves -/

/-- The third root of unity. -/
noncomputable def thirdRoot : ℂ := Complex.exp ((2 * Real.pi / 3 : ℝ) * Complex.I)

/-- The tunnelling matrix of a process. -/
noncomputable def tunnelling (w : ℝ) : Hop → Matrix (Fin 2) (Fin 2) ℂ
  | .same => (w : ℂ) • !![1, 1; 1, 1]
  | .alongPlus => (w : ℂ) • !![1, star thirdRoot; thirdRoot, 1]
  | .alongMinus => (w : ℂ) • !![1, thirdRoot; star thirdRoot, 1]

/-- The Dirac matrix of a momentum, turned by an angle. -/
noncomputable def diracMatrix (p : KPoint ℝ) (angle : ℝ) : Matrix (Fin 2) (Fin 2) ℂ :=
  !![0, Complex.exp (-(angle * Complex.I)) * (p.x - p.y * Complex.I);
    Complex.exp (angle * Complex.I) * (p.x + p.y * Complex.I), 0]

/-- The stored tunnelling matrix is the one of the process. -/
theorem toMatrix_coupling (hop : Hop) (w : ℝ) : (coupling hop w).toMatrix = tunnelling w hop := by
  cases hop <;> ext s t <;> fin_cases s <;> fin_cases t <;>
    simp [coupling, Block.toMatrix, tunnelling, thirdRoot]

/-- Conjugation turns a phase the other way. -/
theorem conj_exp_mul_I (angle : ℝ) : (starRingEnd ℂ) (Complex.exp (angle * Complex.I)) =
    Complex.exp (-(angle * Complex.I)) := by
  rw [← Complex.exp_conj]
  simp

/-- The stored Dirac matrix is the one of the momentum. -/
theorem toMatrix_rotatedDirac (p : KPoint ℝ) (angle : ℝ) :
    (rotatedDirac p angle).toMatrix = diracMatrix p angle := by
  have hlower : (Cplx.polar 1 angle * ⟨p.x, p.y⟩ : Cplx ℝ).toComplex =
      Complex.exp (angle * Complex.I) * (p.x + p.y * Complex.I) := by
    rw [Cplx.toComplex_mul, Cplx.toComplex_polar, Complex.ofReal_one, one_mul,
      ← Complex.mk_eq_add_mul_I]
    rfl
  ext s t
  fin_cases s <;> fin_cases t <;>
    simp [rotatedDirac, Block.toMatrix, diracMatrix, hlower, conj_exp_mul_I, sub_eq_add_neg]

variable (params : Params ℝ) (k : KPoint ℝ)

/-- The angle by which a layer is turned. -/
noncomputable def layerAngle : Layer → ℝ
  | .bottom => toRadians params.twistAngle / 2
  | .top => -(toRadians params.twistAngle / 2)

/-- The momentum of a wave relative to the valley of its layer. -/
noncomputable def momentum (u : PlaneWave) : KPoint ℝ :=
  k + (bPlus : KPoint ℝ) * (u.m : ℝ) + (bMinus : KPoint ℝ) * (u.n : ℝ) - valley u.layer

/-- The block that joins two waves. -/
noncomputable def waveBlock (u v : PlaneWave) : Matrix (Fin 2) (Fin 2) ℂ :=
  if u = v then (params.epsilon : ℂ) • diracMatrix (momentum k u) (layerAngle params u.layer)
  else
    match u.hopTo v, v.hopTo u with
    | some hop, _ => tunnelling params.interlayerCoupling hop
    | none, some hop => (tunnelling params.interlayerCoupling hop)ᴴ
    | none, none => 0

/-- The block of a wave with itself is its scaled Dirac matrix. -/
@[simp] theorem waveBlock_self (u : PlaneWave) : waveBlock params k u u =
    (params.epsilon : ℂ) • diracMatrix (momentum k u) (layerAngle params u.layer) :=
  if_pos rfl

/-- Within a layer there are only the Dirac matrices. -/
theorem waveBlock_of_layer {u v : PlaneWave} {side : Layer} (hu : u.layer = side)
    (hv : v.layer = side) :
    waveBlock params k u v =
      if u = v then (params.epsilon : ℂ) • diracMatrix (momentum k u) (layerAngle params side)
      else 0 := by
  by_cases heq : u = v
  · rw [if_pos heq, ← heq, waveBlock_self, hu]
  have hlayer := hu.trans hv.symm
  have hup : u.hopTo v = none := PlaneWave.hopTo_eq_none fun h ↦ by
    rw [h.1, h.2] at hlayer
    cases hlayer
  have hdown : v.hopTo u = none := PlaneWave.hopTo_eq_none fun h ↦ by
    rw [h.1, h.2] at hlayer
    cases hlayer
  rw [waveBlock, if_neg heq, if_neg heq, hup, hdown]

/-- From a bottom wave to a top wave there is the tunnelling matrix of their process. -/
theorem waveBlock_of_bottom_top {u v : PlaneWave} (hu : u.layer = .bottom) (hv : v.layer = .top) :
    waveBlock params k u v =
      match u.hopTo v with
      | some hop => tunnelling params.interlayerCoupling hop
      | none => 0 := by
  have hne : u ≠ v := fun h ↦ by
    rw [h, hv] at hu
    cases hu
  have hdown : v.hopTo u = none := PlaneWave.hopTo_eq_none fun h ↦ by
    rw [h.1] at hv
    cases hv
  rw [waveBlock, if_neg hne, hdown]
  cases u.hopTo v <;> rfl

/-- Every Dirac matrix is Hermitian. -/
theorem diracMatrix_conjTranspose (p : KPoint ℝ) (angle : ℝ) :
    (diracMatrix p angle)ᴴ = diracMatrix p angle := by
  have hneg := conj_exp_mul_I (-angle)
  rw [Complex.ofReal_neg, neg_mul, neg_neg] at hneg
  ext s t
  fin_cases s <;> fin_cases t <;> simp [diracMatrix, conj_exp_mul_I, hneg, sub_eq_add_neg]

/-- The blocks of two waves are conjugate transposes of each other. -/
theorem waveBlock_conjTranspose (u v : PlaneWave) :
    (waveBlock params k u v)ᴴ = waveBlock params k v u := by
  by_cases heq : u = v
  · subst heq
    rw [waveBlock_self, conjTranspose_smul, diracMatrix_conjTranspose, Complex.star_def,
      Complex.conj_ofReal]
  · rw [waveBlock, waveBlock, if_neg heq, if_neg (Ne.symm heq)]
    cases hup : u.hopTo v with
    | none => cases v.hopTo u <;> simp
    | some hop =>
        obtain ⟨hu, hv⟩ := (PlaneWave.hopTo_eq_some_iff.mp hup).layers
        have hdown : v.hopTo u = none := PlaneWave.hopTo_eq_none fun h ↦ by
          rw [h.1] at hv
          cases hv
        rw [hdown]

/-- The momentum of a wave is the point moved by the offset that is stored for the wave. -/
theorem momentum_eq (u : PlaneWave) : k + offset u = momentum k u := by
  ext <;> simp only [momentum, offset, PlaneWave.waveVector, Vec2.add_x, Vec2.add_y, Vec2.sub_x,
    Vec2.sub_y, ofInt_eq] <;> ring

/-! ## The table of blocks -/

namespace Model

/-- The block of a layer has two rows for each offset. -/
theorem nrows_layerBlock (model : Model ℝ) (offsets : Array (KPoint ℝ)) (angle : ℝ) :
    (model.layerBlock offsets k angle).nrows = 2 * offsets.size := by
  simp [layerBlock, CMatrix.ofBlocks, CMatrix.ofFn]

/-- The block of a layer has two columns for each offset. -/
theorem ncols_layerBlock (model : Model ℝ) (offsets : Array (KPoint ℝ)) (angle : ℝ) :
    (model.layerBlock offsets k angle).ncols = 2 * offsets.size := by
  simp [layerBlock, CMatrix.ofBlocks, CMatrix.ofFn]

/-- A layer alone has Dirac matrices on its diagonal and nothing beside them. -/
theorem block_layerBlock (model : Model ℝ) {waves : Array PlaneWave} (angle : ℝ) {i j : ℕ}
    {u v : PlaneWave} (hi : waves[i]? = some u) (hj : waves[j]? = some v) :
    (model.layerBlock (waves.map offset) k angle).block i j =
      if i = j then (model.epsilon : ℂ) • diracMatrix (momentum k u) angle else 0 := by
  obtain ⟨hi', rfl⟩ := Array.getElem?_eq_some_iff.mp hi
  obtain ⟨hj', rfl⟩ := Array.getElem?_eq_some_iff.mp hj
  rw [layerBlock, CMatrix.block_ofBlocks (by simpa using hi') (by simpa using hj')]
  split
  · simp [hi', Block.toMatrix_scale, toMatrix_rotatedDirac, momentum_eq]
  · exact Block.toMatrix_zero

end Model

/-- Between the layers there are the tunnelling matrices. -/
theorem block_interlayerBlock (w : ℝ) {bottom top : Array PlaneWave} {i j : ℕ} {u v : PlaneWave}
    (hi : bottom[i]? = some u) (hj : top[j]? = some v) :
    (interlayerBlock bottom top w).block i j =
      match u.hopTo v with
      | some hop => tunnelling w hop
      | none => 0 := by
  obtain ⟨hi', rfl⟩ := Array.getElem?_eq_some_iff.mp hi
  obtain ⟨hj', rfl⟩ := Array.getElem?_eq_some_iff.mp hj
  rw [interlayerBlock, CMatrix.block_ofBlocks hi' hj']
  simp only [Array.getD, hi', hj', dif_pos, Array.getInternal_eq_getElem]
  cases bottom[i].hopTo top[j] with
  | none => exact Block.toMatrix_zero
  | some hop => exact toMatrix_coupling hop w

namespace Model

/-- The blocks of the Hamiltonian are those of the waves, in the order of the basis. -/
theorem block_hamiltonian {i j : ℕ} {u v : PlaneWave}
    (hi : (Basis.grow params.loopTimes).toList[i]? = some u)
    (hj : (Basis.grow params.loopTimes).toList[j]? = some v) :
    ((ofParams params).hamiltonian k).block i j = waveBlock params k u v := by
  have hij := Basis.position_inj _ hi hj
  replace hi := Basis.position_cases _ hi
  replace hj := Basis.position_cases _ hj
  have hparts : (ofParams params).hamiltonian k = CMatrix.fromBlocks
      ((ofParams params).layerBlock
        (((Basis.grow params.loopTimes).layer .bottom).toArray.map offset) k
        (layerAngle params .bottom))
      (interlayerBlock ((Basis.grow params.loopTimes).layer .bottom).toArray
        ((Basis.grow params.loopTimes).layer .top).toArray params.interlayerCoupling)
      (interlayerBlock ((Basis.grow params.loopTimes).layer .bottom).toArray
        ((Basis.grow params.loopTimes).layer .top).toArray params.interlayerCoupling).adjoint
      ((ofParams params).layerBlock
        (((Basis.grow params.loopTimes).layer .top).toArray.map offset) k
        (layerAngle params .top)) := rfl
  generalize ((Basis.grow params.loopTimes).layer .bottom).toArray = bottom at hi hj hparts
  generalize ((Basis.grow params.loopTimes).layer .top).toArray = top at hi hj hparts
  have hnrows := nrows_layerBlock k (ofParams params) (bottom.map offset)
    (layerAngle params .bottom)
  have hncols := ncols_layerBlock k (ofParams params) (bottom.map offset)
    (layerAngle params .bottom)
  have hup : (interlayerBlock bottom top params.interlayerCoupling).nrows = 2 * bottom.size ∧
    (interlayerBlock bottom top params.interlayerCoupling).ncols = 2 * top.size := ⟨rfl, rfl⟩
  have hdown : (interlayerBlock bottom top params.interlayerCoupling).adjoint.nrows =
    2 * top.size := rfl
  rw [Array.size_map] at hnrows hncols
  rw [hparts]
  -- A position is one in the bottom layer or, past its end, one in the top layer.
  rcases hi with ⟨hu, hi⟩ | ⟨i, rfl, hu, hi⟩ <;> rcases hj with ⟨hv, hj⟩ | ⟨j, rfl, hv, hj⟩ <;>
    have hi' := (Array.getElem?_eq_some_iff.mp hi).1 <;>
    have hj' := (Array.getElem?_eq_some_iff.mp hj).1
  · rw [CMatrix.block_fromBlocks_aa hnrows hncols hi' hj', block_layerBlock k _ _ hi hj,
      waveBlock_of_layer params k hu hv]
    exact if_congr hij rfl rfl
  · rw [CMatrix.block_fromBlocks_ab hnrows hncols hi' (by omega), block_interlayerBlock _ hi hj,
      waveBlock_of_bottom_top params k hu hv]
  · rw [CMatrix.block_fromBlocks_ba hnrows hncols (by omega) hj',
      CMatrix.block_adjoint (by omega) (by omega), block_interlayerBlock _ hj hi,
      ← waveBlock_of_bottom_top params k hv hu, waveBlock_conjTranspose]
  · rw [CMatrix.block_fromBlocks_bb hnrows hncols (by omega) (by omega),
      block_layerBlock k _ _ hi hj, waveBlock_of_layer params k hu hv]
    rw [Nat.add_left_cancel_iff] at hij
    exact if_congr hij rfl rfl

/-- The dimension counts two states for each wave of either layer. -/
theorem dimension_eq : (ofParams params).dimension =
    2 * ((Basis.grow params.loopTimes).layer .bottom).length +
      2 * ((Basis.grow params.loopTimes).layer .top).length := by
  rw [← Nat.mul_add, Basis.length_layers]
  rfl

/-- The Hamiltonian has as many rows as the dimension says. -/
theorem nrows_hamiltonian :
    ((ofParams params).hamiltonian k).nrows = (ofParams params).dimension := by
  rw [dimension_eq, hamiltonian, CMatrix.fromBlocks]
  simp only [CMatrix.ofFn, nrows_layerBlock]
  simp [ofParams, interlayerBlock, CMatrix.ofBlocks, CMatrix.adjoint, CMatrix.ofFn]

/-- The Hamiltonian has as many columns as the dimension says. -/
theorem ncols_hamiltonian :
    ((ofParams params).hamiltonian k).ncols = (ofParams params).dimension := by
  rw [dimension_eq, hamiltonian, CMatrix.fromBlocks]
  simp only [CMatrix.ofFn, ncols_layerBlock]
  simp [ofParams, interlayerBlock, CMatrix.ofBlocks, CMatrix.ofFn]

/-- The Hamiltonian is Hermitian, because the blocks of two waves are. -/
theorem isHermitian_hamiltonian :
    (((ofParams params).hamiltonian k).toMatrix (ofParams params).dimension).IsHermitian := by
  have hlength := Basis.length_toList (.grow params.loopTimes)
  refine CMatrix.isHermitian_of_block fun i hi j hj ↦ ?_
  have hu := List.getElem?_eq_getElem (hlength ▸ hi)
  have hv := List.getElem?_eq_getElem (hlength ▸ hj)
  rw [block_hamiltonian params k hu hv, block_hamiltonian params k hv hu, waveBlock_conjTranspose]

end Model

/-! ## Counting -/

/-- The third root of one in closed form. -/
theorem thirdRoot_eq : thirdRoot = ⟨-(1 / 2), √3 / 2⟩ := by
  have hangle : 2 * Real.pi / 3 = Real.pi - Real.pi / 3 := by ring
  rw [thirdRoot, hangle]
  apply Complex.ext
  · rw [Complex.exp_ofReal_mul_I_re, Real.cos_pi_sub, Real.cos_pi_div_three]
  · rw [Complex.exp_ofReal_mul_I_im, Real.sin_pi_sub, Real.sin_pi_div_three]

variable {w : ℝ}

/-- Different processes have different matrices. -/
theorem tunnelling_injective (hw : w ≠ 0) : Function.Injective (tunnelling w) := by
  have hsqrt : 0 < √3 := by positivity
  -- The lower left entries are `w` times the three cube roots of one, whose imaginary parts differ.
  have him : ∀ hop, (tunnelling w hop 1 0).im =
      w * (match hop with | .same => 0 | .alongPlus => √3 / 2 | .alongMinus => -(√3 / 2)) := by
    intro hop
    cases hop <;> simp [tunnelling, thirdRoot_eq]
  intro hop hop' heq
  have hentry := congrArg (fun m ↦ (m 1 0).im) heq
  simp only [him, mul_right_inj' hw] at hentry
  cases hop <;> cases hop' <;> first | rfl | (exfalso; dsimp only at hentry; linarith)

/-- With a coupling other than zero no process has a zero matrix. -/
theorem tunnelling_ne_zero (hw : w ≠ 0) (hop : Hop) : tunnelling w hop ≠ 0 := by
  intro h
  have hentry := congrFun (congrFun h 0) 0
  cases hop <;> simp [tunnelling, hw] at hentry

/-- The tunnelling matrix of a process as it stands in the row of a wave. -/
noncomputable def rowTunnelling (w : ℝ) (side : Layer) (hop : Hop) : Matrix (Fin 2) (Fin 2) ℂ :=
  match side with
  | .bottom => tunnelling w hop
  | .top => (tunnelling w hop)ᴴ

/-- Different processes have different matrices in the row of a wave. -/
theorem rowTunnelling_injective (hw : w ≠ 0) (side : Layer) :
    Function.Injective (rowTunnelling w side) := by
  cases side with
  | bottom => exact tunnelling_injective hw
  | top => exact conjTranspose_injective.comp (tunnelling_injective hw)

/-- No process has a zero matrix in the row of a wave. -/
theorem rowTunnelling_ne_zero (hw : w ≠ 0) (side : Layer) (hop : Hop) :
    rowTunnelling w side hop ≠ 0 := by
  cases side with
  | bottom => exact tunnelling_ne_zero hw hop
  | top => exact conjTranspose_eq_zero.not.mpr (tunnelling_ne_zero hw hop)

/-- The block of two ends of a process. -/
theorem waveBlock_partner (hop : Hop) (u : PlaneWave) :
    waveBlock params k u (u.partner hop) =
      rowTunnelling params.interlayerCoupling u.layer hop := by
  rcases PlaneWave.tunnels_or_iff.mpr rfl with h | h
  · obtain ⟨hu, hv⟩ := h.layers
    rw [waveBlock_of_bottom_top params k hu hv, PlaneWave.hopTo_eq_some_iff.mpr h, hu]
    rfl
  · obtain ⟨hv, hu⟩ := h.layers
    rw [← waveBlock_conjTranspose, waveBlock_of_bottom_top params k hv hu,
      PlaneWave.hopTo_eq_some_iff.mpr h, hu]
    rfl

/-- Waves that are not the ends of a process are not joined. -/
theorem waveBlock_eq_zero {u v : PlaneWave} (hne : u ≠ v) (hpartner : ∀ hop, v ≠ u.partner hop) :
    waveBlock params k u v = 0 := by
  have hnone : ∀ hop, ¬ (PlaneWave.Tunnels hop u v ∨ PlaneWave.Tunnels hop v u) := fun hop ↦
    PlaneWave.tunnels_or_iff.not.mpr (hpartner hop)
  have hup : u.hopTo v = none := Option.eq_none_iff_forall_ne_some.mpr fun hop h ↦
    hnone hop (.inl (PlaneWave.hopTo_eq_some_iff.mp h))
  have hdown : v.hopTo u = none := Option.eq_none_iff_forall_ne_some.mpr fun hop h ↦
    hnone hop (.inr (PlaneWave.hopTo_eq_some_iff.mp h))
  rw [waveBlock, if_neg hne, hup, hdown]

/-- A wave and another are joined by the matrix of a process exactly if they are its ends. -/
theorem waveBlock_eq_iff (hw : params.interlayerCoupling ≠ 0) {u v : PlaneWave} (hne : u ≠ v)
    (hop : Hop) :
    waveBlock params k u v = rowTunnelling params.interlayerCoupling u.layer hop ↔
      v = u.partner hop := by
  refine ⟨fun h ↦ ?_, fun h ↦ h ▸ waveBlock_partner params k hop u⟩
  by_cases hpartner : ∀ hop, v ≠ u.partner hop
  · rw [waveBlock_eq_zero params k hne hpartner] at h
    exact absurd h.symm (rowTunnelling_ne_zero hw _ _)
  · obtain ⟨hop', rfl⟩ : ∃ hop', v = u.partner hop' := by simpa using hpartner
    rw [waveBlock_partner] at h
    rw [rowTunnelling_injective hw _ h]

/-- Every process of a wave stays in the basis, unless the last round has added the wave. -/
theorem exists_partner_position {rounds : ℕ} {u : PlaneWave}
    (hmem : (Basis.grow rounds).contains u = true)
    (hinner : (Basis.grow rounds).frontier.contains u = false) (hop : Hop) :
    ∃ j : ℕ, (Basis.grow rounds).toList[j]? = some (u.partner hop) := by
  rw [Basis.grow_contains] at hmem
  have hdistance : ¬ u.distance = rounds := by
    rw [← Basis.grow_frontier_contains, hinner]
    decide
  have hpartner : (Basis.grow rounds).contains (u.partner hop) = true := by
    rw [Basis.grow_contains]
    have hle := PlaneWave.distance_le_of_partner (PlaneWave.partner_mem_partners hop u)
    omega
  exact List.mem_iff_getElem?.mp (Basis.mem_toList _ |>.mpr hpartner)

/-- The matrix is the table of the Dirac matrices and the tunnelling matrices of the waves. -/
structure IsBlockTable (waves : List PlaneWave) (h : CMatrix ℝ) : Prop where
  nrows : h.nrows = 2 * waves.length
  ncols : h.ncols = 2 * waves.length
  nodup : waves.Nodup
  /-- A wave with itself: the Dirac matrix of its momentum, turned by half the twist angle. -/
  dirac {i : ℕ} {u : PlaneWave} (hi : waves[i]? = some u) :
    h.block i i = (params.epsilon : ℂ) • diracMatrix (momentum k u) (layerAngle params u.layer)
  /-- A bottom wave with one of its partners: the tunnelling matrix of the process. -/
  tunnels {i j : ℕ} {u v : PlaneWave} {hop : Hop} (hi : waves[i]? = some u)
    (hj : waves[j]? = some v) (huv : PlaneWave.Tunnels hop u v) :
    h.block i j = tunnelling params.interlayerCoupling hop
  /-- The same two waves, the other way round. -/
  tunnels_back {i j : ℕ} {u v : PlaneWave} {hop : Hop} (hi : waves[i]? = some u)
    (hj : waves[j]? = some v) (huv : PlaneWave.Tunnels hop u v) :
    h.block j i = (tunnelling params.interlayerCoupling hop)ᴴ
  /-- Any other two waves. -/
  zero {i j : ℕ} {u v : PlaneWave} (hi : waves[i]? = some u) (hj : waves[j]? = some v)
    (hne : u ≠ v) (hup : ∀ hop, ¬ PlaneWave.Tunnels hop u v)
    (hdown : ∀ hop, ¬ PlaneWave.Tunnels hop v u) : h.block i j = 0

/-- The Hamiltonian is the block table of its plane waves. -/
theorem isBlockTable_hamiltonian : IsBlockTable params k (Basis.grow params.loopTimes).toList
    ((Model.ofParams params).hamiltonian k) where
  nrows := by
    rw [Model.nrows_hamiltonian, Basis.length_toList]
    rfl
  ncols := by
    rw [Model.ncols_hamiltonian, Basis.length_toList]
    rfl
  nodup := Basis.toList_nodup _
  dirac hi := by
    rw [Model.block_hamiltonian params k hi hi, waveBlock_self]
  tunnels hi hj huv := by
    rw [Model.block_hamiltonian params k hi hj,
      waveBlock_of_bottom_top params k huv.layers.1 huv.layers.2,
      PlaneWave.hopTo_eq_some_iff.mpr huv]
  tunnels_back hi hj huv := by
    rw [Model.block_hamiltonian params k hj hi, ← waveBlock_conjTranspose,
      waveBlock_of_bottom_top params k huv.layers.1 huv.layers.2,
      PlaneWave.hopTo_eq_some_iff.mpr huv]
  zero hi hj hne hup hdown := by
    rw [Model.block_hamiltonian params k hi hj]
    refine waveBlock_eq_zero params k hne fun hop h ↦ ?_
    rcases PlaneWave.tunnels_or_iff.mpr h with h | h
    · exact hup hop h
    · exact hdown hop h

section

variable {params k} (hw : params.interlayerCoupling ≠ 0) {i : ℕ} {u : PlaneWave}
  (hi : (Basis.grow params.loopTimes).toList[i]? = some u) {position : Hop → ℕ}
  (hposition : ∀ hop, (Basis.grow params.loopTimes).toList[position hop]? = some (u.partner hop))

include hw hi hposition

/-- The row of a wave shows the matrix of a process only at the place of the partner. -/
theorem block_eq_rowTunnelling_iff {j : ℕ} (hj : j < (Basis.grow params.loopTimes).size)
    (hji : j ≠ i) (hop : Hop) :
    ((Model.ofParams params).hamiltonian k).block i j =
      rowTunnelling params.interlayerCoupling u.layer hop ↔ j = position hop := by
  rw [← Basis.length_toList] at hj
  have hv := List.getElem?_eq_getElem hj
  have hne := (Basis.position_inj _ hi hv).not.mp (Ne.symm hji)
  rw [Model.block_hamiltonian params k hi hv, waveBlock_eq_iff params k hw hne,
    ← Basis.position_inj _ hv (hposition hop)]

/-- The row of a wave has a block beside the diagonal only at the places of the partners. -/
theorem block_ne_zero_iff {j : ℕ} (hj : j < (Basis.grow params.loopTimes).size) (hji : j ≠ i) :
    ((Model.ofParams params).hamiltonian k).block i j ≠ 0 ↔ ∃ hop, j = position hop := by
  rw [← Basis.length_toList] at hj
  have hv := List.getElem?_eq_getElem hj
  have hne := (Basis.position_inj _ hi hv).not.mp (Ne.symm hji)
  simp only [Basis.position_inj _ hv (hposition _)]
  rw [Model.block_hamiltonian params k hi hv]
  constructor
  · intro hblock
    by_contra hnone
    exact hblock (waveBlock_eq_zero params k hne (not_exists.mp hnone))
  · rintro ⟨hop, h⟩
    rw [h, waveBlock_partner]
    exact rowTunnelling_ne_zero hw _ _

/-- The blocks beside the diagonal in the row of a wave are those of its three processes. -/
theorem three_blocks :
    {j | j < (Basis.grow params.loopTimes).size ∧ j ≠ i ∧
        ((Model.ofParams params).hamiltonian k).block i j ≠ 0}.ncard = 3 ∧
      ∀ hop, ∃! j, j < (Basis.grow params.loopTimes).size ∧ j ≠ i ∧
        ((Model.ofParams params).hamiltonian k).block i j =
          rowTunnelling params.interlayerCoupling u.layer hop := by
  have hbound : ∀ hop, position hop < (Basis.grow params.loopTimes).size := by
    intro hop
    rw [← Basis.length_toList]
    exact (List.getElem?_eq_some_iff.mp (hposition hop)).1
  have hother : ∀ hop, position hop ≠ i := fun hop ↦
    (Basis.position_inj _ (hposition hop) hi).not.mpr (PlaneWave.partner_ne hop u)
  have hinjective : Function.Injective position := fun hop hop' h ↦
    PlaneWave.partner_injective u ((Basis.position_inj _ (hposition hop) (hposition hop')).mp h)
  constructor
  · rw [Set.ncard_eq_three]
    refine ⟨position .same, position .alongPlus, position .alongMinus, hinjective.ne nofun,
      hinjective.ne nofun, hinjective.ne nofun, ?_⟩
    ext j
    constructor
    · rintro ⟨hj, hji, hblock⟩
      obtain ⟨hop, rfl⟩ := (block_ne_zero_iff hw hi hposition hj hji).mp hblock
      cases hop <;> simp
    · intro hj
      obtain ⟨hop, rfl⟩ : ∃ hop, j = position hop := by
        rcases hj with rfl | rfl | rfl
        exacts [⟨_, rfl⟩, ⟨_, rfl⟩, ⟨_, rfl⟩]
      exact ⟨hbound hop, hother hop,
        (block_ne_zero_iff hw hi hposition (hbound hop) (hother hop)).mpr ⟨hop, rfl⟩⟩
  · intro hop
    refine ⟨position hop, ⟨hbound hop, hother hop, ?_⟩, fun j ⟨hj, hji, hblock⟩ ↦ ?_⟩
    · exact (block_eq_rowTunnelling_iff hw hi hposition (hbound hop) (hother hop) hop).mpr rfl
    · exact (block_eq_rowTunnelling_iff hw hi hposition hj hji hop).mp hblock

end

/-- The Hamiltonian of a continuum model is the table of blocks in the order of the basis. It has
two rows for every wave and is Hermitian, and if the layers are coupled, a wave that the last round
has not added is joined to exactly three others, by one process of each kind. -/
theorem hamiltonian_blocks {model : Model ℝ} (hmodel : Model.create params = .ok model) :
    model.basis = Basis.grow params.loopTimes ∧
      IsBlockTable params k model.basis.toList (model.hamiltonian k) ∧
      (model.hamiltonian k).nrows = 2 * model.basis.size ∧
      (model.hamiltonian k).ncols = 2 * model.basis.size ∧
      ((model.hamiltonian k).toMatrix (2 * model.basis.size)).IsHermitian ∧
      (params.interlayerCoupling ≠ 0 → ∀ i u, model.basis.toList[i]? = some u →
        model.basis.frontier.contains u = false →
        {j | j < model.basis.size ∧ j ≠ i ∧ (model.hamiltonian k).block i j ≠ 0}.ncard = 3 ∧
        ∀ hop, ∃! j, j < model.basis.size ∧ j ≠ i ∧
          (model.hamiltonian k).block i j =
            rowTunnelling params.interlayerCoupling u.layer hop) := by
  obtain ⟨-, rfl⟩ := Model.create_eq_ok.mp hmodel
  refine ⟨rfl, isBlockTable_hamiltonian params k, Model.nrows_hamiltonian params k,
    Model.ncols_hamiltonian params k, Model.isHermitian_hamiltonian params k,
    fun hw i u hi hinner ↦ ?_⟩
  have hmem : (Basis.grow params.loopTimes).contains u = true :=
    (Basis.mem_toList _).mp (List.mem_of_getElem? hi)
  choose position hposition using exists_partner_position hmem hinner
  exact three_blocks hw hi hposition

/-- In the basis of one round the wave at the valley is joined to all three others. -/
theorem hamiltonian_blocks_one :
    ∃ (model : Model ℝ) (i : ℕ), Model.create ⟨1, 1, 1, 1, 1, 1⟩ = .ok model ∧
      model.basis.toList[i]? = some .origin ∧
      {j | j < model.basis.size ∧ j ≠ i ∧ (model.hamiltonian ⟨0, 1⟩).block i j ≠ 0}.ncard = 3 := by
  have hcreate : Model.create (⟨1, 1, 1, 1, 1, 1⟩ : Params ℝ) =
      .ok (Model.ofParams ⟨1, 1, 1, 1, 1, 1⟩) :=
    Model.create_eq_ok.mpr ⟨validate_eq_ok.mpr (by norm_num), rfl⟩
  have hmem : (Basis.grow 1).contains .origin = true := by decide
  obtain ⟨i, hi⟩ := List.mem_iff_getElem?.mp ((Basis.mem_toList _).mpr hmem)
  have hinner : (Basis.grow 1).frontier.contains .origin = false := by decide
  obtain ⟨-, -, -, -, -, hthree⟩ := hamiltonian_blocks ⟨1, 1, 1, 1, 1, 1⟩ ⟨0, 1⟩ hcreate
  exact ⟨_, i, hcreate, hi, (hthree one_ne_zero i .origin hi hinner).1⟩

end Continuum

end Moire
