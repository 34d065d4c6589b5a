import Moire.BandModel
import Moire.Constants
import Moire.PlaneWave.Basis

/-!
# The continuum model

Electrons near one valley of two twisted graphene sheets, in a truncated basis of plane waves.
Each wave is a Dirac electron of its layer, turned by half the twist angle, and waves of the two
layers are coupled by three tunnelling matrices. Momenta are in units of the distance of the two
valleys' corners in the moire zone.
-/

namespace Moire.Continuum

/-- The inputs of the model. Energies are in meV and lengths in Å. -/
structure Params (α : Type) where
  /-- The twist angle in degrees. -/
  twistAngle : α
  /-- The Fermi velocity of a single layer in m/s. -/
  fermiVelocity : α
  /-- The strength of tunnelling between the layers. -/
  interlayerCoupling : α
  latticeConstant : α
  /-- The rounds of growth of the basis. -/
  loopTimes : Nat
  /-- The step of finite differences in the model's momentum units. -/
  intervalK : α
  deriving Repr, Inhabited

section

variable {α : Type} [Scalar α]

open Constants

/-- The usual parameters of twisted bilayer graphene near the magic angle. -/
def Params.default : Params α where
  twistAngle := 1.05
  fermiVelocity := 1e6
  interlayerCoupling := 118
  latticeConstant := grapheneLattice
  loopTimes := 7
  intervalK := 0.005

/-- The first reciprocal vector of the moire lattice. -/
def bPlus : KPoint α := ⟨halfSqrt3, 1.5⟩

/-- The second reciprocal vector of the moire lattice. -/
def bMinus : KPoint α := ⟨-halfSqrt3, 1.5⟩

/-- The corner of the moire zone where the bottom layer has its valley. -/
def kBottom : KPoint α := ⟨-halfSqrt3, -0.5⟩

/-- The corner of the moire zone where the top layer has its valley. -/
def kTop : KPoint α := ⟨-halfSqrt3, 0.5⟩

/-- The midpoint of the two corners. -/
def mPoint : KPoint α := ⟨-halfSqrt3, 0⟩

/-- The centre of the zone. -/
def gamma : KPoint α := ⟨0, 0⟩

/-- The centre of a neighbouring zone. -/
def gammaShifted : KPoint α := bMinus

/-- The Dirac matrix of momentum `p`, turned by an angle. -/
def rotatedDirac (p : KPoint α) (angle : α) : Block α :=
  let lower := Cplx.polar 1 angle * ⟨p.x, p.y⟩
  ⟨Cplx.zero, lower.conj, lower, Cplx.zero⟩

/-- The tunnelling matrix of a hop with strength `w`. -/
def coupling (hop : Hop) (w : α) : Block α :=
  let one := Cplx.ofReal w
  let omega := Cplx.polar w (2 * Scalar.pi / 3)
  match hop with
  | .same => ⟨one, one, one, one⟩
  | .alongPlus => ⟨one, omega.conj, omega, one⟩
  | .alongMinus => ⟨one, omega, omega.conj, one⟩

/-- Refuse parameters without a physical meaning. -/
def Params.validate (params : Params α) : Outcome Unit := do
  if !Number.isPositive params.twistAngle || Number.le 180 params.twistAngle then
    refuse "twist_angle" s!"{Number.text params.twistAngle} is not in (0, 180) degrees"
  if !Number.isPositive params.fermiVelocity then
    refuse "fermi_velocity" "must be positive"
  if !Number.isFinite params.interlayerCoupling then
    refuse "interlayer_coupling" "must be finite"
  if !Number.isPositive params.latticeConstant then
    refuse "lattice_constant" "must be positive"
  if !Number.isPositive params.intervalK then
    refuse "interval_k" "must be positive"

/-- The corner of the moire zone that belongs to a layer. -/
def valley : Layer → KPoint α
  | .bottom => kBottom
  | .top => kTop

/-- The momentum of a wave relative to its valley, for an electron at the centre of the zone. -/
def offset (wave : PlaneWave) : KPoint α :=
  wave.waveVector bPlus bMinus - valley wave.layer

/-- The tunnelling between all waves of the two layers. -/
def interlayerBlock (bottom top : Array PlaneWave) (w : α) : CMatrix α :=
  CMatrix.ofBlocks bottom.size top.size fun i j ↦
    match (bottom.getD i default).hopTo (top.getD j default) with
    | some hop => coupling hop w
    | none => Block.zero

end

/-- The model with what does not depend on momentum worked out. -/
structure Model (α : Type) where
  params : Params α
  basis : Basis
  /-- The momenta of the bottom waves relative to their valley. -/
  bottomOffsets : Array (KPoint α)
  /-- The momenta of the top waves relative to their valley. -/
  topOffsets : Array (KPoint α)
  interlayer : CMatrix α
  /-- The energy `ħ v |K|` in meV. -/
  epsilon : α
  /-- The lattice constant of the moire pattern in Å. -/
  moireConstant : α
  /-- The momentum unit in inverse Ångströms. -/
  kMoire : α

section

variable {α : Type} [Scalar α]

open Constants

/-- The lattice constant of the moire pattern. -/
def Params.moireConstant (params : Params α) : α :=
  params.latticeConstant / (2 * Scalar.sin (toRadians params.twistAngle / 2))

/-- The momentum unit. -/
def Params.kMoire (params : Params α) : α :=
  4 * Scalar.pi / (3 * params.moireConstant)

/-- The energy unit. -/
def Params.epsilon (params : Params α) : α :=
  hbar * params.fermiVelocity * params.kMoire * metreToAngstrom * evToMev

/-- The model for given inputs. -/
def Model.ofParams (params : Params α) : Model α :=
  let basis := Basis.grow params.loopTimes
  let bottom := (basis.layer .bottom).toArray
  let top := (basis.layer .top).toArray
  { params, basis
    bottomOffsets := bottom.map offset
    topOffsets := top.map offset
    interlayer := interlayerBlock bottom top params.interlayerCoupling
    epsilon := params.epsilon
    moireConstant := params.moireConstant
    kMoire := params.kMoire }

/-- Build the model. A basis without waves of the bottom layer is refused, and so is tunnelling
between other waves than those of the basis. -/
def Model.create (params : Params α) : Outcome (Model α) := do
  params.validate
  let model := ofParams params
  if (model.basis.layer .bottom).isEmpty then
    refuse "loop_times" "basis has no bottom-layer component"
  let dimension := 2 * model.basis.size
  let found := model.interlayer.nrows + model.interlayer.ncols
  if found ≠ dimension then
    fail (.dimensionMismatch "inter-layer coupling block" dimension found)
  return model

namespace Model

/-- The Dirac electrons of one layer, without tunnelling. -/
def layerBlock (model : Model α) (offsets : Array (KPoint α)) (k : KPoint α) (angle : α) :
    CMatrix α :=
  let blocks := offsets.map fun offset ↦
    (rotatedDirac (k + offset) angle).scale (Cplx.ofReal model.epsilon)
  CMatrix.ofBlocks blocks.size blocks.size fun i j ↦
    if i = j then blocks.getD i Block.zero else Block.zero

/-- The Hamiltonian: the two layers on the diagonal, tunnelling beside it. -/
def hamiltonian (model : Model α) (k : KPoint α) : CMatrix α :=
  let halfAngle := toRadians model.params.twistAngle / 2
  CMatrix.fromBlocks (model.layerBlock model.bottomOffsets k halfAngle) model.interlayer
    model.interlayer.adjoint (model.layerBlock model.topOffsets k (-halfAngle))

/-- The dimension of the Hamiltonian. -/
def dimension (model : Model α) : Nat := 2 * model.basis.size

/-- The area of the moire cell in Å². -/
def moireArea (model : Model α) : α := halfSqrt3 * Number.square model.moireConstant

/-- The model as a band model. -/
def toBandModel (model : Model α) : BandModel α where
  name := "continuum"
  twistAngle := model.params.twistAngle
  dimension := model.dimension
  hamiltonian := model.hamiltonian
  gridVectors := (bPlus, bMinus)
  unitCellArea := model.moireArea
  momentumScale := model.kMoire
  pathUnit := 1
  intervalK := model.params.intervalK
  valleyDegeneracy := 2

end Model

/-- The path of band structures. -/
def defaultPath : HighSymmetryPath α :=
  ⟨["K_b", "K_t", "Γ", "Γ", "K_b"], [kBottom, kTop, gammaShifted, gamma, kBottom]⟩

/-- The path of Raman spectra. -/
def ramanPath : HighSymmetryPath α :=
  ⟨["K_b", "Γ", "M", "K_t"], [kBottom, gamma, mPoint, kTop]⟩

end

end Moire.Continuum
