import Moire.BandModel
import Moire.Lattice
import Moire.Supercell

/-!
# The tight-binding model

All atoms of a commensurate supercell, with a hopping between every pair that decays with their
distance. The displacement of a pair is the shortest one among its images under the superlattice.
Momenta are in inverse Ångströms.
-/

namespace Moire.TightBinding

/-- The inputs of the model. Hoppings are in meV and lengths in Å. -/
structure Params (α : Type) where
  m0 : Nat
  r : Nat
  /-- The hopping within a layer. -/
  intraHopping : α
  /-- The hopping between the layers. -/
  interHopping : α
  latticeConstant : α
  interlayerDistance : α
  /-- The step of finite differences in inverse Ångströms. -/
  intervalK : α
  /-- The rounds within which the lattice has to reach the supercell. -/
  maxLatticeRounds : Nat
  deriving Repr, Inhabited

/-- The hopping of a pair of atoms: its strength and its displacement in the plane. -/
structure Hopping (α : Type) where
  amplitude : α
  displacement : Vec2 α
  deriving Repr, Inhabited

/-- The model with its atoms placed and its hoppings worked out. -/
structure Model (α : Type) where
  params : Params α
  cell : Supercell α
  lattice : Lattice.Closure
  atoms : Array (Vec3 α)
  /-- The hoppings of all pairs `i < j`, row by row. -/
  hoppings : Array (Hopping α)

variable {α : Type} [Scalar α]

open Constants

/-- The usual parameters of twisted bilayer graphene near the magic angle. -/
def Params.default : Params α where
  m0 := 31
  r := 1
  intraHopping := -2700
  interHopping := 480
  latticeConstant := grapheneLattice
  interlayerDistance := Constants.interlayerDistance
  intervalK := 1e-5
  maxLatticeRounds := Lattice.defaultRounds

/-- Refuse a value that is not positive. -/
def requirePositive (name : String) (value : α) : Outcome Unit := do
  if !Number.isPositive value then refuse name s!"{Number.text value} must be positive"

/-- Refuse parameters without a physical meaning. -/
def Params.validate (params : Params α) : Outcome Unit := do
  if params.r = 0 then refuse "r" "r = 0 describes an untwisted bilayer"
  requirePositive "lattice_constant" params.latticeConstant
  requirePositive "interlayer_distance" params.interlayerDistance
  requirePositive "interval_k" params.intervalK

/-- The sites of the four sublattices in one lattice cell. -/
def sites (cell : Supercell α) (height : α) (index : LatticeIndex) : List (Vec3 α) :=
  let i : α := Number.ofInt index.i
  let j : α := Number.ofInt index.j
  let bottom := cell.a₁ * i + cell.a₂ * j
  let top := cell.rotatedA₁ * i + cell.rotatedA₂ * j
  [bottom.lift 0, (bottom + cell.delta).lift 0, top.lift height,
    (top + cell.rotatedDelta).lift height]

/-- The sites that lie in the supercell, in the order of the lattice cells. -/
def placeAtoms (cell : Supercell α) (lattice : Lattice.Closure) (height : α) :
    Outcome (Array (Vec3 α)) := do
  let count ← cell.atomCount
  reserve count 24
  return lattice.indices.flatMap fun index ↦
    ((sites cell height index).filter fun site ↦ cell.holds site.planar).toArray

/-- The shortest image of a displacement; the first of several. -/
def shortestImage (translations : List (Vec2 α)) (raw : Vec3 α) : Vec3 α :=
  match translations.map fun t ↦ raw + t.lift 0 with
  | [] => raw
  | first :: rest =>
      (rest.foldl
        (fun (best, length) image ↦
          if Number.lt image.norm length then (image, image.norm) else (best, length))
        (first, first.norm)).1

/-- The hopping along a displacement. -/
def hoppingAlong (params : Params α) (d : Vec3 α) : Hopping α :=
  let a0 := params.latticeConstant
  let decay := 0.184 * a0
  let distance := d.norm
  let cosSq := Number.square (d.z / distance)
  let inPlane := params.intraHopping * Scalar.exp (-(distance - a0 / sqrt3) / decay)
  let outOfPlane :=
    params.interHopping * Scalar.exp (-(distance - params.interlayerDistance) / decay)
  ⟨inPlane * (1 - cosSq) + outOfPlane * cosSq, d.planar⟩

/-- The hoppings of all pairs of atoms, row by row. -/
def pairHoppings (params : Params α) (cell : Supercell α) (atoms : Array (Vec3 α)) :
    Array (Hopping α) :=
  let translations := cell.translations
  (Array.range atoms.size).flatMap fun i ↦
    let origin := atoms.getD i ⟨0, 0, 0⟩
    (atoms.extract (i + 1) atoms.size).map fun atom ↦
      hoppingAlong params (shortestImage translations (atom - origin))

/-- The place of the pair `i < j` among the pairs of `n` atoms. -/
def pairIndex (n i j : Nat) : Nat :=
  i * (2 * n - i - 1) / 2 + (j - i - 1)

/-- Build the model. -/
def Model.create (params : Params α) : Outcome (Model α) := do
  params.validate
  let cell := Supercell.create params.m0 params.r params.latticeConstant
  let target ← Lattice.commensurateTarget params.m0 params.r
  let lattice ← Lattice.expandUntil target params.maxLatticeRounds
  let atoms ← placeAtoms cell lattice params.interlayerDistance
  let expected ← cell.atomCount
  if atoms.size ≠ expected then
    fail (.dimensionMismatch "atoms inside the commensurate supercell" expected atoms.size)
  return { params, cell, lattice, atoms, hoppings := pairHoppings params cell atoms }

namespace Model

/-- A model that was built has valid parameters and the expected number of atoms. -/
theorem create_eq_ok {params : Params α} {model : Model α} (h : create params = .ok model) :
    params.validate = .ok () ∧
      ∃ target lattice atoms, Lattice.commensurateTarget params.m0 params.r = .ok target ∧
        Lattice.expandUntil target params.maxLatticeRounds = .ok lattice ∧
        placeAtoms (.create params.m0 params.r params.latticeConstant) lattice
          params.interlayerDistance = .ok atoms ∧
        (Supercell.create params.m0 params.r params.latticeConstant).atomCount = .ok atoms.size ∧
        model = ⟨params, .create params.m0 params.r params.latticeConstant, lattice, atoms,
          pairHoppings params (.create params.m0 params.r params.latticeConstant) atoms⟩ := by
  obtain ⟨_, hvalid, h⟩ := bind_eq_ok.mp h
  obtain ⟨target, htarget, h⟩ := bind_eq_ok.mp h
  obtain ⟨lattice, hlattice, h⟩ := bind_eq_ok.mp h
  obtain ⟨atoms, hatoms, h⟩ := bind_eq_ok.mp h
  obtain ⟨expected, hexpected, h⟩ := bind_eq_ok.mp h
  by_cases hcount : atoms.size ≠ expected
  · rw [if_pos hcount] at h
    cases h
  · rw [if_neg hcount] at h
    rw [← Decidable.not_not.mp hcount] at hexpected
    cases h
    exact ⟨hvalid, target, lattice, atoms, htarget, hlattice, hatoms, hexpected, rfl⟩

/-- The Hamiltonian entry of the pair `i < j`. -/
def pairEntry (model : Model α) (k : KPoint α) (i j : Nat) : Cplx α :=
  match model.hoppings[pairIndex model.atoms.size i j]? with
  | some hopping => Cplx.polar hopping.amplitude (-k.dot hopping.displacement)
  | none => Cplx.zero

/-- The Hamiltonian: a hopping for every pair, none from an atom to itself. -/
def hamiltonian (model : Model α) (k : KPoint α) : CMatrix α :=
  let n := model.atoms.size
  CMatrix.ofFn n n fun i j ↦
    if i < j then model.pairEntry k i j
    else if j < i then (model.pairEntry k j i).conj
    else Cplx.zero

/-- The model as a band model. -/
def toBandModel (model : Model α) : BandModel α where
  name := "tight_binding"
  twistAngle := commensurateAngle model.params.m0 model.params.r
  dimension := model.atoms.size
  hamiltonian := model.hamiltonian
  gridVectors := (model.cell.g₁ + model.cell.g₂, model.cell.g₂)
  unitCellArea := model.cell.area
  momentumScale := 1
  pathUnit := model.cell.k₁.norm
  intervalK := model.params.intervalK
  valleyDegeneracy := 1

/-- The path of band structures and of Raman spectra. -/
def defaultPath (model : Model α) : HighSymmetryPath α :=
  ⟨["K_1", "Γ", "M", "K_2"], [model.cell.k₁, .zero, model.cell.mPoint, model.cell.k₂]⟩

end Model

end Moire.TightBinding
