import Moire.BandModel

/-!
# Small lattice models

Models with a few orbitals in a square zone, on which observables can be checked by hand: the
two-band Chern insulator of Qi, Wu and Zhang, and a general model of on-site energies and hoppings.
-/

namespace Moire

variable {α : Type} [Scalar α]

/-- The square zone with sides `2π`. -/
def squareZone : KPoint α × KPoint α :=
  (⟨2 * Scalar.pi, 0⟩, ⟨0, 2 * Scalar.pi⟩)

/-- The two-band Chern insulator of a given mass. -/
def chernInsulator (mass : α) : BandModel α where
  name := "qwz"
  twistAngle := 0
  dimension := 2
  hamiltonian k :=
    let dx := Scalar.sin k.x
    let dy := Scalar.sin k.y
    let dz := mass + Scalar.cos k.x + Scalar.cos k.y
    let block : Block α := ⟨⟨dz, 0⟩, ⟨dx, -dy⟩, ⟨dx, dy⟩, ⟨-dz, 0⟩⟩
    CMatrix.ofBlocks 1 1 fun _ _ ↦ block
  gridVectors := squareZone
  unitCellArea := 1
  momentumScale := 1
  pathUnit := 1
  intervalK := 1e-5
  valleyDegeneracy := 1

/-- A hopping between two orbitals, possibly to another cell. -/
structure OrbitalHop (α : Type) where
  source : Nat
  target : Nat
  amplitude : Cplx α
  displacement : Vec2 α
  deriving Repr, Inhabited

/-- The inputs of a general lattice model. -/
structure LatticeModel (α : Type) where
  onsite : Array α
  hops : List (OrbitalHop α)
  gridVectors : KPoint α × KPoint α
  area : α
  momentumScale : α
  intervalK : α
  valleyDegeneracy : α
  twistAngle : α

namespace LatticeModel

/-- The Hamiltonian: each hopping is added together with its conjugate. -/
def hamiltonian (model : LatticeModel α) (k : KPoint α) : CMatrix α :=
  let n := model.onsite.size
  let phased := model.hops.map fun hop ↦
    (hop.source, hop.target, hop.amplitude * Cplx.polar 1 (k.dot hop.displacement))
  CMatrix.ofFn n n fun i j ↦
    let start := if i = j then Cplx.ofReal (model.onsite.getD i 0) else Cplx.zero
    phased.foldl
      (fun entry (source, target, z) ↦
        let entry := if source = i ∧ target = j then entry + z else entry
        if target = i ∧ source = j then entry + z.conj else entry)
      start

/-- The model as a band model. -/
def toBandModel (model : LatticeModel α) : BandModel α where
  name := "hopping"
  twistAngle := model.twistAngle
  dimension := model.onsite.size
  hamiltonian := model.hamiltonian
  gridVectors := model.gridVectors
  unitCellArea := model.area
  momentumScale := model.momentumScale
  pathUnit := 1
  intervalK := model.intervalK
  valleyDegeneracy := model.valleyDegeneracy

end LatticeModel

end Moire
