import Moire.Constants
import Moire.Vec
import Moire.Word

/-!
# Commensurate supercells

Two graphene lattices turned against each other have a common superlattice for the angles that two
counts `m0` and `r` label. `Supercell.create` gives the lattice vectors of both layers, the vectors
of the superlattice and its reciprocal vectors, and the number of graphene cells of a layer in the
supercell.
-/

namespace Moire

open Constants

/-- Lattice vectors of both layers and of their common superlattice. -/
structure Supercell (α : Type) where
  a₁ : Vec2 α
  a₂ : Vec2 α
  /-- The offset of the second sublattice in the bottom layer. -/
  delta : Vec2 α
  rotatedA₁ : Vec2 α
  rotatedA₂ : Vec2 α
  /-- The offset of the second sublattice in the top layer. -/
  rotatedDelta : Vec2 α
  r₁ : Vec2 α
  r₂ : Vec2 α
  g₁ : Vec2 α
  g₂ : Vec2 α
  /-- The graphene cells of one layer in the supercell. -/
  cells : Nat
  deriving Repr, Inhabited

variable {α : Type} [Scalar α]

/-- The value moved into the interval from `-1` to `1`. -/
def clampUnit (x : α) : α :=
  if Number.lt x (-1) then -1 else if Number.lt 1 x then 1 else x

/-- The twist angle, in degrees, that the counts `m0` and `r` label. -/
def commensurateAngle (m0 r : Nat) : α :=
  let m : α := Number.ofNat m0
  let r : α := Number.ofNat r
  let base := 3 * m * m + 3 * m * r
  let cosine := (base + r * r / 2) / (base + r * r)
  toDegrees (Scalar.acos (clampUnit cosine))

namespace Supercell

/-- The supercell of the counts `m0` and `r` for lattice constant `a0`. -/
def create (m0 r : Nat) (a0 : α) : Supercell α :=
  let theta := toRadians (commensurateAngle m0 r : α)
  let sin := Scalar.sin theta
  let cos := Scalar.cos theta
  let a₁ : Vec2 α := (⟨sqrt3 / 2, -0.5⟩ : Vec2 α) * a0
  let a₂ : Vec2 α := (⟨sqrt3 / 2, 0.5⟩ : Vec2 α) * a0
  let b₁ : Vec2 α := (⟨1 / sqrt3, -1⟩ : Vec2 α) * (2 * Scalar.pi / a0)
  let b₂ : Vec2 α := (⟨1 / sqrt3, 1⟩ : Vec2 α) * (2 * Scalar.pi / a0)
  let rotatedA₁ : Vec2 α := a₁ * (cos - sin / sqrt3) + a₂ * (2 * sin / sqrt3)
  let rotatedA₂ : Vec2 α := a₂ * (cos + sin / sqrt3) - a₁ * (2 * sin / sqrt3)
  let divisible := r % 3 = 0
  let m : α := Number.ofNat m0
  let r : α := Number.ofNat r
  let n : α := r / 3
  let cells := if divisible then m * m + m * r + r * r / 3 else 3 * m * m + 3 * m * r + r * r
  let (r₁, r₂, g₁, g₂) : Vec2 α × Vec2 α × Vec2 α × Vec2 α :=
    if divisible then
      (a₁ * (m + n) + a₂ * n,
       -a₁ * n + a₂ * (m + 2 * n),
       (b₁ * (m + 2 * n) + b₂ * n) / cells,
       (-b₁ * n + b₂ * (m + n)) / cells)
    else
      (a₁ * m + a₂ * (m + r),
       -a₁ * (m + r) + a₂ * (2 * m + r),
       (b₁ * (2 * m + r) + b₂ * (m + r)) / cells,
       (-b₁ * (m + r) + b₂ * m) / cells)
  { a₁, a₂
    delta := (a₁ + a₂) / (3 : α)
    rotatedA₁, rotatedA₂
    rotatedDelta := (rotatedA₁ + rotatedA₂) / (3 : α)
    r₁, r₂, g₁, g₂
    cells := Scalar.nearest cells }

variable (cell : Supercell α)

/-- The number of atoms: two layers of two sublattices. -/
def atomCount : Outcome Nat := mulCount 4 cell.cells

/-- The area of the supercell in Å². -/
def area : α := sqrt3 / 2 * cell.r₁.normSq

/-- A corner of the zone. -/
def k₁ : Vec2 α := (cell.g₁ + cell.g₂ * (2 : α)) / (3 : α)

/-- The other corner of the zone. -/
def k₂ : Vec2 α := (cell.g₁ * (2 : α) + cell.g₂) / (3 : α)

/-- The midpoint of the two corners. -/
def mPoint : Vec2 α := (cell.k₁ + cell.k₂) / (2 : α)

/-- How far a site may stand outside the supercell and still belong to it, in units of its
sides. -/
def tolerance : α := 1e-6

/-- The coordinates of a point along `r₁` and `r₂ - r₁`. -/
def fractional (p : Vec2 α) : α × α :=
  let r₃ := cell.r₂ - cell.r₁
  let det := cell.r₁.cross r₃
  (p.cross r₃ / det, cell.r₁.cross p / det)

/-- The coordinate lies between zero and one, one excluded. -/
def halfOpen (x : α) : Bool :=
  Number.le (-tolerance) x && Number.lt x (1 - tolerance)

/-- The point belongs to the supercell. -/
def holds (p : Vec2 α) : Bool :=
  let (u, v) := cell.fractional p
  halfOpen u && halfOpen v

/-- The superlattice vectors among which the shortest displacement of two sites is looked for, in
the order in which they are tried. -/
def translations : List (Vec2 α) :=
  let r₁ := cell.r₁
  let r₂ := cell.r₂
  let two : α := 2
  [.zero, r₁, -r₁, r₂, -r₂, r₂ - r₁, r₁ - r₂, r₁ + r₂, -r₁ - r₂,
    r₂ * two - r₁, r₁ - r₂ * two, r₁ * two - r₂, r₂ - r₁ * two]

end Supercell

end Moire
