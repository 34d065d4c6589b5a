import Moire.Json.Basic
import Moire.Lattice
import Moire.Number.Machine
import Moire.PlaneWave.Basis
import Moire.Sampling.Path
import Moire.Supercell

/-!
# Geometry as JSON

Points are pairs, plane waves triples of their labels and the number of their layer, and lattice
indices pairs of whole numbers. Cells, paths and bases are objects.
-/

namespace Moire

/-- A point. -/
def Vec2.toJson (p : Vec2 Float) : Json := .reals [p.x, p.y]

/-- A list of points. -/
def pointList (points : List (Vec2 Float)) : Json := .array (points.map Vec2.toJson)

/-- An index of a lattice cell. -/
def LatticeIndex.toJson (index : LatticeIndex) : Json :=
  .array [.integer index.i, .integer index.j]

/-- A plane wave. -/
def PlaneWave.toJson (v : PlaneWave) : Json :=
  .array [.integer v.m, .integer v.n, .count v.layer.tag]

/-- A list of plane waves. -/
def waveList (waves : List PlaneWave) : Json := .array (waves.map PlaneWave.toJson)

/-- The sizes of a basis. -/
def Basis.sizes (basis : Basis) : List (String × Json) := [
  ("len", .count basis.size),
  ("empty", .bool basis.waves.isEmpty),
  ("hops", .count basis.hops),
  ("bottom", .count (basis.layer .bottom).length),
  ("top", .count (basis.layer .top).length),
  ("frontier_len", .count basis.frontier.size),
  ("dangling_len", .count basis.dangling.length),
  ("closed", .bool basis.isClosed)]

/-- The waves of a basis. -/
def Basis.members (basis : Basis) : List (String × Json) := [
  ("vectors", waveList basis.toList),
  ("frontier", waveList basis.frontier.toList),
  ("top_vectors", waveList (basis.layer .top)),
  ("dangling", .array (basis.dangling.map fun (v, partner) ↦ waveList [v, partner]))]

/-- A supercell. -/
def Supercell.toJson (cell : Supercell Float) : Outcome Json := do
  let atoms ← cell.atomCount
  return .object [
    ("a1", cell.a₁.toJson), ("a2", cell.a₂.toJson), ("delta", cell.delta.toJson),
    ("rotated_a1", cell.rotatedA₁.toJson), ("rotated_a2", cell.rotatedA₂.toJson),
    ("rotated_delta", cell.rotatedDelta.toJson), ("r1", cell.r₁.toJson), ("r2", cell.r₂.toJson),
    ("g1", cell.g₁.toJson), ("g2", cell.g₂.toJson), ("cells", .count cell.cells),
    ("atom_count", .count atoms), ("cell_area", .real cell.area), ("k1", cell.k₁.toJson),
    ("k2", cell.k₂.toJson), ("m", cell.mPoint.toJson)]

/-- The named vertices of a path. -/
def HighSymmetryPath.toJson (path : HighSymmetryPath Float) : Json :=
  .object [("labels", .strings path.labels), ("vertices", pointList path.vertices)]

/-- The points of a path. -/
def KPath.toJson (path : KPath Float) : Json :=
  .object [
    ("segments", .array (path.segments.map pointList)),
    ("label_positions", .counts path.labelPositions), ("labels", .strings path.labels),
    ("len", .count path.length), ("empty", .bool (path.length == 0)),
    ("last", .optional Vec2.toJson path.points.getLast?)]

end Moire
