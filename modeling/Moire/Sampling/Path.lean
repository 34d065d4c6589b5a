import Moire.Vec
import Moire.Word

/-!
# Points along a path

A band structure is drawn along a polygon through named points of the zone. `segment` divides one
side evenly, `polyline` divides every side with a given density of points, and a `KPath` keeps the
points side by side so that each side can be evaluated as one chunk. The label positions count the
points up to each vertex.
-/

namespace Moire

/-- A point of the zone. -/
abbrev KPoint := Vec2

/-- The size of a point in memory, in bytes. -/
def pointSize : Nat := 16

/-- Named vertices of a path through the zone. -/
structure HighSymmetryPath (α : Type) where
  labels : List String
  vertices : List (KPoint α)
  deriving Repr, Inhabited

/-- The points of a path, side by side. -/
structure KPath (α : Type) where
  segments : List (List (KPoint α))
  /-- The number of points in front of each vertex. -/
  labelPositions : List Nat
  labels : List String
  deriving Repr, Inhabited

namespace KPath

variable {α : Type}

/-- All points in order. -/
def points (path : KPath α) : List (KPoint α) := path.segments.flatten

/-- The number of points. -/
def length (path : KPath α) : Nat := path.points.length

end KPath

section

variable {α : Type} [Scalar α]

/-- Evenly spaced points from `start` towards `stop`, which is left out unless `withEnd` asks for
it. -/
def segment (start stop : KPoint α) (count : Nat) (withEnd : Bool) : Outcome (List (KPoint α)) := do
  reserve count pointSize
  let step := (stop - start) / (Number.ofNat (max count 1) : α)
  let inner := (List.range count).map fun i ↦ start + step * (Number.ofNat i : α)
  return if withEnd then inner ++ [stop] else inner

/-- The number of points on the side from `p` to `q`: its length times the density, rounded
down. -/
def sideCount (density : α) (p q : KPoint α) : Nat :=
  Number.toNat ((q - p).norm * density)

/-- The sides of a polygon with the points on each of them. -/
def sides (density : α) : List (KPoint α) → Outcome (List (List (KPoint α)))
  | p :: q :: rest => do
      let side ← segment p q (sideCount density p q) false
      let others ← sides density (q :: rest)
      return side :: others
  | _ => return []

/-- The partial sums of a list, from a first value on. -/
def partialSums (first : Nat) : List Nat → List Nat
  | [] => [first]
  | n :: rest => first :: partialSums (first + n) rest

/-- The points of a polygon, each side from its first vertex on, with `density` points per unit
length. The last vertex is a segment of its own if `includeLast` asks for it. A negative density
counts as zero. -/
def polyline (vertices : List (KPoint α)) (density : α) (includeLast : Bool) :
    Outcome (KPath α) := do
  let segments ← sides (Number.nonnegative density) vertices
  let labelPositions := partialSums 0 (segments.map List.length)
  let tail := if includeLast then vertices.getLast?.toList.map fun last ↦ [last] else []
  return { segments := segments ++ tail, labelPositions, labels := [] }

/-- The points of a named path. -/
def HighSymmetryPath.sample (path : HighSymmetryPath α) (density : α) (includeLast : Bool) :
    Outcome (KPath α) := do
  let sampled ← polyline path.vertices density includeLast
  return { sampled with labels := path.labels }

end

end Moire
