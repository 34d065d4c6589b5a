import Moire.Word
import Std.Data.HashSet

/-!
# Indices of a hexagonal lattice and their closure

The sites of a graphene lattice are labelled by two integers. `Lattice.expandUntil` grows the set
of labels shell by shell around the origin until it holds a target, and fails when the target is
not reached within a number of rounds. Coordinates are 32-bit words.
-/

namespace Moire

/-- The label of a lattice cell. -/
structure LatticeIndex where
  i : Int
  j : Int
  deriving DecidableEq, Hashable, Repr, Inhabited

namespace LatticeIndex

/-- The cell at the origin. -/
def origin : LatticeIndex := ⟨0, 0⟩

/-- The steps to the six neighbours, in the order in which they are taken. -/
def steps : List (Int × Int) := [(1, 0), (0, 1), (-1, 0), (0, -1), (1, -1), (-1, 1)]

/-- The number of steps from the origin. -/
def norm (index : LatticeIndex) : Nat :=
  max (max index.i.natAbs index.j.natAbs) (index.i + index.j).natAbs

/-- `norm` in 32-bit words. -/
def norm32 (index : LatticeIndex) : Outcome Int := do
  let i ← Word.signed32.abs index.i
  let j ← Word.signed32.abs index.j
  let diagonal ← Word.signed32.add index.i index.j
  let diagonal ← Word.signed32.abs diagonal
  return max (max i j) diagonal

/-- The neighbour in a direction. -/
def step (index : LatticeIndex) (direction : Int × Int) : Outcome LatticeIndex := do
  let i ← Word.signed32.add index.i direction.1
  let j ← Word.signed32.add index.j direction.2
  return ⟨i, j⟩

end LatticeIndex

namespace Lattice

/-- The rounds of growth that are allowed unless a caller says otherwise. -/
def defaultRounds : Nat := 4096

/-- The cell of the superlattice vector that the labels `(m0, r)` describe. -/
def commensurateTarget (m0 r : Nat) : Outcome LatticeIndex := do
  let sum ← Word.unsigned32.add m0 r
  return ⟨wrapSigned 32 m0, wrapSigned 32 sum.toNat⟩

/-- A closed set of lattice cells, shell by shell. -/
structure Closure where
  indices : Array LatticeIndex
  rounds : Nat
  deriving Repr, Inhabited

/-- The cells found so far and those found in the last round. -/
structure Growth where
  visited : Std.HashSet LatticeIndex
  indices : Array LatticeIndex
  /-- The cells of the last round, the latest first. -/
  frontier : List LatticeIndex
  rounds : Nat

namespace Growth

/-- The growth before its first round. -/
def seed : Growth :=
  { visited := (∅ : Std.HashSet LatticeIndex).insert .origin
    indices := #[.origin]
    frontier := [.origin]
    rounds := 0 }

/-- Look at the neighbour in one direction and keep it if it is new. -/
def look (index : LatticeIndex) (growth : Growth) (direction : Int × Int) : Outcome Growth := do
  let candidate ← index.step direction
  if growth.visited.contains candidate then return growth
  return { growth with
    visited := growth.visited.insert candidate
    indices := growth.indices.push candidate
    frontier := candidate :: growth.frontier }

/-- One round: look at all neighbours of the cells of the round before. -/
def round (growth : Growth) : Outcome Growth := do
  let start := { growth with frontier := [], rounds := growth.rounds + 1 }
  growth.frontier.reverse.foldlM
    (fun state index ↦ LatticeIndex.steps.foldlM (look index) state) start

end Growth

/-- Grow for at most a number of further rounds until the target is found. -/
def search (target : LatticeIndex) : Nat → Growth → Outcome Closure
  | left, growth =>
      if growth.visited.contains target then .ok ⟨growth.indices, growth.rounds⟩
      else
        match left with
        | 0 => fail (.unreached target.i target.j growth.rounds)
        | left + 1 => do
            let next ← growth.round
            search target left next

/-- The closure that reaches a target, or a failure after `maxRounds` rounds. -/
def expandUntil (target : LatticeIndex) (maxRounds : Nat) : Outcome Closure :=
  search target maxRounds .seed

end Lattice

end Moire
