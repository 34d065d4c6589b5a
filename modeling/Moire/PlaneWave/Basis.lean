import Moire.PlaneWave.Basic

/-!
# The truncated plane-wave basis

The basis of the continuum model starts from the bottom wave at the valley. A round of growth adds
the partners of the waves that the round before has added. `Basis.grow` is the basis after a given
number of rounds; its frontier is what the last round added.
-/

namespace Moire

/-- A set of plane waves, in their order. -/
abbrev WaveSet := Std.TreeSet PlaneWave

/-- A basis in the course of its growth. -/
structure Basis where
  waves : WaveSet
  /-- The waves added last. -/
  frontier : WaveSet
  /-- The rounds of growth so far. -/
  hops : Nat

namespace Basis

/-- The basis before any tunnelling. -/
def seed : Basis :=
  { waves := (∅ : WaveSet).insert .origin
    frontier := (∅ : WaveSet).insert .origin
    hops := 0 }

/-- Add a wave to the basis and to the next frontier, unless the basis has it. -/
def adopt (state : WaveSet × WaveSet) (wave : PlaneWave) : WaveSet × WaveSet :=
  if state.1.contains wave then state else (state.1.insert wave, state.2.insert wave)

/-- One round of growth. -/
def step (basis : Basis) : Basis :=
  let (waves, frontier) :=
    (basis.frontier.toList.flatMap PlaneWave.partners).foldl adopt (basis.waves, ∅)
  { waves, frontier, hops := basis.hops + 1 }

/-- The basis after a number of rounds. -/
def grow : Nat → Basis
  | 0 => seed
  | rounds + 1 => (grow rounds).step

/-- The number of waves. -/
def size (basis : Basis) : Nat := basis.waves.size

/-- The wave belongs to the basis. -/
def contains (basis : Basis) (wave : PlaneWave) : Bool := basis.waves.contains wave

/-- The waves in order. -/
def toList (basis : Basis) : List PlaneWave := basis.waves.toList

/-- The waves of one layer, in order. -/
def layer (basis : Basis) (side : Layer) : List PlaneWave :=
  basis.toList.filter fun v ↦ v.layer = side

/-- The tunnelling processes that leave the basis, each wave with its missing partner. -/
def dangling (basis : Basis) : List (PlaneWave × PlaneWave) :=
  (basis.toList.flatMap fun v ↦ v.partners.map fun p ↦ (v, p)).filter
    fun (_, p) ↦ !basis.contains p

/-- Only waves of the frontier have missing partners. -/
def isClosed (basis : Basis) : Bool :=
  basis.dangling.all fun (v, _) ↦ basis.frontier.contains v

end Basis

end Moire
