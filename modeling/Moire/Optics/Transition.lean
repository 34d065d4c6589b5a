import Moire.Spectrum.Basic

/-!
# Optical transitions

The velocity matrix elements between the bands next to the gap at a point of the zone.
-/

namespace Moire

/-- A transition from a valence to a conduction band. -/
structure Transition (α : Type) where
  /-- One is the highest valence band. -/
  valence : Nat
  /-- One is the lowest conduction band. -/
  conduction : Nat
  /-- The difference of the two energies in meV. -/
  energy : α
  velocityX : Cplx α
  velocityY : Cplx α
  deriving Repr, Inhabited

variable {α : Type} [Scalar α]

/-- The squared modulus of the velocity. -/
def Transition.strength (t : Transition α) : α :=
  t.velocityX.normSq + t.velocityY.normSq

/-- All transitions between the `half` bands on each side of the gap. The valence band changes
fastest. -/
def transitions (model : BandModel α) (solve : Solver α) (half : Nat) (k : KPoint α) :
    Outcome (List (Transition α)) := do
  let derivatives := model.derivatives k
  let spectrum ← Spectrum.ofHamiltonian solve derivatives.h
  let valence ← spectrum.valence half
  let conduction ← spectrum.conduction half
  let kets := valence.map fun v ↦
    (v, derivatives.dx.apply (spectrum.state v), derivatives.dy.apply (spectrum.state v))
  return conduction.zipIdx.flatMap fun (c, i) ↦ kets.zipIdx.map fun ((v, dx, dy), j) ↦
    { valence := j + 1
      conduction := i + 1
      energy := spectrum.energy c - spectrum.energy v
      velocityX := (spectrum.state c).inner dx
      velocityY := (spectrum.state c).inner dy }

end Moire
