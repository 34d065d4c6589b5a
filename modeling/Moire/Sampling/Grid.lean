import Moire.Sampling.Path

/-!
# Grids and patches

`uniformGrid` divides a zone into congruent cells and takes one corner of each. `patch` is a square
array of points around a centre.
-/

namespace Moire

variable {α : Type} [Scalar α]

/-- The points `(i/n)·v₁ + (j/n)·v₂` for `i` and `j` below `n`, `i` being the outer index. -/
def uniformGrid (v₁ v₂ : KPoint α) (n : Nat) : Outcome (List (KPoint α)) := do
  let count ← mulCount n n
  reserve count pointSize
  let fraction (i : Nat) : α := Number.ofNat i / Number.ofNat n
  return (List.range n).flatMap fun i ↦ (List.range n).map fun j ↦
    v₁ * fraction i + v₂ * fraction j

/-- Evenly spaced numbers from `start` to `stop`, both included; a single one is the start. -/
def linspace (start stop : α) (count : Nat) : Outcome (List α) := do
  if count = 0 then return []
  if count = 1 then return [start]
  let step := (stop - start) / Number.ofNat (count - 1)
  reserve count 8
  return (List.range count).map fun i ↦ start + step * Number.ofNat i

/-- The points `center + s·delta + t·delta'` for `s` and `t` in `density + 1` steps from `-1` to
`1`, where `delta'` is `delta` turned by a right angle and `t` runs fastest. -/
def patch (center delta : KPoint α) (density : Nat) : Outcome (List (KPoint α)) := do
  let count ← addCount density 1
  let steps : List α ← linspace (-1) 1 count
  return steps.flatMap fun s ↦ steps.map fun t ↦ center + delta * s + delta.turned * t

end Moire
