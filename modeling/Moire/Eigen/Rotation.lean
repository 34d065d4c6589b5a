import Moire.Eigen.Reflection

/-!
# Eigenvalues of a real tridiagonal matrix

Shifted rotations drive the entries beside the diagonal to zero, one after the other, and are
gathered in the eigenvectors. Each entry is given a bounded number of sweeps.
-/

namespace Moire

/-- The diagonal, the entries beside it, and the eigenvectors so far, row by row. -/
structure RotationState where
  diagonal : FloatArray
  offDiagonal : FloatArray
  vectors : FloatArray

namespace RotationState

/-- The distance from one to the next float. -/
def epsilon : Float := 2.220446049250313e-16

/-- What is negligible in a matrix whose entries are at most one. -/
def negligible : Float := 1e-30

/-- The first index from `start` on whose entry beside the diagonal is negligible. -/
def blockEnd (state : RotationState) (n start : Nat) : Nat :=
  ((List.range (n - 1 - start)).find? fun i ↦
    let m := start + i
    let scale := (state.diagonal.get! m).abs + (state.diagonal.get! (m + 1)).abs
    let entry := (state.offDiagonal.get! m).abs
    entry <= epsilon * scale || entry < negligible).map (start + ·) |>.getD (n - 1)

/-- The length of the vector `(x, y)`. -/
def length (x y : Float) : Float := (x * x + y * y).sqrt

/-- One sweep of rotations over the block from `l` to `m`. -/
def sweep (state : RotationState) (n l m : Nat) : RotationState := Id.run do
  let mut d := state.diagonal
  let mut e := state.offDiagonal
  let mut z := state.vectors
  let ratio := (d.get! (l + 1) - d.get! l) / (2 * e.get! l)
  let root := length ratio 1
  let shift := if ratio < 0 then ratio - root else ratio + root
  let mut g := d.get! m - d.get! l + e.get! l / shift
  let mut s := 1.0
  let mut c := 1.0
  let mut p := 0.0
  let mut broken := false
  for step in [0:m - l] do
    let i := m - 1 - step
    let f := s * e.get! i
    let b := c * e.get! i
    let r := length f g
    e := e.set! (i + 1) r
    if r == 0 then
      d := d.set! (i + 1) (d.get! (i + 1) - p)
      e := e.set! m 0
      broken := true
      break
    s := f / r
    c := g / r
    g := d.get! (i + 1) - p
    let t := (d.get! i - g) * s + 2 * c * b
    p := s * t
    d := d.set! (i + 1) (g + p)
    g := c * t - b
    for k in [0:n] do
      let upper := z.get! ((i + 1) * n + k)
      let lower := z.get! (i * n + k)
      z := z.set! ((i + 1) * n + k) (s * lower + c * upper)
      z := z.set! (i * n + k) (c * lower - s * upper)
  if !broken then
    d := d.set! l (d.get! l - p)
    e := e.set! l g
    e := e.set! m 0
  return ⟨d, e, z⟩

/-- Sweep until the entry at `l` is negligible, at most a number of times. -/
def settle (n l : Nat) : Nat → RotationState → Option RotationState
  | 0, _ => none
  | sweeps + 1, state =>
      let m := state.blockEnd n l
      if m = l then some state else settle n l sweeps (state.sweep n l m)

end RotationState

/-- The sweeps that one entry is given. -/
def sweepsPerEntry : Nat := 64

/-- The eigenvalues, with the eigenvectors row by row, of a real tridiagonal matrix. -/
def Tridiagonal.diagonalize (t : Tridiagonal) : Option RotationState :=
  let n := t.size
  let identity := (List.range n).foldl (fun z i ↦ z.set! (i * n + i) 1) (FloatArray.zeros (n * n))
  (List.range n).foldlM (fun state l ↦ state.settle n l sweepsPerEntry)
    ⟨t.diagonal, t.offDiagonal, identity⟩

end Moire
