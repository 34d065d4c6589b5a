import Moire.CMatrix

/-!
# Reduction of a Hermitian matrix to a real tridiagonal one

Reflections remove the entries below the first subdiagonal, one column after the other. The
subdiagonal that remains is complex; a diagonal matrix of phases makes it real. The reflections and
the phases are kept, for `Tridiagonal.restore` takes an eigenvector of the tridiagonal matrix back
to one of the Hermitian matrix.
-/

namespace Moire

/-- A square matrix of machine floats, real and imaginary parts apart, row by row. -/
structure SplitMatrix where
  size : Nat
  re : FloatArray
  im : FloatArray

/-- A float array of zeros. -/
def FloatArray.zeros (size : Nat) : FloatArray :=
  FloatArray.mk (Array.replicate size 0.0)

/-- A Hermitian matrix as a real tridiagonal one, with the reflections and phases that relate the
two. -/
structure Tridiagonal where
  size : Nat
  diagonal : FloatArray
  /-- The entries below the diagonal; the last one is zero. -/
  offDiagonal : FloatArray
  /-- The normal of the reflection of each column, row by row. -/
  normals : SplitMatrix
  /-- Two over the squared length of each normal, or zero for no reflection. -/
  weights : FloatArray
  /-- The phases of the rows. -/
  phaseRe : FloatArray
  phaseIm : FloatArray

/-- The parts of a matrix divided by a positive number. -/
def SplitMatrix.ofCMatrix (m : CMatrix Float) (scale : Float) : SplitMatrix :=
  let flat (part : Cplx Float → Float) : FloatArray :=
    m.rows.foldl (fun values row ↦ row.foldl (fun values z ↦ values.push (part z / scale)) values)
      (FloatArray.emptyWithCapacity (m.nrows * m.ncols))
  ⟨m.nrows, flat Cplx.re, flat Cplx.im⟩

/-- Reduce a Hermitian matrix. -/
def Tridiagonal.ofHermitian (matrix : SplitMatrix) : Tridiagonal := Id.run do
  let n := matrix.size
  let mut re := matrix.re
  let mut im := matrix.im
  let mut normalRe := FloatArray.zeros (n * n)
  let mut normalIm := FloatArray.zeros (n * n)
  let mut weights := FloatArray.zeros n
  let mut offDiagonal := FloatArray.zeros n
  let mut phaseRe := FloatArray.zeros n
  let mut phaseIm := FloatArray.zeros n
  let mut pr := FloatArray.zeros n
  let mut pi := FloatArray.zeros n
  phaseRe := phaseRe.set! 0 1
  for k in [0:n - 1] do
    let mut lengthSq := 0.0
    for i in [k + 1:n] do
      let x := re.get! (i * n + k)
      let y := im.get! (i * n + k)
      lengthSq := lengthSq + (x * x + y * y)
    let length := lengthSq.sqrt
    let cr := phaseRe.get! k
    let ci := phaseIm.get! k
    if length == 0 then
      phaseRe := phaseRe.set! (k + 1) cr
      phaseIm := phaseIm.set! (k + 1) ci
    else
      let x := re.get! ((k + 1) * n + k)
      let y := im.get! ((k + 1) * n + k)
      let head := (x * x + y * y).sqrt
      let ur := if head == 0 then 1 else x / head
      let ui := if head == 0 then 0 else y / head
      let weight := 1 / (lengthSq + head * length)
      weights := weights.set! k weight
      for i in [k + 1:n] do
        normalRe := normalRe.set! (k * n + i) (re.get! (i * n + k))
        normalIm := normalIm.set! (k * n + i) (im.get! (i * n + k))
      normalRe := normalRe.set! (k * n + k + 1) (x + ur * length)
      normalIm := normalIm.set! (k * n + k + 1) (y + ui * length)
      -- The column becomes `-u · length` in its first entry, so the phase turns by `-u`.
      offDiagonal := offDiagonal.set! k length
      phaseRe := phaseRe.set! (k + 1) (-(cr * ur - ci * ui))
      phaseIm := phaseIm.set! (k + 1) (-(cr * ui + ci * ur))
      let mut overlap := 0.0
      for i in [k + 1:n] do
        let mut sr := 0.0
        let mut si := 0.0
        for j in [k + 1:n] do
          let a := re.get! (i * n + j)
          let b := im.get! (i * n + j)
          let v := normalRe.get! (k * n + j)
          let w := normalIm.get! (k * n + j)
          sr := sr + (a * v - b * w)
          si := si + (a * w + b * v)
        pr := pr.set! i (weight * sr)
        pi := pi.set! i (weight * si)
        overlap := overlap +
          (normalRe.get! (k * n + i) * (weight * sr) + normalIm.get! (k * n + i) * (weight * si))
      let half := weight * overlap / 2
      for i in [k + 1:n] do
        pr := pr.set! i (pr.get! i - half * normalRe.get! (k * n + i))
        pi := pi.set! i (pi.get! i - half * normalIm.get! (k * n + i))
      for i in [k + 1:n] do
        let vr := normalRe.get! (k * n + i)
        let vi := normalIm.get! (k * n + i)
        let wr := pr.get! i
        let wi := pi.get! i
        for j in [k + 1:n] do
          let xr := normalRe.get! (k * n + j)
          let xi := normalIm.get! (k * n + j)
          let yr := pr.get! j
          let yi := pi.get! j
          re := re.set! (i * n + j)
            (re.get! (i * n + j) - ((vr * yr + vi * yi) + (wr * xr + wi * xi)))
          im := im.set! (i * n + j)
            (im.get! (i * n + j) - ((vi * yr - vr * yi) + (wi * xr - wr * xi)))
  let mut diagonal := FloatArray.zeros n
  for i in [0:n] do
    diagonal := diagonal.set! i (re.get! (i * n + i))
  return { size := n, diagonal, offDiagonal, normals := ⟨n, normalRe, normalIm⟩, weights,
           phaseRe, phaseIm }

/-- An eigenvector of the Hermitian matrix, from one of the tridiagonal matrix that stands at an
offset of an array. -/
def Tridiagonal.restore (t : Tridiagonal) (vectors : FloatArray) (offset : Nat) :
    CVector Float := Id.run do
  let n := t.size
  let mut re := FloatArray.zeros n
  let mut im := FloatArray.zeros n
  for i in [0:n] do
    let x := vectors.get! (offset + i)
    re := re.set! i (t.phaseRe.get! i * x)
    im := im.set! i (t.phaseIm.get! i * x)
  for step in [0:n - 1] do
    let k := n - 2 - step
    let weight := t.weights.get! k
    if weight != 0 then
      let mut sr := 0.0
      let mut si := 0.0
      for j in [k + 1:n] do
        let vr := t.normals.re.get! (k * n + j)
        let vi := t.normals.im.get! (k * n + j)
        sr := sr + (vr * re.get! j + vi * im.get! j)
        si := si + (vr * im.get! j - vi * re.get! j)
      sr := weight * sr
      si := weight * si
      for j in [k + 1:n] do
        let vr := t.normals.re.get! (k * n + j)
        let vi := t.normals.im.get! (k * n + j)
        re := re.set! j (re.get! j - (sr * vr - si * vi))
        im := im.set! j (im.get! j - (sr * vi + si * vr))
  return Array.ofFn fun i : Fin n ↦ ⟨re.get! i, im.get! i⟩

end Moire
