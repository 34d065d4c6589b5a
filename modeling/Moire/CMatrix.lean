import Moire.Cplx

/-!
# Complex vectors and matrices

States are arrays of amplitudes, and Hamiltonians are tables of them. A matrix is made from its
entry function by `CMatrix.ofFn`, and `CMatrix.get_ofFn` says that the entries can be read back.
Block matrices are put together by `CMatrix.fromBlocks`.
-/

namespace Moire

/-- The components of a state. -/
abbrev CVector (α : Type) := Array (Cplx α)

/-- A table of complex numbers, row by row. -/
structure CMatrix (α : Type) where
  nrows : Nat
  ncols : Nat
  rows : Array (CVector α)
  deriving Repr, Inhabited

namespace CVector

variable {α : Type} [Number α]

/-- The component at an index, zero outside. -/
def get (v : CVector α) (i : Nat) : Cplx α :=
  v.getD i Cplx.zero

/-- The inner product, antilinear in the first vector. -/
def inner (v w : CVector α) : Cplx α :=
  (v.zip w).foldl (fun total (a, b) ↦ total + a.conj * b) Cplx.zero

end CVector

namespace CMatrix

variable {α : Type} [Number α]

/-- The matrix with given entries. -/
def ofFn (nrows ncols : Nat) (entry : Nat → Nat → Cplx α) : CMatrix α :=
  { nrows, ncols
    rows := Array.ofFn fun i : Fin nrows ↦ Array.ofFn fun j : Fin ncols ↦ entry i j }

/-- The entry in a row and a column, zero outside. -/
def get (m : CMatrix α) (i j : Nat) : Cplx α :=
  CVector.get (m.rows.getD i #[]) j

/-- The entries of a matrix made by `ofFn` are the given ones. -/
@[simp] theorem get_ofFn {nrows ncols : Nat} {entry : Nat → Nat → Cplx α} {i j : Nat}
    (hi : i < nrows) (hj : j < ncols) : (ofFn nrows ncols entry).get i j = entry i j := by
  simp [ofFn, get, CVector.get, Array.getD, hi, hj]

/-- The conjugate transpose. -/
def adjoint (m : CMatrix α) : CMatrix α :=
  ofFn m.ncols m.nrows fun i j ↦ (m.get j i).conj

/-- The difference of two matrices. -/
def sub (m n : CMatrix α) : CMatrix α :=
  ofFn m.nrows m.ncols fun i j ↦ m.get i j - n.get i j

/-- Division of every entry by a complex number. -/
def div (m : CMatrix α) (z : Cplx α) : CMatrix α :=
  ofFn m.nrows m.ncols fun i j ↦ m.get i j / z

/-- The product with a column. -/
def apply (m : CMatrix α) (v : CVector α) : CVector α :=
  m.rows.map fun row ↦ (row.zip v).foldl (fun total (a, b) ↦ total + a * b) Cplx.zero

/-- Every entry is finite. -/
def isFinite (m : CMatrix α) : Bool :=
  m.rows.all fun row ↦ row.all Cplx.isFinite

/-- The matrix with diagonal blocks `a`, `d`, with `b` beside `a` and `c` below it. -/
def fromBlocks (a b c d : CMatrix α) : CMatrix α :=
  ofFn (a.nrows + c.nrows) (a.ncols + b.ncols) fun i j ↦
    if i < a.nrows then
      if j < a.ncols then a.get i j else b.get i (j - a.ncols)
    else
      if j < a.ncols then c.get (i - a.nrows) j else d.get (i - a.nrows) (j - a.ncols)

end CMatrix

/-- A two-by-two matrix, the coupling of two sublattices. -/
structure Block (α : Type) where
  aa : Cplx α
  ab : Cplx α
  ba : Cplx α
  bb : Cplx α
  deriving Repr, Inhabited

namespace Block

variable {α : Type} [Number α]

/-- The block without entries. -/
def zero : Block α := ⟨Cplx.zero, Cplx.zero, Cplx.zero, Cplx.zero⟩

/-- The entry of a block, both indices counted modulo two. -/
def get (block : Block α) (i j : Nat) : Cplx α :=
  if i % 2 = 0 then
    if j % 2 = 0 then block.aa else block.ab
  else
    if j % 2 = 0 then block.ba else block.bb

/-- Multiplication of every entry by a complex number. -/
def scale (block : Block α) (z : Cplx α) : Block α :=
  ⟨block.aa * z, block.ab * z, block.ba * z, block.bb * z⟩

end Block

/-- The matrix of a table of two-by-two blocks. -/
def CMatrix.ofBlocks {α : Type} [Number α] (nrows ncols : Nat) (block : Nat → Nat → Block α) :
    CMatrix α :=
  CMatrix.ofFn (2 * nrows) (2 * ncols) fun i j ↦ (block (i / 2) (j / 2)).get i j

end Moire
