import Moire.Number

/-!
# Complex numbers over a type of numbers

Amplitudes, matrix entries and responses. The operations are the textbook formulas in terms of
real and imaginary parts, in a fixed order of evaluation.
-/

namespace Moire

/-- A complex number. -/
@[ext] structure Cplx (α : Type) where
  re : α
  im : α
  deriving DecidableEq, Repr, Inhabited

namespace Cplx

variable {α : Type} [Number α]

/-- A real number as a complex one. -/
def ofReal (x : α) : Cplx α := ⟨x, 0⟩

/-- Zero. -/
def zero : Cplx α := ofReal 0

/-- The imaginary unit. -/
def i : Cplx α := ⟨0, 1⟩

instance : Add (Cplx α) := ⟨fun z w ↦ ⟨z.re + w.re, z.im + w.im⟩⟩

instance : Sub (Cplx α) := ⟨fun z w ↦ ⟨z.re - w.re, z.im - w.im⟩⟩

instance : Mul (Cplx α) := ⟨fun z w ↦
  ⟨z.re * w.re - z.im * w.im, z.re * w.im + z.im * w.re⟩⟩

/-- The complex conjugate. -/
def conj (z : Cplx α) : Cplx α := ⟨z.re, -z.im⟩

/-- The squared modulus. -/
def normSq (z : Cplx α) : α := z.re * z.re + z.im * z.im

instance : Div (Cplx α) := ⟨fun z w ↦
  ⟨(z.re * w.re + z.im * w.im) / w.normSq, (z.im * w.re - z.re * w.im) / w.normSq⟩⟩

/-- Multiplication by a real number. -/
def scale (x : α) (z : Cplx α) : Cplx α := ⟨x * z.re, x * z.im⟩

/-- Division by a real number. -/
def divReal (z : Cplx α) (x : α) : Cplx α := ⟨z.re / x, z.im / x⟩

@[simp] theorem ofReal_re (x : α) : (ofReal x).re = x := rfl
@[simp] theorem ofReal_im (x : α) : (ofReal x).im = 0 := rfl
@[simp] theorem zero_re : (zero : Cplx α).re = 0 := rfl
@[simp] theorem zero_im : (zero : Cplx α).im = 0 := rfl
@[simp] theorem add_re (z w : Cplx α) : (z + w).re = z.re + w.re := rfl
@[simp] theorem add_im (z w : Cplx α) : (z + w).im = z.im + w.im := rfl
@[simp] theorem sub_re (z w : Cplx α) : (z - w).re = z.re - w.re := rfl
@[simp] theorem sub_im (z w : Cplx α) : (z - w).im = z.im - w.im := rfl
@[simp] theorem mul_re (z w : Cplx α) : (z * w).re = z.re * w.re - z.im * w.im := rfl
@[simp] theorem mul_im (z w : Cplx α) : (z * w).im = z.re * w.im + z.im * w.re := rfl
@[simp] theorem conj_re (z : Cplx α) : z.conj.re = z.re := rfl
@[simp] theorem conj_im (z : Cplx α) : z.conj.im = -z.im := rfl
@[simp] theorem scale_re (x : α) (z : Cplx α) : (z.scale x).re = x * z.re := rfl
@[simp] theorem scale_im (x : α) (z : Cplx α) : (z.scale x).im = x * z.im := rfl

/-- Both parts are finite. -/
def isFinite (z : Cplx α) : Bool := Number.isFinite z.re && Number.isFinite z.im

/-- The sum of a list, from the left. -/
def sum (terms : List (Cplx α)) : Cplx α :=
  terms.foldl (· + ·) zero

end Cplx

namespace Cplx

variable {α : Type} [Scalar α]

/-- The complex number of a given modulus and angle. -/
def polar (modulus angle : α) : Cplx α :=
  ⟨modulus * Scalar.cos angle, modulus * Scalar.sin angle⟩

/-- The modulus. -/
def norm (z : Cplx α) : α := Scalar.sqrt z.normSq

/-- The angle, in `(-π, π]`. -/
def arg (z : Cplx α) : α := Scalar.atan2 z.im z.re

end Cplx

end Moire
