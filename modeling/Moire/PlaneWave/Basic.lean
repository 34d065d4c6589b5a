import Moire.Vec
import Moire.Word
import Std.Data.TreeSet

/-!
# Plane waves of the two layers

A plane wave of the continuum model is labelled by its layer and by two integers, the multiples of
the reciprocal vectors of the moire lattice. Tunnelling takes a wave to three partners in the other
layer. Labels are unbounded integers; the operations whose name ends in `32` keep them in 32-bit
words and fail where a coordinate would leave its word.
-/

namespace Moire

/-- One of the two graphene sheets. -/
inductive Layer where
  | bottom
  | top
  deriving DecidableEq, Repr, Inhabited

namespace Layer

/-- The number of the layer, from below. -/
def tag : Layer → Nat
  | bottom => 1
  | top => 2

/-- The layer on the other side. -/
def other : Layer → Layer
  | bottom => top
  | top => bottom

end Layer

/-- The kind of a tunnelling process: both labels stay, or one of them changes by one. -/
inductive Hop where
  | same
  | alongPlus
  | alongMinus
  deriving DecidableEq, Repr, Inhabited

/-- The label of a plane wave. -/
structure PlaneWave where
  layer : Layer
  m : Int
  n : Int
  deriving DecidableEq, Repr, Inhabited

namespace PlaneWave

/-- Plane waves are ordered by layer, then by `m`, then by `n`. -/
instance : Ord PlaneWave where
  compare := compareLex (compareOn fun v ↦ v.layer.tag)
    (compareLex (compareOn fun v ↦ v.m) (compareOn fun v ↦ v.n))

instance : Std.TransOrd PlaneWave :=
  inferInstanceAs (Std.TransCmp (compareLex (compareOn fun v : PlaneWave ↦ v.layer.tag)
    (compareLex (compareOn fun v ↦ v.m) (compareOn fun v ↦ v.n))))

/-- The wave of the bottom layer at the valley. -/
def origin : PlaneWave := ⟨.bottom, 0, 0⟩

/-- The wave with its labels moved. -/
def shift (v : PlaneWave) (dm dn : Int) : PlaneWave :=
  { v with m := v.m + dm, n := v.n + dn }

/-- The change of the labels in tunnelling out of a layer: up from the bottom, down from the
top. -/
def direction : Layer → Int
  | .bottom => 1
  | .top => -1

/-- The three waves that tunnelling reaches. -/
def partners (v : PlaneWave) : List PlaneWave :=
  let step := direction v.layer
  [⟨v.layer.other, v.m, v.n⟩, ⟨v.layer.other, v.m + step, v.n⟩, ⟨v.layer.other, v.m, v.n + step⟩]

/-- The process that takes a bottom wave to a top wave, if there is one. -/
def hopTo (v target : PlaneWave) : Option Hop :=
  if v.layer = .bottom ∧ target.layer = .top then
    if target.m - v.m = 0 ∧ target.n - v.n = 0 then some .same
    else if target.m - v.m = 1 ∧ target.n - v.n = 0 then some .alongPlus
    else if target.m - v.m = 0 ∧ target.n - v.n = 1 then some .alongMinus
    else none
  else none

/-- The wave vector `m·b₁ + n·b₂`. -/
def waveVector {α : Type} [Number α] (b₁ b₂ : Vec2 α) (v : PlaneWave) : Vec2 α :=
  b₁ * (Number.ofInt v.m : α) + b₂ * (Number.ofInt v.n : α)

/-- How a label reads. -/
def text (v : PlaneWave) : String :=
  s!"({v.m}, {v.n}; L{v.layer.tag})"

/-- `shift` in 32-bit words. -/
def shift32 (v : PlaneWave) (dm dn : Int) : Outcome PlaneWave := do
  let m ← Word.signed32.add v.m dm
  let n ← Word.signed32.add v.n dn
  return { v with m, n }

/-- `partners` in 32-bit words. -/
def partners32 (v : PlaneWave) : Outcome (List PlaneWave) := do
  let step (x : Int) : Outcome Int :=
    match v.layer with
    | .bottom => Word.signed32.add x 1
    | .top => Word.signed32.sub x 1
  let m ← step v.m
  let n ← step v.n
  return [⟨v.layer.other, v.m, v.n⟩, ⟨v.layer.other, m, v.n⟩, ⟨v.layer.other, v.m, n⟩]

/-- `hopTo` in 32-bit words. The layers are looked at before the labels are subtracted. -/
def hopTo32 (v target : PlaneWave) : Outcome (Option Hop) := do
  if v.layer = .bottom ∧ target.layer = .top then
    let _ ← Word.signed32.sub target.m v.m
    let _ ← Word.signed32.sub target.n v.n
  return v.hopTo target

end PlaneWave

end Moire
