import Moire.BandModel
import Moire.Failure

/-!
# Spectra

The levels of a Hamiltonian in ascending order. An eigensolver is a parameter: it returns levels in
any order, or gives up, and `Spectrum.ofHamiltonian` refuses matrices that are not square or not
finite, calls it, and sorts. Bands are counted from the middle of the spectrum: a window is a range
of bands around it, band `1` is the lowest one above and band `-1` the highest one below.
-/

namespace Moire

/-- An energy with a state of that energy. -/
structure Level (α : Type) where
  energy : α
  state : CVector α
  deriving Repr, Inhabited

/-- A Hermitian eigensolver. It returns one level per dimension, or nothing if it gives up. -/
abbrev Solver (α : Type) := CMatrix α → Option (List (Level α))

/-- Levels in ascending order. -/
structure Spectrum (α : Type) where
  levels : Array (Level α)
  deriving Repr, Inhabited

namespace Spectrum

variable {α : Type} [Number α]

/-- The spectrum of a Hamiltonian. -/
def ofHamiltonian (solve : Solver α) (h : CMatrix α) : Outcome (Spectrum α) := do
  if h.nrows ≠ h.ncols then fail (.dimensionMismatch "Hamiltonian" h.nrows h.ncols)
  if !h.isFinite then fail (.numerical .assembly "Hamiltonian has non-finite entries")
  if h.nrows = 0 then breakDown .emptyMatrix
  match solve h with
  | none =>
      fail (.numerical .eigen s!"no convergence for a {h.nrows}x{h.nrows} Hamiltonian")
  | some levels => return ⟨(Number.sortBy Level.energy levels).toArray⟩

variable (spectrum : Spectrum α)

/-- The number of levels. -/
def size : Nat := spectrum.levels.size

/-- The index of the lowest level above half filling. -/
def mid : Nat := spectrum.size / 2

/-- The energies in ascending order. -/
def energies : List α := spectrum.levels.toList.map Level.energy

/-- The energy at an index, zero outside. -/
def energy (i : Nat) : α := (spectrum.levels[i]?.map Level.energy).getD 0

/-- The state at an index. -/
def state (i : Nat) : CVector α := (spectrum.levels[i]?.map Level.state).getD #[]

/-- The energies of the bands from `mid + lower` up to, and without, `mid + upper`. -/
def window (lower upper : Int) : Outcome (List α) := do
  let start ← Word.signed64.add spectrum.mid lower
  let stop ← Word.signed64.add spectrum.mid upper
  if lower ≥ upper ∨ start < 0 ∨ stop > spectrum.size then
    refuse "band_window"
      s!"window [{lower}, {upper}) does not fit {spectrum.size} bands around {spectrum.mid}"
  return (spectrum.energies.drop start.toNat).take (stop - start).toNat

/-- The indices of the `count` highest levels below half filling, from the top down. -/
def valence (count : Nat) : Outcome (List Nat) := do
  if spectrum.mid < count then
    refuse "num_half" s!"{count} valence bands requested, {spectrum.mid} available"
  return (List.range count).map fun i ↦ spectrum.mid - 1 - i

/-- The indices of the `count` lowest levels above half filling, from the bottom up. -/
def conduction (count : Nat) : Outcome (List Nat) := do
  let stop ← addCount spectrum.mid count
  if spectrum.size < stop then
    refuse "num_half"
      s!"{count} conduction bands requested, {spectrum.size - spectrum.mid} available"
  return (List.range count).map fun i ↦ spectrum.mid + i

/-- The index of a band counted from the middle. -/
def bandIndex (band : Int) : Outcome Nat := do
  if band = 0 then refuse "band" "band index must be non-zero"
  let index : Int := if 0 < band then spectrum.mid + band - 1 else spectrum.mid + band
  if index < 0 ∨ index ≥ spectrum.size then
    refuse "band" s!"band {band} is outside the {spectrum.size} computed bands"
  return index.toNat

end Spectrum

/-- The spectrum of a model at a point of the zone. -/
def BandModel.spectrum {α : Type} [Scalar α] (model : BandModel α) (solve : Solver α)
    (k : KPoint α) : Outcome (Spectrum α) :=
  Spectrum.ofHamiltonian solve (model.hamiltonian k)

end Moire
