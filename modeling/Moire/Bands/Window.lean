import Moire.Word

/-!
# Band windows

A window names a range of bands by their distance from half filling. The bands below zero are
valence bands.
-/

namespace Moire

/-- The bands from `lower` up to, and without, `upper`, counted from half filling. -/
structure BandWindow where
  lower : Int
  upper : Int
  deriving DecidableEq, Repr, Inhabited

namespace BandWindow

/-- The window of a number of bands on each side. -/
def symmetric (halfWidth : Nat) : Outcome BandWindow := do
  let upper := wrapSigned 64 halfWidth
  let lower ← Word.signed64.neg upper
  return ⟨lower, upper⟩

/-- Ten bands on each side. -/
def standard : BandWindow := ⟨-10, 10⟩

/-- The leading entries of a row that lie below the gap. -/
def valenceCount (window : BandWindow) : Outcome Nat := do
  let below ← Word.signed64.neg window.lower
  return below.toNat

end BandWindow

end Moire
