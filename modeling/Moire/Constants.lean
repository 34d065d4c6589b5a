import Moire.Number

/-!
# Physical constants and units

Energies are in meV, lengths in Å, and charge is in units of the elementary charge.
-/

namespace Moire.Constants

variable {α : Type} [Scalar α]

/-- The reduced Planck constant in eV·s. -/
def hbar : α := 6.582119569e-16

/-- The speed of light in m/s. -/
def speedOfLight : α := 2.99792458e8

/-- The vacuum permittivity in e/(V·m). -/
def vacuumPermittivity : α := 8.8541878128e-12 / 1.602176634e-19

/-- The elementary charge. -/
def elementaryCharge : α := 1

/-- Ångströms in a metre. -/
def metreToAngstrom : α := 1e10

/-- Milli-electronvolts in an electronvolt. -/
def evToMev : α := 1e3

/-- The square root of three. -/
def sqrt3 : α := Scalar.sqrt 3

/-- Half the square root of three, the height of a triangle of side one. -/
def halfSqrt3 : α := sqrt3 / 2

/-- The lattice constant of graphene in Å. -/
def grapheneLattice : α := 1.42 * sqrt3

/-- The distance of the two layers in Å. -/
def interlayerDistance : α := 3.35

/-- The two states of a spin. -/
def spinDegeneracy : α := 2

/-- The sheet conductivity of a single layer in units of `e²/ħ`. -/
def monolayerConductivity : α := 0.25

/-- The dimensionless `e²/(ħ c ε₀)`. -/
def absorptionPrefactor : α :=
  elementaryCharge * elementaryCharge / (hbar * speedOfLight * vacuumPermittivity)

/-- A slope of energy against momentum, in meV·Å, as a velocity in m/s. -/
def velocity (energyChange momentumChange : α) : α :=
  Scalar.abs (energyChange / (momentumChange * hbar * metreToAngstrom * evToMev))

end Moire.Constants
