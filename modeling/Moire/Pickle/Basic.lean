import Moire.Decimal.Basic

/-!
# Numbers in bytes

A pickle is a program for a stack machine that builds a value, in the form of bytes. This module has
the bytes of numbers. `Pickle.Writer` writes programs, and `Pickle.Machine` runs them.
-/

namespace Moire.Pickle

/-- The least significant bytes of a number, the least significant first. -/
def littleEndian (count n : Nat) : List UInt8 :=
  (List.range count).map fun i ↦ (n / Nat.pow 256 i % 256).toUInt8

/-- The number that bytes stand for, the least significant first. -/
def ofLittleEndian (bytes : List UInt8) : Nat :=
  bytes.foldr (fun byte n ↦ byte.toNat + 256 * n) 0

/-- The bytes of a float, the most significant first. -/
def floatBytes (x : Float) : List UInt8 :=
  (littleEndian 8 x.toBits.toNat).reverse

/-- The float that eight bytes stand for, the most significant first. -/
def ofFloatBytes (bytes : List UInt8) : Float :=
  Float.ofBits (ofLittleEndian bytes.reverse).toUInt64

end Moire.Pickle
