import Moire.Number
import Moire.Word

/-!
# Histograms

Bins of equal width over a range. Values outside the range are dropped, every bin holds its lower
edge, and the last one holds its upper edge as well.
-/

namespace Moire

/-- The edges of bins and the number of values in each. -/
structure Histogram (α : Type) where
  edges : List α
  counts : List Nat
  deriving Repr, Inhabited

namespace Histogram

variable {α : Type} [Number α]

/-- The smaller of two values, ignoring what is not a number. -/
def least (x y : α) : α :=
  if !Number.isNumber x then y else if Number.lt y x then y else x

/-- The larger of two values, ignoring what is not a number. -/
def greatest (x y : α) : α :=
  if !Number.isNumber x then y else if Number.lt x y then y else x

/-- The range from the least to the greatest value. Without any number in the list it reaches from
plus to minus infinity, and it is the unit interval if the list is empty. -/
def extent : List α → α × α
  | [] => (0, 1)
  | first :: rest =>
      let (low, high) := (rest.foldl least first, rest.foldl greatest first)
      if Number.isNumber low then (low, high) else (1 / 0, -(1 / 0))

/-- The bin of a value, if it is not outside the range. -/
def binOf (lower upper width : α) (bins : Nat) (v : α) : Option Nat :=
  if Number.lt v lower || Number.lt upper v then none
  else some (min (Number.toNat ((v - lower) / width)) (bins - 1))

/-- The counts after a further value, the bin of which has to be there. -/
def tally (counts : Array Nat) : Option Nat → Outcome (Array Nat)
  | none => .ok counts
  | some bin =>
      if bin < counts.size then .ok (counts.modify bin (· + 1))
      else breakDown (.indexOutOfBounds counts.size bin)

/-- The number of values in each bin. -/
def countBins (lower upper width : α) (bins : Nat) (values : List α) : Outcome (List Nat) := do
  let counts ← values.foldlM (fun counts v ↦ tally counts (binOf lower upper width bins v))
    (Array.replicate bins 0)
  return counts.toList

/-- Sort values into bins over a range, or over their own extent. -/
def create (values : List α) (bins : Nat) (range : Option (α × α)) : Outcome (Histogram α) := do
  if bins = 0 then refuse "bins" "at least one bin is required"
  let (lower, upper) := range.getD (extent values)
  if !Number.isFinite lower || !Number.isFinite upper || Number.lt upper lower then
    refuse "energy_range"
      ("invalid histogram range (" ++ Number.text lower ++ ", " ++ Number.text upper ++ ")")
  let half : α := 1 / 2
  let (lower, upper) :=
    if Number.eq lower upper then (lower - half, upper + half) else (lower, upper)
  let width := (upper - lower) / Number.ofNat bins
  reserve (bins + 1) 8
  let counts ← countBins lower upper width bins values
  return { edges := (List.range (bins + 1)).map fun i ↦ lower + width * Number.ofNat i, counts }

variable (histogram : Histogram α)

/-- The width of a bin. -/
def binWidth : Outcome α := do
  let second ← entry histogram.edges 1
  let first ← entry histogram.edges 0
  return second - first

/-- The middle of each bin. -/
def centers : List α :=
  histogram.edges.zipWith (fun a b ↦ (a + b) / 2) histogram.edges.tail

/-- The number of values in all bins. -/
def total : Nat := histogram.counts.foldl (· + ·) 0

end Histogram

end Moire
