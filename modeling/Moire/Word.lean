import Moire.Failure

/-!
# Machine integers

Indices and counts are kept in words of a fixed width. Arithmetic on them is integer arithmetic
as long as the result fits its word, and a fault otherwise.
-/

namespace Moire

/-- The integers from `lowest` to `highest`. -/
structure Word where
  lowest : Int
  highest : Int
  deriving DecidableEq, Repr

namespace Word

/-- Signed 32-bit integers, which hold lattice and basis coordinates. -/
def signed32 : Word := ⟨-2147483648, 2147483647⟩

/-- Unsigned 32-bit integers, which label supercells. -/
def unsigned32 : Word := ⟨0, 4294967295⟩

/-- Signed 64-bit integers, which bound windows of bands. -/
def signed64 : Word := ⟨-9223372036854775808, 9223372036854775807⟩

/-- Unsigned 64-bit integers, which count. -/
def unsigned64 : Word := ⟨0, 18446744073709551615⟩

/-- Signed 128-bit integers. -/
def signed128 : Word :=
  ⟨-170141183460469231731687303715884105728, 170141183460469231731687303715884105727⟩

/-- Unsigned 128-bit integers. -/
def unsigned128 : Word := ⟨0, 340282366920938463463374607431768211455⟩

/-- The integer is one of the word's. -/
def holds (word : Word) (x : Int) : Bool :=
  word.lowest ≤ x && x ≤ word.highest

/-- The result of an operation, if the word holds it. -/
def check (word : Word) (operation : WordOperation) (x : Int) : Outcome Int :=
  if word.holds x then .ok x else breakDown (.overflow operation)

/-- Addition in a word. -/
def add (word : Word) (x y : Int) : Outcome Int :=
  word.check .add (x + y)

/-- Subtraction in a word. -/
def sub (word : Word) (x y : Int) : Outcome Int :=
  word.check .subtract (x - y)

/-- Negation in a word. -/
def neg (word : Word) (x : Int) : Outcome Int :=
  word.check .negate (-x)

/-- Absolute value in a word. -/
def abs (word : Word) (x : Int) : Outcome Int :=
  if x < 0 then word.neg x else .ok x

/-- An operation whose result the word holds returns it. -/
theorem check_eq_ok {word : Word} (operation : WordOperation) {x : Int}
    (hlow : word.lowest ≤ x) (hhigh : x ≤ word.highest) : word.check operation x = .ok x := by
  simp [check, holds, hlow, hhigh]

/-- An operation that returns a result returns the one asked for. -/
theorem eq_of_check {word : Word} {operation : WordOperation} {x result : Int}
    (h : word.check operation x = .ok result) : x = result := by
  unfold check at h
  split at h
  · exact Except.ok.inj h
  · cases h

/-- A word holds what lies between its ends. -/
theorem holds_iff {word : Word} {x : Int} :
    word.holds x = true ↔ word.lowest ≤ x ∧ x ≤ word.highest := by
  simp only [holds, Bool.and_eq_true, decide_eq_true_eq]

/-- A word holds what its operations return. -/
theorem bounds_of_check {word : Word} {operation : WordOperation} {x result : Int}
    (h : word.check operation x = .ok result) : word.lowest ≤ x ∧ x ≤ word.highest := by
  unfold check at h
  split at h
  next hholds => exact holds_iff.mp hholds
  next => cases h

/-- Addition of coordinates within 32 bits. -/
theorem signed32_add {x y : Int} (hlow : -2147483648 ≤ x + y) (hhigh : x + y ≤ 2147483647) :
    signed32.add x y = .ok (x + y) :=
  check_eq_ok .add hlow hhigh

/-- Subtraction of coordinates within 32 bits. -/
theorem signed32_sub {x y : Int} (hlow : -2147483648 ≤ x - y) (hhigh : x - y ≤ 2147483647) :
    signed32.sub x y = .ok (x - y) :=
  check_eq_ok .subtract hlow hhigh

end Word

/-- The integer that a count has the bits of, in a signed word of the same width. -/
def wrapSigned (bits : Nat) (n : Nat) : Int :=
  Int.bmod n (Nat.pow 2 bits)

/-- The number of counts: a count is below two to the 64. -/
def countLimit : Nat := 18446744073709551616

/-- The number of bytes that memory can address. -/
def memoryLimit : Nat := 9223372036854775808

/-- Addition of counts. -/
def addCount (x y : Nat) : Outcome Nat :=
  if x + y < countLimit then .ok (x + y) else breakDown (.overflow .add)

/-- Multiplication of counts. -/
def mulCount (x y : Nat) : Outcome Nat :=
  if x * y < countLimit then .ok (x * y) else breakDown (.overflow .multiply)

/-- Ask for memory for a number of elements of a given size in bytes. -/
def reserve (count size : Nat) : Outcome Unit :=
  if count * size < memoryLimit then .ok () else breakDown .capacityOverflow

/-- A product of counts that is a count. -/
theorem mulCount_eq_ok {x y : Nat} (h : x * y < countLimit) : mulCount x y = .ok (x * y) :=
  if_pos h

/-- Memory for elements that it can address. -/
theorem reserve_eq_ok {count size : Nat} (h : count * size < memoryLimit) :
    reserve count size = .ok () :=
  if_pos h

/-- Memory that was there is memory that can be addressed. -/
theorem lt_of_reserve {count size : Nat} (h : reserve count size = .ok ()) :
    count * size < memoryLimit := by
  unfold reserve at h
  split at h
  · assumption
  · cases h

end Moire
