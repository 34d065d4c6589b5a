import Moire.Decimal.Basic
import Moire.Word

/-!
# Numbers from text

Counts and floats as they are written in arguments and in line-based formats. A count is digits
with an optional plus sign and has to fit 64 bits. A float is a decimal with an optional sign, point
and exponent, or one of the names of infinity and of what is not a number, in any case of letters.
-/

namespace Moire

/-- The value of a run of digits. -/
def digitsValue (digits : List Char) : Nat :=
  digits.foldl (fun n c ↦ 10 * n + (c.toNat - '0'.toNat)) 0

/-- A nonempty run of digits. -/
def readDigits? (text : List Char) : Option Nat :=
  if !text.isEmpty && text.all Char.isDigit then some (digitsValue text) else none

/-- A count that fits 64 bits. -/
def readCount? (text : String) : Option Nat := do
  let digits := match text.toList with
    | '+' :: rest => rest
    | other => other
  let n ← readDigits? digits
  if n < countLimit then some n else none

/-- A sign in front of a text. -/
def readSign : List Char → Bool × List Char
  | '+' :: rest => (false, rest)
  | '-' :: rest => (true, rest)
  | text => (false, text)

/-- A signed whole number. -/
def readInt? (text : String) : Option Int := do
  let (negative, digits) := readSign text.toList
  let n ← readDigits? digits
  return if negative then -n else n

/-- A decimal without a sign: digits around an optional point, one at least, and an optional
exponent. -/
def readDecimal? (text : List Char) : Option Decimal := do
  let whole := text.takeWhile Char.isDigit
  let rest := text.dropWhile Char.isDigit
  let (fraction, rest) := match rest with
    | '.' :: tail => (tail.takeWhile Char.isDigit, tail.dropWhile Char.isDigit)
    | _ => ([], rest)
  if whole.isEmpty && fraction.isEmpty then none
  else
    let exponent : Int ← match rest with
      | [] => some 0
      | mark :: tail =>
          if mark = 'e' ∨ mark = 'E' then readInt? (String.ofList tail) else none
    return ⟨digitsValue (whole ++ fraction), exponent - fraction.length⟩

/-- A float. -/
def readFloat? (text : String) : Option Float :=
  let (negative, body) := readSign text.toList
  let name := String.ofList (body.map Char.toLower)
  if name = "nan" then some (0.0 / 0.0)
  else if name = "inf" ∨ name = "infinity" then some (if negative then -1.0 / 0.0 else 1.0 / 0.0)
  else (readDecimal? body).map (Decimal.toFloat negative)

end Moire
