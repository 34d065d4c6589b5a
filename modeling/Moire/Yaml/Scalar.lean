import Moire.Number.Text

/-!
# What plain scalars stand for

Truth values, whole numbers and floats. A whole number may have a plus sign, and a base after a
leading zero. A run of digits that starts with a superfluous zero is no whole number.
-/

namespace Moire.Yaml

/-- The value of a digit in bases up to sixteen. -/
def digitValue? (c : Char) : Option Nat :=
  if c.isDigit then some (c.toNat - 48)
  else if 'a' ≤ c ∧ c ≤ 'f' then some (c.toNat - 87)
  else if 'A' ≤ c ∧ c ≤ 'F' then some (c.toNat - 55)
  else none

/-- A nonempty run of digits in a base. -/
def readBase? (base : Nat) (digits : List Char) : Option Nat :=
  if digits.isEmpty then none
  else
    digits.foldlM
      (fun n c ↦ do
        let d ← digitValue? c
        if d < base then some (base * n + d) else none)
      0

/-- The text is one of the names of nothing. -/
def isNull (text : String) : Bool := ["~", "null", "Null", "NULL"].contains text

/-- The truth value that a text stands for. -/
def bool? (text : String) : Option Bool :=
  if ["true", "True", "TRUE"].contains text then some true
  else if ["false", "False", "FALSE"].contains text then some false
  else none

/-- Digits that start with a superfluous zero, with an optional sign. -/
def hasLeadingZero (text : List Char) : Bool :=
  match (readSign text).2 with
  | '0' :: next :: rest => (next :: rest).all Char.isDigit
  | _ => false

/-- A whole number without a sign: digits, or digits behind the mark of a base. -/
def magnitude? : List Char → Option Nat
  | '0' :: 'x' :: digits => readBase? 16 digits
  | '0' :: 'o' :: digits => readBase? 8 digits
  | '0' :: 'b' :: digits => readBase? 2 digits
  | digits => if hasLeadingZero digits then none else readDigits? digits

/-- The whole number that a text stands for. -/
def int? (text : String) : Option Int :=
  match text.toList with
  | '-' :: digits => (magnitude? digits).map fun n ↦ -(n : Int)
  | '+' :: digits => (magnitude? digits).map Int.ofNat
  | digits => (magnitude? digits).map Int.ofNat

/-- The float that a text stands for: a decimal that is in range, or a name of infinity or of what
is not a number. -/
def float? (text : String) : Option Float :=
  if [".inf", ".Inf", ".INF", "+.inf", "+.Inf", "+.INF"].contains text then some (1.0 / 0.0)
  else if ["-.inf", "-.Inf", "-.INF"].contains text then some (-1.0 / 0.0)
  else if [".nan", ".NaN", ".NAN"].contains text then some (0.0 / 0.0)
  else
    let (negative, body) := readSign text.toList
    match (readDecimal? body).map (Decimal.toFloat negative) with
    | some x => if x.isFinite then some x else none
    | none => none

end Moire.Yaml
