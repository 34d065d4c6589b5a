import Moire.Decimal.Shortest

/-!
# Layouts of numbers

How a float is laid out as text. `Layout.plain` is the layout of messages and keys: shortest
digits, a tie going away from zero, never an exponent, no decimal point on whole numbers.
`Layout.document?` is the layout of exported documents: shortest digits, a tie going to the even
digit, an exponent outside a middle range, always a point or an exponent. `fixed` and `scientific`
have a given number of decimals and round the exact value, a tie going to the even digit.
-/

namespace Moire

namespace Layout

/-- A minus sign in front of negative values. -/
def signed (negative : Bool) (body : String) : String :=
  if negative then "-" ++ body else body

/-- A text of zeros. -/
def zeros (count : Nat) : String :=
  String.ofList (List.replicate count '0')

/-- A digit string with its last `places` digits behind a decimal point. At least one digit stands
in front of the point. -/
def pointAt (places : Nat) (digits : String) : String :=
  if places = 0 then digits
  else
    let padded := zeros (places + 1 - digits.length) ++ digits
    let split := padded.length - places
    let characters := padded.toList
    String.ofList (characters.take split) ++ "." ++ String.ofList (characters.drop split)

/-- A decimal without an exponent. -/
def positional (d : Decimal) : String :=
  if 0 ≤ d.exponent then Nat.repr d.coefficient ++ zeros d.exponent.toNat
  else pointAt (-d.exponent).toNat (Nat.repr d.coefficient)

/-- A digit string with a point behind its first digit, if there are more. -/
def pointAfterFirst (digits : String) : String :=
  match digits.toList with
  | first :: second :: rest =>
      String.singleton first ++ "." ++ String.ofList (second :: rest)
  | _ => digits

/-- The layout of messages and keys. -/
def plain (x : Float) : String :=
  match Binary64.ofFloat x with
  | .nan => "NaN"
  | .infinite negative => signed negative "inf"
  | .finite negative mantissa exponent =>
      if mantissa = 0 then signed negative "0"
      else signed negative (positional (Decimal.shortest .away mantissa exponent))

/-- The exponents that documents write without an exponent mark. -/
def isMiddle (leading : Int) : Bool :=
  -5 ≤ leading && leading < 16

/-- A decimal in the layout of documents. -/
def documentDecimal (d : Decimal) : String :=
  let digits := Nat.repr d.coefficient
  let leading := d.exponent + digits.length - 1
  if isMiddle leading then
    if 0 ≤ d.exponent then positional d ++ ".0" else positional d
  else
    let mark := if 0 ≤ leading then "e+" else "e-"
    pointAfterFirst digits ++ mark ++ Nat.repr leading.natAbs

/-- The layout of documents, for finite values. -/
def document? (x : Float) : Option String :=
  match Binary64.ofFloat x with
  | .finite negative mantissa exponent =>
      if mantissa = 0 then some (signed negative "0.0")
      else some (signed negative (documentDecimal (Decimal.shortest .even mantissa exponent)))
  | _ => none

/-- A given number of decimals. -/
def fixed (places : Nat) (x : Float) : String :=
  match Binary64.ofFloat x with
  | .nan => "NaN"
  | .infinite negative => signed negative "inf"
  | .finite negative mantissa exponent =>
      let (num, den) := scaleFraction (mantissa * Nat.pow 10 places) 1 2 exponent
      signed negative (pointAt places (Nat.repr (roundDiv num den)))

/-- A given number of decimals with a sign in front of every number. -/
def fixedSigned (places : Nat) (x : Float) : String :=
  match Binary64.ofFloat x with
  | .nan => "NaN"
  | .infinite negative => if negative then "-inf" else "+inf"
  | .finite negative _ _ => if negative then fixed places x else "+" ++ fixed places x

/-- One digit in front of the point, a given number of decimals, and an exponent. -/
def scientific (places : Nat) (x : Float) : String :=
  match Binary64.ofFloat x with
  | .nan => "NaN"
  | .infinite negative => signed negative "inf"
  | .finite negative mantissa exponent =>
      if mantissa = 0 then signed negative (pointAt places "0" ++ "e0")
      else
        let (num, den) := scaleFraction mantissa 1 2 exponent
        let leading := floorLog10 num den
        let (n, d) := scaleFraction num den 10 (places - leading)
        let rounded := roundDiv n d
        let (rounded, leading) :=
          if rounded = Nat.pow 10 (places + 1) then (Nat.pow 10 places, leading + 1)
          else (rounded, leading)
        signed negative (pointAt places (Nat.repr rounded) ++ "e" ++ Int.repr leading)

end Layout

end Moire
