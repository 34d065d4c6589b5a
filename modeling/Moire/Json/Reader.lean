import Moire.Json.Basic
import Moire.Number.Text

/-!
# Reading JSON

A strict reader: no comments, no trailing commas, no leading zeros, nothing after the value but
blanks. A text with lone surrogates is unreadable, which matters only where a text is asked for.
Each part of the reader takes the characters that are left and returns what it read with the rest,
or nothing if the text is malformed.
-/

namespace Moire.Json

/-- The blanks that may stand between tokens. -/
def isBlank (c : Char) : Bool :=
  c = ' ' || c = '\n' || c = '\t' || c = '\r'

/-- Skip blanks. -/
def skipBlanks (text : List Char) : List Char :=
  text.dropWhile isBlank

/-- The value of a hexadecimal digit. -/
def hexValue (c : Char) : Option Nat :=
  if c.isDigit then some (c.toNat - '0'.toNat)
  else if 'a' ≤ c && c ≤ 'f' then some (c.toNat - 'a'.toNat + 10)
  else if 'A' ≤ c && c ≤ 'F' then some (c.toNat - 'A'.toNat + 10)
  else none

/-- The value of four hexadecimal digits. -/
def hexQuad (a b c d : Char) : Option Nat := do
  let a ← hexValue a
  let b ← hexValue b
  let c ← hexValue c
  let d ← hexValue d
  return ((a * 16 + b) * 16 + c) * 16 + d

/-- The character of a simple escape. -/
def simpleEscape (c : Char) : Option Char :=
  if c = '"' || c = '\\' || c = '/' then some c
  else if c = 'n' then some '\n'
  else if c = 'r' then some '\r'
  else if c = 't' then some '\t'
  else if c = 'b' then some '\x08'
  else if c = 'f' then some '\x0c'
  else none

/-- The character of two surrogates. -/
def surrogatePair (high low : Nat) : Char :=
  Char.ofNat (0x10000 + (high - 0xd800) * 0x400 + (low - 0xdc00))

/-- The number is a surrogate of the first kind. -/
def isHighSurrogate (unit : Nat) : Bool := 0xd800 ≤ unit && unit < 0xdc00

/-- The number is a surrogate of the second kind. -/
def isLowSurrogate (unit : Nat) : Bool := 0xdc00 ≤ unit && unit < 0xe000

/-- The rest of a quoted text, after its opening quote; the text is missing if it is unreadable. The
characters read so far are given with the latest first, and so is a surrogate in front of the rest
that waits for its partner. -/
def quotedRest : Bool → Option Nat → List Char → List Char → Option (Option String × List Char)
  | readable, high, done, '"' :: rest =>
      some (if readable && high.isNone then some (String.ofList done.reverse) else none, rest)
  | readable, high, done, '\\' :: 'u' :: a :: b :: c :: d :: rest => do
      let unit ← hexQuad a b c d
      match high with
      | some high =>
          if isLowSurrogate unit then
            quotedRest readable none (surrogatePair high unit :: done) rest
          else quotedRest false none done rest
      | none =>
          if isHighSurrogate unit then quotedRest readable (some unit) done rest
          else if isLowSurrogate unit then quotedRest false none done rest
          else quotedRest readable none (Char.ofNat unit :: done) rest
  | readable, high, done, '\\' :: c :: rest => do
      let c ← simpleEscape c
      quotedRest (readable && high.isNone) none (c :: done) rest
  | readable, high, done, c :: rest =>
      if c.toNat < 32 then none else quotedRest (readable && high.isNone) none (c :: done) rest
  | _, _, _, [] => none

/-- A quoted text, after its opening quote. -/
def quotedText (text : List Char) : Option (Option String × List Char) :=
  quotedRest true none [] text

/-- The digits behind a decimal point, if there is one. -/
def fraction (text : List Char) : Option (Option (List Char) × List Char) :=
  match text with
  | '.' :: rest =>
      let digits := rest.takeWhile Char.isDigit
      if digits.isEmpty then none else some (some digits, rest.dropWhile Char.isDigit)
  | _ => some (none, text)

/-- The exponent of a number, if there is one. -/
def exponent (text : List Char) : Option (Option Int × List Char) :=
  match text with
  | c :: rest =>
      if c = 'e' || c = 'E' then
        let (negative, rest) :=
          match rest with
          | '-' :: rest => (true, rest)
          | '+' :: rest => (false, rest)
          | _ => (false, rest)
        let digits := rest.takeWhile Char.isDigit
        let value : Int := digitsValue digits
        if digits.isEmpty then none
        else some (some (if negative then -value else value), rest.dropWhile Char.isDigit)
      else some (none, text)
  | [] => some (none, text)

/-- A whole number, kept as such if it fits the 64-bit ranges. Minus zero is a real. -/
def ofWhole (negative : Bool) (n : Nat) : Json :=
  if negative then
    if 0 < n ∧ n ≤ 9223372036854775808 then .integer (-n) else .real ((Decimal.mk n 0).toFloat true)
  else if n < 18446744073709551616 then .integer n
  else .real ((Decimal.mk n 0).toFloat false)

/-- A number. -/
def number (text : List Char) : Option (Json × List Char) := do
  let (negative, text) :=
    match text with
    | '-' :: rest => (true, rest)
    | _ => (false, text)
  let whole := text.takeWhile Char.isDigit
  if whole.isEmpty || (whole.head? = some '0' && 1 < whole.length) then none
  let (decimals, text) ← fraction (text.dropWhile Char.isDigit)
  let (power, text) ← exponent text
  match decimals, power with
  | none, none => return (ofWhole negative (digitsValue whole), text)
  | _, _ =>
      let decimals := decimals.getD []
      let value : Decimal := ⟨digitsValue (whole ++ decimals), power.getD 0 - decimals.length⟩
      return (.real (value.toFloat negative), text)

/-- A fixed word. -/
def word (expected : List Char) (value : Json) (text : List Char) : Option (Json × List Char) :=
  if expected.isPrefixOf text then some (value, text.drop expected.length) else none

/-- The object of some members. -/
def ofMembers (members : List (Option String × Json)) : Json :=
  match members.mapM fun (name, value) ↦ name.map (·, value) with
  | some members => .object members
  | none => .unreadable

mutual

/-- A value, in at most so many steps. -/
def value : Nat → List Char → Option (Json × List Char)
  | 0, _ => none
  | steps + 1, text =>
      match skipBlanks text with
      | '"' :: rest => do
          let (text, rest) ← quotedText rest
          return (text.elim .unreadable .string, rest)
      | '[' :: rest =>
          match skipBlanks rest with
          | ']' :: rest => some (.array [], rest)
          | rest => items steps [] rest
      | '\x7b' :: rest =>
          match skipBlanks rest with
          | '\x7d' :: rest => some (.object [], rest)
          | rest => members steps [] rest
      | 'n' :: rest => word ['u', 'l', 'l'] .null rest
      | 't' :: rest => word ['r', 'u', 'e'] (.bool true) rest
      | 'f' :: rest => word ['a', 'l', 's', 'e'] (.bool false) rest
      | rest => number rest

/-- The items of an array up to its closing bracket. -/
def items : Nat → List Json → List Char → Option (Json × List Char)
  | 0, _, _ => none
  | steps + 1, done, text => do
      let (item, rest) ← value steps text
      match skipBlanks rest with
      | ',' :: rest => items steps (item :: done) rest
      | ']' :: rest => return (.array (item :: done).reverse, rest)
      | _ => none

/-- The members of an object up to its closing brace. -/
def members : Nat → List (Option String × Json) → List Char → Option (Json × List Char)
  | 0, _, _ => none
  | steps + 1, done, text => do
      match skipBlanks text with
      | '"' :: rest =>
          let (name, rest) ← quotedText rest
          match skipBlanks rest with
          | ':' :: rest =>
              let (item, rest) ← value steps rest
              match skipBlanks rest with
              | ',' :: rest => members steps ((name, item) :: done) rest
              | '\x7d' :: rest => return (ofMembers ((name, item) :: done).reverse, rest)
              | _ => none
          | _ => none
      | _ => none

end

/-- The value of a whole text. -/
def parse? (text : String) : Option Json := do
  let characters := text.toList
  let (result, rest) ← value (2 * characters.length + 2) characters
  if (skipBlanks rest).isEmpty then some result else none

end Moire.Json
