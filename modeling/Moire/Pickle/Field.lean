import Moire.Number.Text
import Moire.Pickle.Basic

/-!
# The fields behind an operation

An operation of a pickle may be followed by a field: a number of so many bytes, bytes behind their
length, or a line of text. Each reader takes the bytes that are left and returns the field with the
rest.
-/

namespace Moire.Pickle

/-- The first bytes and the rest, if there are so many. -/
def takeBytes (count : Nat) (bytes : List UInt8) : Option (List UInt8 × List UInt8) :=
  let (field, rest) := bytes.splitAt count
  if field.length = count then some (field, rest) else none

/-- A number of so many bytes, the least significant first. -/
def takeNumber (count : Nat) (bytes : List UInt8) : Option (Nat × List UInt8) := do
  let (field, rest) ← takeBytes count bytes
  return (ofLittleEndian field, rest)

/-- A field behind its length, which takes so many bytes. -/
def takeField (lengthSize : Nat) (bytes : List UInt8) : Option (List UInt8 × List UInt8) := do
  let (length, rest) ← takeNumber lengthSize bytes
  takeBytes length rest

/-- The bytes up to a line break, and what is behind it. -/
def takeLine (bytes : List UInt8) : Option (List UInt8 × List UInt8) :=
  match bytes.dropWhile (· ≠ 0x0a) with
  | _ :: rest =>
      let line := bytes.takeWhile (· ≠ 0x0a)
      some (if line.getLast? = some 0x0d then line.dropLast else line, rest)
  | [] => none

/-- The text of bytes, if they are well formed. -/
def decodeText (bytes : List UInt8) : Option String :=
  String.fromUTF8? bytes.toByteArray

/-- The signed number of bytes in two's complement, the least significant first. -/
def signedNumber (bytes : List UInt8) : Int :=
  if bytes.isEmpty then 0 else Int.bmod (ofLittleEndian bytes) (Nat.pow 256 bytes.length)

/-- A line that holds a signed 64-bit number. -/
def intLine (line : List UInt8) : Option Int := do
  (readInt? (← decodeText line)).filter Word.signed64.holds

/-- The digits of a number of any size, among which bars may stand behind the first. -/
def longDigits? (text : List Char) : Option Nat :=
  if text.head? = some '_' then none else readDigits? (text.filter (· ≠ '_'))

/-- A line that holds a number of any size, with an optional letter at its end. -/
def longLine (line : List UInt8) : Option Int := do
  let text ← decodeText (if line.getLast? = some 0x4c then line.dropLast else line)
  let (negative, digits) := readSign text.toList
  let n ← longDigits? digits
  return if negative then -n else n

/-- A line that holds a float. -/
def floatLine (line : List UInt8) : Option Float := do
  readFloat? (← decodeText line)

/-- A line that holds the number of a kept item, which fits 32 bits. -/
def idLine (line : List UInt8) : Option Nat := do
  (readCount? (← decodeText line)).filter fun n ↦ Word.unsigned32.holds n

/-- The value of a run of hexadecimal digits. -/
def hexValue? (digits : List UInt8) : Option Nat :=
  digits.foldlM
    (fun n byte ↦
      let c := Char.ofNat byte.toNat
      if c.isDigit then some (16 * n + (c.toNat - 48))
      else if 'a' ≤ c ∧ c ≤ 'f' then some (16 * n + (c.toNat - 87))
      else if 'A' ≤ c ∧ c ≤ 'F' then some (16 * n + (c.toNat - 55))
      else none)
    0

/-- A line of text in which a backslash stands in front of the number of a character. -/
def escapedText : List UInt8 → Option (List Char)
  | [] => some []
  | 0x5c :: 0x75 :: a :: b :: c :: d :: rest => do
      let n ← hexValue? [a, b, c, d]
      let tail ← escapedText rest
      if n.isValidChar then some (Char.ofNat n :: tail) else none
  | 0x5c :: 0x55 :: a :: b :: c :: d :: e :: f :: g :: h :: rest => do
      let n ← hexValue? [a, b, c, d, e, f, g, h]
      let tail ← escapedText rest
      if n.isValidChar then some (Char.ofNat n :: tail) else none
  | 0x5c :: _ => none
  | byte :: rest => do
      let tail ← escapedText rest
      return Char.ofNat byte.toNat :: tail

/-- The byte of a one-letter escape. -/
def escapedByte? (code : UInt8) : Option UInt8 :=
  [(0x5c, 0x5c), (0x61, 0x07), (0x62, 0x08), (0x74, 0x09), (0x6e, 0x0a), (0x76, 0x0b),
    (0x66, 0x0c), (0x72, 0x0d)].lookup code

/-- Bytes in which a backslash starts an escape. -/
def escapedBytes : List UInt8 → Option (List UInt8)
  | [] => some []
  | 0x5c :: 0x78 :: a :: b :: rest => do
      let n ← hexValue? [a, b]
      return n.toUInt8 :: (← escapedBytes rest)
  | 0x5c :: code :: rest => do
      let byte ← escapedByte? code
      return byte :: (← escapedBytes rest)
  | 0x5c :: _ => none
  | byte :: rest => do
      return byte :: (← escapedBytes rest)

/-- The bytes that a line holds, without the quotes around them if there are any. -/
def quotedLine (line : List UInt8) : Option (List UInt8) :=
  match line with
  | quote :: rest =>
      if (quote = 0x27 ∨ quote = 0x22) ∧ rest.getLast? = some quote then
        escapedBytes rest.dropLast
      else escapedBytes line
  | [] => some []

end Moire.Pickle
